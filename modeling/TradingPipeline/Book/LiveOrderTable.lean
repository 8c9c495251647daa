import TradingPipeline.Book.OrderBook
import Mathlib.Logic.Function.Basic

/-! # The table of live orders

`LiveOrderTable` maps 64-bit order references to handles by open addressing: linear
probing from a splitmix64 hash, with one key value for slots never used and one for
slots freed by an erase.
-/
namespace TradingPipeline.Book
open Lib

def kEmpty : ℕ := 0

/-- `~OrderRef{0} - 1`. -/
def kTombstone : ℕ := 2 ^ 64 - 1 - 1

structure Slot (H : Type) where
  key : ℕ
  handle : Option H
  deriving DecidableEq, Repr

structure LiveOrderTable (H : Type) where
  slots : ℕ → Slot H
  mask : ℕ

/-- The loop `while (n < cap) n <<= 1`; `cap` turns are enough, since `n` doubles. -/
def roundUp (cap : ℕ) : ℕ → ℕ → ℕ
  | 0, n => n
  | turns + 1, n => if n < cap then roundUp cap turns (n <<< 1) else n

def hash (k : ℕ) : ℕ :=
  let k := k ^^^ (k >>> 30)
  let k := k * 0xbf58476d1ce4e5b9 % 2 ^ 64
  let k := k ^^^ (k >>> 27)
  let k := k * 0x94d049bb133111eb % 2 ^ 64
  k ^^^ (k >>> 31)

namespace LiveOrderTable
variable {H : Type}

def create (cap : ℕ) : LiveOrderTable H :=
  { slots := fun _ => ⟨kEmpty, none⟩, mask := roundUp cap cap 1 - 1 }

/-- The probe loop of `find`, from slot `i` with a number of turns left. -/
def findFrom (t : LiveOrderTable H) (key : ℕ) : ℕ → ℕ → ℤ
  | 0, _ => -1
  | turns + 1, i =>
    if (t.slots i).key = key ∧ (t.slots i).handle.isSome then int32 i
    else if (t.slots i).key = kEmpty then -1
    else t.findFrom key turns ((i + 1) &&& t.mask)

def find (t : LiveOrderTable H) (key : ℕ) : ℤ :=
  t.findFrom key (t.mask + 1) (hash key &&& t.mask)

/-- The probe loop of `insert`. It has no bound in the source: once every slot has
been refused in turn it goes round for ever, which is `none` here. -/
def insertFrom (t : LiveOrderTable H) (key : ℕ) (h : H) : ℕ → ℕ → Option (LiveOrderTable H)
  | 0, _ => none
  | turns + 1, i =>
    if (t.slots i).key = kEmpty ∨ (t.slots i).key = kTombstone ∨ (t.slots i).key = key then
      some { t with slots := Function.update t.slots i ⟨key, some h⟩ }
    else t.insertFrom key h turns ((i + 1) &&& t.mask)

def insert (t : LiveOrderTable H) (key : ℕ) (h : H) : Option (LiveOrderTable H) :=
  t.insertFrom key h (t.mask + 1) (hash key &&& t.mask)

def erase (t : LiveOrderTable H) (idx : ℤ) : LiveOrderTable H :=
  { t with slots := Function.update t.slots idx.toNat ⟨kTombstone, none⟩ }

def handle (t : LiveOrderTable H) (idx : ℤ) : Option H := (t.slots idx.toNat).handle

end LiveOrderTable
end TradingPipeline.Book
