import TradingPipeline.Book.OrderBook
import Mathlib.Data.List.Basic

/-! # A book kept as a list

A small implementation of the book library: the resting orders in order of arrival,
with consecutive numbers for handles and room for `capacity` orders. It does not
match, so it stands for the library on streams in which no add crosses.
-/
namespace TradingPipeline.Book
open Lib

structure RestingOrder where
  handle : ℕ
  side : Side
  px : ℤ
  qty : ℤ
  deriving DecidableEq, Repr

structure ListBook where
  orders : List RestingOrder
  next : ℕ
  capacity : ℕ
  fresh : ∀ o ∈ orders, o.handle < next
  nodup : (orders.map (·.handle)).Nodup

namespace ListBook

def find (b : ListBook) (h : ℕ) : Option RestingOrder := b.orders.find? fun o => o.handle == h

def onSide (b : ListBook) (side : Side) : List RestingOrder :=
  b.orders.filter fun o => o.side = side

def better : Side → ℤ → ℤ → ℤ
  | .buy, x, y => max x y
  | .sell, x, y => min x y

def bestPrice (b : ListBook) (side : Side) : ℤ :=
  match (b.onSide side).map (·.px) with
  | [] => 0
  | x :: xs => xs.foldl (better side) x

def bestQty (b : ListBook) (side : Side) : ℤ :=
  (((b.onSide side).filter fun o => o.px = b.bestPrice side).map (·.qty)).sum

def add (b : ListBook) (c : AddCommand) : Option ℕ × ListBook :=
  if b.orders.length < b.capacity then
    (some b.next,
      { orders := b.orders ++ [⟨b.next, c.side, c.px, c.qty⟩]
        next := b.next + 1
        capacity := b.capacity
        fresh := by
          intro o ho
          rcases List.mem_append.mp ho with ho | ho
          · exact (b.fresh o ho).trans (Nat.lt_succ_self _)
          · rw [List.mem_singleton.mp ho]
            exact Nat.lt_succ_self _
        nodup := by
          rw [List.map_append, List.nodup_append]
          refine ⟨b.nodup, by simp, ?_⟩
          intro x hx y hy
          obtain ⟨o, ho, rfl⟩ := List.mem_map.mp hx
          rw [List.map_singleton, List.mem_singleton] at hy
          exact hy ▸ (b.fresh o ho).ne })
  else (none, b)

def cancel (b : ListBook) (h : ℕ) : ListBook where
  orders := b.orders.filter fun o => o.handle ≠ h
  next := b.next
  capacity := b.capacity
  fresh := fun o ho => b.fresh o (List.mem_of_mem_filter ho)
  nodup := b.nodup.sublist (List.filter_sublist.map _)

/-- The order with another quantity, if it has the handle. -/
def withQuantity (h : ℕ) (qty : ℤ) (o : RestingOrder) : RestingOrder :=
  if o.handle = h then { o with qty := qty } else o

theorem withQuantity_handle (h : ℕ) (qty : ℤ) (o : RestingOrder) :
    (withQuantity h qty o).handle = o.handle := by
  unfold withQuantity
  split <;> rfl

def setQty (b : ListBook) (h : ℕ) (qty : ℤ) : ListBook where
  orders := b.orders.map (withQuantity h qty)
  next := b.next
  capacity := b.capacity
  fresh := by
    intro o ho
    obtain ⟨o', ho', rfl⟩ := List.mem_map.mp ho
    rw [withQuantity_handle]
    exact b.fresh o' ho'
  nodup := by
    simpa only [List.map_map, Function.comp_def, withQuantity_handle] using b.nodup

end ListBook

/-- The library as a `ListBook` with 32-bit integer types and the given `MAX_LEVEL`. -/
def listBookApi (maxLevel : ℤ) : OrderBookApi where
  OrderBook := ListBook
  OrderPointer := ℕ
  create n := ⟨[], 0, n, by simp, by simp⟩
  processAdd := ListBook.add
  processCancel := ListBook.cancel
  getSide b h := ((b.find h).map (·.side)).getD .buy
  getPrice b h := ((b.find h).map (·.px)).getD 0
  getQuantity b h := ((b.find h).map (·.qty)).getD 0
  setQuantity := ListBook.setQty
  hasBid b := !(b.onSide .buy).isEmpty
  hasAsk b := !(b.onSide .sell).isEmpty
  bestBidPrice b := b.bestPrice .buy
  bestAskPrice b := b.bestPrice .sell
  bestBidQty b := b.bestQty .buy
  bestAskQty b := b.bestQty .sell
  toOrderId n := n % 2 ^ 32
  toQuantity n := int32 n
  toPriceTicks n := int32 n
  maxLevel := maxLevel

end TradingPipeline.Book
