import TradingPipeline.Lib.Runs
import TradingPipeline.Lib.RingWindow
import Mathlib.Data.Fintype.Basic

/-! # The order ring between the strategy thread and the order sender

`oms::submit` and `order_sender_thread` share `ORDER_TO_EXC` without a lock. Each
load, each store of a slot field and each store of a cursor is one step of its
thread, and the steps of the two threads interleave freely. Slot fields may be
written and read in any order between the cursor accesses that bracket them.
-/
namespace TradingPipeline.OrderRing
open Lib

def orderToExcSize : ℕ := 512 * 1024
def orderToExcMask : ℕ := orderToExcSize - 1

/-- The fields of `order` that `submit` fills; `ts` and the padding are not written. -/
inductive Field
  | orderId | price | qty | stockLocate | side | parseNs
  deriving DecidableEq, Repr

def Field.all : List Field := [.orderId, .price, .qty, .stockLocate, .side, .parseNs]

theorem Field.mem_all (f : Field) : f ∈ Field.all := by cases f <;> decide

abbrev Order := Field → ℕ

/-- The arguments of `oms::submit`. -/
structure Submission where
  stockLocate : ℕ
  side : ℕ
  price : ℕ
  qty : ℕ
  parseNs : ℕ
  deriving DecidableEq, Repr

def Submission.order (a : Submission) (id : ℕ) : Order
  | .orderId => id
  | .price => a.price
  | .qty => a.qty
  | .stockLocate => a.stockLocate
  | .side => a.side
  | .parseNs => a.parseNs

/-- `order_to_exc`: two 32-bit cursors and the slots. -/
structure OrderToExc where
  nextWrite : ℕ
  nextRead : ℕ
  data : ℕ → Order

/-- `ORDER_TO_EXC->data[w & ORDER_TO_EXC_MASK]`. -/
def OrderToExc.slot (r : OrderToExc) (w : ℕ) : Order := r.data (w &&& orderToExcMask)

def OrderToExc.setField (r : OrderToExc) (w : ℕ) (f : Field) (v : ℕ) : OrderToExc :=
  let i := w &&& orderToExcMask
  { r with data := Function.update r.data i (Function.update (r.data i) f v) }

def OrderToExc.storeWrite (r : OrderToExc) (w : ℕ) : OrderToExc := { r with nextWrite := w }
def OrderToExc.storeRead (r : OrderToExc) (w : ℕ) : OrderToExc := { r with nextRead := w }

/-- Where the producer stands inside `submit`. `unread` is the number of orders in
the ring when `next_read` was loaded. -/
inductive Producer
  | idle
  | loadedWrite (a : Submission) (w : ℕ)
  | filling (a : Submission) (w id unread : ℕ) (done : List Field)

/-- Where the consumer stands inside one turn of the sender's loop. -/
inductive Consumer
  | idle
  | loadedRead (r : ℕ)
  | reading (r : ℕ) (got : Field → Option ℕ)

structure Returned where
  value : ℕ
  accepted : Bool
  unread : ℕ
  deriving DecidableEq, Repr

/-- The shared ring, the producer's static id counter, both threads' positions, and
the history: accepted orders, orders taken by the sender, and returned values. -/
structure State where
  ring : OrderToExc
  nextOrderId : ℕ
  producer : Producer
  consumer : Consumer
  submitted : List Order
  taken : List Order
  returns : List Returned

def init : State where
  ring := ⟨0, 0, fun _ _ => 0⟩
  nextOrderId := 1
  producer := .idle
  consumer := .idle
  submitted := []
  taken := []
  returns := []

inductive Action
  | loadWrite (a : Submission)
  | loadRead
  | fill (f : Field)
  | storeWrite
  | senderLoadRead
  | senderLoadWrite
  | senderRead (f : Field)
  | senderStoreRead
  deriving DecidableEq, Repr

def unreadCount (r : OrderToExc) : ℕ := wrapSub (2 ^ 32) r.nextWrite r.nextRead

def unread (r : OrderToExc) : List Order :=
  between (2 ^ 32) orderToExcSize r.data r.nextRead r.nextWrite

/-- The order the sender has read once every field was loaded. -/
def complete (got : Field → Option ℕ) : Option Order :=
  if Field.all.all (fun f => (got f).isSome) then some (fun f => (got f).getD 0) else none

def submitStep (s : State) : Action → Option State
  | .loadWrite a =>
    match s.producer with
    | .idle => some { s with producer := .loadedWrite a s.ring.nextWrite }
    | _ => none
  | .loadRead =>
    match s.producer with
    | .loadedWrite a w =>
      let n := wrapSub (2 ^ 32) w s.ring.nextRead
      if orderToExcSize ≤ n then
        some { s with producer := .idle, returns := s.returns ++ [⟨0, false, n⟩] }
      else
        some { s with
          nextOrderId := (s.nextOrderId + 1) % 2 ^ 64
          producer := .filling a w s.nextOrderId n [] }
    | _ => none
  | .fill f =>
    match s.producer with
    | .filling a w id n done =>
      some { s with
        ring := s.ring.setField w f (a.order id f)
        producer := .filling a w id n (f :: done) }
    | _ => none
  | .storeWrite =>
    match s.producer with
    | .filling a w id n done =>
      if Field.all.all (fun f => f ∈ done) then
        some { s with
          ring := s.ring.storeWrite ((w + 1) % 2 ^ 32)
          producer := .idle
          submitted := s.submitted ++ [a.order id]
          returns := s.returns ++ [⟨id, true, n⟩] }
      else none
    | _ => none
  | _ => none

/-- One step of the ring accesses of `order_sender_thread`. -/
def senderStep (s : State) : Action → Option State
  | .senderLoadRead =>
    match s.consumer with
    | .idle => some { s with consumer := .loadedRead s.ring.nextRead }
    | _ => none
  | .senderLoadWrite =>
    match s.consumer with
    | .loadedRead r =>
      if r = s.ring.nextWrite then some { s with consumer := .idle }
      else some { s with consumer := .reading r (fun _ => none) }
    | _ => none
  | .senderRead f =>
    match s.consumer with
    | .reading r got =>
      some { s with consumer := .reading r (Function.update got f (some (s.ring.slot r f))) }
    | _ => none
  | .senderStoreRead =>
    match s.consumer with
    | .reading r got =>
      match complete got with
      | some o =>
        some { s with
          ring := s.ring.storeRead ((r + 1) % 2 ^ 32)
          consumer := .idle
          taken := s.taken ++ [o] }
      | none => none
    | _ => none
  | _ => none

def step (s : State) (a : Action) : Option State := (submitStep s a).or (senderStep s a)

def Step (s : State) (a : Action) (t : State) : Prop := step s a = some t

end TradingPipeline.OrderRing
