import TradingPipeline.Order.Ring

/-! # `oms::submit` as one call

Seen from the strategy thread a call of `submit` either finds the ring full or appends an
order. A thread that runs alone takes the steps of the interleaved model one after the
other and ends in the state that the call computes.
-/
namespace TradingPipeline.OrderRing
open Lib

def OrderToExc.setFields (r : OrderToExc) (w : ℕ) (o : Order) (fs : List Field) : OrderToExc :=
  fs.foldl (fun r f => r.setField w f (o f)) r

/-- `ORDER_TO_EXC` and the static counter of `oms.cpp`. -/
structure Oms where
  ring : OrderToExc
  nextOrderId : ℕ

namespace Oms

def full (o : Oms) : Bool := orderToExcSize ≤ unreadCount o.ring

/-- The state after the call and the value it returns. -/
def submit (o : Oms) (a : Submission) : Oms × ℕ :=
  if o.full then (o, 0)
  else
    let w := o.ring.nextWrite
    ({ ring := (o.ring.setFields w (a.order o.nextOrderId) Field.all).storeWrite ((w + 1) % 2 ^ 32)
       nextOrderId := (o.nextOrderId + 1) % 2 ^ 64 }, o.nextOrderId)

theorem submit_of_full {o : Oms} (h : o.full = true) (a : Submission) : o.submit a = (o, 0) := by
  rw [submit, if_pos h]

theorem submit_of_room {o : Oms} (h : o.full = false) (a : Submission) :
    (o.submit a).2 = o.nextOrderId ∧ (o.submit a).1.nextOrderId = (o.nextOrderId + 1) % 2 ^ 64 := by
  simp [submit, h]

end Oms

theorem OrderToExc.setFields_cursors (r : OrderToExc) (w : ℕ) (o : Order) (fs : List Field) :
    (r.setFields w o fs).nextWrite = r.nextWrite ∧ (r.setFields w o fs).nextRead = r.nextRead := by
  induction fs generalizing r with
  | nil => exact ⟨rfl, rfl⟩
  | cons f fs ih => exact ih (r.setField w f (o f))

section Calls
variable {s : State}

theorem fills_run {a : Submission} {w id n : ℕ} {done : List Field}
    (hp : s.producer = .filling a w id n done) (fs : List Field) :
    Runs Step s (fs.map .fill) { s with
      ring := s.ring.setFields w (a.order id) fs
      producer := .filling a w id n (fs.reverse ++ done) } := by
  induction fs generalizing s done with
  | nil =>
    rw [List.reverse_nil, List.nil_append, ← hp]
    exact .nil
  | cons f fs ih =>
    have hfill : Step s (.fill f) { s with
        ring := s.ring.setField w f (a.order id f)
        producer := .filling a w id n (f :: done) } := by
      simp only [Step, step, submitStep, hp, Option.some_or]
    have hrest := ih (s := { s with
        ring := s.ring.setField w f (a.order id f)
        producer := .filling a w id n (f :: done) }) rfl
    simpa [OrderToExc.setFields] using (Runs.single hfill).trans hrest

/-- The state that a call of `submit` leaves, with what it adds to the history. -/
def State.afterSubmit (s : State) (a : Submission) : State :=
  let o : Oms := ⟨s.ring, s.nextOrderId⟩
  { s with
    ring := (o.submit a).1.ring
    nextOrderId := (o.submit a).1.nextOrderId
    producer := .idle
    submitted := s.submitted ++ if o.full then [] else [a.order s.nextOrderId]
    returns := s.returns ++ [⟨(o.submit a).2, !o.full, unreadCount s.ring⟩] }

theorem submit_run (hp : s.producer = .idle) (a : Submission) :
    ∃ as, Runs Step s as (s.afterSubmit a) := by
  have hload : Step s (.loadWrite a) { s with producer := .loadedWrite a s.ring.nextWrite } := by
    simp only [Step, step, submitStep, hp, Option.some_or]
  have hloaded := Runs.single hload
  by_cases hfull : orderToExcSize ≤ wrapSub (2 ^ 32) s.ring.nextWrite s.ring.nextRead
  · refine ⟨_, hloaded.snoc (a := .loadRead) ?_⟩
    have hfull' : (Oms.mk s.ring s.nextOrderId).full = true := decide_eq_true hfull
    simp only [Step, step, submitStep, if_pos hfull, Option.some_or, State.afterSubmit, Oms.submit,
      hfull', ↓reduceIte, List.append_nil, Bool.not_true]
    rfl
  · have hstarted := hloaded.snoc (a := .loadRead) (u := { s with
        nextOrderId := (s.nextOrderId + 1) % 2 ^ 64
        producer := .filling a s.ring.nextWrite s.nextOrderId (unreadCount s.ring) [] }) (by
      simp only [Step, step, submitStep, if_neg hfull, Option.some_or]
      rfl)
    have hfill := fills_run (s := { s with
      nextOrderId := (s.nextOrderId + 1) % 2 ^ 64
      producer := .filling a s.ring.nextWrite s.nextOrderId (unreadCount s.ring) [] }) rfl Field.all
    have hfull' : (Oms.mk s.ring s.nextOrderId).full = false := decide_eq_false hfull
    have hall : Field.all.all (fun f => decide (f ∈ Field.all.reverse ++ [])) = true := by decide
    refine ⟨_, (hstarted.trans hfill).snoc (a := .storeWrite) ?_⟩
    simp only [Step, step, submitStep, if_pos hall, Option.some_or, State.afterSubmit, Oms.submit,
      hfull', Bool.false_eq_true, ↓reduceIte, Bool.not_false]

end Calls

end TradingPipeline.OrderRing
