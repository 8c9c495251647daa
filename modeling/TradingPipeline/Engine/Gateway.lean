import TradingPipeline.Order.Submit
import TradingPipeline.Engine.Risk
import TradingPipeline.Engine.Sides

/-! # From the strategy to the order ring

`engine_submit_quote` passes a new order through the risk gate and stores it in
`ORDER_TO_EXC` if it is accepted and the ring has room; a cancel is stored without a
check. The strategy drops the result, so the calls of an event do not depend on what
becomes of them. Between two calls the sender may have advanced `next_read`.
-/
namespace TradingPipeline.Engine
open Lib Book

def omsSideFrom : Side → ℕ
  | .buy => 'B'.toNat
  | .sell => 'S'.toNat

/-- The `Signal` of a call: price and quantity are converted to 32 unsigned bits. -/
def Submit.signal (c : Submit) : Signal where
  stockLocate := UInt16.ofNat c.locate
  price := UInt32.ofInt c.px
  qty := UInt32.ofInt c.qty
  side := c.side
  parseNs := UInt64.ofNat c.parseNs

def Signal.submission (s : Signal) : OrderRing.Submission :=
  ⟨s.stockLocate.toNat, omsSideFrom s.side, s.price.toNat, s.qty.toNat, s.parseNs.toNat⟩

/-- What became of a call of `submit_`: accepted by the risk gate, stored in the ring. -/
structure Sending where
  call : Submit
  accepted : Bool
  stored : Bool
  deriving DecidableEq, Repr

structure Gateway where
  risk : Risk
  oms : OrderRing.Oms
  log : List Sending

def engineSubmitQuote (w : Gateway) (c : Submit) : Gateway × Bool :=
  if c.qty = 0 then
    let r := w.oms.submit { c.signal.submission with qty := 0 }
    ({ w with oms := r.1, log := w.log ++ [⟨c, true, !w.oms.full⟩] }, r.2 ≠ 0)
  else
    let checked := w.risk.checkAndFill c.signal
    if checked.2 then
      let r := w.oms.submit c.signal.submission
      ({ risk := checked.1, oms := r.1, log := w.log ++ [⟨c, true, !w.oms.full⟩] }, r.2 ≠ 0)
    else ({ w with risk := checked.1, log := w.log ++ [⟨c, false, false⟩] }, false)

/-- The calls of one event, each with the value that its load of `next_read` returns. -/
def Gateway.submitAll (w : Gateway) : List ℕ → List Submit → Gateway
  | _, [] => w
  | reads, c :: cs =>
    let ring := w.oms.ring.storeRead (reads.headD w.oms.ring.nextRead)
    (engineSubmitQuote { w with oms := { w.oms with ring := ring } } c).1.submitAll reads.tail cs

theorem engineSubmitQuote_log (w : Gateway) (c : Submit) :
    ∃ x, (engineSubmitQuote w c).1.log = w.log ++ [x] ∧ x.call = c := by
  unfold engineSubmitQuote
  dsimp only
  split
  · exact ⟨_, rfl, rfl⟩
  · split
    · exact ⟨_, rfl, rfl⟩
    · exact ⟨_, rfl, rfl⟩

theorem submitAll_log (w : Gateway) (reads : List ℕ) (cs : List Submit) :
    ∃ l, (w.submitAll reads cs).log = w.log ++ l ∧ l.map Sending.call = cs := by
  induction cs generalizing w reads with
  | nil => exact ⟨[], by simp [Gateway.submitAll], rfl⟩
  | cons c cs ih =>
    obtain ⟨x, hx, hcall⟩ := engineSubmitQuote_log
      { w with
        oms := { w.oms with
          ring := w.oms.ring.storeRead (reads.headD w.oms.ring.nextRead) } } c
    obtain ⟨l, hl, hcalls⟩ := ih (engineSubmitQuote
      { w with
        oms := { w.oms with
          ring := w.oms.ring.storeRead (reads.headD w.oms.ring.nextRead) } } c).1
      reads.tail
    refine ⟨x :: l, ?_, by rw [List.map_cons, hcall, hcalls]⟩
    rw [Gateway.submitAll, hl, hx, List.append_assoc]
    rfl

/-- The engine together with the gate and the ring that its messages go to. -/
structure Pipeline (api : OrderBookApi) (D : Type) where
  engine : Dispatcher api D
  gateway : Gateway

variable {api : OrderBookApi} {D : Type}

def Pipeline.sentOn (q : Pipeline api D) (shard : Shard) (side : Side) : List Sending :=
  q.gateway.log.filter fun x => x.call.locate = locateOf shard ∧ x.call.side = side

variable [DoubleArith D]

/-- The engine before its first event, with the gate and the ring in any state. -/
def Pipeline.start (api : OrderBookApi) (p : Params D) (risk : Risk) (oms : OrderRing.Oms) :
    Pipeline api D := ⟨Dispatcher.init api p, ⟨risk, oms, []⟩⟩

def Pipeline.step (p : Params D) (q : Pipeline api D) (a : Action × List ℕ) :
    Option (Pipeline api D) :=
  (Engine.step p q.engine a.1).map fun t =>
    ⟨t, q.gateway.submitAll a.2 (t.submitted.drop q.engine.submitted.length)⟩

abbrev PipelineStep (p : Params D) (q : Pipeline api D) (a : Action × List ℕ)
    (t : Pipeline api D) : Prop := q.step p a = some t

/-- All that an action can do to a side and what it sends for it. -/
inductive SideSends (p : Params D) (g : Dispatcher api D) (a : Action) (t : Dispatcher api D)
    (shard : Shard) (side : Side) : List Sending → Prop
  | idle (hside : t.side shard side = g.side shard side) (hother : ¬a.Concerns shard) :
      SideSends p g a t shard side []
  | flattened {mid : ℤ × RestingQuote}
      (htrade : TradeMove (g.side shard side) (filledOn side (a.fill g shard)) mid)
      (hkilled : t.killed shard = true) (hside : t.side shard side = flatSide mid) :
      SideSends p g a t shard side []
  | ran {mid : ℤ × RestingQuote} {px : ℤ} {l : List Sending}
      (htrade : TradeMove (g.side shard side) (filledOn side (a.fill g shard)) mid)
      (hlive : t.killed shard = false) (hpx : 0 < px)
      (hmove : SideMove p (locateOf shard) a.ts side px mid (l.map Sending.call)
        (t.side shard side)) : SideSends p g a t shard side l

section Steps
variable {p : Params D} {q t : Pipeline api D} {a : Action × List ℕ}

theorem PipelineStep.log (h : PipelineStep p q a t) :
    Step p q.engine a.1 t.engine ∧ ∃ l, t.gateway.log = q.gateway.log ++ l ∧
      t.engine.submitted = q.engine.submitted ++ l.map Sending.call ∧
      ∀ x ∈ l, ∃ shard, x.call.locate = locateOf shard := by
  obtain ⟨u, hu, rfl⟩ := Option.map_eq_some_iff.mp h
  obtain ⟨new, hnew, hlocate⟩ := Step.submitted hu
  obtain ⟨l, hl, hcalls⟩ := submitAll_log q.gateway a.2 (u.submitted.drop q.engine.submitted.length)
  rw [hnew, List.drop_left] at hcalls
  refine ⟨hu, l, hl, ?_, fun x hx => hlocate x.call ?_⟩
  · rw [hcalls, hnew]
  · rw [← hcalls]
    exact List.mem_map_of_mem hx

theorem PipelineStep.sends (h : PipelineStep p q a t) (shard : Shard) (side : Side) :
    ∃ l, t.sentOn shard side = q.sentOn shard side ++ l ∧
      t.engine.sentOn shard side = q.engine.sentOn shard side ++ l.map Sending.call ∧
      SideSends p q.engine a.1 t.engine shard side l := by
  obtain ⟨hstep, new, hlog, hsub, -⟩ := h.log
  let mine : Submit → Bool := fun m => m.locate = locateOf shard ∧ m.side = side
  have hsent : t.sentOn shard side = q.sentOn shard side ++ new.filter (mine ∘ Sending.call) := by
    rw [Pipeline.sentOn, hlog, List.filter_append]
    rfl
  have hcalls : t.engine.sentOn shard side =
      q.engine.sentOn shard side ++ (new.filter (mine ∘ Sending.call)).map Sending.call := by
    have hdesk : (t.engine.desk shard).submitted = q.engine.submitted ++
      new.map Sending.call := hsub
    rw [← List.filter_map, Dispatcher.sentOn, Desk.sentOn, hdesk, List.filter_append]
    rfl
  have hnone : ∀ l : List Sending, q.engine.sentOn shard side ++ l.map Sending.call =
      q.engine.sentOn shard side → l = [] := by
    intro l hl
    simpa using hl
  refine ⟨_, hsent, hcalls, ?_⟩
  cases hstep.sideStep shard side with
  | idle hside hsame hother =>
    rw [hnone _ (hcalls.symm.trans hsame)]
    exact .idle hside hother
  | flattened htrade hkilled hside hsame =>
    rw [hnone _ (hcalls.symm.trans hsame)]
    exact .flattened htrade hkilled hside
  | ran htrade hlive hpx hmove hsame =>
    rw [← List.append_cancel_left (hcalls.symm.trans hsame)] at hmove
    exact .ran htrade hlive hpx hmove

end Steps

end TradingPipeline.Engine
