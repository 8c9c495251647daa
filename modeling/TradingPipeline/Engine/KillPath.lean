import TradingPipeline.Engine.Phantom
import Mathlib.Data.List.TakeWhile

/-! # The orders of a killed shard

`flatten` forgets the quotes of a killed shard and leaves the mass cancel to the kill path,
but `kill`, `kill_global`, the dead-man thread and the panic band only store a flag. No
message is sent when a shard is flattened, so no order is left behind exactly if the orders
at the resting price never got into the ring.
-/
namespace TradingPipeline.Engine
open Lib Book

/-- Every new order at the price that is in the ring is followed there by a cancel at the
price. -/
def Withdrawn (l : List Sending) (price : UInt32) : Prop :=
  ∀ pre x post, l = pre ++ x :: post → x.stored = true → x.call.signal.qty ≠ 0 →
    x.call.signal.price = price →
    ∃ y ∈ post, y.stored = true ∧ y.call.signal.qty = 0 ∧ y.call.signal.price = price

/-- The cancel at the price is in the ring. -/
def Sending.CancelsAt (y : Sending) (price : UInt32) : Prop :=
  y.stored = true ∧ y.call.signal.qty = 0 ∧ y.call.signal.price = price

instance (y : Sending) (price : UInt32) : Decidable (y.CancelsAt price) :=
  inferInstanceAs (Decidable (_ ∧ _))

/-- What was sent after the last cancel at the price, newest first. -/
def sinceCancel (l : List Sending) (price : UInt32) : List Sending :=
  l.reverse.takeWhile fun y => ¬y.CancelsAt price

/-- The new orders at the price that no cancel followed were all refused, by the risk gate or for
want of room in the ring. -/
def AllRefused (l : List Sending) (price : UInt32) : Prop :=
  ∀ x ∈ sinceCancel l price, x.call.signal.qty ≠ 0 → x.call.signal.price = price → x.stored = false

instance (l : List Sending) (price : UInt32) : Decidable (AllRefused l price) :=
  inferInstanceAs (Decidable (∀ x ∈ sinceCancel l price, _))

theorem AllRefused.withdrawn {l : List Sending} {price : UInt32} (h : AllRefused l price) :
    Withdrawn l price := by
  intro pre x post hl hstored hqty hprice
  by_contra hnone
  -- without a cancel behind it the order is among those that no cancel followed
  have hpost : ∀ y ∈ post.reverse, (decide ¬y.CancelsAt price) = true := by
    intro y hy
    rw [decide_eq_true_iff]
    rintro ⟨hy₁, hy₂, hy₃⟩
    exact hnone ⟨y, List.mem_reverse.mp hy, hy₁, hy₂, hy₃⟩
  have hx : (decide ¬x.CancelsAt price) = true := by
    rw [decide_eq_true_iff]
    exact fun hc => hqty hc.2.1
  have hmem : x ∈ sinceCancel l price := by
    rw [sinceCancel, hl, List.reverse_append, List.reverse_cons, List.append_assoc,
      List.takeWhile_append_of_pos hpost, List.singleton_append, List.takeWhile_cons, if_pos hx]
    exact List.mem_append_right _ List.mem_cons_self
  rw [h x hmem hqty hprice] at hstored
  cases hstored

theorem Withdrawn.allRefused {l : List Sending} {price : UInt32} (h : Withdrawn l price) :
    AllRefused l price := by
  intro x hx hqty hprice
  by_contra hstored
  rw [Bool.not_eq_false] at hstored
  obtain ⟨rest, hrest⟩ := l.reverse.takeWhile_prefix fun y => ¬y.CancelsAt price
  obtain ⟨newer, older, hsplit⟩ := List.append_of_mem hx
  have hl : l = (rest.reverse ++ older.reverse) ++ x :: newer.reverse := by
    rw [← List.reverse_reverse l, ← hrest]
    change (sinceCancel l price ++ rest).reverse = _
    simp [hsplit]
  obtain ⟨y, hy, hcancel⟩ := h _ x _ hl hstored hqty hprice
  have hmem : y ∈ sinceCancel l price := by
    rw [hsplit]
    exact List.mem_append_left _ (List.mem_reverse.mp hy)
  rw [sinceCancel] at hmem
  have hnot := List.mem_takeWhile_imp hmem
  rw [decide_eq_true_iff] at hnot
  exact hnot hcancel

variable {api : OrderBookApi} {D : Type} [DoubleArith D]

/-- An event that flattens a killed shard withdraws nothing: the orders at the resting price are
gone from the exchange exactly if those sent since the last cancel were all refused. The last
of them is the order that set the resting price. -/
theorem flatten_withdraws_iff {p : Params D} {q t : Pipeline api D} {risk : Risk}
    {oms : OrderRing.Oms} {as : List (Action × List ℕ)} {a : Action × List ℕ} {shard : Shard}
    (hr : Runs (PipelineStep p) (Pipeline.start api p risk oms) as q) (h : PipelineStep p q a t)
    (hevent : a.1.Concerns shard) (hkilled : t.engine.killed shard = true) (side : Side)
    (hresting : (q.engine.states shard).resting side ≠ 0) :
    (t.engine.states shard).resting side = 0 ∧
    (Withdrawn (t.sentOn shard side) (UInt32.ofInt ((q.engine.states shard).resting side)) ↔
      AllRefused (q.sentOn shard side) (UInt32.ofInt ((q.engine.states shard).resting side))) ∧
    ∃ x, (q.sentOn shard side).getLast? = some x ∧
      x.call.px = (q.engine.states shard).resting side ∧ x.call.qty = p.quoteQty := by
  obtain ⟨x, hlast, hpx, hqty⟩ := (runs_tracked hr shard side).resting hresting
  obtain ⟨l, hl, -, hsends⟩ := h.sends shard side
  cases hsends with
  | idle _ hother => exact absurd hevent hother
  | ran _ hlive =>
    rw [hlive] at hkilled
    cases hkilled
  | @flattened mid _ _ hside =>
    rw [List.append_nil] at hl
    have hflat : (t.engine.states shard).resting side = (flatSide mid).1 := congrArg Prod.fst hside
    refine ⟨?_, ?_, x, hlast, hpx, hqty⟩
    · rw [hflat, flatSide_resting]
    · rw [hl]
      exact ⟨Withdrawn.allRefused, AllRefused.withdrawn⟩

/-- The shard quotes both sides, is killed, and the next event flattens it. -/
def killedEvents : List (Action × List ℕ) := twoSidedEvents ++ [(.control (.kill aapl), [])]

/-- With one order per second the risk gate accepts the bid and refuses the ask, so of the killed
shard's orders only the bid is left behind. -/
theorem flatten_withdraws_iff_killed : ∃ q t : Pipeline demoApi Float,
    Runs (PipelineStep Params.default)
      (Pipeline.start demoApi Params.default (riskAfter [.setLimits 1 1]) emptyOms)
      killedEvents q ∧
    PipelineStep Params.default q (.event (addEvent 3 'B' 10 9900) [], []) t ∧
    (q.engine.states aapl).resting .buy = 100 ∧ (q.engine.states aapl).resting .sell = 102 ∧
    ¬Withdrawn (t.sentOn aapl .buy) (UInt32.ofInt 100) ∧
    Withdrawn (t.sentOn aapl .sell) (UInt32.ofInt 102) := by
  have hrun : ∃ q ∈ killedEvents.foldlM (Pipeline.step Params.default)
        (Pipeline.start demoApi (Params.default : Params Float)
          (riskAfter [.setLimits 1 1]) emptyOms),
      ∃ t ∈ Pipeline.step Params.default q (.event (addEvent 3 'B' 10 9900) [], []),
        t.engine.killed aapl = true ∧
        ((q.engine.states aapl).resting .buy = 100 ∧ (q.engine.states aapl).resting .sell = 102) ∧
        ¬AllRefused (q.sentOn aapl .buy) (UInt32.ofInt 100) ∧
        AllRefused (q.sentOn aapl .sell) (UInt32.ofInt 102) := by
    decide +kernel
  obtain ⟨q, hq, t, ht, hkilled, ⟨hbid, hask⟩, hkept, hrefused⟩ := hrun
  have hr := Runs.of_foldlM hq
  have hconcerns : Action.Concerns aapl (.event (addEvent 3 'B' 10 9900) []) :=
    ⟨shardForLocate_locateOf aapl, by decide⟩
  have hbuy := (flatten_withdraws_iff hr ht hconcerns hkilled .buy (by rw [hbid]; decide)).2.1
  have hsell := (flatten_withdraws_iff hr ht hconcerns hkilled .sell (by rw [hask]; decide)).2.1
  rw [hbid] at hbuy
  rw [hask] at hsell
  exact ⟨q, t, hr, ht, hbid, hask, fun h => hkept (hbuy.mp h), hsell.mpr hrefused⟩

/-- Both orders are in the ring when the shard is killed, and after it has been flattened
there is no cancel behind them. -/
theorem killed_shard_keeps_orders : ∃ q t : Pipeline demoApi Float,
    Runs (PipelineStep Params.default) (Pipeline.start demoApi Params.default Risk.init emptyOms)
      killedEvents q ∧
    PipelineStep Params.default q (.event (addEvent 3 'B' 10 9900) [], []) t ∧
    (q.engine.states aapl).resting .buy = 100 ∧ (q.engine.states aapl).resting .sell = 102 ∧
    (t.engine.states aapl).resting .buy = 0 ∧ (t.engine.states aapl).resting .sell = 0 ∧
    ¬Withdrawn (t.sentOn aapl .buy) (UInt32.ofInt 100) ∧
    ¬Withdrawn (t.sentOn aapl .sell) (UInt32.ofInt 102) := by
  have hrun : ∃ q ∈ killedEvents.foldlM (Pipeline.step Params.default)
        (Pipeline.start demoApi (Params.default : Params Float) Risk.init emptyOms),
      ∃ t ∈ Pipeline.step Params.default q (.event (addEvent 3 'B' 10 9900) [], []),
        ((q.engine.states aapl).resting .buy = 100 ∧ (q.engine.states aapl).resting .sell = 102 ∧
          (t.engine.states aapl).resting .buy = 0 ∧ (t.engine.states aapl).resting .sell = 0) ∧
        ¬AllRefused (t.sentOn aapl .buy) (UInt32.ofInt 100) ∧
        ¬AllRefused (t.sentOn aapl .sell) (UInt32.ofInt 102) := by
    decide +kernel
  obtain ⟨q, hq, t, ht, ⟨hbid, hask, hbid', hask'⟩, hkeptBid, hkeptAsk⟩ := hrun
  exact ⟨q, t, Runs.of_foldlM hq, ht, hbid, hask, hbid', hask',
    fun h => hkeptBid h.allRefused, fun h => hkeptAsk h.allRefused⟩

end TradingPipeline.Engine
