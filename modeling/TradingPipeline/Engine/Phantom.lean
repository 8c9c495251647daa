import TradingPipeline.Engine.Gateway

/-! # Quotes and the orders behind them

The strategy and the fill simulator take an order for placed as soon as `submit_` was
called. The last call for a side is the one they remember; whether it reached the ring is
another matter. Quotes without an order appear exactly when a new order is refused, and
flattening a killed shard leaves its orders at the exchange.
-/
namespace TradingPipeline.Engine
open Lib Book

def news (l : List Sending) : List Sending := l.filter fun x => x.call.qty ≠ 0

theorem news_append (l l' : List Sending) : news (l ++ l') = news l ++ news l' :=
  List.filter_append ..

section Tracking
variable {D : Type}

/-- The resting price is that of the last message of the side, and the simulated quote is
that of its last new order. -/
structure Tracked (p : Params D) (v : ℤ × RestingQuote) (l : List Sending) : Prop where
  resting : v.1 ≠ 0 → ∃ x, l.getLast? = some x ∧ x.call.px = v.1 ∧ x.call.qty = p.quoteQty
  quote : 0 < v.2.qty → 0 < p.quoteQty ∧ ∃ x, (news l).getLast? = some x ∧
    x.call.px = v.2.px ∧ x.call.qty = p.quoteQty

variable {p : Params D} {old new : ℤ × RestingQuote} {l l' : List Sending}

theorem tracked_empty : Tracked p (0, {}) l :=
  ⟨fun h => absurd rfl h, fun h => absurd h (by decide)⟩

theorem Tracked.trade {f : Option ℤ} (h : TradeMove old f new) (hold : Tracked p old l) :
    Tracked p new l := by
  cases h with
  | @passed q hpx hqty =>
    refine ⟨hold.resting, fun hpos => ?_⟩
    dsimp only at hpos ⊢
    rw [hpx]
    exact hold.quote (hqty ▸ hpos)
  | @filled n q hn hpx hqty hleft =>
    refine ⟨fun h => absurd rfl h, fun hpos => ?_⟩
    dsimp only at hpos ⊢
    rw [hpx]
    exact hold.quote (by omega)

theorem Tracked.flat (h : Tracked p old l) : Tracked p (flatSide old) l := by
  unfold flatSide
  split
  · exact tracked_empty
  · exact h

theorem Tracked.move {locate ts : ℕ} {side : Side} {px : ℤ}
    (h : SideMove p locate ts side px old (l'.map Sending.call) new) (hold : Tracked p old l) :
    Tracked p new (l ++ l') := by
  generalize hcalls : l'.map Sending.call = calls at h
  cases h with
  | kept =>
    rw [List.map_eq_nil_iff.mp hcalls, List.append_nil]
    exact hold
  | cancelled => exact tracked_empty
  | quoted qa _ =>
    obtain ⟨x, rfl, hx⟩ := List.map_eq_singleton_iff.mp hcalls
    refine ⟨fun _ => ⟨x, List.getLast?_concat, by rw [hx], by rw [hx]⟩, fun hpos => ⟨hpos, x, ?_⟩⟩
    have hnew : news [x] = [x] := by
      have hqty : x.call.qty ≠ 0 := by rw [hx]; exact ne_of_gt hpos
      simp [news, hqty]
    refine ⟨?_, by rw [hx], by rw [hx]⟩
    rw [news_append, hnew]
    exact List.getLast?_concat

end Tracking

variable {api : OrderBookApi} {D : Type}

section Phantoms

/-- Every quote of the simulator is that of a new order that was accepted and stored, and so
is every fill. -/
structure NoPhantom (p : Params D) (q : Pipeline api D) : Prop where
  quoted : ∀ shard side, 0 < ((q.engine.sims shard).quote side).qty →
    ∃ x, (news (q.sentOn shard side)).getLast? = some x ∧ x.accepted = true ∧ x.stored = true ∧
      x.call.px = ((q.engine.sims shard).quote side).px ∧ x.call.qty = p.quoteQty
  filled : ∀ a shard f, Action.fill q.engine shard a = some f →
    ∃ x, (news (q.sentOn shard f.side)).getLast? = some x ∧ x.accepted = true ∧
      x.stored = true ∧ x.call.px = f.px

def Sending.Placed (x : Sending) : Prop := x.call.qty ≠ 0 → x.accepted = true ∧ x.stored = true

variable {p : Params D} {q : Pipeline api D}

theorem noPhantom_of_quoted (h : ∀ shard side, 0 < ((q.engine.sims shard).quote side).qty →
    ∃ x, (news (q.sentOn shard side)).getLast? = some x ∧ x.accepted = true ∧ x.stored = true ∧
      x.call.px = ((q.engine.sims shard).quote side).px ∧ x.call.qty = p.quoteQty) :
    NoPhantom p q := by
  refine ⟨h, fun a shard f hf => ?_⟩
  obtain ⟨hpx, hpos⟩ := Action.fill_spec hf
  obtain ⟨x, hx, haccepted, hstored, hxpx, -⟩ := h shard f.side hpos
  exact ⟨x, hx, haccepted, hstored, hxpx.trans hpx.symm⟩

theorem Tracked.noPhantom
    (hq : ∀ shard side, Tracked p (q.engine.side shard side) (q.sentOn shard side))
    (hplaced : p.quoteQty ≤ 0 ∨ ∀ x ∈ q.gateway.log, x.Placed) : NoPhantom p q := by
  refine noPhantom_of_quoted fun shard side hpos => ?_
  obtain ⟨hqty, x, hx, hpx, hxqty⟩ := (hq shard side).quote hpos
  have hmem := List.mem_filter.mp (List.mem_of_getLast? hx)
  have hlog : x ∈ q.gateway.log := (List.mem_filter.mp hmem.1).1
  obtain ⟨haccepted, hstored⟩ := hplaced.resolve_left (by omega) x hlog (by simpa using hmem.2)
  exact ⟨x, hx, haccepted, hstored, hpx, hxqty⟩

end Phantoms

variable [DoubleArith D]

section Runs
variable {p : Params D} {q t : Pipeline api D} {a : Action × List ℕ}

theorem PipelineStep.tracked (h : PipelineStep p q a t) (shard : Shard) (side : Side)
    (hq : Tracked p (q.engine.side shard side) (q.sentOn shard side)) :
    Tracked p (t.engine.side shard side) (t.sentOn shard side) := by
  obtain ⟨l, hl, -, hsends⟩ := h.sends shard side
  rw [hl]
  cases hsends with
  | idle hside =>
    rw [hside, List.append_nil]
    exact hq
  | flattened htrade _ hside =>
    rw [hside, List.append_nil]
    exact (hq.trade htrade).flat
  | ran htrade _ _ hmove => exact (hq.trade htrade).move hmove

theorem runs_tracked {risk : Risk} {oms : OrderRing.Oms} {as : List (Action × List ℕ)}
    (hr : Runs (PipelineStep p) (Pipeline.start api p risk oms) as q) (shard : Shard)
    (side : Side) : Tracked p (q.engine.side shard side) (q.sentOn shard side) := by
  refine hr.invariant (P := fun q => Tracked p (q.engine.side shard side) (q.sentOn shard side))
    ?_ (fun _ _ _ hq h => h.tracked shard side hq)
  cases side <;> exact tracked_empty

end Runs

section Refusals
variable {p : Params D} {q t : Pipeline api D} {a : Action × List ℕ}

theorem log_subset_of_runs {as : List (Action × List ℕ)} (hr : Runs (PipelineStep p) q as t) :
    q.gateway.log ⊆ t.gateway.log := by
  refine hr.invariant (P := fun t => q.gateway.log ⊆ t.gateway.log) (List.Subset.refl _) ?_
  intro u b v hu hb
  obtain ⟨-, l, hl, -⟩ := PipelineStep.log hb
  rw [hl]
  exact List.Subset.trans hu (List.subset_append_left _ _)

/-- A refusal leaves a quote without an order at once. -/
theorem PipelineStep.placed (hqty : 0 < p.quoteQty) (h : PipelineStep p q a t)
    (hq : ∀ x ∈ q.gateway.log, x.Placed) (ht : NoPhantom p t) : ∀ x ∈ t.gateway.log, x.Placed := by
  intro x hx hnew
  obtain ⟨-, new, hlog, -, hlocate⟩ := h.log
  rcases List.mem_append.mp (hlog ▸ hx) with hold | hx'
  · exact hq x hold hnew
  obtain ⟨shard, hshard⟩ := hlocate x hx'
  obtain ⟨l, hl, -, hsends⟩ := h.sends shard x.call.side
  have hmem : x ∈ t.sentOn shard x.call.side := List.mem_filter.mpr ⟨hx, by simp [hshard]⟩
  rcases List.mem_append.mp (hl ▸ hmem) with hold | hxl
  · exact hq x (List.mem_filter.mp hold).1 hnew
  cases hsends with
  | idle => exact absurd hxl List.not_mem_nil
  | flattened => exact absurd hxl List.not_mem_nil
  | @ran mid px l htrade hlive hpx hmove =>
    generalize hcalls : l.map Sending.call = calls at hmove
    generalize hside : t.engine.side shard x.call.side = v at hmove
    cases hmove with
    | kept =>
      rw [List.map_eq_nil_iff.mp hcalls] at hxl
      exact absurd hxl List.not_mem_nil
    | cancelled =>
      obtain ⟨y, rfl, hy⟩ := List.map_eq_singleton_iff.mp hcalls
      rw [List.mem_singleton.mp hxl, hy] at hnew
      exact absurd rfl hnew
    | quoted qa _ =>
      obtain ⟨y, rfl, hy⟩ := List.map_eq_singleton_iff.mp hcalls
      rw [List.mem_singleton.mp hxl] at hl hside hnew ⊢
      have hquote : (t.engine.sims shard).quote y.call.side = ⟨px, p.quoteQty, qa⟩ :=
        congrArg Prod.snd hside
      obtain ⟨z, hz, haccepted, hstored, -⟩ :=
        ht.quoted shard y.call.side (by rw [hquote]; exact hqty)
      have hlast : (news (t.sentOn shard y.call.side)).getLast? = some y := by
        have hone : news [y] = [y] := by simp [news, hnew]
        rw [hl, news_append, hone, List.getLast?_concat]
      cases hlast.symm.trans hz
      exact ⟨haccepted, hstored⟩

/-- In the states of a run there is an order behind every quote and every simulated fill
exactly if no new order was refused by the risk gate or by the ring. -/
theorem noPhantom_iff {risk : Risk} {oms : OrderRing.Oms} {as : List (Action × List ℕ)}
    (hr : Runs (PipelineStep p) (Pipeline.start api p risk oms) as q) :
    (∀ u pre post, Runs (PipelineStep p) (Pipeline.start api p risk oms) pre u →
      Runs (PipelineStep p) u post q → NoPhantom p u) ↔
    p.quoteQty ≤ 0 ∨ ∀ x ∈ q.gateway.log, x.call.qty ≠ 0 → x.accepted = true ∧ x.stored = true := by
  constructor
  · intro hall
    by_cases hqty : p.quoteQty ≤ 0
    · exact .inl hqty
    right
    induction hr with
    | nil => exact fun x hx => absurd hx List.not_mem_nil
    | @snoc as a u v hr hstep ih =>
      have hu := ih fun w pre post hpre hpost => hall w pre _ hpre (hpost.snoc hstep)
      exact hstep.placed (by omega) hu (hall v _ [] (hr.snoc hstep) .nil)
  · intro hplaced u pre post hpre hpost
    refine Tracked.noPhantom (fun shard side => runs_tracked hpre shard side) ?_
    exact hplaced.imp_right fun h x hx => h x (log_subset_of_runs hpost hx)

end Refusals

section Samples

def emptyOms : OrderRing.Oms := ⟨⟨0, 0, fun _ _ => 0⟩, 1⟩

/-- Orders on both sides of the book, which make the strategy quote both sides. -/
def twoSidedEvents : List (Action × List ℕ) :=
  [(.event (addEvent 1 'B' 10 10000) [], []), (.event (addEvent 2 'S' 10 10200) [], [])]

theorem noPhantom_iff_twoSided : ∃ q : Pipeline demoApi ℚ,
    Runs (PipelineStep Params.default) (Pipeline.start demoApi Params.default Risk.init emptyOms)
      twoSidedEvents q ∧
    0 < ((q.engine.sims aapl).quote .buy).qty ∧ NoPhantom Params.default q := by
  have hrun : ∃ q ∈ twoSidedEvents.foldlM (Pipeline.step Params.default)
        (Pipeline.start demoApi (Params.default : Params ℚ) Risk.init emptyOms),
      0 < ((q.engine.sims aapl).quote .buy).qty ∧
        ∀ x ∈ q.gateway.log, x.call.qty ≠ 0 → x.accepted = true ∧ x.stored = true := by
    decide +kernel
  obtain ⟨q, hq, hpos, hplaced⟩ := hrun
  have hr := Runs.of_foldlM hq
  exact ⟨q, hr, hpos, (noPhantom_iff hr).mpr (.inr hplaced) q _ [] hr .nil⟩

/-- The queue ahead of the quoted ask trades, and a new order joins behind it. -/
def queueTrades : List (Action × List ℕ) :=
  [(.event (executeEvent 2 10) [], []), (.event (addEvent 3 'S' 50 10200) [], [])]

/-- With one order per second the risk gate accepts the bid and refuses the ask. The
simulator holds the ask all the same, and a later trade fills it. -/
theorem refused_quote_fills : ∃ q : Pipeline demoApi ℚ,
    Runs (PipelineStep Params.default)
      (Pipeline.start demoApi Params.default (riskAfter [.setLimits 1 1]) emptyOms)
      (twoSidedEvents ++ queueTrades) q ∧
    ((q.engine.sims aapl).quote .sell).qty = 100 ∧
    (news (q.sentOn aapl .sell)).map Sending.accepted = [false] ∧
    Action.fill q.engine aapl (.event (executeEvent 3 50) []) = some ⟨.sell, 102, 50, 1⟩ := by
  have hrun : ∃ q ∈ (twoSidedEvents ++ queueTrades).foldlM (Pipeline.step Params.default)
        (Pipeline.start demoApi (Params.default : Params ℚ) (riskAfter [.setLimits 1 1]) emptyOms),
      ((q.engine.sims aapl).quote .sell).qty = 100 ∧
      (news (q.sentOn aapl .sell)).map Sending.accepted = [false] ∧
      Action.fill q.engine aapl (.event (executeEvent 3 50) []) = some ⟨.sell, 102, 50, 1⟩ := by
    decide +kernel
  obtain ⟨q, hq, hvalues⟩ := hrun
  exact ⟨q, Runs.of_foldlM hq, hvalues⟩

end Samples

end TradingPipeline.Engine
