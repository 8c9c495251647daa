import TradingPipeline.Engine.KillSwitch

/-! # One side of a shard

The price that `State` takes for resting and the quote of `FillSim` make up a side of a
shard. An event of the shard moves each side twice: its trade print may take quantity off
the quote, and then the strategy flattens, keeps, withdraws or replaces what is left.
-/
namespace TradingPipeline.Engine
open Lib Book

variable {api : OrderBookApi} {D : Type}

def Action.ts : Action → ℕ
  | .event e _ => e.ts
  | .control _ => 0

/-- The action is an event that reaches the book and the strategy of the shard. -/
def Action.Concerns (shard : Shard) : Action → Prop
  | .event e _ => shardForLocate e.stockLocate = some shard ∧ e.type ≠ .other
  | .control _ => False

def Dispatcher.side (g : Dispatcher api D) (shard : Shard) (side : Side) : ℤ × RestingQuote :=
  (g.desk shard).side side

/-- The messages sent so far for one side of a shard. -/
def Dispatcher.sentOn (g : Dispatcher api D) (shard : Shard) (side : Side) : List Submit :=
  (g.desk shard).sentOn (locateOf shard) side

section Desks

theorem controls_agg (g : Dispatcher api D) (cs : List Control) :
    (g.controls cs).aggTokens = g.aggTokens ∧ (g.controls cs).lastAggRefill = g.lastAggRefill := by
  induction cs generalizing g with
  | nil => exact ⟨rfl, rfl⟩
  | cons c cs ih =>
    have hc : (g.control c).aggTokens = g.aggTokens ∧
        (g.control c).lastAggRefill = g.lastAggRefill := by cases c <;> exact ⟨rfl, rfl⟩
    have hcs := ih (g.control c)
    rw [hc.1, hc.2] at hcs
    exact hcs

theorem controls_desk (g : Dispatcher api D) (cs : List Control) (i : Shard) :
    ∃ b, (g.controls cs).desk i = { g.desk i with s := { g.states i with panic := b } } := by
  obtain ⟨hsims, -, hsub, hstates⟩ := g.controls_frame cs
  obtain ⟨b, hb⟩ := hstates i
  obtain ⟨hagg, hlast⟩ := controls_agg g cs
  exact ⟨b, by simp only [Dispatcher.desk, hb, hsims, hsub, hagg, hlast]⟩

theorem controls_quiet (g : Dispatcher api D) (cs : List Control) (i : Shard) :
    (g.desk i).Quiet ((g.controls cs).desk i) := by
  obtain ⟨b, hb⟩ := controls_desk g cs i
  rw [hb]
  exact Desk.quiet_of_state rfl rfl (fun side => by cases side <;> rfl)

@[simp] theorem desk_setDesk (g : Dispatcher api D) (shard : Shard) (d : Desk D) :
    (g.setDesk shard d).desk shard = d := by
  simp [Dispatcher.desk, Dispatcher.setDesk]

section Printed
variable [DoubleArith D] {g g₁ g₂ : Dispatcher api D} {shard : Shard} {b : ItchBookAdapter api}
  {e : Event} {during : List Control}
  (hg₁ : g₁ = (g.setBook shard b).setDesk shard
    (onTradePrint api e (tradeInfo (g.books shard) e) (g.desk shard)))
  (hg₂ : g₂ = g₁.controls during)
include hg₁ hg₂

theorem printed_spends : Desk.Spends (locateOf shard) [] (g.desk shard) (g₂.desk shard) := by
  have hprint : Desk.Spends (locateOf shard) [] (g.desk shard) (g₁.desk shard) := by
    rw [hg₁, desk_setDesk]
    exact spends_onTradePrint _ _ _ _
  rw [hg₂]
  exact hprint.trans ((controls_quiet g₁ during shard).spends _)

theorem printed_killed : g₂.killed shard = (g.controls during).killed shard := by
  have hpanic : (g₁.states shard).panic = (g.states shard).panic := by
    rw [hg₁, Dispatcher.setDesk_states_self, onTradePrint_panic]
    rfl
  have hglobal : g₁.globalKill = g.globalKill := by
    rw [hg₁]
    rfl
  rw [hg₂]
  exact killed_controls_congr hglobal hpanic during

end Printed

theorem side_setDesk_of_ne (g : Dispatcher api D) {shard i : Shard} (d : Desk D) (h : i ≠ shard)
    (side : Side) : (g.setDesk shard d).side i side = g.side i side := by
  simp [Dispatcher.side, Dispatcher.desk, Desk.side, Dispatcher.setDesk, h]

theorem sentOn_setDesk_of_ne {g : Dispatcher api D} {shard i : Shard} {d : Desk D}
    {new : List Submit} (hsub : d.submitted = g.submitted ++ new)
    (hnew : ∀ m ∈ new, m.locate = locateOf shard) (h : i ≠ shard) (side : Side) :
    (g.setDesk shard d).sentOn i side = g.sentOn i side := by
  have hnone : new.filter (fun m => m.locate = locateOf i ∧ m.side = side) = [] := by
    rw [List.filter_eq_nil_iff]
    intro m hm
    rw [decide_eq_true_iff, hnew m hm]
    exact fun hi => h (locateOf_injective hi.1).symm
  have hset : ((g.setDesk shard d).desk i).submitted = g.submitted ++ new := hsub
  rw [Dispatcher.sentOn, Desk.sentOn, hset, List.filter_append, hnone, List.append_nil]
  rfl

/-- What flattening leaves of a side. -/
def flatSide (v : ℤ × RestingQuote) : ℤ × RestingQuote := if v.1 ≠ 0 then (0, {}) else v

theorem flatSide_resting (v : ℤ × RestingQuote) : (flatSide v).1 = 0 := by
  unfold flatSide
  split
  · rfl
  · rename_i hzero
    exact not_not.mp hzero

theorem flattenSide_side (d : Desk D) (side : Side) :
    (d.flattenSide side).side side = flatSide (d.side side) := by
  unfold Desk.flattenSide flatSide Desk.side
  split
  · rw [State.resting_setResting_self, FillSim.onCancel, FillSim.quote_setQuote_self]
  · rfl

theorem flattenSide_side_of_ne (d : Desk D) {side side' : Side} (h : side' ≠ side) :
    (d.flattenSide side).side side' = d.side side' := by
  obtain ⟨hquote, hresting⟩ := d.flattenSide_of_ne h
  rw [Desk.side, hquote, hresting]
  rfl

theorem flatten_side (d : Desk D) (side : Side) : d.flatten.side side = flatSide (d.side side) := by
  cases side with
  | buy => rw [Desk.flatten, flattenSide_side_of_ne _ (by decide), flattenSide_side]
  | sell => rw [Desk.flatten, flattenSide_side, flattenSide_side_of_ne _ (by decide)]

end Desks

section TradePrints

/-- What a trade print may do to a side: leave its price and quantity as they are, or take
a quantity off the quote, after which the strategy believes the side to be empty. -/
inductive TradeMove (old : ℤ × RestingQuote) : Option ℤ → ℤ × RestingQuote → Prop
  | passed {q : RestingQuote} (hpx : q.px = old.2.px) (hqty : q.qty = old.2.qty) :
      TradeMove old none (old.1, q)
  | filled {n : ℤ} {q : RestingQuote} (hn : 0 < n) (hpx : q.px = old.2.px)
      (hqty : n + q.qty = old.2.qty) (hleft : 0 ≤ q.qty) : TradeMove old (some n) (0, q)

theorem TradeMove.resting {old mid : ℤ × RestingQuote} {f : Option ℤ} (h : TradeMove old f mid) :
    mid.1 = 0 ∨ mid.1 = old.1 := by
  cases h with
  | passed => exact .inr rfl
  | filled => exact .inl rfl

def filledOn (side : Side) (f : Option Fill) : Option ℤ :=
  (f.filter fun f => f.side = side).map Fill.qty

/-- The fill that the trade print of an event leads to. -/
def printedFill (api : OrderBookApi) (e : Event) (info : Option OrderInfo) (d : Desk D) :
    Option Fill :=
  info.bind fun info =>
    (d.fsim.onTrade info.side
      (if e.type = .executeWithPrice then api.toPriceTicks (e.price / 100) else info.px)
      (api.toQuantity e.qty) e.ts).1

def Action.fill (g : Dispatcher api D) (shard : Shard) : Action → Option Fill
  | .event e _ =>
    if shardForLocate e.stockLocate = some shard ∧ e.type ≠ .other
      then printedFill api e (tradeInfo (g.books shard) e) (g.desk shard) else none
  | .control _ => none

theorem Action.fill_eq_none {g : Dispatcher api D} {shard : Shard} {a : Action}
    (h : ¬a.Concerns shard) : a.fill g shard = none := by
  cases a with
  | control c => rfl
  | event e during => exact if_neg h

theorem onTrade_px (f : FillSim) (side : Side) (px qty : ℤ) (ts : ℕ) (side' : Side) :
    ((f.onTrade side px qty ts).2.quote side').px = (f.quote side').px := by
  have hreached : ∀ q better, (FillSim.reached q better qty).2.px = q.px := by
    intro q better
    unfold FillSim.reached
    split <;> rfl
  simp only [FillSim.onTrade]
  split
  · rfl
  · split
    · rfl
    · by_cases hside : side' = side
      · subst hside
        rw [FillSim.quote_setQuote_self, hreached]
      · rw [FillSim.quote_setQuote_of_ne _ _ hside]

theorem onTrade_px_fill {f : FillSim} {side : Side} {px qty : ℤ} {ts : ℕ} {x : Fill}
    (h : (f.onTrade side px qty ts).1 = some x) : x.px = (f.quote x.side).px := by
  rcases f.onTrade_cases side px qty ts with hpass | ⟨n, q, -, -, -, -, htrade⟩
  · rw [hpass] at h
    cases h
  · rw [htrade] at h
    dsimp only at h
    split at h
    · cases h
    · cases h
      rfl

theorem printedFill_spec {e : Event} {info : Option OrderInfo} {d : Desk D} {f : Fill}
    (h : printedFill api e info d = some f) :
    f.px = (d.fsim.quote f.side).px ∧ 0 < (d.fsim.quote f.side).qty := by
  obtain ⟨info, -, h⟩ := Option.bind_eq_some_iff.mp h
  refine ⟨onTrade_px_fill h, ?_⟩
  rcases d.fsim.onTrade_cases info.side
    (if e.type = .executeWithPrice then api.toPriceTicks (e.price / 100) else info.px)
    (api.toQuantity e.qty) e.ts with hpass | ⟨n, q, hpos, -, -, -, htrade⟩
  · rw [hpass] at h
    cases h
  · rw [htrade] at h
    dsimp only at h
    split at h
    · cases h
    · cases h
      exact hpos

theorem Action.fill_spec {g : Dispatcher api D} {shard : Shard} {a : Action} {f : Fill}
    (h : a.fill g shard = some f) :
    f.px = ((g.sims shard).quote f.side).px ∧ 0 < ((g.sims shard).quote f.side).qty := by
  cases a with
  | control c => cases h
  | event e during =>
    simp only [Action.fill] at h
    split at h
    · exact printedFill_spec h
    · cases h

variable [DoubleArith D]

theorem onTradePrint_side (e : Event) (info : Option OrderInfo) (d : Desk D) (side : Side) :
    TradeMove (d.side side) (filledOn side (printedFill api e info d))
      ((onTradePrint api e info d).side side) := by
  cases info with
  | none => exact .passed rfl rfl
  | some info =>
    unfold onTradePrint printedFill
    dsimp only [Option.bind_some]
    generalize
      (if e.type = .executeWithPrice then api.toPriceTicks (e.price / 100) else info.px) = px
    generalize api.toQuantity e.qty = qty
    have hpx := onTrade_px d.fsim info.side px qty e.ts side
    rcases d.fsim.onTrade_cases info.side px qty e.ts with hpass |
      ⟨n, q, -, hn, hleft, hsum, htrade⟩
    · rw [hpass]
      exact .passed rfl rfl
    · rw [htrade] at hpx ⊢
      dsimp only at hpx ⊢
      by_cases hside : side = info.side
      · rw [← hside] at hsum ⊢
        rw [← hside, FillSim.quote_setQuote_self] at hpx
        by_cases hzero : n = 0
        · have hqty : q.qty = (d.fsim.quote side).qty := by omega
          simp only [hzero, ↓reduceIte, Desk.side, FillSim.quote_setQuote_self]
          exact .passed hpx hqty
        · have hfilled : filledOn side (some ⟨side, (d.fsim.quote side).px, n, e.ts⟩) = some n := by
            simp [filledOn]
          simp only [hzero, ↓reduceIte, Desk.side, onFill_resting, FillSim.quote_setQuote_self,
            hfilled]
          exact .filled (by omega) hpx hsum hleft
      · rw [FillSim.quote_setQuote_of_ne _ _ hside] at hpx
        have hkept := FillSim.quote_setQuote_of_ne d.fsim q hside
        by_cases hzero : n = 0
        · simp only [hzero, ↓reduceIte, Desk.side, hkept]
          exact .passed rfl rfl
        · have hfilled : filledOn side (some ⟨info.side, (d.fsim.quote info.side).px, n, e.ts⟩) =
              none := by
            simp [filledOn, Ne.symm hside]
          simp only [hzero, ↓reduceIte, Desk.side, onFill_resting, if_neg (Ne.symm hside), hkept,
            hfilled]
          exact .passed rfl rfl

end TradePrints

variable [DoubleArith D]

/-- All that an action can do to a side of a shard. -/
inductive SideStep (p : Params D) (g : Dispatcher api D) (a : Action) (t : Dispatcher api D)
    (shard : Shard) (side : Side) : Prop
  | idle (hside : t.side shard side = g.side shard side)
      (hsent : t.sentOn shard side = g.sentOn shard side) (hother : ¬a.Concerns shard)
  | flattened {mid : ℤ × RestingQuote}
      (htrade : TradeMove (g.side shard side) (filledOn side (a.fill g shard)) mid)
      (hkilled : t.killed shard = true) (hside : t.side shard side = flatSide mid)
      (hsent : t.sentOn shard side = g.sentOn shard side)
  | ran {mid : ℤ × RestingQuote} {px : ℤ} {l : List Submit}
      (htrade : TradeMove (g.side shard side) (filledOn side (a.fill g shard)) mid)
      (hlive : t.killed shard = false) (hpx : 0 < px)
      (hmove : SideMove p (locateOf shard) a.ts side px mid l (t.side shard side))
      (hsent : t.sentOn shard side = g.sentOn shard side ++ l)

theorem onBookEvent_side (p : Params D) (top : TopOfBook) (locate : ℕ) (globalKill : Bool)
    (ts : ℕ) (d : Desk D) (side : Side) :
    ((globalKill = true ∨ (onBookEvent p top locate globalKill ts d).s.panic = true) ∧
      (onBookEvent p top locate globalKill ts d).side side = flatSide (d.side side) ∧
      (onBookEvent p top locate globalKill ts d).sentOn locate side = d.sentOn locate side) ∨
    ∃ px l, (globalKill = false ∧ (onBookEvent p top locate globalKill ts d).s.panic = false) ∧
      0 < px ∧ SideMove p locate ts side px (d.side side) l
        ((onBookEvent p top locate globalKill ts d).side side) ∧
      (onBookEvent p top locate globalKill ts d).sentOn locate side =
        d.sentOn locate side ++ l := by
  have hcases := onBookEvent_cases p top locate globalKill ts d
  generalize onBookEvent p top locate globalKill ts d = d' at hcases ⊢
  have hrefill : (d.refillBuckets p ts).side side = d.side side := by cases side <;> rfl
  have hflat : ∀ d₁ : Desk D, d₁.flatten.sentOn locate side = d₁.sentOn locate side := by
    intro d₁
    rw [Desk.sentOn, Desk.flatten_submitted]
    rfl
  cases hcases with
  | killed hdead =>
    refine .inl ⟨hdead.imp_right fun hpanic => ?_, ?_, ?_⟩
    · rw [d.countSkipPanic.flatten_kept.panic]
      exact hpanic
    · rw [flatten_side]
      cases side <;> rfl
    · rw [hflat]
      rfl
  | skipped hk hp h hkept =>
    refine .inr ⟨1, [], ⟨hk, hkept.panic.trans hp⟩, one_pos, ?_, ?_⟩
    · rw [h.side side, hrefill]
      exact .kept
    · rw [(h.passes locate side).sentOn, List.append_nil]
      rfl
  | panicked _ _ h _ hpanic =>
    refine .inl ⟨.inr ?_, ?_, ?_⟩
    · rw [(Desk.flatten_kept _).panic]
      exact hpanic
    · rw [flatten_side, h.side side, hrefill]
    · rw [hflat, (h.passes locate side).sentOn]
      rfl
  | @requoted d₁ bidPx askPx hk hp h hkept _ hpos hlt =>
    obtain ⟨l, hsent, hmove⟩ := requote_sideMove p top locate ts bidPx askPx d₁ side
    have hpanic := (requote_kept p top locate ts bidPx askPx d₁).panic.trans (hkept.panic.trans hp)
    refine .inr ⟨sidePx bidPx askPx side, l, ⟨hk, hpanic⟩, ?_, ?_, ?_⟩
    · cases side with
      | buy => exact hpos
      | sell => exact lt_trans hpos hlt
    · rw [h.side side, hrefill] at hmove
      exact hmove
    · rw [hsent, (h.passes locate side).sentOn]
      rfl

theorem Step.sideStep {p : Params D} {g t : Dispatcher api D} {a : Action} (h : Step p g a t)
    (shard : Shard) (side : Side) : SideStep p g a t shard side := by
  have hcontrols : ∀ (g : Dispatcher api D) cs,
      (g.controls cs).side shard side = g.side shard side ∧
      (g.controls cs).sentOn shard side = g.sentOn shard side := by
    intro g cs
    have hpass := (controls_quiet g cs shard).passes (locateOf shard) side
    exact ⟨hpass.held, hpass.sentOn⟩
  cases h.effect with
  | control c => exact .idle (hcontrols g [c]).1 (hcontrols g [c]).2 id
  | @ignored e during hign =>
    refine .idle (hcontrols g during).1 (hcontrols g during).2 ?_
    rintro ⟨hs, htype⟩
    rcases hign with hnone | hother
    · rw [hnone] at hs
      cases hs
    · exact htype hother
  | @applied e during i a g₁ g₂ hs htype ha hg₁ hg₂ =>
    obtain ⟨hside₂, hsent₂⟩ := hcontrols g₁ during
    rw [← hg₂] at hside₂ hsent₂
    by_cases hi : shard = i
    · subst hi
      have hdesk₁ : g₁.desk shard =
          onTradePrint api e (tradeInfo (g.books shard) e) (g.desk shard) := by
        rw [hg₁, desk_setDesk]
      have hfill : Action.fill g shard (.event e during) =
          printedFill api e (tradeInfo (g.books shard) e) (g.desk shard) := if_pos ⟨hs, htype⟩
      have htrade := @onTradePrint_side api _ _ e (tradeInfo (g.books shard) e) (g.desk shard) side
      rw [← hdesk₁, ← hfill] at htrade
      have hsent₁ : g₁.sentOn shard side = g.sentOn shard side := by
        rw [Dispatcher.sentOn, hdesk₁, Desk.sentOn, onTradePrint_submitted]
        rfl
      have hstrategy := onBookEvent_side p (topOfBook (g₂.books shard).book) (locateOf shard)
        g₂.globalKill e.ts (g₂.desk shard) side
      have hdesk : (runStrategy p shard e.ts g₂).desk shard =
          onBookEvent p (topOfBook (g₂.books shard).book) (locateOf shard) g₂.globalKill e.ts
            (g₂.desk shard) := desk_setDesk _ _ _
      rw [← hdesk] at hstrategy
      rcases hstrategy with ⟨hdead, hside, hsent⟩ | ⟨px, l, ⟨hglobal, hpanic⟩, hpx, hmove, hsent⟩
      · refine .flattened htrade ?_ (hside.trans (congrArg flatSide hside₂))
          (hsent.trans (hsent₂.trans hsent₁))
        rw [Dispatcher.killed, Bool.or_eq_true]
        exact hdead
      · refine .ran htrade ?_ hpx (l := l) ?_ ?_
        · rw [Dispatcher.killed, Bool.or_eq_false_iff]
          exact ⟨hglobal, hpanic⟩
        · have hold : (g₂.desk shard).side side = (g₁.desk shard).side side := hside₂
          rw [hold] at hmove
          exact hmove
        · exact hsent.trans (congrArg (· ++ l) (hsent₂.trans hsent₁))
    · have hset : g₁.side shard side = g.side shard side := by
        rw [hg₁, side_setDesk_of_ne _ _ hi]
        rfl
      have hsent₁ : g₁.sentOn shard side = g.sentOn shard side := by
        rw [hg₁, @sentOn_setDesk_of_ne _ _ (g.setBook i a) i shard _ [] ?_ (by simp) hi]
        · rfl
        · rw [onTradePrint_submitted, List.append_nil]
          rfl
      refine .idle ?_ ?_ ?_
      · rw [runStrategy, side_setDesk_of_ne _ _ hi, hside₂, hset]
      · obtain ⟨new, hsub, hnew⟩ := sentFor_onBookEvent p (topOfBook (g₂.books i).book) (locateOf i)
          g₂.globalKill e.ts (g₂.desk i)
        rw [runStrategy, sentOn_setDesk_of_ne hsub hnew hi, hsent₂, hsent₁]
      · rintro ⟨hs', -⟩
        rw [hs] at hs'
        exact hi (Option.some.inj hs').symm

theorem Step.submitted {p : Params D} {g t : Dispatcher api D} {a : Action} (h : Step p g a t) :
    ∃ new, t.submitted = g.submitted ++ new ∧ ∀ m ∈ new, ∃ shard, m.locate = locateOf shard := by
  have hcontrols : ∀ (g : Dispatcher api D) cs, (g.controls cs).submitted = g.submitted :=
    fun g cs => (g.controls_frame cs).2.2.1
  cases h.effect with
  | control c => exact ⟨[], by rw [List.append_nil]; exact hcontrols g [c], by simp⟩
  | ignored during => exact ⟨[], by rw [List.append_nil, hcontrols], by simp⟩
  | @applied e during shard a g₁ g₂ hs htype ha hg₁ hg₂ =>
    obtain ⟨new, hnew, hlocate⟩ := sentFor_onBookEvent p (topOfBook (g₂.books shard).book)
      (locateOf shard) g₂.globalKill e.ts (g₂.desk shard)
    have hbefore : g₂.submitted = g.submitted := by
      rw [hg₂, hcontrols, hg₁]
      exact onTradePrint_submitted e _ _
    refine ⟨new, ?_, fun m hm => ⟨shard, hlocate m hm⟩⟩
    rw [← hbefore]
    exact hnew

end TradingPipeline.Engine
