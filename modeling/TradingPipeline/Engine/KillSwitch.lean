import TradingPipeline.Engine.Inventory
import TradingPipeline.Engine.Messages

/-! # The kill switch

Once a shard is killed the strategy only flattens. It decides what to tear down from
the prices it believes to be resting, while fills are decided from the quantities the
simulator holds. The shard is at rest after one more event exactly if no rest of a partly
filled quote is left; from then on nothing moves it until the flags are cleared.
-/
namespace TradingPipeline.Engine
open Lib Book DoubleArith

variable {api : OrderBookApi} {D : Type}

def Dispatcher.killed (g : Dispatcher api D) (shard : Shard) : Bool :=
  g.globalKill || (g.states shard).panic

/-- No store of the action to the flags lets the shard go, not even for a moment. -/
def KeepsKilled (shard : Shard) (g : Dispatcher api D) : Action → Prop
  | .control c => (g.control c).killed shard
  | .event _ during => ∀ n ≤ during.length, (g.controls (during.take n)).killed shard

def Dispatcher.submittedFor (g : Dispatcher api D) (shard : Shard) : List Submit :=
  g.submitted.filter fun c => c.locate = locateOf shard

theorem locateOf_injective : Function.Injective locateOf := by
  intro i j h
  have hi := shardForLocate_locateOf i
  rw [h, shardForLocate_locateOf] at hi
  exact (Option.some.inj hi).symm

/-- `d'` has sent only messages for `locate` since `d`. -/
def SentFor (locate : ℕ) (d d' : Desk D) : Prop :=
  ∃ l, d'.submitted = d.submitted ++ l ∧ ∀ c ∈ l, c.locate = locate

theorem sentFor_of_eq {locate : ℕ} {d d' : Desk D} (h : d'.submitted = d.submitted) :
    SentFor locate d d' := ⟨[], by simp [h], by simp⟩

theorem Desk.flattenSide_submitted (d : Desk D) (side : Side) :
    (d.flattenSide side).submitted = d.submitted := by
  unfold Desk.flattenSide
  split <;> rfl

theorem Desk.flatten_submitted (d : Desk D) : d.flatten.submitted = d.submitted := by
  rw [flatten, flattenSide_submitted, flattenSide_submitted]

theorem killed_controls_congr {g g' : Dispatcher api D} {shard : Shard}
    (hglobal : g'.globalKill = g.globalKill)
    (hpanic : (g'.states shard).panic = (g.states shard).panic) (cs : List Control) :
    (g'.controls cs).killed shard = (g.controls cs).killed shard := by
  simp only [Dispatcher.killed, Dispatcher.controls_globalKill, Dispatcher.controls_panic, hglobal,
    hpanic]

theorem Desk.flattenSide_qty_self (d : Desk D) (side : Side) :
    ((d.flattenSide side).fsim.quote side).qty = 0 ↔
      d.s.resting side ≠ 0 ∨ (d.fsim.quote side).qty = 0 := by
  unfold Desk.flattenSide
  split
  · rename_i h
    simp [h]
  · rename_i h
    simp [not_not.mp h]

theorem Desk.flattenSide_of_ne (d : Desk D) {side side' : Side} (h : side' ≠ side) :
    (d.flattenSide side).fsim.quote side' = d.fsim.quote side' ∧
      (d.flattenSide side).s.resting side' = d.s.resting side' := by
  unfold Desk.flattenSide
  split
  · exact ⟨FillSim.quote_setQuote_of_ne _ _ h, State.resting_setResting_of_ne _ _ h⟩
  · exact ⟨rfl, rfl⟩

theorem Desk.flatten_qty (d : Desk D) (side : Side) :
    (d.flatten.fsim.quote side).qty = 0 ↔
      d.s.resting side ≠ 0 ∨ (d.fsim.quote side).qty = 0 := by
  cases side with
  | buy =>
    rw [Desk.flatten, ((d.flattenSide .buy).flattenSide_of_ne (by decide)).1, flattenSide_qty_self]
  | sell =>
    have hne : Side.sell ≠ Side.buy := by decide
    obtain ⟨hquote, hresting⟩ := d.flattenSide_of_ne hne
    rw [Desk.flatten, flattenSide_qty_self, hquote, hresting]

/-- The shard holds no simulated quote, and since `base` neither its position has moved
nor has anything been sent for it. -/
structure AtRest (base : Dispatcher api D) (shard : Shard) (g : Dispatcher api D) : Prop where
  qty : ∀ side, ((g.sims shard).quote side).qty = 0
  inventory : (g.states shard).inventory = (base.states shard).inventory
  realizedPnlTicks : (g.states shard).realizedPnlTicks = (base.states shard).realizedPnlTicks
  submittedFor : g.submittedFor shard = base.submittedFor shard

theorem AtRest.controls {base g : Dispatcher api D} {shard : Shard} (h : AtRest base shard g)
    (cs : List Control) : AtRest base shard (g.controls cs) := by
  obtain ⟨hsims, -, hsub, hstates⟩ := g.controls_frame cs
  obtain ⟨b, hb⟩ := hstates shard
  refine ⟨?_, ?_, ?_, ?_⟩
  · rw [hsims]
    exact h.qty
  · rw [hb]
    exact h.inventory
  · rw [hb]
    exact h.realizedPnlTicks
  · rw [Dispatcher.submittedFor, hsub]
    exact h.submittedFor

theorem AtRest.setDesk_of_ne {base g : Dispatcher api D} {shard i : Shard} (h : AtRest base shard g)
    (hi : shard ≠ i) {d : Desk D} (hd : SentFor (locateOf i) (g.desk i) d) :
    AtRest base shard (g.setDesk i d) := by
  obtain ⟨l, hl, hloc⟩ := hd
  refine ⟨?_, ?_, ?_, ?_⟩
  · rw [Dispatcher.setDesk_sims_of_ne _ _ hi]
    exact h.qty
  · rw [Dispatcher.setDesk_states_of_ne _ _ hi]
    exact h.inventory
  · rw [Dispatcher.setDesk_states_of_ne _ _ hi]
    exact h.realizedPnlTicks
  · have hnone : l.filter (fun c => c.locate = locateOf shard) = [] := by
      apply List.filter_eq_nil_iff.mpr
      intro c hc
      rw [hloc c hc, decide_eq_true_iff]
      exact fun heq => hi (locateOf_injective heq).symm
    change d.submitted.filter _ = _
    rw [hl, List.filter_append, hnone, List.append_nil]
    exact h.submittedFor

theorem AtRest.setDesk_self {base g : Dispatcher api D} {shard : Shard} (h : AtRest base shard g)
    {d : Desk D} (hqty : ∀ side, (d.fsim.quote side).qty = 0) (hkept : (g.states shard).Kept d.s)
    (hsub : d.submitted = g.submitted) : AtRest base shard (g.setDesk shard d) := by
  refine ⟨?_, ?_, ?_, ?_⟩
  · rwa [Dispatcher.setDesk_sims_self]
  · rw [Dispatcher.setDesk_states_self, hkept.inventory]
    exact h.inventory
  · rw [Dispatcher.setDesk_states_self, hkept.realizedPnlTicks]
    exact h.realizedPnlTicks
  · change d.submitted.filter _ = _
    rw [hsub]
    exact h.submittedFor

theorem KeepsKilled.controls {g : Dispatcher api D} {shard : Shard} {e : Event}
    {during : List Control} (h : KeepsKilled shard g (.event e during)) (a : ItchBookAdapter api)
    {d : Desk D} (hd : d.s.panic = (g.states shard).panic) :
    (((g.setBook shard a).setDesk shard d).controls during).killed shard = true := by
  have hall := h during.length le_rfl
  rw [List.take_length] at hall
  rw [← hall]
  have hpanic : (((g.setBook shard a).setDesk shard d).states shard).panic =
      (g.states shard).panic := by rw [Dispatcher.setDesk_states_self, hd]
  have hglobal : ((g.setBook shard a).setDesk shard d).globalKill = g.globalKill := rfl
  exact killed_controls_congr hglobal hpanic during

theorem keepsKilled_event {g : Dispatcher api D} {shard : Shard} (h : g.killed shard = true)
    (e : Event) : KeepsKilled shard g (.event e []) := by
  intro n _
  rwa [List.take_nil]

variable [DoubleArith D]

theorem sentFor_onBookEvent (p : Params D) (top : TopOfBook) (locate : ℕ) (globalKill : Bool)
    (ts : ℕ) (d : Desk D) : SentFor locate d (onBookEvent p top locate globalKill ts d) := by
  rcases onBookEvent_spends p top locate globalKill ts d with ⟨-, h⟩ | ⟨-, l, h⟩
  · exact ⟨[], h.submitted, h.locate⟩
  · exact ⟨l, h.submitted, h.locate⟩

theorem onTrade_of_qty_zero {f : FillSim} (h : ∀ side, (f.quote side).qty = 0) (side : Side)
    (px qty : ℤ) (ts : ℕ) : f.onTrade side px qty ts = (none, f) := by
  rw [FillSim.onTrade]
  simp [h side]

theorem onTradePrint_of_qty_zero {d : Desk D} (h : ∀ side, (d.fsim.quote side).qty = 0)
    (e : Event) (info : Option OrderInfo) : onTradePrint api e info d = d := by
  cases info with
  | none => rfl
  | some info => simp only [onTradePrint, onTrade_of_qty_zero h]

/-- A step of the engine during which the shard stays killed. -/
def KilledStep (p : Params D) (shard : Shard) (g : Dispatcher api D) (a : Action)
    (t : Dispatcher api D) : Prop :=
  Step p g a t ∧ KeepsKilled shard g a

theorem onFill_bucket (s : State D) (f : Fill) :
    (onFill s f).tokens = s.tokens ∧ (onFill s f).lastRefillTs = s.lastRefillTs := by
  have hpnl : (applyFillPnl s f).tokens = s.tokens ∧
      (applyFillPnl s f).lastRefillTs = s.lastRefillTs := by
    unfold applyFillPnl
    dsimp only
    split <;> exact ⟨rfl, rfl⟩
  have hset : ∀ s : State D, (s.setResting 0 f.side).tokens = s.tokens ∧
      (s.setResting 0 f.side).lastRefillTs = s.lastRefillTs := by
    intro s
    cases f.side <;> exact ⟨rfl, rfl⟩
  exact ⟨(hset _).1.trans hpnl.1, (hset _).2.trans hpnl.2⟩

theorem spends_onTradePrint (locate : ℕ) (e : Event) (info : Option OrderInfo) (d : Desk D) :
    Desk.Spends locate [] d (onTradePrint api e info d) := by
  have hsame : ∀ d' : Desk D, d'.submitted = d.submitted → d'.s.tokens = d.s.tokens →
      d'.s.lastRefillTs = d.s.lastRefillTs → d'.aggTokens = d.aggTokens →
      d'.lastAggRefill = d.lastAggRefill → Desk.Spends locate [] d d' := by
    intro d' hsub htokens hlast hagg hlastAgg
    exact ⟨by simp [hsub], by simp, by simp [htokens], Nat.zero_le _, by simp [hagg], Nat.zero_le _,
      hlast, hlastAgg⟩
  unfold onTradePrint
  cases info with
  | none => exact hsame d rfl rfl rfl rfl rfl
  | some info =>
    dsimp only
    split
    · exact hsame _ rfl (onFill_bucket _ _).1 (onFill_bucket _ _).2 rfl rfl
    · exact hsame _ rfl rfl rfl rfl rfl

theorem onTradePrint_submitted (e : Event) (info : Option OrderInfo) (d : Desk D) :
    (onTradePrint api e info d).submitted = d.submitted := by
  rw [(spends_onTradePrint 0 e info d).submitted, List.append_nil]

theorem runStrategy_killed (p : Params D) {g : Dispatcher api D} {shard : Shard}
    (h : g.killed shard = true) (ts : ℕ) :
    runStrategy p shard ts g = g.setDesk shard (g.desk shard).countSkipPanic.flatten := by
  have hkill : (g.globalKill || (g.desk shard).s.panic) = true := h
  rw [runStrategy, onBookEvent, if_pos hkill]

theorem step_atRest {p : Params D} {base g t : Dispatcher api D} {shard : Shard} {a : Action}
    (h : AtRest base shard g) (hstep : KilledStep p shard g a t) : AtRest base shard t := by
  obtain ⟨hstep, hkeeps⟩ := hstep
  cases hstep.effect with
  | control c => exact h.controls [c]
  | ignored during _ => exact h.controls during
  | @applied e during i a g₁ g₂ hs ht ha h₁ h₂ =>
    have hbook : AtRest base shard (g.setBook i a) := ⟨h.1, h.2, h.3, h.4⟩
    by_cases hi : shard = i
    · subst hi
      rw [onTradePrint_of_qty_zero (d := g.desk shard) h.qty] at h₁
      have hg₁ : AtRest base shard g₁ :=
        h₁ ▸ hbook.setDesk_self h.qty ⟨rfl, rfl, rfl, rfl⟩ rfl
      have hg₂ : AtRest base shard g₂ := h₂ ▸ hg₁.controls during
      have hkilled : g₂.killed shard = true := by
        rw [h₂, h₁]
        exact hkeeps.controls a rfl
      rw [runStrategy_killed p hkilled]
      refine hg₂.setDesk_self ?_ ?_ (Desk.flatten_submitted _)
      · intro side
        exact (Desk.flatten_qty _ side).mpr (.inr (hg₂.qty side))
      · have hkept := (g₂.desk shard).countSkipPanic.flatten_kept
        exact ⟨hkept.1, hkept.2, hkept.3, hkept.4⟩
    · have hg₁ : AtRest base shard g₁ :=
        h₁ ▸ hbook.setDesk_of_ne hi (sentFor_of_eq (onTradePrint_submitted e _ (g.desk i)))
      have hg₂ : AtRest base shard g₂ := h₂ ▸ hg₁.controls during
      exact hg₂.setDesk_of_ne hi (sentFor_onBookEvent ..)

section Prints

/-- A trade that an event prints: the side of the order that rested, price and quantity. -/
structure TradePrint where
  side : Side
  px : ℤ
  qty : ℤ
  deriving DecidableEq, Repr

def tradePrint (a : ItchBookAdapter api) (e : Event) : Option TradePrint :=
  (tradeInfo a e).map fun info =>
    ⟨info.side, if e.type = .executeWithPrice then api.toPriceTicks (e.price / 100) else info.px,
      api.toQuantity e.qty⟩

/-- The trade went through the price of our quote, or it was at that price and its quantity
covers the queue ahead and the whole quote. -/
def TradePrint.TakesAll (pr : TradePrint) (q : RestingQuote) : Prop :=
  0 < q.qty ∧ 0 < pr.qty ∧
    (FillSim.pxBetter pr.side q pr.px = true ∨ q.px = pr.px ∧ q.queueAhead + q.qty ≤ pr.qty)

/-- The trade was at the price of our quote and its quantity ends inside the quote. -/
def TradePrint.TakesPart (pr : TradePrint) (q : RestingQuote) : Prop :=
  0 < pr.qty ∧ q.px = pr.px ∧ q.queueAhead < pr.qty ∧ pr.qty < q.queueAhead + q.qty

instance (pr : TradePrint) (q : RestingQuote) : Decidable (pr.TakesAll q) :=
  inferInstanceAs (Decidable (_ ∧ _))

instance (pr : TradePrint) (q : RestingQuote) : Decidable (pr.TakesPart q) :=
  inferInstanceAs (Decidable (_ ∧ _))

/-- What a trade does to the quote of its side: it takes all of it, a part or nothing. -/
inductive TradePrint.Outcome (pr : TradePrint) (q : RestingQuote) : Option ℤ → ℤ → Prop
  | all (h : pr.TakesAll q) : Outcome pr q (some q.qty) 0
  | part {n : ℤ} (h : pr.TakesPart q) (hn : n ≠ q.qty) : Outcome pr q (some n) (q.qty - n)
  | passed (hall : ¬pr.TakesAll q) (hpart : ¬pr.TakesPart q) : Outcome pr q none q.qty

theorem TradePrint.onTrade_outcome (pr : TradePrint) (f : FillSim) (ts : ℕ) :
    pr.Outcome (f.quote pr.side) ((f.onTrade pr.side pr.px pr.qty ts).1.map Fill.qty)
      ((f.onTrade pr.side pr.px pr.qty ts).2.quote pr.side).qty := by
  simp only [FillSim.onTrade]
  split
  · rename_i hnone
    refine .passed (fun h => ?_) (fun h => ?_)
    · have := h.1
      have := h.2.1
      omega
    · have := h.2.2
      have := h.1
      omega
  · rename_i hpos
    simp only [not_or, not_le] at hpos
    by_cases hbetter : FillSim.pxBetter pr.side (f.quote pr.side) pr.px = true
    · have hne : (f.quote pr.side).qty ≠ 0 := ne_of_gt hpos.1
      simp only [hbetter, Bool.not_true, Bool.false_and, Bool.false_eq_true, ↓reduceIte,
        FillSim.reached, hne, Option.map_some, FillSim.quote_setQuote_self]
      exact .all ⟨hpos.1, hpos.2, .inl hbetter⟩
    · rw [Bool.not_eq_true] at hbetter
      by_cases hpx : (f.quote pr.side).px = pr.px
      · simp only [hbetter, hpx, Bool.not_false, ne_eq, not_true_eq_false, decide_false,
          Bool.and_false, Bool.false_eq_true, ↓reduceIte, FillSim.reached,
          FillSim.quote_setQuote_self]
        -- the trade first eats the queue ahead of the quote
        have hall := fun h : pr.TakesAll (f.quote pr.side) => h.2.2.resolve_left (by simp [hbetter])
        by_cases hreach : (f.quote pr.side).queueAhead < pr.qty
        · rw [min_eq_left hreach.le]
          by_cases hend : (f.quote pr.side).queueAhead + (f.quote pr.side).qty ≤ pr.qty
          · rw [min_eq_left (by omega), if_neg (ne_of_gt hpos.1), sub_self]
            exact .all ⟨hpos.1, hpos.2, .inr ⟨hpx, hend⟩⟩
          · rw [min_eq_right (by omega), if_neg (by omega)]
            exact .part (n := pr.qty - (f.quote pr.side).queueAhead)
              ⟨hpos.2, hpx, hreach, by omega⟩ (by omega)
        · have hzero : min (f.quote pr.side).qty
            (pr.qty - min (f.quote pr.side).queueAhead pr.qty) =
              0 := by omega
          rw [hzero, if_pos rfl, sub_zero]
          exact .passed (fun h => by have := (hall h).2; omega) (fun h => hreach h.2.2.1)
      · simp only [hbetter, hpx, Bool.not_false, ne_eq, not_false_eq_true, decide_true,
          Bool.and_true, ↓reduceIte, Option.map_none]
        refine .passed (fun h => ?_) (fun h => hpx h.2.1)
        rcases h.2.2 with h | h
        · rw [hbetter] at h
          cases h
        · exact hpx h.1

theorem onTrade_other (f : FillSim) {side side' : Side} (h : side' ≠ side) (px qty : ℤ) (ts : ℕ) :
    (f.onTrade side px qty ts).2.quote side' = f.quote side' ∧
      ∀ x ∈ (f.onTrade side px qty ts).1, x.side ≠ side' := by
  rcases f.onTrade_cases side px qty ts with hpass | ⟨n, q, -, -, -, -, htrade⟩
  · rw [hpass]
    exact ⟨rfl, fun x hx => by cases hx⟩
  · rw [htrade]
    refine ⟨FillSim.quote_setQuote_of_ne _ _ h, fun x hx => ?_⟩
    dsimp only at hx
    split at hx
    · cases hx
    · cases hx
      exact Ne.symm h

theorem onFill_resting (s : State D) (f : Fill) (side : Side) :
    (onFill s f).resting side = if f.side = side then 0 else s.resting side := by
  have hpnl : ∀ side, (applyFillPnl s f).resting side = s.resting side := by
    intro side
    unfold applyFillPnl
    dsimp only
    split <;> cases side <;> rfl
  have hset : (onFill s f).resting side =
    ((applyFillPnl s f).setResting 0 f.side).resting side := by
    cases side <;> rfl
  rw [hset]
  split
  · rename_i hside
    rw [hside, State.resting_setResting_self]
  · rename_i hside
    rw [State.resting_setResting_of_ne _ _ (Ne.symm hside), hpnl]

def Desk.onPrint (d : Desk D) (pr : TradePrint) (ts : ℕ) : Desk D :=
  match d.fsim.onTrade pr.side pr.px pr.qty ts with
  | (some f, fsim) => { d with fsim := fsim, s := onFill d.s f }
  | (none, fsim) => { d with fsim := fsim }

theorem onTradePrint_eq (a : ItchBookAdapter api) (e : Event) (d : Desk D) :
    onTradePrint api e (tradeInfo a e) d = (tradePrint a e).elim d fun pr => d.onPrint pr e.ts := by
  unfold tradePrint
  cases tradeInfo a e <;> rfl

/-- The strategy takes any fill for the end of its quote, so it loses sight of the quote exactly
if the print takes a part of it. -/
theorem Desk.onPrint_known_self (d : Desk D) (pr : TradePrint) (ts : ℕ) :
    ((d.onPrint pr ts).s.resting pr.side ≠ 0 ∨ ((d.onPrint pr ts).fsim.quote pr.side).qty = 0) ↔
      (d.fsim.quote pr.side).qty = 0 ∨ pr.TakesAll (d.fsim.quote pr.side) ∨
      (d.s.resting pr.side ≠ 0 ∧ ¬pr.TakesPart (d.fsim.quote pr.side)) := by
  have hout := pr.onTrade_outcome d.fsim ts
  have hfill : ∀ x ∈ (d.fsim.onTrade pr.side pr.px pr.qty ts).1, x.side = pr.side := by
    intro x hx
    by_contra hne
    exact (onTrade_other d.fsim hne pr.px pr.qty ts).2 x hx rfl
  unfold Desk.onPrint
  generalize d.fsim.onTrade pr.side pr.px pr.qty ts = r at hout hfill
  obtain ⟨o, fsim⟩ := r
  dsimp only at hout hfill
  cases o with
  | none =>
    generalize hqty : (fsim.quote pr.side).qty = n at hout
    cases hout with
    | passed hall hpart => simp [hall, hpart, or_comm]
  | some x =>
    have hgone : (onFill d.s x).resting pr.side = 0 := by
      rw [onFill_resting, if_pos (hfill x rfl)]
    generalize hqty : (fsim.quote pr.side).qty = n at hout
    rw [Option.map_some] at hout
    generalize hx : x.qty = m at hout
    simp only [hgone, ne_eq, not_true_eq_false, false_or]
    cases hout with
    | all h => simp [h]
    | part h hne =>
      have hpos : (d.fsim.quote pr.side).qty ≠ 0 := by
        have := h.2.2
        omega
      have hnotAll : ¬pr.TakesAll (d.fsim.quote pr.side) := by
        rintro ⟨-, -, hbetter | ⟨-, hend⟩⟩
        · cases hs : pr.side <;> simp [FillSim.pxBetter, hs, ← h.2.1] at hbetter
        · have := h.2.2.2
          omega
      simp only [hpos, hnotAll, h, not_true_eq_false, and_false, or_self, iff_false]
      omega

theorem Desk.onPrint_known (d : Desk D) (pr : TradePrint) (ts : ℕ) (side : Side) :
    ((d.onPrint pr ts).s.resting side ≠ 0 ∨ ((d.onPrint pr ts).fsim.quote side).qty = 0) ↔
      (d.fsim.quote side).qty = 0 ∨ (pr.side = side ∧ pr.TakesAll (d.fsim.quote side)) ∨
      (d.s.resting side ≠ 0 ∧ (pr.side = side → ¬pr.TakesPart (d.fsim.quote side))) := by
  by_cases hside : pr.side = side
  · subst hside
    simpa only [true_and, forall_const] using d.onPrint_known_self pr ts
  · obtain ⟨hquote, hfill⟩ := onTrade_other d.fsim (Ne.symm hside) pr.px pr.qty ts
    unfold Desk.onPrint
    generalize d.fsim.onTrade pr.side pr.px pr.qty ts = r at hquote hfill
    obtain ⟨o, fsim⟩ := r
    cases o with
    | none => simp [hside, hquote, or_comm]
    | some f =>
      have hf : f.side ≠ side := hfill f rfl
      simp [hside, hquote, onFill_resting, hf, or_comm]

end Prints

/-- After the event the strategy knows of what is left of the quote on the side: there was no
quote, the event's own print takes all of it, or the price of the quote is on record and the
print does not take a part of it. -/
def KnownQuote (g : Dispatcher api D) (shard : Shard) (e : Event) (side : Side) : Prop :=
  ((g.sims shard).quote side).qty = 0 ∨
  (∃ pr ∈ tradePrint (g.books shard) e, pr.side = side ∧ pr.TakesAll ((g.sims shard).quote side)) ∨
  ((g.states shard).resting side ≠ 0 ∧ ∀ pr ∈ tradePrint (g.books shard) e, pr.side = side →
    ¬pr.TakesPart ((g.sims shard).quote side))

instance (g : Dispatcher api D) (shard : Shard) (e : Event) (side : Side) :
    Decidable (KnownQuote g shard e side) := inferInstanceAs (Decidable (_ ∨ _))

theorem knownQuote_iff (g : Dispatcher api D) (shard : Shard) (e : Event) (side : Side) :
    KnownQuote g shard e side ↔
      (onTradePrint api e (tradeInfo (g.books shard) e) (g.desk shard)).s.resting side ≠ 0 ∨
      ((onTradePrint api e (tradeInfo (g.books shard) e) (g.desk shard)).fsim.quote side).qty =
        0 := by
  rw [onTradePrint_eq, KnownQuote]
  cases tradePrint (g.books shard) e with
  | none => simp [Dispatcher.desk, or_comm]
  | some pr =>
    simp only [Option.mem_some_iff, exists_eq_left', forall_eq', Option.elim_some]
    exact ((g.desk shard).onPrint_known pr e.ts side).symm

theorem killed_event_qty {p : Params D} {g t : Dispatcher api D} {shard : Shard} {e : Event}
    {during : List Control} (hs : shardForLocate e.stockLocate = some shard)
    (ht : e.type ≠ .other) (hstep : KilledStep p shard g (.event e during) t) (side : Side) :
    ((t.sims shard).quote side).qty = 0 ↔ KnownQuote g shard e side := by
  obtain ⟨hstep, hkeeps⟩ := hstep
  cases hstep.effect with
  | ignored _ hor =>
    rcases hor with hnone | hother
    · rw [hs] at hnone
      cases hnone
    · exact absurd hother ht
  | @applied _ _ i a g₁ g₂ hs' ht' ha h₁ h₂ =>
    obtain rfl : shard = i := Option.some.inj (hs.symm.trans hs')
    have hkilled : g₂.killed shard = true := by
      rw [h₂, h₁]
      exact hkeeps.controls a (onTradePrint_panic e _ (g.desk shard))
    obtain ⟨hsims, -, -, hstates⟩ := g₁.controls_frame during
    obtain ⟨b, hb⟩ := hstates shard
    have hsim : (g₂.desk shard).fsim =
        (onTradePrint api e (tradeInfo (g.books shard) e) (g.desk shard)).fsim := by
      change g₂.sims shard = _
      rw [h₂, hsims, h₁, Dispatcher.setDesk_sims_self]
    have hresting : ∀ side, (g₂.desk shard).s.resting side =
        (onTradePrint api e (tradeInfo (g.books shard) e) (g.desk shard)).s.resting side := by
      intro side
      change (g₂.states shard).resting side = _
      rw [h₂, hb, h₁, Dispatcher.setDesk_states_self]
      cases side <;> rfl
    rw [runStrategy_killed p hkilled, Dispatcher.setDesk_sims_self, Desk.flatten_qty,
      knownQuote_iff,
      ← hresting, ← hsim]
    cases side <;> exact Iff.rfl

/-- One further event after the kill puts the shard to rest, for as long as the flags
stay set, exactly if it finds no quote that the strategy has lost sight of. -/
theorem killSwitch_quiescent {p : Params D} {g t : Dispatcher api D} {shard : Shard} {e : Event}
    {during : List Control} (hs : shardForLocate e.stockLocate = some shard)
    (ht : e.type ≠ .other) (hstep : KilledStep p shard g (.event e during) t) :
    (∀ as u, Runs (KilledStep p shard) t as u →
      (∀ side, ((u.sims shard).quote side).qty = 0) ∧
      (∀ side px qty ts, ((u.sims shard).onTrade side px qty ts).1 = none) ∧
      (u.states shard).inventory = (t.states shard).inventory ∧
      (u.states shard).realizedPnlTicks = (t.states shard).realizedPnlTicks ∧
      u.submittedFor shard = t.submittedFor shard) ↔
    ∀ side, KnownQuote g shard e side := by
  constructor
  · intro h side
    exact (killed_event_qty hs ht hstep side).mp ((h [] t .nil).1 side)
  · intro h as u hr
    have hrest : AtRest t shard t :=
      ⟨fun side => (killed_event_qty hs ht hstep side).mpr (h side), rfl, rfl, rfl⟩
    have hu : AtRest t shard u := hr.invariant hrest fun _ _ _ => step_atRest
    refine ⟨hu.qty, ?_, hu.inventory, hu.realizedPnlTicks, hu.submittedFor⟩
    intro side px qty ts
    rw [onTrade_of_qty_zero hu.qty]

/-- Both sides are quoted, at 99 and 101 ticks behind 100 shares each, more shares join the bid,
and the shard is killed. -/
def quotedAndKilled : List Action :=
  [.event (addEvent 1 'B' 100 9900) [], .event (addEvent 2 'S' 100 10100) [],
    .event (addEvent 3 'B' 200 9900) [], .control (.kill aapl)]

/-- The first event after the kill takes the queue and all of the bid, and the ask is torn down:
100 shares stay in the inventory whatever follows. -/
theorem killSwitch_quiescent_bid_taken : ∃ g t : Dispatcher demoApi Float,
    Runs (Step Params.default) (Dispatcher.init demoApi Params.default) quotedAndKilled g ∧
    (∀ side, ((g.sims aapl).quote side).qty = 100) ∧
    KilledStep Params.default aapl g (.event (executeEvent 3 200) []) t ∧
    ∀ as u, Runs (KilledStep Params.default aapl) t as u →
      (∀ side, ((u.sims aapl).quote side).qty = 0) ∧ (u.states aapl).inventory = 100 := by
  have hrun : ∃ g ∈ quotedAndKilled.foldlM (step Params.default)
        (Dispatcher.init demoApi (Params.default : Params Float)),
      ∃ t ∈ step Params.default g (.event (executeEvent 3 200) []),
        g.killed aapl = true ∧ (t.states aapl).inventory = 100 ∧
        (((g.sims aapl).quote .buy).qty = 100 ∧ ((g.sims aapl).quote .sell).qty = 100) ∧
        KnownQuote g aapl (executeEvent 3 200) .buy ∧
        KnownQuote g aapl (executeEvent 3 200) .sell := by decide +kernel
  obtain ⟨g, hg, t, ht, hkilled, hinv, ⟨hbid, hask⟩, hknownBid, hknownAsk⟩ := hrun
  have hstep : KilledStep Params.default aapl g (.event (executeEvent 3 200) []) t :=
    ⟨ht, keepsKilled_event hkilled _⟩
  have hquiet := (killSwitch_quiescent (shardForLocate_locateOf aapl) (by decide) hstep).mpr
    (fun side => by cases side with
      | buy => exact hknownBid
      | sell => exact hknownAsk)
  refine ⟨g, t, Runs.of_foldlM hg, fun side => ?_, hstep, fun as u hr => ?_⟩
  · cases side with
    | buy => exact hbid
    | sell => exact hask
  · obtain ⟨hqty, -, hkept, -⟩ := hquiet as u hr
    exact ⟨hqty, hkept.trans hinv⟩

/-- Both sides are quoted, the queue ahead of the bid trades away, another order joins the bid,
and the shard is killed. -/
def firstInQueue : List Action :=
  [.event (addEvent 1 'B' 100 9900) [], .event (addEvent 2 'S' 100 10100) [],
    .event (executeEvent 1 100) [], .event (addEvent 3 'B' 100 9900) [], .control (.kill aapl)]

/-- A quote that is partially filled by the first event after the kill keeps its rest:
the next trade fills it and moves the inventory of the killed shard. -/
theorem killed_shard_fills :
    ∃ g t u : Dispatcher demoApi Float,
      Runs (Step Params.default) (Dispatcher.init demoApi Params.default) firstInQueue g ∧
      KilledStep Params.default aapl g (.event (executeEvent 3 40) []) t ∧
      KilledStep Params.default aapl t (.event (executeEvent 3 60) []) u ∧
      ((t.sims aapl).quote .buy).qty = 60 ∧ (t.states aapl).inventory = 40 ∧
      (u.states aapl).inventory = 100 := by
  have hrun : ∃ g ∈ firstInQueue.foldlM (step Params.default)
        (Dispatcher.init demoApi (Params.default : Params Float)),
      ∃ t ∈ step Params.default g (.event (executeEvent 3 40) []),
      ∃ u ∈ step Params.default t (.event (executeEvent 3 60) []),
        (g.killed aapl = true ∧ t.killed aapl = true) ∧
        ((t.sims aapl).quote .buy).qty = 60 ∧ (t.states aapl).inventory = 40 ∧
        (u.states aapl).inventory = 100 := by decide +kernel
  obtain ⟨g, hg, t, ht, u, hu, ⟨hgk, htk⟩, hvalues⟩ := hrun
  exact ⟨g, t, u, Runs.of_foldlM hg, ⟨ht, keepsKilled_event hgk _⟩, ⟨hu, keepsKilled_event htk _⟩,
    hvalues⟩

end TradingPipeline.Engine
