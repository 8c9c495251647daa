import TradingPipeline.Engine.FillSim
import Mathlib.Algebra.BigOperators.Group.List.Basic
import Mathlib.Data.List.Induction

/-! # The queue position of a simulated quote

A quote is filled by what trades at its price beyond the quantity that was queued ahead of
it, or at once by a trade through its price. How the traded quantity is spread over prints
does not matter.
-/
namespace TradingPipeline.Engine
open Book

/-- A call of one of the three functions of `FillSim`. -/
inductive SimCall
  | quote (side : Side) (px qty queueAhead : ℤ)
  | cancel (side : Side)
  | trade (restingSide : Side) (px qty : ℤ) (ts : ℕ)
  deriving DecidableEq, Repr

namespace FillSim

def call (f : FillSim) : SimCall → Option Fill × FillSim
  | .quote side px qty queueAhead => (none, f.onQuote side px qty queueAhead)
  | .cancel side => (none, f.onCancel side)
  | .trade restingSide px qty ts => f.onTrade restingSide px qty ts

/-- The fills returned by a series of calls, oldest first, and the simulator after it. -/
def calls (f : FillSim) (cs : List SimCall) : List Fill × FillSim :=
  cs.foldl (fun r c => (r.1 ++ (r.2.call c).1.toList, (r.2.call c).2)) ([], f)

theorem calls_snoc (f : FillSim) (cs : List SimCall) (c : SimCall) :
    f.calls (cs ++ [c]) =
      ((f.calls cs).1 ++ ((f.calls cs).2.call c).1.toList, ((f.calls cs).2.call c).2) := by
  rw [calls, List.foldl_append]
  rfl

end FillSim

def filled (side : Side) (fills : List Fill) : ℤ :=
  ((fills.filter fun x => x.side = side).map (·.qty)).sum

/-- The quantity that a call prints on a side at a price. -/
def SimCall.tradedAt (side : Side) (px : ℤ) : SimCall → ℤ
  | .trade restingSide tradePx qty _ => if restingSide = side ∧ tradePx = px then qty else 0
  | _ => 0

def tradedAt (side : Side) (px : ℤ) (cs : List SimCall) : ℤ :=
  (cs.map (SimCall.tradedAt side px)).sum

/-- The call is a trade strictly through the price. -/
def SimCall.Through (side : Side) (px : ℤ) : SimCall → Prop
  | .trade .buy tradePx _ _ => side = .buy ∧ tradePx < px
  | .trade .sell tradePx _ _ => side = .sell ∧ px < tradePx
  | _ => False

/-- The call places and cancels nothing on the side, and what it trades there is positive. -/
def SimCall.Undisturbed (side : Side) : SimCall → Prop
  | .quote s _ _ _ => s ≠ side
  | .cancel s => s ≠ side
  | .trade s _ qty _ => s = side → 0 < qty

instance (side : Side) : DecidablePred (SimCall.Undisturbed side)
  | .quote s _ _ _ => inferInstanceAs (Decidable (s ≠ side))
  | .cancel s => inferInstanceAs (Decidable (s ≠ side))
  | .trade s _ qty _ => inferInstanceAs (Decidable (s = side → 0 < qty))

/-- What the fills of a side and the quote left there owe to the calls since a quote of `Q` at
`px` was placed behind `a`. -/
structure QueueLaw (side : Side) (px Q a : ℤ) (cs : List SimCall) (fills : List Fill)
    (q : RestingQuote) : Prop where
  conserved : filled side fills + q.qty = Q
  qty_nonneg : 0 ≤ q.qty
  queueAhead_nonneg : 0 ≤ q.queueAhead
  fill_px : ∀ x ∈ fills, x.side = side → x.px = px
  atLevel : (∀ c ∈ cs, ¬c.Through side px) →
    filled side fills = min Q (max 0 (tradedAt side px cs - a))
  through : (∃ c ∈ cs, c.Through side px) → filled side fills = Q

section Step
variable {side : Side} {px Q a : ℤ} {cs : List SimCall} {fills : List Fill} {f : FillSim}

/-- The law together with the place in the queue that carries it on. -/
structure Queued (side : Side) (px Q a : ℤ) (cs : List SimCall) (fills : List Fill)
    (q : RestingQuote) : Prop extends QueueLaw side px Q a cs fills q where
  px_eq : q.px = px
  ahead : (∀ c ∈ cs, ¬c.Through side px) → 0 < q.qty →
    q.queueAhead = max 0 (a - tradedAt side px cs)

theorem filled_append (side : Side) (xs ys : List Fill) :
    filled side (xs ++ ys) = filled side xs + filled side ys := by
  simp [filled]

theorem tradedAt_snoc (side : Side) (px : ℤ) (cs : List SimCall) (c : SimCall) :
    tradedAt side px (cs ++ [c]) = tradedAt side px cs + c.tradedAt side px := by
  simp [tradedAt]

theorem through_iff_pxBetter {q : RestingQuote} {tradePx qty : ℤ} {ts : ℕ} :
    (SimCall.trade side tradePx qty ts).Through side q.px ↔
      FillSim.pxBetter side q tradePx = true := by
  cases side <;> simp [SimCall.Through, FillSim.pxBetter]

theorem Queued.keep {q : RestingQuote} (h : Queued side px Q a cs fills q) {c : SimCall}
    (hthrough : ¬c.Through side px) (htraded : c.tradedAt side px = 0) {new : List Fill}
    (hnew : ∀ x ∈ new, x.side ≠ side) : Queued side px Q a (cs ++ [c]) (fills ++ new) q := by
  have hfilled : filled side (fills ++ new) = filled side fills := by
    have hnone : new.filter (fun x => x.side = side) = [] := by
      apply List.filter_eq_nil_iff.mpr
      simpa using hnew
    simp [filled, hnone]
  have hvol : tradedAt side px (cs ++ [c]) = tradedAt side px cs := by
    rw [tradedAt_snoc, htraded, Int.add_zero]
  have hno : (∀ x ∈ cs ++ [c], ¬x.Through side px) → ∀ x ∈ cs, ¬x.Through side px :=
    fun hall x hx => hall x (List.mem_append_left _ hx)
  constructor
  · constructor
    · rw [hfilled]
      exact h.conserved
    · exact h.qty_nonneg
    · exact h.queueAhead_nonneg
    · intro x hx hside
      rcases List.mem_append.mp hx with hx | hx
      · exact h.fill_px x hx hside
      · exact absurd hside (hnew x hx)
    · intro hall
      rw [hfilled, hvol]
      exact h.atLevel (hno hall)
    · rintro ⟨x, hx, hxt⟩
      rw [hfilled]
      rcases List.mem_append.mp hx with hx | hx
      · exact h.through ⟨x, hx, hxt⟩
      · exact absurd (List.mem_singleton.mp hx ▸ hxt) hthrough
  · exact h.px_eq
  · intro hall
    rw [hvol]
    exact h.ahead (hno hall)

theorem Queued.exhausted {q : RestingQuote} (h : Queued side px Q a cs fills q)
    (hqty : q.qty = 0) {c : SimCall} (hc : 0 ≤ c.tradedAt side px) :
    Queued side px Q a (cs ++ [c]) fills q := by
  have hall : filled side fills = Q := by
    have hsum := h.conserved
    omega
  constructor
  · constructor
    · exact h.conserved
    · exact h.qty_nonneg
    · exact h.queueAhead_nonneg
    · exact h.fill_px
    · intro hno
      have hlevel := h.atLevel fun x hx => hno x (List.mem_append_left _ hx)
      rw [tradedAt_snoc]
      omega
    · exact fun _ => hall
  · exact h.px_eq
  · intro _ hpos
    omega

/-- The fill that a trade reports for a quantity `n` taken off the quote. -/
def report (side : Side) (px n : ℤ) (ts : ℕ) : List Fill :=
  (if n = 0 then none else some ⟨side, px, n, ts⟩ : Option Fill).toList

theorem filled_report (side : Side) (px n : ℤ) (ts : ℕ) :
    filled side (report side px n ts) = n := by
  unfold report
  split
  · next hn => exact hn.symm
  · simp [filled]

theorem report_px {px n : ℤ} {ts : ℕ} {x : Fill} (h : x ∈ report side px n ts) : x.px = px := by
  unfold report at h
  split at h
  · cases h
  · rw [Option.toList_some, List.mem_singleton] at h
    rw [h]

theorem Queued.move {q q' : RestingQuote} (h : Queued side px Q a cs fills q) {c : SimCall} {n : ℤ}
    {ts : ℕ} (hmove : n + q'.qty = q.qty) (hqty : 0 ≤ q'.qty) (hahead : 0 ≤ q'.queueAhead)
    (hpx : q'.px = q.px)
    (hlevel : (∀ x ∈ cs ++ [c], ¬x.Through side px) →
      filled side fills + n = min Q (max 0 (tradedAt side px (cs ++ [c]) - a)) ∧
        (0 < q'.qty → q'.queueAhead = max 0 (a - tradedAt side px (cs ++ [c]))))
    (hthrough : (∃ x ∈ cs ++ [c], x.Through side px) → q'.qty = 0) :
    Queued side px Q a (cs ++ [c]) (fills ++ report side q.px n ts) q' := by
  have hfilled : filled side (fills ++ report side q.px n ts) = filled side fills + n := by
    rw [filled_append, filled_report]
  have hsum := h.conserved
  constructor
  · constructor
    · rw [hfilled]
      omega
    · exact hqty
    · exact hahead
    · intro x hx hside
      rcases List.mem_append.mp hx with hx | hx
      · exact h.fill_px x hx hside
      · rw [report_px hx, h.px_eq]
    · intro hall
      rw [hfilled]
      exact (hlevel hall).1
    · intro hex
      have hzero := hthrough hex
      omega
  · rw [hpx, h.px_eq]
  · exact fun hall => (hlevel hall).2

theorem Queued.swept {q : RestingQuote} (h : Queued side px Q a cs fills q) {tradePx qty : ℤ}
    {ts : ℕ} (hbetter : FillSim.pxBetter side q tradePx = true) :
    Queued side px Q a (cs ++ [.trade side tradePx qty ts])
      (fills ++ report side q.px (FillSim.reached q true qty).1 ts)
      (FillSim.reached q true qty).2 := by
  have hthrough : (SimCall.trade side tradePx qty ts).Through side px :=
    h.px_eq ▸ through_iff_pxBetter.mpr hbetter
  exact h.move (Int.add_zero _) le_rfl le_rfl rfl
    (fun hall => absurd hthrough (hall _ (by simp))) (fun _ => rfl)

theorem Queued.level {q : RestingQuote} (h : Queued side px Q a cs fills q) (hpos : 0 < q.qty)
    {qty : ℤ} (hqty : 0 < qty) (ts : ℕ) :
    Queued side px Q a (cs ++ [.trade side px qty ts])
      (fills ++ report side q.px (FillSim.reached q false qty).1 ts)
      (FillSim.reached q false qty).2 := by
  have hnot : ¬(SimCall.trade side px qty ts).Through side px := by
    cases side <;> simp [SimCall.Through]
  have hvol : tradedAt side px (cs ++ [.trade side px qty ts]) = tradedAt side px cs + qty := by
    rw [tradedAt_snoc]
    simp [SimCall.tradedAt]
  have hahead := h.queueAhead_nonneg
  have hsum := h.conserved
  obtain ⟨-, hleft, hmove⟩ := FillSim.reached_spec false qty hpos
  refine h.move hmove hleft ?_ rfl ?_ ?_
  · simp only [FillSim.reached, Bool.false_eq_true, ↓reduceIte]
    omega
  · intro hall
    have hbefore : ∀ x ∈ cs, ¬x.Through side px := fun x hx => hall x (List.mem_append_left _ hx)
    have hfilled := h.atLevel hbefore
    have hqueue := h.ahead hbefore hpos
    rw [hvol]
    simp only [FillSim.reached, Bool.false_eq_true, ↓reduceIte]
    constructor
    · omega
    · intro hrest
      omega
  · rintro ⟨x, hx, hxt⟩
    -- an earlier trade through the price would have left nothing
    have hx : x ∈ cs := by
      rcases List.mem_append.mp hx with hx | hx
      · exact hx
      · exact absurd (List.mem_singleton.mp hx ▸ hxt) hnot
    have hall := h.through ⟨x, hx, hxt⟩
    omega

theorem Queued.trade (h : Queued side px Q a cs fills (f.quote side)) {tradePx qty : ℤ} (ts : ℕ)
    (hqty : 0 < qty) :
    Queued side px Q a (cs ++ [.trade side tradePx qty ts])
      (fills ++ (f.onTrade side tradePx qty ts).1.toList)
      ((f.onTrade side tradePx qty ts).2.quote side) := by
  have hnonneg := h.qty_nonneg
  have hpx := h.px_eq
  simp only [FillSim.onTrade]
  split
  · next hnone =>
    rw [Option.toList_none, List.append_nil]
    refine h.exhausted (by omega) ?_
    simp only [SimCall.tradedAt]
    split <;> omega
  · next hsome =>
    cases hbetter : FillSim.pxBetter side (f.quote side) tradePx with
    | true =>
      simp only [Bool.not_true, Bool.false_and, Bool.false_eq_true, ↓reduceIte,
        FillSim.quote_setQuote_self]
      exact h.swept hbetter
    | false =>
      by_cases heq : (f.quote side).px = tradePx
      · simp only [Bool.not_false, heq, ne_eq, not_true_eq_false, decide_false, Bool.and_false,
          Bool.false_eq_true, ↓reduceIte, FillSim.quote_setQuote_self]
        have hlevel := h.level (by omega) hqty ts
        rw [← hpx, heq] at hlevel ⊢
        exact hlevel
      · simp only [Bool.not_false, Bool.true_and, decide_eq_true_eq, ne_eq, heq, not_false_eq_true,
          ↓reduceIte, Option.toList_none]
        refine h.keep ?_ ?_ (by simp)
        · rw [← hpx, through_iff_pxBetter, hbetter]
          exact Bool.false_ne_true
        · rw [SimCall.tradedAt, if_neg]
          rintro ⟨-, htrade⟩
          exact heq (hpx.trans htrade.symm)

theorem Queued.call (h : Queued side px Q a cs fills (f.quote side)) {c : SimCall}
    (hc : c.Undisturbed side) :
    Queued side px Q a (cs ++ [c]) (fills ++ (f.call c).1.toList) ((f.call c).2.quote side) := by
  cases c with
  | quote s p n b =>
    have hquote : ((f.call (.quote s p n b)).2.quote side) = f.quote side :=
      FillSim.quote_setQuote_of_ne f _ (Ne.symm hc)
    rw [hquote]
    exact h.keep (by simp [SimCall.Through]) rfl (by simp [FillSim.call])
  | cancel s =>
    have hquote : ((f.call (.cancel s)).2.quote side) = f.quote side :=
      FillSim.quote_setQuote_of_ne f _ (Ne.symm hc)
    rw [hquote]
    exact h.keep (by simp [SimCall.Through]) rfl (by simp [FillSim.call])
  | trade s p n ts =>
    by_cases hs : s = side
    · subst hs
      exact h.trade ts (hc rfl)
    · -- a trade of the other side fills, if anything, a quote of that side
      rcases f.onTrade_cases s p n ts with hpass | ⟨k, q, -, -, -, -, htrade⟩
      · simp only [FillSim.call, hpass]
        refine h.keep ?_ (by simp [SimCall.tradedAt, hs]) (by simp)
        cases s <;> simp [SimCall.Through, Ne.symm hs]
      · simp only [FillSim.call, htrade, FillSim.quote_setQuote_of_ne f q (Ne.symm hs)]
        refine h.keep ?_ (by simp [SimCall.tradedAt, hs]) ?_
        · cases s <;> simp [SimCall.Through, Ne.symm hs]
        · intro x hx
          split at hx
          · cases hx
          · rw [Option.toList_some, List.mem_singleton] at hx
            rw [hx]
            exact hs

end Step

/-- After every series of calls that neither places nor cancels a quote on the side, the quote
obeys the law of its queue position. -/
theorem queue_position_law (f : FillSim) (side : Side) (px : ℤ) {Q a : ℤ} (hQ : 0 ≤ Q) (ha : 0 ≤ a)
    {cs : List SimCall} (hcs : ∀ c ∈ cs, c.Undisturbed side) :
    QueueLaw side px Q a cs ((f.onQuote side px Q a).calls cs).1
      (((f.onQuote side px Q a).calls cs).2.quote side) := by
  suffices h : Queued side px Q a cs ((f.onQuote side px Q a).calls cs).1
      (((f.onQuote side px Q a).calls cs).2.quote side) from h.toQueueLaw
  induction cs using List.reverseRecOn with
  | nil =>
    have hquote : (((f.onQuote side px Q a).calls []).2.quote side) = ⟨px, Q, a⟩ :=
      FillSim.quote_setQuote_self f _ side
    rw [hquote]
    constructor
    · exact ⟨by simp [filled, FillSim.calls], hQ, ha, by simp [FillSim.calls],
        fun _ => by simp [filled, FillSim.calls, tradedAt, ha, hQ], by simp⟩
    · rfl
    · intro _ _
      simp [tradedAt, ha]
  | append_singleton cs c ih =>
    have hprev := ih fun x hx => hcs x (List.mem_append_left _ hx)
    rw [FillSim.calls_snoc]
    exact hprev.call (hcs c (by simp))

/-- Two prints at the price of a quote, and between them a print on the other side. -/
def samplePrints : List SimCall :=
  [.trade .buy 50 20 1, .trade .sell 60 5 2, .trade .buy 50 40 3]

theorem queue_position_law_samplePrints :
    QueueLaw .buy 50 100 30 samplePrints
      ((({} : FillSim).onQuote .buy 50 100 30).calls samplePrints).1
      (((({} : FillSim).onQuote .buy 50 100 30).calls samplePrints).2.quote .buy) ∧
    filled .buy ((({} : FillSim).onQuote .buy 50 100 30).calls samplePrints).1 = 30 :=
  ⟨queue_position_law {} .buy 50 (by decide) (by decide) (by decide), by decide⟩

end TradingPipeline.Engine
