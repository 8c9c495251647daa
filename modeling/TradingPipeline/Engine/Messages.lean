import TradingPipeline.Engine.MarketMaker

/-! # What the strategy sends

`on_book_event` sends at most one message per side: it withdraws the quote of a blocked
side or places a new one. Either takes a token out of both buckets. The inversions here
say so once for the four places that send.
-/
namespace TradingPipeline.Engine
open Lib Book

variable {D : Type}

/-- What the strategy and the fill simulator hold on one side. -/
def Desk.side (d : Desk D) (side : Side) : ℤ × RestingQuote :=
  (d.s.resting side, d.fsim.quote side)

structure Desk.Quiet (d d' : Desk D) : Prop where
  tokens : d'.s.tokens = d.s.tokens
  lastRefillTs : d'.s.lastRefillTs = d.s.lastRefillTs
  aggTokens : d'.aggTokens = d.aggTokens
  lastAggRefill : d'.lastAggRefill = d.lastAggRefill
  submitted : d'.submitted = d.submitted
  side : ∀ side, d'.side side = d.side side

structure Desk.Sent (side : Side) (m : Submit) (v : ℤ × RestingQuote) (d d' : Desk D) : Prop where
  paid : 0 < d.s.tokens
  aggPaid : 0 < d.aggTokens
  tokens : d'.s.tokens = d.s.tokens - 1
  lastRefillTs : d'.s.lastRefillTs = d.s.lastRefillTs
  aggTokens : d'.aggTokens = d.aggTokens - 1
  lastAggRefill : d'.lastAggRefill = d.lastAggRefill
  submitted : d'.submitted = d.submitted ++ [m]
  self : d'.side side = v
  other : ∀ side', side' ≠ side → d'.side side' = d.side side'

namespace Desk

theorem Quiet.refl (d : Desk D) : d.Quiet d := ⟨rfl, rfl, rfl, rfl, rfl, fun _ => rfl⟩

theorem Quiet.trans {d₁ d₂ d₃ : Desk D} (h : d₁.Quiet d₂) (h' : d₂.Quiet d₃) : d₁.Quiet d₃ :=
  ⟨h'.tokens.trans h.tokens, h'.lastRefillTs.trans h.lastRefillTs, h'.aggTokens.trans h.aggTokens,
    h'.lastAggRefill.trans h.lastAggRefill, h'.submitted.trans h.submitted,
    fun side => (h'.side side).trans (h.side side)⟩

theorem quiet_of_state {d : Desk D} {s : State D} (htokens : s.tokens = d.s.tokens)
    (hlast : s.lastRefillTs = d.s.lastRefillTs)
    (hresting : ∀ side, s.resting side = d.s.resting side) : d.Quiet { d with s := s } :=
  ⟨htokens, hlast, rfl, rfl, rfl, fun side => by rw [Desk.side, hresting]; rfl⟩

theorem countHardBand_quiet (block : Bool) (d : Desk D) : d.Quiet (d.countHardBand block) := by
  unfold countHardBand
  split
  · exact quiet_of_state rfl rfl (fun side => by cases side <;> rfl)
  · exact .refl d

theorem countQuotedBoth_quiet (d : Desk D) : d.Quiet d.countQuotedBoth := by
  unfold countQuotedBoth
  split
  · exact quiet_of_state rfl rfl (fun side => by cases side <;> rfl)
  · exact .refl d

def canSend (d : Desk D) : Prop := 0 < d.s.tokens ∧ 0 < d.aggTokens

theorem tryConsumeMsg_eq_none {d : Desk D} (h : d.tryConsumeMsg = none) : ¬d.canSend := by
  unfold tryConsumeMsg at h
  split at h
  · rename_i hempty
    rintro ⟨htokens, hagg⟩
    omega
  · cases h

theorem sent_of_consume {d d' : Desk D} (h : d.tryConsumeMsg = some d') (side : Side) (m : Submit)
    (px : ℤ) (q : RestingQuote) {d'' : Desk D} (hfsim : d''.fsim = d'.fsim.setQuote q side)
    (hresting : ∀ side', d''.s.resting side' = (d'.s.setResting px side).resting side')
    (hsub : d''.submitted = d'.submitted ++ [m]) (htokens : d''.s.tokens = d'.s.tokens)
    (hlast : d''.s.lastRefillTs = d'.s.lastRefillTs) (hagg : d''.aggTokens = d'.aggTokens)
    (hlastAgg : d''.lastAggRefill = d'.lastAggRefill) : Sent side m (px, q) d d'' := by
  obtain ⟨hpos, hpos', rfl⟩ := tryConsumeMsg_eq_some h
  refine ⟨hpos, hpos', htokens, hlast, hagg, hlastAgg, hsub, ?_, fun side' hne => ?_⟩
  · rw [Desk.side, hfsim, hresting, State.resting_setResting_self, FillSim.quote_setQuote_self]
  · rw [Desk.side, hfsim, hresting, State.resting_setResting_of_ne _ _ hne,
      FillSim.quote_setQuote_of_ne _ _ hne]
    cases side' <;> rfl

theorem cancelBlocked_cases (locate ts : ℕ) (side : Side) (block : Bool) (d : Desk D) :
    (d.Quiet (d.cancelBlocked locate ts side block) ∧
      (d.canSend → block = false ∨ d.s.resting side = 0)) ∨
    (block = true ∧ d.s.resting side ≠ 0 ∧
      Sent side ⟨locate, side, d.s.resting side, 0, ts⟩ (0, {}) d
        (d.cancelBlocked locate ts side block)) := by
  unfold cancelBlocked
  by_cases hblock : (block && decide (d.s.resting side ≠ 0)) = true
  · rw [if_pos hblock]
    rw [Bool.and_eq_true, decide_eq_true_iff] at hblock
    cases hconsume : d.tryConsumeMsg with
    | none => exact .inl ⟨.refl d, fun hcan => absurd hcan (tryConsumeMsg_eq_none hconsume)⟩
    | some d' =>
      refine .inr ⟨hblock.1, hblock.2, ?_⟩
      have hresting : d'.s.resting side = d.s.resting side := by
        obtain ⟨-, -, rfl⟩ := tryConsumeMsg_eq_some hconsume
        cases side <;> rfl
      have hkept : ∀ s : State D, (s.setResting 0 side).tokens = s.tokens ∧
          (s.setResting 0 side).lastRefillTs = s.lastRefillTs := by
        intro s
        cases side <;> exact ⟨rfl, rfl⟩
      dsimp only
      rw [hresting]
      exact sent_of_consume hconsume side _ 0 {} rfl (fun _ => rfl) rfl (hkept d'.s).1
        (hkept d'.s).2
        rfl rfl
  · rw [if_neg hblock]
    refine .inl ⟨.refl d, fun _ => ?_⟩
    rw [Bool.and_eq_true, decide_eq_true_iff, not_and, not_not] at hblock
    cases block with
    | false => exact .inl rfl
    | true => exact .inr (hblock rfl)

theorem quoteSide_cases (p : Params D) (top : TopOfBook) (locate ts : ℕ) (side : Side) (px : ℤ)
    (wanted : Bool) (d : Desk D) :
    (d.Quiet (d.quoteSide p top locate ts side px wanted) ∧ (d.canSend → wanted = false)) ∨
    (wanted = true ∧ ∃ qa, Sent side ⟨locate, side, px, p.quoteQty, ts⟩
      (px, ⟨px, p.quoteQty, qa⟩) d (d.quoteSide p top locate ts side px wanted)) := by
  unfold quoteSide
  cases wanted with
  | false => exact .inl ⟨.refl d, fun _ => rfl⟩
  | true =>
    rw [if_pos rfl]
    cases hconsume : d.tryConsumeMsg with
    | none =>
      refine .inl ⟨quiet_of_state rfl rfl (fun side => by cases side <;> rfl), fun hcan => ?_⟩
      exact absurd hcan (tryConsumeMsg_eq_none hconsume)
    | some d' =>
      refine .inr ⟨rfl, _,
        sent_of_consume hconsume side _ px _ rfl (fun side' => ?_) rfl ?_ ?_ rfl rfl⟩
      · cases side' <;> rfl
      · cases side <;> rfl
      · cases side <;> rfl

end Desk

section Spending

/-- Messages were sent for one stock, each paid for from both buckets. -/
structure Desk.Spends (locate : ℕ) (new : List Submit) (d d' : Desk D) : Prop where
  submitted : d'.submitted = d.submitted ++ new
  locate : ∀ m ∈ new, m.locate = locate
  tokens : d'.s.tokens = d.s.tokens - new.length
  paid : new.length ≤ d.s.tokens.toNat
  aggTokens : d'.aggTokens = d.aggTokens - new.length
  aggPaid : new.length ≤ d.aggTokens.toNat
  lastRefillTs : d'.s.lastRefillTs = d.s.lastRefillTs
  lastAggRefill : d'.lastAggRefill = d.lastAggRefill

namespace Desk

theorem Quiet.spends {d d' : Desk D} (h : d.Quiet d') (locate : ℕ) : Spends locate [] d d' where
  submitted := by rw [h.submitted, List.append_nil]
  locate _ hm := absurd hm List.not_mem_nil
  tokens := by rw [h.tokens]; simp
  paid := Nat.zero_le _
  aggTokens := by rw [h.aggTokens]; simp
  aggPaid := Nat.zero_le _
  lastRefillTs := h.lastRefillTs
  lastAggRefill := h.lastAggRefill

theorem Sent.spends {side : Side} {m : Submit} {v : ℤ × RestingQuote} {d d' : Desk D}
    (h : Sent side m v d d') : Spends m.locate [m] d d' where
  submitted := h.submitted
  locate m' hm := by rw [List.mem_singleton.mp hm]
  tokens := h.tokens
  paid := by
    have := h.paid
    rw [List.length_singleton]
    omega
  aggTokens := h.aggTokens
  aggPaid := by
    have := h.aggPaid
    rw [List.length_singleton]
    omega
  lastRefillTs := h.lastRefillTs
  lastAggRefill := h.lastAggRefill

theorem Spends.trans {locate : ℕ} {l l' : List Submit} {d₁ d₂ d₃ : Desk D}
    (h : Spends locate l d₁ d₂) (h' : Spends locate l' d₂ d₃) : Spends locate (l ++ l') d₁ d₃ := by
  have htokens := h.tokens
  have htokens' := h'.tokens
  have hagg := h.aggTokens
  have hagg' := h'.aggTokens
  have hpaid := h.paid
  have hpaid' := h'.paid
  have haggPaid := h.aggPaid
  have haggPaid' := h'.aggPaid
  refine ⟨?_, ?_, ?_, ?_, ?_, ?_, h'.lastRefillTs.trans h.lastRefillTs,
    h'.lastAggRefill.trans h.lastAggRefill⟩
  · rw [h'.submitted, h.submitted, List.append_assoc]
  · intro m hm
    rcases List.mem_append.mp hm with hm | hm
    · exact h.locate m hm
    · exact h'.locate m hm
  all_goals
    rw [List.length_append]
    omega

theorem cancelBlocked_spends (locate ts : ℕ) (side : Side) (block : Bool) (d : Desk D) :
    ∃ l, Spends locate l d (d.cancelBlocked locate ts side block) := by
  rcases cancelBlocked_cases locate ts side block d with ⟨h, -⟩ | ⟨-, -, h⟩
  · exact ⟨_, h.spends locate⟩
  · exact ⟨_, h.spends⟩

theorem quoteSide_spends (p : Params D) (top : TopOfBook) (locate ts : ℕ) (side : Side) (px : ℤ)
    (wanted : Bool) (d : Desk D) :
    ∃ l, Spends locate l d (d.quoteSide p top locate ts side px wanted) := by
  rcases quoteSide_cases p top locate ts side px wanted d with ⟨h, -⟩ | ⟨-, qa, h⟩
  · exact ⟨_, h.spends locate⟩
  · exact ⟨_, h.spends⟩

theorem flattenSide_spends (locate : ℕ) (side : Side) (d : Desk D) :
    Spends locate [] d (d.flattenSide side) := by
  unfold flattenSide
  split
  · cases side <;> exact ⟨by simp, by simp, by simp [State.setResting], Nat.zero_le _, by simp,
      Nat.zero_le _, rfl, rfl⟩
  · exact (Quiet.refl d).spends locate

theorem flatten_spends (locate : ℕ) (d : Desk D) : Spends locate [] d d.flatten :=
  (d.flattenSide_spends locate .buy).trans ((d.flattenSide .buy).flattenSide_spends locate .sell)

end Desk

end Spending

section Sides

/-- The messages sent so far for one side of a stock. -/
def Desk.sentOn (d : Desk D) (locate : ℕ) (side : Side) : List Submit :=
  d.submitted.filter fun m => m.locate = locate ∧ m.side = side

/-- What one run of the strategy may do to a side: leave it, withdraw its quote, or place a
new one at `px`. -/
inductive SideMove (p : Params D) (locate ts : ℕ) (side : Side) (px : ℤ)
    (old : ℤ × RestingQuote) : List Submit → ℤ × RestingQuote → Prop
  | kept : SideMove p locate ts side px old [] old
  | cancelled (h : old.1 ≠ 0) :
      SideMove p locate ts side px old [⟨locate, side, old.1, 0, ts⟩] (0, {})
  | quoted (qa : ℤ) (hneed : requoteNeeded p px old.1 = true) :
      SideMove p locate ts side px old [⟨locate, side, px, p.quoteQty, ts⟩]
        (px, ⟨px, p.quoteQty, qa⟩)

/-- Nothing happened on the side of the stock. -/
structure Desk.Passes (locate : ℕ) (side : Side) (d d' : Desk D) : Prop where
  held : d'.side side = d.side side
  sentOn : d'.sentOn locate side = d.sentOn locate side

namespace Desk

theorem Passes.trans {locate : ℕ} {side : Side} {d₁ d₂ d₃ : Desk D}
    (h : Passes locate side d₁ d₂) (h' : Passes locate side d₂ d₃) : Passes locate side d₁ d₃ :=
  ⟨h'.held.trans h.held, h'.sentOn.trans h.sentOn⟩

theorem Quiet.passes {d d' : Desk D} (h : d.Quiet d') (locate : ℕ) (side : Side) :
    Passes locate side d d' := ⟨h.side side, by rw [Desk.sentOn, h.submitted]; rfl⟩

theorem Sent.passes {side side' : Side} {m : Submit} {v : ℤ × RestingQuote} {d d' : Desk D}
    (h : Sent side m v d d') (hm : m.side = side) (hne : side' ≠ side) (locate : ℕ) :
    Passes locate side' d d' := by
  refine ⟨h.other side' hne, ?_⟩
  have hother : ¬(m.locate = locate ∧ m.side = side') := by
    rintro ⟨-, hside⟩
    exact hne (hside.symm.trans hm)
  rw [Desk.sentOn, h.submitted, List.filter_append, List.filter_cons_of_neg (by simpa using hother),
    List.filter_nil, List.append_nil]
  rfl

theorem Sent.sentOn {side : Side} {m : Submit} {v : ℤ × RestingQuote} {d d' : Desk D}
    (h : Sent side m v d d') (hm : m.side = side) :
    d'.sentOn m.locate side = d.sentOn m.locate side ++ [m] := by
  rw [Desk.sentOn, h.submitted, List.filter_append, List.filter_cons_of_pos (by simp [hm]),
    List.filter_nil]
  rfl

theorem cancelBlocked_passes (locate ts : ℕ) {side side' : Side} (h : side' ≠ side) (block : Bool)
    (d : Desk D) : Passes locate side' d (d.cancelBlocked locate ts side block) := by
  rcases cancelBlocked_cases locate ts side block d with ⟨hq, -⟩ | ⟨-, -, hs⟩
  · exact hq.passes locate side'
  · exact hs.passes rfl h locate

theorem quoteSide_passes (p : Params D) (top : TopOfBook) (locate ts : ℕ) {side side' : Side}
    (h : side' ≠ side) (px : ℤ) (wanted : Bool) (d : Desk D) :
    Passes locate side' d (d.quoteSide p top locate ts side px wanted) := by
  rcases quoteSide_cases p top locate ts side px wanted d with ⟨hq, -⟩ | ⟨-, qa, hs⟩
  · exact hq.passes locate side'
  · exact hs.passes rfl h locate

/-- A side is withdrawn or quoted, not both: a blocked side is not wanted. -/
theorem sideMove_of_chain {p : Params D} {top : TopOfBook} {locate ts : ℕ} {side : Side} {px : ℤ}
    {block wanted : Bool} {d₀ d₁ d₂ d₃ : Desk D} (h₁ : Passes locate side d₀ d₁)
    (h₂ : Passes locate side (d₁.cancelBlocked locate ts side block) d₂)
    (h₃ : Passes locate side (d₂.quoteSide p top locate ts side px (wanted && !block)) d₃)
    (hwanted : wanted = true → requoteNeeded p px (d₀.side side).1 = true) :
    ∃ l, d₃.sentOn locate side = d₀.sentOn locate side ++ l ∧
      SideMove p locate ts side px (d₀.side side) l (d₃.side side) := by
  rcases cancelBlocked_cases locate ts side block d₁ with ⟨hq, -⟩ | ⟨hblock, hne, hs⟩
  · have hbefore := (h₁.trans (hq.passes locate side)).trans h₂
    rcases quoteSide_cases p top locate ts side px (wanted && !block) d₂ with
      ⟨hq', -⟩ | ⟨hquote, qa, hs'⟩
    · have hall := (hbefore.trans (hq'.passes locate side)).trans h₃
      refine ⟨[], by rw [hall.sentOn, List.append_nil], ?_⟩
      rw [hall.held]
      exact .kept
    · have hsent : d₃.sentOn locate side = d₀.sentOn locate side ++
          [⟨locate, side, px, p.quoteQty, ts⟩] := by
        rw [h₃.sentOn, ← hbefore.sentOn]
        exact hs'.sentOn rfl
      refine ⟨_, hsent, ?_⟩
      rw [h₃.held, hs'.self]
      exact .quoted qa (hwanted (Bool.and_eq_true_iff.mp hquote).1)
  · have hquiet : Quiet d₂ (d₂.quoteSide p top locate ts side px (wanted && !block)) := by
      rw [hblock, Bool.not_true, Bool.and_false]
      exact .refl d₂
    have hafter := (h₂.trans (hquiet.passes locate side)).trans h₃
    have hresting : d₁.s.resting side = (d₀.side side).1 := congrArg Prod.fst h₁.held
    have hsent : d₃.sentOn locate side = d₀.sentOn locate side ++
        [⟨locate, side, (d₀.side side).1, 0, ts⟩] := by
      rw [hafter.sentOn, ← h₁.sentOn, ← hresting]
      exact hs.sentOn rfl
    refine ⟨_, hsent, ?_⟩
    rw [hafter.held, hs.self]
    exact .cancelled (hresting ▸ hne)

end Desk

end Sides

variable [DoubleArith D]

theorem Desk.updateEma_quiet (p : Params D) (mid : D) (d : Desk D) :
    d.Quiet { d with s := updateEma p mid d.s } := by
  unfold updateEma
  split <;> exact quiet_of_state rfl rfl (fun side => by cases side <;> rfl)

/-- The price that a run of the strategy may quote on a side. -/
def sidePx (bidPx askPx : ℤ) : Side → ℤ
  | .buy => bidPx
  | .sell => askPx

theorem requote_spends (p : Params D) (top : TopOfBook) (locate ts : ℕ) (bidPx askPx : ℤ)
    (d : Desk D) : ∃ l, Desk.Spends locate l d (requote p top locate ts bidPx askPx d) := by
  have h₀ := (d.countHardBand_quiet
    (blocked p d.s.inventory .buy || blocked p d.s.inventory .sell)).spends locate
  obtain ⟨l₁, h₁⟩ := Desk.cancelBlocked_spends locate ts .buy (blocked p d.s.inventory .buy)
    (d.countHardBand (blocked p d.s.inventory .buy || blocked p d.s.inventory .sell))
  obtain ⟨l₂, h₂⟩ := Desk.cancelBlocked_spends locate ts .sell (blocked p d.s.inventory .sell) _
  obtain ⟨l₃, h₃⟩ := Desk.quoteSide_spends p top locate ts .buy bidPx
    (requoteNeeded p bidPx d.s.restingBid && !blocked p d.s.inventory .buy) _
  obtain ⟨l₄, h₄⟩ := Desk.quoteSide_spends p top locate ts .sell askPx
    (requoteNeeded p askPx d.s.restingAsk && !blocked p d.s.inventory .sell) _
  exact ⟨_, ((((h₀.trans h₁).trans h₂).trans h₃).trans h₄).trans
    ((Desk.countQuotedBoth_quiet _).spends locate)⟩

theorem requote_sideMove (p : Params D) (top : TopOfBook) (locate ts : ℕ) (bidPx askPx : ℤ)
    (d : Desk D) (side : Side) : ∃ l,
    (requote p top locate ts bidPx askPx d).sentOn locate side = d.sentOn locate side ++ l ∧
      SideMove p locate ts side (sidePx bidPx askPx side) (d.side side) l
        ((requote p top locate ts bidPx askPx d).side side) := by
  have hhard := (d.countHardBand_quiet
    (blocked p d.s.inventory .buy || blocked p d.s.inventory .sell)).passes locate side
  have hboth := fun d : Desk D => d.countQuotedBoth_quiet.passes locate side
  cases side with
  | buy =>
    exact Desk.sideMove_of_chain hhard (Desk.cancelBlocked_passes locate ts (by decide) _ _)
      ((Desk.quoteSide_passes p top locate ts (by decide) _ _ _).trans (hboth _)) id
  | sell =>
    exact Desk.sideMove_of_chain (hhard.trans (Desk.cancelBlocked_passes locate ts (by decide) _ _))
      (Desk.quoteSide_passes p top locate ts (by decide) _ _ _) (hboth _) id

/-- The book has two sides that do not cross: the strategy computes a mid. -/
structure TopOfBook.TwoSided (top : TopOfBook) : Prop where
  hasBid : top.hasBid = true
  hasAsk : top.hasAsk = true
  uncrossed : top.bestBidPrice < top.bestAskPrice

instance (top : TopOfBook) : Decidable top.TwoSided :=
  decidable_of_iff (top.hasBid = true ∧ top.hasAsk = true ∧ top.bestBidPrice < top.bestAskPrice)
    ⟨fun h => ⟨h.1, h.2.1, h.2.2⟩, fun h => ⟨h.1, h.2, h.3⟩⟩

def midOf (top : TopOfBook) : D :=
  DoubleArith.lit (1 / 2) * DoubleArith.ofInt (top.bestBidPrice + top.bestAskPrice)

/-- The prices that the strategy would quote at a state, before they are checked. -/
def ownPrices (p : Params D) (top : TopOfBook) (s : State D) : ℤ × ℤ :=
  targetPrices p (midOf top) (updateEma p (midOf top) s)

theorem ownPrices_refillBuckets (p : Params D) (top : TopOfBook) (ts : ℕ) (d : Desk D) :
    ownPrices p top (d.refillBuckets p ts).s = ownPrices p top d.s := by
  unfold ownPrices updateEma Desk.refillBuckets
  cases d.s.emaInit <;> simp [targetPrices]

inductive BookEvent (p : Params D) (top : TopOfBook) (locate : ℕ) (globalKill : Bool) (ts : ℕ)
    (d : Desk D) : Desk D → Prop
  | killed (h : globalKill = true ∨ d.s.panic = true) :
      BookEvent p top locate globalKill ts d d.countSkipPanic.flatten
  | skipped {d'} (hk : globalKill = false) (hp : d.s.panic = false)
      (h : (d.refillBuckets p ts).Quiet d') (hkept : d.s.Kept d'.s) :
      BookEvent p top locate globalKill ts d d'
  | panicked {d₁} (hk : globalKill = false) (hp : d.s.panic = false)
      (h : (d.refillBuckets p ts).Quiet d₁)
        (hband : beyondBand p p.panicBandFrac d.s.inventory = true)
      (hpanic : d₁.s.panic = true) : BookEvent p top locate globalKill ts d d₁.flatten
  | requoted {d₁ bidPx askPx} (hk : globalKill = false) (hp : d.s.panic = false)
      (h : (d.refillBuckets p ts).Quiet d₁) (hkept : d.s.Kept d₁.s)
      (hpx : ownPrices p top d.s = (bidPx, askPx)) (hpos : 0 < bidPx) (hlt : bidPx < askPx)
      (htop : top.TwoSided) :
      BookEvent p top locate globalKill ts d (requote p top locate ts bidPx askPx d₁)

theorem onBookEvent_cases (p : Params D) (top : TopOfBook) (locate : ℕ) (globalKill : Bool)
    (ts : ℕ) (d : Desk D) :
    BookEvent p top locate globalKill ts d (onBookEvent p top locate globalKill ts d) := by
  unfold onBookEvent
  by_cases hkill : (globalKill || d.s.panic) = true
  · rw [if_pos hkill]
    exact .killed (by simpa using hkill)
  · rw [if_neg hkill]
    simp only [Bool.or_eq_true, not_or, Bool.not_eq_true] at hkill
    obtain ⟨hk, hp⟩ := hkill
    dsimp only
    split
    · exact .skipped hk hp (Desk.quiet_of_state rfl rfl (fun side => by cases side <;> rfl))
        ⟨rfl, rfl, rfl, rfl⟩
    · rename_i hsides
      split
      · exact .skipped hk hp (Desk.quiet_of_state rfl rfl (fun side => by cases side <;> rfl))
          ⟨rfl, rfl, rfl, rfl⟩
      · rename_i hcross
        have htop : top.TwoSided := by
          simp only [Bool.or_eq_true, Bool.not_eq_true', not_or, Bool.not_eq_false] at hsides
          exact ⟨hsides.1, hsides.2, not_le.mp hcross⟩
        unfold onTopOfBook
        dsimp only
        have hown : targetPrices p (midOf top) (updateEma p (midOf top) (d.refillBuckets p ts).s) =
            ownPrices p top d.s := ownPrices_refillBuckets p top ts d
        have hmid : (DoubleArith.lit (1 / 2) *
            DoubleArith.ofInt (top.bestBidPrice + top.bestAskPrice) : D) = midOf top := rfl
        rw [hmid]
        generalize (midOf top : D) = mid at hown ⊢
        have hema := Desk.updateEma_quiet p mid (d.refillBuckets p ts)
        have hkept : d.s.Kept (updateEma p mid (d.refillBuckets p ts).s) := by
          have h := updateEma_kept p mid (d.refillBuckets p ts).s
          exact ⟨h.1, h.2, h.3, h.4⟩
        split
        · rename_i hband
          rw [hkept.inventory] at hband
          exact .panicked hk hp
            (hema.trans (Desk.quiet_of_state rfl rfl (fun side => by cases side <;> rfl)))
            hband rfl
        · split
          · exact .skipped hk hp
              (hema.trans (Desk.quiet_of_state rfl rfl (fun side => by cases side <;> rfl)))
              ⟨hkept.1, hkept.2, hkept.3, hkept.4⟩
          · rename_i hpx
            rw [not_or, not_le, ge_iff_le, not_le] at hpx
            exact .requoted hk hp hema hkept hown.symm hpx.1 hpx.2 htop

omit [DoubleArith D] in
theorem SideMove.length_le {p : Params D} {locate ts : ℕ} {side : Side} {px : ℤ}
    {old new : ℤ × RestingQuote} {l : List Submit} (h : SideMove p locate ts side px old l new) :
    l.length ≤ 1 := by
  cases h <;> simp

theorem requote_submits_le (p : Params D) (top : TopOfBook) (locate ts : ℕ) (bidPx askPx : ℤ)
    (d : Desk D) :
    ∃ new, (requote p top locate ts bidPx askPx d).submitted = d.submitted ++ new ∧
      new.length ≤ 2 := by
  obtain ⟨new, hspends⟩ := requote_spends p top locate ts bidPx askPx d
  have hside : ∀ side, (new.filter fun m => m.locate = locate ∧ m.side = side).length ≤ 1 := by
    intro side
    obtain ⟨l, hsent, hmove⟩ := requote_sideMove p top locate ts bidPx askPx d side
    rw [Desk.sentOn, hspends.submitted, List.filter_append, Desk.sentOn,
      List.append_cancel_left_eq] at hsent
    rw [hsent]
    exact hmove.length_le
  refine ⟨new, hspends.submitted, ?_⟩
  have hsplit := List.length_eq_length_filter_add (l := new)
    fun m => decide (m.locate = locate ∧ m.side = .buy)
  have hsell : (new.filter fun m => !decide (m.locate = locate ∧ m.side = .buy)) =
      new.filter fun m => m.locate = locate ∧ m.side = .sell := by
    refine List.filter_congr fun m hm => ?_
    rw [hspends.locate m hm]
    cases m.side <;> simp
  rw [hsell] at hsplit
  have hbuy := hside .buy
  have hsell := hside .sell
  omega

theorem onBookEvent_submits_le (p : Params D) (top : TopOfBook) (locate : ℕ) (globalKill : Bool)
    (ts : ℕ) (d : Desk D) :
    ∃ new, (onBookEvent p top locate globalKill ts d).submitted = d.submitted ++ new ∧
      new.length ≤ 2 := by
  have hcases := onBookEvent_cases p top locate globalKill ts d
  generalize onBookEvent p top locate globalKill ts d = d' at hcases ⊢
  have hrefill : (d.refillBuckets p ts).submitted = d.submitted := rfl
  cases hcases with
  | killed => exact ⟨[], by rw [(Desk.flatten_spends locate _).submitted]; rfl, Nat.zero_le 2⟩
  | skipped _ _ h => exact ⟨[], by rw [h.submitted, hrefill, List.append_nil], Nat.zero_le 2⟩
  | panicked _ _ h =>
    refine ⟨[], ?_, Nat.zero_le 2⟩
    rw [(Desk.flatten_spends locate _).submitted, h.submitted, hrefill]
  | requoted _ _ h =>
    rw [← hrefill, ← h.submitted]
    exact requote_submits_le p top locate ts _ _ _

theorem onBookEvent_spends (p : Params D) (top : TopOfBook) (locate : ℕ) (globalKill : Bool)
    (ts : ℕ) (d : Desk D) :
    ((globalKill = true ∨ d.s.panic = true) ∧
      Desk.Spends locate [] d (onBookEvent p top locate globalKill ts d)) ∨
    ((globalKill = false ∧ d.s.panic = false) ∧ ∃ l,
      Desk.Spends locate l (d.refillBuckets p ts) (onBookEvent p top locate globalKill ts d)) := by
  have hcases := onBookEvent_cases p top locate globalKill ts d
  generalize onBookEvent p top locate globalKill ts d = d' at hcases ⊢
  cases hcases with
  | killed h =>
    have hcount : d.Quiet d.countSkipPanic :=
      Desk.quiet_of_state rfl rfl (fun side => by cases side <;> rfl)
    exact .inl ⟨h, (hcount.spends locate).trans (Desk.flatten_spends locate _)⟩
  | skipped hk hp h => exact .inr ⟨⟨hk, hp⟩, [], h.spends locate⟩
  | panicked hk hp h =>
    exact .inr ⟨⟨hk, hp⟩, [], (h.spends locate).trans (Desk.flatten_spends locate _)⟩
  | @requoted d₁ bidPx askPx hk hp h =>
    obtain ⟨l, hl⟩ := requote_spends p top locate ts bidPx askPx d₁
    exact .inr ⟨⟨hk, hp⟩, [] ++ l, (h.spends locate).trans hl⟩

end TradingPipeline.Engine
