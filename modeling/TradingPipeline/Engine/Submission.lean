import TradingPipeline.Engine.Gateway

/-! # A refused submission

`engine_submit_quote` asks the risk gate before the ring. A gate that has accepted keeps the
order in its positions even if the ring then has no room, so the refusal leaves something
behind.
-/
namespace TradingPipeline.Engine
open Lib Book OrderRing

/-- The gate has at most been refilled, and ring, cursors and counter are as before. -/
structure Unchanged (w : Gateway) (nowNs : ℕ) (w' : Gateway) : Prop where
  positions : w'.risk.positions = w.risk.positions
  dailyNotional : w'.risk.dailyNotional = w.risk.dailyNotional
  risk : w'.risk = w.risk ∨ w'.risk = w.risk.inlineRefill nowNs
  oms : w'.oms = w.oms

/-- The gate accepts a new order that finds the ring full. -/
def Gateway.DropsAccepted (w : Gateway) (c : Submit) : Prop :=
  c.qty ≠ 0 ∧ (w.risk.checkAndFill c.signal).2 = true ∧ w.oms.full = true

/-- The order is stored under the number zero, which reads as a refusal: the counter has gone
once around its 64 bits. -/
def Gateway.StoresZero (w : Gateway) (c : Submit) : Prop :=
  (c.qty = 0 ∨ (w.risk.checkAndFill c.signal).2 = true) ∧ w.oms.full = false ∧
    w.oms.nextOrderId = 0

section Parts
variable {w : Gateway} {c : Submit}

theorem unchanged_of_risk {w' : Gateway} {nowNs : ℕ}
    (hrisk : w'.risk = w.risk ∨ w'.risk = w.risk.inlineRefill nowNs) (homs : w'.oms = w.oms) :
    Unchanged w nowNs w' := by
  have hframe : w'.risk.positions = w.risk.positions ∧
      w'.risk.dailyNotional = w.risk.dailyNotional := by
    rcases hrisk with h | h
    · rw [h]
      exact ⟨rfl, rfl⟩
    · obtain ⟨last, tokens, he⟩ := inlineRefill_frame w.risk nowNs
      rw [h, he]
      exact ⟨rfl, rfl⟩
  exact ⟨hframe.1, hframe.2, hrisk, homs⟩

theorem int64_pred_ne (t : ℤ) : int64 (t - 1) ≠ t := by
  rw [int64, Int.bmod_def]
  split <;> omega

theorem checkAndFill_ne {s : Signal} (h : (w.risk.checkAndFill s).2 = true) :
    (w.risk.checkAndFill s).1 ≠ w.risk ∧
      (w.risk.checkAndFill s).1 ≠ w.risk.inlineRefill s.parseNs.toNat := by
  generalize hr : w.risk = r at h ⊢
  unfold Risk.checkAndFill at h ⊢
  dsimp only at h ⊢
  split at h
  · next hok =>
    rw [if_pos hok]
    have hne := int64_pred_ne (r.inlineRefill s.parseNs.toNat).rlTokens
    refine ⟨fun he => ?_, fun he => hne (congrArg Risk.rlTokens he)⟩
    -- with the time of the last refill unchanged nothing was refilled
    have hlast : ((r.inlineRefill s.parseNs.toNat).fill s).rlLastNs = r.rlLastNs :=
      congrArg Risk.rlLastNs he
    simp only [Risk.fill] at hlast
    have htokens : int64 ((r.inlineRefill s.parseNs.toNat).rlTokens - 1) = r.rlTokens :=
      congrArg Risk.rlTokens he
    have hsame : (r.inlineRefill s.parseNs.toNat).rlTokens = r.rlTokens := by
      unfold Risk.inlineRefill at hlast ⊢
      split
      · rfl
      · next hprimed =>
        rw [if_neg hprimed] at hlast
        split
        · rfl
        · next hlt =>
          rw [if_neg hlt] at hlast
          split
          · rfl
          · next hadd =>
            rw [if_neg hadd] at hlast
            exact absurd hlast.le hlt
    exact hne (htokens.trans hsame.symm)
  · cases h

theorem engineSubmitQuote_refused (hq : c.qty ≠ 0)
    (hok : (w.risk.checkAndFill c.signal).2 = false) :
    (engineSubmitQuote w c).1.risk = w.risk.inlineRefill c.signal.parseNs.toNat ∧
      (engineSubmitQuote w c).1.oms = w.oms := by
  have hrefill : (w.risk.checkAndFill c.signal).1 = w.risk.inlineRefill c.signal.parseNs.toNat := by
    unfold Risk.checkAndFill at hok ⊢
    dsimp only at hok ⊢
    split at hok
    · cases hok
    · next hnot => rw [if_neg hnot]
  simp [engineSubmitQuote, hq, hok, hrefill]

theorem engineSubmitQuote_accepted (hq : c.qty ≠ 0)
    (hok : (w.risk.checkAndFill c.signal).2 = true) :
    (engineSubmitQuote w c).1.risk = (w.risk.checkAndFill c.signal).1 := by
  simp [engineSubmitQuote, hq, hok]

theorem engineSubmitQuote_cancel (hq : c.qty = 0) : (engineSubmitQuote w c).1.risk = w.risk := by
  simp [engineSubmitQuote, hq]

theorem engineSubmitQuote_full (hfull : w.oms.full = true) :
    (engineSubmitQuote w c).2 = false ∧ (engineSubmitQuote w c).1.oms = w.oms := by
  unfold engineSubmitQuote
  dsimp only
  simp only [Oms.submit_of_full hfull]
  split
  · simp
  · split <;> simp

theorem engineSubmitQuote_stored
    (hpass : c.qty = 0 ∨ (w.risk.checkAndFill c.signal).2 = true) (hroom : w.oms.full = false) :
    (engineSubmitQuote w c).2 = decide (w.oms.nextOrderId ≠ 0) ∧
      (engineSubmitQuote w c).1.oms.nextOrderId = (w.oms.nextOrderId + 1) % 2 ^ 64 := by
  have hsubmit := Oms.submit_of_room hroom
  unfold engineSubmitQuote
  dsimp only
  split
  · exact ⟨by rw [(hsubmit _).1], (hsubmit _).2⟩
  · next hq =>
    rw [if_pos (hpass.resolve_left hq)]
    exact ⟨by rw [(hsubmit _).1], (hsubmit _).2⟩

end Parts

/-- A submission that returns false leaves everything but a refill as it was, exactly when it is
not one that the gate has accepted and the ring refuses, and not one that is stored under the
number zero. -/
theorem submission_atomic_iff (w : Gateway) (c : Submit) :
    ((engineSubmitQuote w c).2 = false →
      Unchanged w c.signal.parseNs.toNat (engineSubmitQuote w c).1) ↔
    ¬w.DropsAccepted c ∧ ¬w.StoresZero c := by
  unfold Gateway.DropsAccepted Gateway.StoresZero
  by_cases hpass : c.qty = 0 ∨ (w.risk.checkAndFill c.signal).2 = true
  · cases hfull : w.oms.full with
    | true =>
      obtain ⟨hres, homs⟩ := engineSubmitQuote_full (c := c) hfull
      by_cases hq : c.qty = 0
      · refine iff_of_true (fun _ => unchanged_of_risk (.inl ?_) homs) ?_
        · exact engineSubmitQuote_cancel hq
        · exact ⟨fun h => h.1 hq, fun h => absurd h.2.1 (by decide)⟩
      · have hok := hpass.resolve_left hq
        refine iff_of_false (fun h => ?_) fun h => h.1 ⟨hq, hok, rfl⟩
        have hrisk := (h hres).risk
        rw [engineSubmitQuote_accepted hq hok] at hrisk
        exact hrisk.elim (checkAndFill_ne hok).1 (checkAndFill_ne hok).2
    | false =>
      obtain ⟨hres, hid⟩ := engineSubmitQuote_stored hpass hfull
      by_cases hzero : w.oms.nextOrderId = 0
      · refine iff_of_false (fun h => ?_) fun h => h.2 ⟨hpass, rfl, hzero⟩
        have homs := congrArg Oms.nextOrderId (h (by simp [hres, hzero])).oms
        rw [hid, hzero] at homs
        exact absurd homs (by decide)
      · refine iff_of_true (fun h => ?_) ⟨fun h => absurd h.2.2 (by decide), fun h => hzero h.2.2⟩
        rw [hres, decide_eq_false_iff_not] at h
        exact absurd hzero h
  · rw [not_or, Bool.not_eq_true] at hpass
    obtain ⟨hrisk, homs⟩ := engineSubmitQuote_refused hpass.1 hpass.2
    refine iff_of_true (fun _ => unchanged_of_risk (.inr hrisk) homs) ⟨?_, ?_⟩
    · rintro ⟨-, hok, -⟩
      rw [hpass.2] at hok
      cases hok
    · rintro ⟨hq | hok, -, -⟩
      · exact hpass.1 hq
      · rw [hpass.2] at hok
        cases hok

/-- The gate at its start, in front of a ring that the sender has not emptied. -/
def fullGateway : Gateway := ⟨.init, ⟨⟨orderToExcSize, 0, fun _ _ => 0⟩, 1⟩, []⟩

/-- An order for a hundred shares is refused and stays in the position. -/
theorem refused_order_booked :
    (engineSubmitQuote fullGateway ⟨13, .buy, 32000, 100, 5⟩).2 = false ∧
      fullGateway.risk.positions 13 = 0 ∧
      (engineSubmitQuote fullGateway ⟨13, .buy, 32000, 100, 5⟩).1.risk.positions 13 = 100 := by
  decide +kernel

end TradingPipeline.Engine
