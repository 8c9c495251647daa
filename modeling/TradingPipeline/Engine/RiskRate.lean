import TradingPipeline.Engine.Risk

/-! # The rate of the risk gate

The token bucket of `risk::check_and_fill` as a bucket of the library: a call refills it
from its own time stamp and an accepted order takes one token.
-/
namespace TradingPipeline.Engine
open Lib Book

@[irreducible] def nsPerSec : ℕ := 1000000000

theorem nsPerSec_eq : nsPerSec = 1000000000 := by
  unfold nsPerSec
  rfl

theorem nsPerSec_pos : 0 < nsPerSec := by
  rw [nsPerSec_eq]
  decide

section RiskBucket
variable {r : Risk}

def Risk.bucket (r : Risk) : Bucket := ⟨r.rlLastNs, r.rlTokens⟩

/-- The products of the refills along the calls stay below `2 ^ 64`. -/
def ElapsedFits (r : Risk) : List Signal → Prop
  | [] => True
  | s :: sigs =>
    (r.rlLastNs ≠ unprimed → (s.parseNs.toNat - r.rlLastNs) * r.rlOrdersPerSec < 2 ^ 64) ∧
      ElapsedFits (r.checkAndFill s).1 sigs

theorem inlineRefill_draws (h : RiskInv r) (hprimed : r.rlLastNs ≠ unprimed) {ts : ℕ}
    (hfit : (ts - r.rlLastNs) * r.rlOrdersPerSec < 2 ^ 64) :
    Draws r.rlOrdersPerSec nsPerSec r.bucket ts 0 (r.inlineRefill ts).bucket := by
  have hadd := refillAdd_eq r ts
  rw [Nat.mod_eq_of_lt hfit, Nat.mul_comm, ← nsPerSec_eq] at hadd
  have htokens := h.tokens_nonneg
  rcases inlineRefill_cases htokens h.tokens_le h.burst_lt ts with
    ⟨hp, _⟩ | ⟨_, hkept, he⟩ | ⟨_, hlt, hpos, he⟩
  · exact absurd hp hprimed
  · rw [he]
    refine ⟨by rw [Nat.zero_add]; exact Nat.le_add_right _ _, .inl ⟨rfl, ?_⟩⟩
    rcases hkept with hle | hzero
    · rw [Risk.bucket, Nat.sub_eq_zero_of_le hle, Nat.mul_zero, Nat.zero_div]
    · rw [hadd, Int.natCast_nonpos_iff] at hzero
      exact hzero
  · rw [he]
    refine ⟨?_, .inr ⟨Nat.le_of_lt hlt, rfl⟩⟩
    simp only [Risk.bucket]
    omega

/-- The token that an accepted signal takes. -/
def Risk.taken (r : Risk) (s : Signal) : ℕ := if (r.checkAndFill s).2 then 1 else 0

theorem checkAndFill_bucket (h : RiskInv r) (s : Signal) :
    r.taken s ≤ (r.inlineRefill s.parseNs.toNat).rlTokens.toNat ∧
    (r.checkAndFill s).1.bucket = ⟨(r.inlineRefill s.parseNs.toNat).bucket.last,
      (r.inlineRefill s.parseNs.toNat).bucket.tokens - r.taken s⟩ ∧
    (r.checkAndFill s).1.rlOrdersPerSec = r.rlOrdersPerSec ∧
    (r.checkAndFill s).1.rlBurst = r.rlBurst := by
  have hrefill := inlineRefill_riskInv h s.parseNs.toNat
  obtain ⟨last, tokens, hframe⟩ := inlineRefill_frame r s.parseNs.toNat
  unfold Risk.taken
  by_cases hok : (r.inlineRefill s.parseNs.toNat).ok s = true
  · have hcheck : r.checkAndFill s = ((r.inlineRefill s.parseNs.toNat).fill s, true) := if_pos hok
    have hpos := ((ok_iff hrefill s).mp hok).1
    rw [hcheck, fill_eq hrefill hok, hframe]
    rw [hframe] at hpos
    dsimp only at hpos
    refine ⟨?_, rfl, rfl, rfl⟩
    simp only [if_true]
    omega
  · have hcheck : r.checkAndFill s = (r.inlineRefill s.parseNs.toNat, false) := if_neg hok
    rw [hcheck, hframe]
    refine ⟨Nat.zero_le _, ?_, rfl, rfl⟩
    simp [Risk.bucket]

theorem checkAndFill_recent (h : RiskInv r) {s : Signal} (hts : s.parseNs.toNat ≠ unprimed)
    (hfit : r.rlLastNs ≠ unprimed →
      (s.parseNs.toNat - r.rlLastNs) * r.rlOrdersPerSec < 2 ^ 64) :
    r.rlOrdersPerSec * (s.parseNs.toNat - (r.checkAndFill s).1.bucket.last) / nsPerSec = 0 ∧
      (r.checkAndFill s).1.rlLastNs ≠ unprimed := by
  obtain ⟨_, hbucket, _, _⟩ := checkAndFill_bucket h s
  have hlast : (r.checkAndFill s).1.rlLastNs = (r.inlineRefill s.parseNs.toNat).rlLastNs :=
    congrArg Bucket.last hbucket
  rw [Risk.bucket, hlast]
  by_cases hprimed : r.rlLastNs = unprimed
  · have hnow : (r.inlineRefill s.parseNs.toNat).rlLastNs = s.parseNs.toNat := by
      rw [Risk.inlineRefill, if_pos hprimed]
    rw [hnow, Nat.sub_self, Nat.mul_zero, Nat.zero_div]
    exact ⟨rfl, hts⟩
  · have hdraw := inlineRefill_draws h hprimed (hfit hprimed)
    refine ⟨hdraw.recent, ?_⟩
    rcases hdraw.last with ⟨hkept, _⟩ | ⟨_, hnow⟩
    · have hkept' : (r.inlineRefill s.parseNs.toNat).rlLastNs = r.rlLastNs := hkept
      rwa [hkept']
    · have hnow' : (r.inlineRefill s.parseNs.toNat).rlLastNs = s.parseNs.toNat := hnow
      rwa [hnow']

theorem acceptedSignals_cons (r : Risk) (s : Signal) (sigs : List Signal) :
    (acceptedSignals r ((s :: sigs).map .checkAndFill)).length =
      r.taken s + (acceptedSignals (r.checkAndFill s).1 (sigs.map .checkAndFill)).length := by
  rw [List.map_cons, acceptedSignals, Risk.taken]
  split
  · rw [List.length_cons, Nat.add_comm]
  · rw [Nat.zero_add]

theorem accepted_le_budget {sigs : List Signal} {T : ℕ} (h : RiskInv r)
    (hprimed : r.rlLastNs ≠ unprimed)
    (hts : ∀ s ∈ sigs, s.parseNs.toNat ≠ unprimed ∧ s.parseNs.toNat ≤ T)
    (hfit : ElapsedFits r sigs) :
    (acceptedSignals r (sigs.map .checkAndFill)).length ≤
      r.bucket.budget r.rlOrdersPerSec nsPerSec T := by
  induction sigs generalizing r with
  | nil => exact Nat.zero_le _
  | cons s sigs ih =>
    obtain ⟨hts₀, htsrest⟩ := List.forall_mem_cons.mp hts
    obtain ⟨hfit₀, hfitrest⟩ := hfit
    obtain ⟨hpaid, hbucket, hrate, _⟩ := checkAndFill_bucket h s
    have hdraw := (inlineRefill_draws h hprimed (hfit₀ hprimed)).spend hpaid
    have hlast := (checkAndFill_recent h hts₀.1 hfit₀).2
    have hrest := ih (checkAndFill_riskInv h s) hlast htsrest hfitrest
    rw [hbucket, hrate] at hrest
    have hle := hdraw.budget_le hts₀.2
    rw [acceptedSignals_cons]
    omega

theorem risk_rate_cap {s : Signal} {sigs : List Signal} {T : ℕ} (h : RiskInv r)
    (hts : ∀ x ∈ s :: sigs, x.parseNs.toNat ≠ unprimed ∧ x.parseNs.toNat ≤ T)
    (hfit : ElapsedFits r (s :: sigs)) :
    (acceptedSignals r ((s :: sigs).map .checkAndFill)).length ≤
      r.rlBurst + 1 + r.rlOrdersPerSec * (T - s.parseNs.toNat) / nsPerSec := by
  obtain ⟨hts₀, htsrest⟩ := List.forall_mem_cons.mp hts
  obtain ⟨hfit₀, hfitrest⟩ := hfit
  obtain ⟨hpaid, hbucket, hrate, _⟩ := checkAndFill_bucket h s
  have hrefill := inlineRefill_riskInv h s.parseNs.toNat
  obtain ⟨last, tokens, hframe⟩ := inlineRefill_frame r s.parseNs.toNat
  have hburst : (r.inlineRefill s.parseNs.toNat).rlBurst = r.rlBurst := by rw [hframe]
  have hrecent := checkAndFill_recent h hts₀.1 hfit₀
  have hrest := accepted_le_budget (checkAndFill_riskInv h s) hrecent.2 htsrest hfitrest
  have hcap : r.taken s + (r.checkAndFill s).1.bucket.tokens.toNat ≤ r.rlBurst := by
    have hle := hrefill.tokens_le
    have hnonneg := hrefill.tokens_nonneg
    have htokens : (r.inlineRefill s.parseNs.toNat).bucket.tokens =
        (r.inlineRefill s.parseNs.toNat).rlTokens := rfl
    rw [hburst] at hle
    rw [hbucket, htokens]
    dsimp only
    omega
  have hbudget := budget_after_call hcap hrecent.1 nsPerSec_pos T
  rw [hrate] at hrest
  rw [acceptedSignals_cons]
  omega

end RiskBucket

end TradingPipeline.Engine
