import Mathlib.Tactic.LinearCombination
import TradingPipeline.Lib.TokenBucket

/-! # Refill schedules

A bucket below its cap is refilled at a series of times. Each refill that credits whole
tokens drops the fraction behind them. The tokens at the end fall short of those of one
refill exactly if the dropped fractions, with the last one, make up a token.
-/
namespace TradingPipeline.Lib
namespace Bucket

/-- A refill below the cap: the time of the last refill moves with whole tokens only. -/
def credit (R U : ℕ) (b : Bucket) (t : ℕ) : Bucket :=
  if R * (t - b.last) / U = 0 then b else ⟨t, b.tokens + (R * (t - b.last) / U : ℕ)⟩

/-- What the refills at the times drop, in parts of one in `U` of a token. -/
def dropped (R U : ℕ) : Bucket → List ℕ → ℕ
  | _, [] => 0
  | b, t :: ts =>
    (if R * (t - b.last) / U = 0 then 0 else R * (t - b.last) % U) +
      dropped R U (b.credit R U t) ts

/-- The fractions that the refills at `ts` drop stay below one token, together with the
fraction that a last refill at `t` leaves. -/
def FractionsFit (R U : ℕ) (b : Bucket) (ts : List ℕ) (t : ℕ) : Prop :=
  b.dropped R U ts + R * (t - (ts.foldl (credit R U) b).last) % U < U

variable {R U t T : ℕ} {b : Bucket} {ts : List ℕ}

theorem credit_tokens (R U t : ℕ) (b : Bucket) :
    (b.credit R U t).tokens = b.tokens + (R * (t - b.last) / U : ℕ) := by
  unfold credit
  split
  case isTrue h => rw [h, Nat.cast_zero, add_zero]
  case isFalse => rfl

theorem credit_tokens_nonneg (R U t : ℕ) (h0 : 0 ≤ b.tokens) : 0 ≤ (b.credit R U t).tokens := by
  rw [credit_tokens]
  exact add_nonneg h0 (Int.natCast_nonneg _)

theorem credit_last (hle : b.last ≤ t) :
    b.last ≤ (b.credit R U t).last ∧ (b.credit R U t).last ≤ t := by
  unfold credit
  split
  · exact ⟨le_rfl, hle⟩
  · exact ⟨hle, le_rfl⟩

theorem credit_draws (hle : b.last ≤ t) (h0 : 0 ≤ b.tokens) :
    Draws R U b t 0 (b.credit R U t) := by
  refine ⟨?_, ?_⟩
  · rw [credit_tokens, Int.toNat_add h0 (Int.natCast_nonneg _), Int.toNat_natCast, Nat.zero_add]
  · unfold credit
    split
    case isTrue h => exact .inl ⟨rfl, h⟩
    case isFalse => exact .inr ⟨hle, rfl⟩

theorem credit_balance (hle : b.last ≤ t) :
    (U * (b.credit R U t).tokens +
      (if R * (t - b.last) / U = 0 then 0 else R * (t - b.last) % U : ℕ) : ℤ) =
      U * b.tokens + R * ((b.credit R U t).last - b.last) := by
  unfold credit
  split
  · simp
  · have hdiv := Nat.div_add_mod (R * (t - b.last)) U
    have hcast : ((R * (t - b.last) : ℕ) : ℤ) = R * ((t : ℤ) - b.last) := by
      rw [Nat.cast_mul, Nat.cast_sub hle]
    rw [← hcast, mul_add, add_assoc]
    congr 1
    exact_mod_cast hdiv

theorem foldl_credit_balance (hsorted : ts.Pairwise (· ≤ ·)) (hfirst : ∀ t ∈ ts, b.last ≤ t) :
    (U * (ts.foldl (credit R U) b).tokens + b.dropped R U ts : ℤ) =
      U * b.tokens + R * ((ts.foldl (credit R U) b).last - b.last) := by
  induction ts generalizing b with
  | nil => simp [dropped]
  | cons t ts ih =>
    obtain ⟨ht, hts⟩ := List.pairwise_cons.mp hsorted
    have hle : b.last ≤ t := hfirst t List.mem_cons_self
    have hrest : ∀ u ∈ ts, (b.credit R U t).last ≤ u := by
      intro u hu
      exact (credit_last hle).2.trans (ht u hu)
    have hone := credit_balance (R := R) (U := U) hle
    have hall := ih hts hrest
    rw [List.foldl_cons, dropped, Nat.cast_add]
    linear_combination hone + hall

theorem foldl_credit_last (hsorted : ts.Pairwise (· ≤ ·)) (hfirst : ∀ t ∈ ts, b.last ≤ t)
    (hT : ∀ t ∈ ts, t ≤ T) (hb : b.last ≤ T) : (ts.foldl (credit R U) b).last ≤ T := by
  induction ts generalizing b with
  | nil => exact hb
  | cons t ts ih =>
    obtain ⟨ht, hts⟩ := List.pairwise_cons.mp hsorted
    have hlast := (credit_last (R := R) (U := U) (hfirst t List.mem_cons_self)).2
    apply ih hts
    · intro u hu
      exact hlast.trans (ht u hu)
    · intro u hu
      exact hT u (List.mem_cons_of_mem t hu)
    · exact hlast.trans (hT t List.mem_cons_self)

theorem add_div_eq_iff {U : ℕ} (hU : 0 < U) (D X : ℕ) : (D + X) / U = X / U ↔ D + X % U < U := by
  have hsplit : D + X = (D + X % U) + U * (X / U) := by
    have := Nat.mod_add_div X U
    omega
  rw [hsplit, Nat.add_mul_div_left _ _ hU, Nat.add_eq_right, Nat.div_eq_zero_iff]
  omega

/-- Refills at `ts` and then at `t` leave as many tokens as one refill at `t` exactly if the
fractions stay below a token. -/
theorem schedule_iff (hU : 0 < U) (hsorted : ts.Pairwise (· ≤ ·))
    (hfirst : ∀ u ∈ ts, b.last ≤ u) (hlast : ∀ u ∈ ts, u ≤ t) (hb : b.last ≤ t) :
    ((ts.foldl (credit R U) b).credit R U t).tokens = (b.credit R U t).tokens ↔
      b.FractionsFit R U ts t := by
  have hbalance := foldl_credit_balance (R := R) (U := U) hsorted hfirst
  have hle := foldl_credit_last (R := R) (U := U) hsorted hfirst hlast hb
  rw [credit_tokens, credit_tokens, FractionsFit, ← add_div_eq_iff hU]
  generalize ts.foldl (credit R U) b = b' at hbalance hle ⊢
  -- the time up to `t` is that of the schedule and the rest
  have htotal : ((R * (t - b.last) : ℕ) : ℤ) =
      (b.dropped R U ts + R * (t - b'.last) : ℕ) + U * (b'.tokens - b.tokens) := by
    push_cast [hle, hb]
    linear_combination -hbalance
  have hdiv : ((R * (t - b.last) / U : ℕ) : ℤ) =
      ((b.dropped R U ts + R * (t - b'.last)) / U : ℕ) + (b'.tokens - b.tokens) := by
    rw [Int.natCast_div, htotal, Int.add_mul_ediv_left _ _ (by omega), Int.natCast_div]
  rw [hdiv]
  omega

/-- A refill of some state that credits its bucket does so along any schedule, as long as the
budget up to the end stays within what the refills are right for. -/
theorem foldl_refill {σ : Type*} (bucket : σ → Bucket) (refill : σ → ℕ → σ) {P : σ → Prop} {B : ℕ}
    (hstep : ∀ s t, P s → 0 ≤ (bucket s).tokens → (bucket s).last ≤ t → t ≤ T →
      (bucket s).budget R U t ≤ B →
        P (refill s t) ∧ bucket (refill s t) = (bucket s).credit R U t)
    {s : σ} (hs : P s) (h0 : 0 ≤ (bucket s).tokens) (hbudget : (bucket s).budget R U T ≤ B)
    (hsorted : ts.Pairwise (· ≤ ·)) (hfirst : ∀ t ∈ ts, (bucket s).last ≤ t)
    (hT : ∀ t ∈ ts, t ≤ T) : bucket (ts.foldl refill s) = ts.foldl (credit R U) (bucket s) := by
  induction ts generalizing s with
  | nil => rfl
  | cons t ts ih =>
    obtain ⟨ht, hts⟩ := List.pairwise_cons.mp hsorted
    have hle := hfirst t List.mem_cons_self
    have htT := hT t List.mem_cons_self
    have hmono : (bucket s).budget R U t ≤ (bucket s).budget R U T := by
      have hdt : R * (t - (bucket s).last) ≤ R * (T - (bucket s).last) :=
        Nat.mul_le_mul_left R (by omega)
      exact Nat.add_le_add_left (Nat.div_le_div_right hdt) _
    obtain ⟨hP, hcredit⟩ := hstep s t hs h0 hle htT (hmono.trans hbudget)
    have hdraws := (credit_draws (R := R) (U := U) hle h0).budget_le htT
    rw [List.foldl_cons, List.foldl_cons, ← hcredit]
    apply ih hP
    · rw [hcredit]
      exact credit_tokens_nonneg R U t h0
    · rw [hcredit]
      omega
    · exact hts
    · intro u hu
      rw [hcredit]
      exact (credit_last hle).2.trans (ht u hu)
    · intro u hu
      exact hT u (List.mem_cons_of_mem t hu)

end Bucket
end TradingPipeline.Lib
