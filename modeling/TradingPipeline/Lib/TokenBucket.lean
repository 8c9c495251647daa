import Mathlib.Algebra.Order.Ring.Nat
import Mathlib.Tactic.Ring
import TradingPipeline.Lib.Runs

/-! # Token buckets

A bucket earns `R` tokens in `U` units of time, in whole tokens, and drops the fraction
each time it is refilled. Its budget up to a time `T` counts the tokens it holds and those
it can still earn until then. No call gains budget, whatever its time, so what a stretch of
calls takes is bounded by the budget at its start.
-/
namespace TradingPipeline.Lib

/-- The time of the last refill, and the tokens. -/
structure Bucket where
  last : ℕ
  tokens : ℤ

/-- The tokens that can be taken until `T`. -/
def Bucket.budget (R U T : ℕ) (b : Bucket) : ℕ := b.tokens.toNat + R * (T - b.last) / U

/-- A call at time `ts` that refills the bucket and takes `n` tokens. -/
structure Draws (R U : ℕ) (b : Bucket) (ts n : ℕ) (b' : Bucket) : Prop where
  tokens : n + b'.tokens.toNat ≤ b.tokens.toNat + R * (ts - b.last) / U
  last : (b'.last = b.last ∧ R * (ts - b.last) / U = 0) ∨ (b.last ≤ ts ∧ b'.last = ts)

variable {R U T ts n : ℕ} {b b' : Bucket}

theorem div_add_div_le (R U a b : ℕ) : R * a / U + R * b / U ≤ R * (a + b) / U := by
  rw [Nat.mul_add]
  exact Nat.div_add_div_le_add_div

theorem Draws.budget_le (h : Draws R U b ts n b') (hT : ts ≤ T) :
    n + b'.budget R U T ≤ b.budget R U T := by
  have htokens := h.tokens
  unfold Bucket.budget
  rcases h.last with ⟨hlast, hzero⟩ | ⟨hle, hlast⟩
  · rw [hlast]
    omega
  · have hsum := div_add_div_le R U (ts - b.last) (T - ts)
    rw [show ts - b.last + (T - ts) = T - b.last by omega] at hsum
    rw [hlast]
    omega

theorem Draws.spend (h : Draws R U b ts 0 b') (hn : n ≤ b'.tokens.toNat) :
    Draws R U b ts n ⟨b'.last, b'.tokens - n⟩ := by
  have htokens := h.tokens
  refine ⟨?_, h.last⟩
  dsimp only
  omega

theorem Draws.recent (h : Draws R U b ts n b') : R * (ts - b'.last) / U = 0 := by
  rcases h.last with ⟨hlast, hzero⟩ | ⟨_, hlast⟩
  · rwa [hlast]
  · rw [hlast, Nat.sub_self, Nat.mul_zero, Nat.zero_div]

/-- After a call that left at most `B` tokens and a refill time from which not one token
was earned, the budget is the burst, one token, and what the time since the call earns. -/
theorem budget_after_call {B : ℕ} (hcap : n + b.tokens.toNat ≤ B)
    (hlast : R * (ts - b.last) / U = 0) (hU : 0 < U) (T : ℕ) :
    n + b.budget R U T ≤ B + 1 + R * (T - ts) / U := by
  have hlt : R * (ts - b.last) < U := by
    rcases Nat.div_eq_zero_iff.mp hlast with h | h
    · omega
    · exact h
  have hle : R * (T - b.last) ≤ R * (T - ts) + U := by
    have hmono : R * (T - b.last) ≤ R * ((T - ts) + (ts - b.last)) :=
      Nat.mul_le_mul_left R (by omega)
    rw [Nat.mul_add] at hmono
    omega
  have hdiv : R * (T - b.last) / U ≤ R * (T - ts) / U + 1 := by
    have := Nat.div_le_div_right (c := U) hle
    rwa [Nat.add_div_right _ hU] at this
  unfold Bucket.budget
  omega

/-- The cap on a stretch: a first call that draws from a bucket with at most `B` tokens, and
a run of steps of which none gains budget. -/
theorem Runs.rate_cap {σ α : Type*} {step : σ → α → σ → Prop} (count : σ → ℕ) (bucket : σ → Bucket)
    {P : σ → Prop} {s t : σ} {as : List α} {B m : ℕ} (hr : Runs step s as t) (hs : P s)
    (hstep : ∀ s a t, P s → step s a t →
      P t ∧ count t + (bucket t).budget R U T ≤ count s + (bucket s).budget R U T)
    (hfirst : count s = m + n) (hcap : n + (bucket s).tokens.toNat ≤ B)
    (hrecent : R * (ts - (bucket s).last) / U = 0) (hU : 0 < U) :
    count t ≤ m + (B + 1 + R * (T - ts) / U) := by
  have hrun : P t ∧ count t + (bucket t).budget R U T ≤ count s + (bucket s).budget R U T := by
    refine Runs.invariant (P := fun t => P t ∧
      count t + (bucket t).budget R U T ≤ count s + (bucket s).budget R U T) hr ⟨hs, le_rfl⟩ ?_
    rintro u a v ⟨hu, hle⟩ huv
    obtain ⟨hv, hle'⟩ := hstep u a v hu huv
    exact ⟨hv, hle'.trans hle⟩
  have hbudget := budget_after_call hcap hrecent hU T
  omega

end TradingPipeline.Lib
