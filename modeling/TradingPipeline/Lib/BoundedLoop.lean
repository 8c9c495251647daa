import Mathlib.Data.List.Basic

/-! # Loops with a bound on their turns

A loop body either goes on with a new state or leaves the loop with a result. The bound
stands in for termination: `none` means that it was used up.
-/
namespace TradingPipeline.Lib

variable {σ ρ : Type*}

def boundedLoop (body : σ → σ ⊕ ρ) : ℕ → σ → Option ρ
  | 0, _ => none
  | n + 1, s =>
    match body s with
    | .inl t => boundedLoop body n t
    | .inr r => some r

/-- What the loop can do: the turns it takes, and the one that leaves it. -/
inductive Loops (body : σ → σ ⊕ ρ) : σ → ρ → Prop
  | leave {s r} (h : body s = .inr r) : Loops body s r
  | turn {s t r} (h : body s = .inl t) (hr : Loops body t r) : Loops body s r

theorem boundedLoop_loops {body : σ → σ ⊕ ρ} {n : ℕ} {s : σ} {r : ρ}
    (h : boundedLoop body n s = some r) : Loops body s r := by
  induction n generalizing s with
  | zero => cases h
  | succ n ih =>
    unfold boundedLoop at h
    cases hb : body s with
    | inl t =>
      rw [hb] at h
      exact .turn hb (ih h)
    | inr r' =>
      rw [hb] at h
      cases h
      exact .leave hb

/-- A loop whose turns decrease a measure ends within as many turns. -/
theorem boundedLoop_isSome {body : σ → σ ⊕ ρ} {P : σ → Prop} {μ : σ → ℕ}
    (hturn : ∀ s t, P s → body s = .inl t → P t ∧ μ t < μ s) {n : ℕ} {s : σ} (hs : P s)
    (hn : μ s < n) : ∃ r, boundedLoop body n s = some r := by
  induction n generalizing s with
  | zero => omega
  | succ n ih =>
    unfold boundedLoop
    cases hb : body s with
    | inr r => exact ⟨r, rfl⟩
    | inl t =>
      obtain ⟨ht, hlt⟩ := hturn s t hs hb
      exact ih ht (by omega)

/-- The rule for a loop with an invariant and a measure: it ends, with what the last turn
makes of the invariant. -/
theorem boundedLoop_spec {body : σ → σ ⊕ ρ} {P : σ → Prop} {Q : ρ → Prop} {μ : σ → ℕ}
    (hturn : ∀ s t, P s → body s = .inl t → P t ∧ μ t < μ s)
    (hleave : ∀ s r, P s → body s = .inr r → Q r) {n : ℕ} {s : σ} (hs : P s) (hn : μ s < n) :
    ∃ r, boundedLoop body n s = some r ∧ Q r := by
  obtain ⟨r, hr⟩ := boundedLoop_isSome hturn hs hn
  refine ⟨r, hr, ?_⟩
  have hloops := boundedLoop_loops hr
  clear hr hn
  induction hloops with
  | leave hb => exact hleave _ _ hs hb
  | turn hb _ ih => exact ih (hturn _ _ hs hb).1

end TradingPipeline.Lib
