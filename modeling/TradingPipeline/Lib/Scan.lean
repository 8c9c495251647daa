import Mathlib.Data.List.Induction

/-! # Scans of a table for its least matching entry -/
namespace TradingPipeline.Lib

variable {α : Type*} (p : α → Bool) (key : α → ℕ)

/-- One step of the scan: `a` replaces the best so far if it matches and is smaller. -/
def better (best : Option α) (a : α) : Option α :=
  if p a then
    match best with
    | none => some a
    | some b => if key a < key b then some a else best
  else best

/-- The first of the matching elements with the least key. -/
def firstMin (l : List α) : Option α := l.foldl (better p key) none

/-- The best of the elements seen: none of them matches, or it is least among those that do. -/
def IsBest (best : Option α) (l : List α) : Prop :=
  match best with
  | none => ∀ a ∈ l, ¬p a
  | some b => b ∈ l ∧ p b ∧ ∀ a ∈ l, p a → key b ≤ key a

variable {p key}

theorem IsBest.snoc {best : Option α} {l : List α} (h : IsBest p key best l) (a : α) :
    IsBest p key (better p key best a) (l ++ [a]) := by
  unfold better
  by_cases ha : p a
  · rw [if_pos ha]
    cases best with
    | none =>
      refine ⟨by simp, ha, ?_⟩
      intro c hc hpc
      rcases List.mem_append.mp hc with hc | hc
      · exact absurd hpc (h c hc)
      · exact Nat.le_of_eq (by rw [List.mem_singleton.mp hc])
    | some b =>
      obtain ⟨hb, hpb, hmin⟩ := h
      by_cases hlt : key a < key b
      · simp only [if_pos hlt]
        refine ⟨by simp, ha, ?_⟩
        intro c hc hpc
        rcases List.mem_append.mp hc with hc | hc
        · exact Nat.le_trans (Nat.le_of_lt hlt) (hmin c hc hpc)
        · exact Nat.le_of_eq (by rw [List.mem_singleton.mp hc])
      · simp only [if_neg hlt]
        refine ⟨List.mem_append_left _ hb, hpb, ?_⟩
        intro c hc hpc
        rcases List.mem_append.mp hc with hc | hc
        · exact hmin c hc hpc
        · rw [List.mem_singleton.mp hc]
          exact Nat.le_of_not_lt hlt
  · rw [if_neg ha]
    have hother : ∀ c ∈ l ++ [a], p c → c ∈ l := by
      intro c hc hpc
      rcases List.mem_append.mp hc with hc | hc
      · exact hc
      · rw [List.mem_singleton.mp hc] at hpc
        exact absurd hpc ha
    cases best with
    | none => exact fun c hc hpc => h c (hother c hc hpc) hpc
    | some b =>
      exact ⟨List.mem_append_left _ h.1, h.2.1, fun c hc hpc => h.2.2 c (hother c hc hpc) hpc⟩

theorem firstMin_isBest (l : List α) : IsBest p key (firstMin p key l) l := by
  induction l using List.reverseRecOn with
  | nil => exact fun a ha => absurd ha List.not_mem_nil
  | append_singleton l a ih =>
    rw [firstMin, List.foldl_append]
    exact ih.snoc a

theorem firstMin_some {l : List α} {b : α} (h : firstMin p key l = some b) :
    b ∈ l ∧ p b ∧ ∀ a ∈ l, p a → key b ≤ key a := by
  have hbest := @firstMin_isBest _ p key l
  rwa [h] at hbest

end TradingPipeline.Lib
