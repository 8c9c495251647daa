import Mathlib.Data.List.Basic

/-! # Finite runs of a labelled transition relation

A run records the actions in the order in which they were taken and is extended
at its end, so that an invariant may speak about the whole history of a state.
-/
namespace TradingPipeline.Lib

variable {σ α : Type*} {step : σ → α → σ → Prop}

/-- The actions `as`, taken one after the other, lead from `s` to the last state. -/
inductive Runs (step : σ → α → σ → Prop) (s : σ) : List α → σ → Prop
  | nil : Runs step s [] s
  | snoc {as : List α} {a : α} {t u : σ} :
      Runs step s as t → step t a u → Runs step s (as ++ [a]) u

/-- What holds initially and is kept by every step holds after every run. -/
theorem Runs.invariant {P : σ → Prop} {s t : σ} {as : List α} (hr : Runs step s as t)
    (hs : P s) (hstep : ∀ t a u, P t → step t a u → P u) : P t := by
  induction hr with
  | nil => exact hs
  | snoc _ he ih => exact hstep _ _ _ ih he

theorem Runs.single {s t : σ} {a : α} (h : step s a t) : Runs step s [a] t :=
  Runs.nil.snoc h

theorem Runs.trans {s t u : σ} {as bs : List α} (h : Runs step s as t)
    (h' : Runs step t bs u) : Runs step s (as ++ bs) u := by
  induction h' with
  | nil => simpa using h
  | snoc _ he ih => simpa only [← List.append_assoc] using ih.snoc he

theorem Runs.nil_inv {s t : σ} (h : Runs step s [] t) : s = t := by
  generalize hb : ([] : List α) = bs at h
  cases h with
  | nil => rfl
  | snoc => simp at hb

theorem Runs.cons_inv {s t : σ} {a : α} {as : List α} (h : Runs step s (a :: as) t) :
    ∃ u, step s a u ∧ Runs step u as t := by
  generalize hb : a :: as = bs at h
  induction h generalizing as with
  | nil => cases hb
  | @snoc cs c v u hr hstep ih =>
    cases cs with
    | nil =>
      obtain rfl := hr.nil_inv
      obtain ⟨rfl, rfl⟩ := List.cons.inj hb
      exact ⟨u, hstep, .nil⟩
    | cons b cs =>
      rw [List.cons_append] at hb
      obtain ⟨rfl, rfl⟩ := List.cons.inj hb
      obtain ⟨w, hw, hrest⟩ := ih rfl
      exact ⟨w, hw, hrest.snoc hstep⟩

theorem Runs.mono {step' : σ → α → σ → Prop} {s t : σ} {as : List α}
    (h : Runs step s as t) (hle : ∀ s a t, step s a t → step' s a t) : Runs step' s as t := by
  induction h with
  | nil => exact .nil
  | snoc _ he ih => exact ih.snoc (hle _ _ _ he)

/-- A run of a step function, computed. -/
theorem Runs.of_foldlM {f : σ → α → Option σ} {s t : σ} {as : List α}
    (h : as.foldlM f s = some t) : Runs (fun s a t => f s a = some t) s as t := by
  induction as generalizing s with
  | nil =>
    cases h
    exact .nil
  | cons a as ih =>
    obtain ⟨u, hu, hrest⟩ := Option.bind_eq_some_iff.mp h
    have hstep : Runs (fun s a t => f s a = some t) s [a] u := Runs.single hu
    exact hstep.trans (ih hrest)

/-- A step function that answers only where the condition holds. -/
def guarded (f : σ → α → Option σ) (ok : σ → α → σ → Prop) [∀ s a t, Decidable (ok s a t)] (s : σ)
    (a : α) : Option σ := (f s a).filter fun t => ok s a t

theorem Runs.of_guarded {f : σ → α → Option σ} {ok : σ → α → σ → Prop}
    [∀ s a t, Decidable (ok s a t)] {s t : σ} {as : List α}
    (h : as.foldlM (guarded f ok) s = some t) :
    Runs (fun s a t => f s a = some t ∧ ok s a t) s as t := by
  refine (Runs.of_foldlM h).mono fun s a t hstep => ?_
  obtain ⟨hf, hok⟩ := Option.filter_eq_some_iff.mp hstep
  exact ⟨hf, of_decide_eq_true hok⟩

end TradingPipeline.Lib
