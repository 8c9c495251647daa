import Mathlib.Data.List.Basic
import Mathlib.Data.Nat.ModEq
import Mathlib.Logic.Function.Basic

/-! # Free-running cursors over a masked ring

Two cursors count modulo `M` and are reduced modulo the capacity `C` only when
the ring is indexed. The occupied part of the ring is read as a list, the
window, which makes a store at the write cursor an append and an advance of the
read cursor a tail. Nothing below depends on how often a cursor has wrapped.
-/
namespace TradingPipeline.Lib

variable {α : Type*} {M C : ℕ}

/-- Unsigned subtraction of two cursors modulo `M`. -/
def wrapSub (M w r : ℕ) : ℕ := if r ≤ w then w - r else M - (r - w)

@[simp] theorem wrapSub_self (M r : ℕ) : wrapSub M r r = 0 := by
  simp [wrapSub]

theorem wrapSub_cases (w : ℕ) {r : ℕ} (hr : r < M) :
    (r ≤ w ∧ wrapSub M w r = w - r) ∨ (w < r ∧ wrapSub M w r = w + M - r) := by
  unfold wrapSub
  split <;> omega

theorem succ_mod_cases {w : ℕ} (hw : w < M) :
    (w + 1 < M ∧ (w + 1) % M = w + 1) ∨ (w + 1 = M ∧ (w + 1) % M = 0) := by
  rcases Nat.lt_or_ge (w + 1) M with h | h
  · exact Or.inl ⟨h, Nat.mod_eq_of_lt h⟩
  · have he : w + 1 = M := by omega
    exact Or.inr ⟨he, by rw [he, Nat.mod_self]⟩

theorem wrapSub_eq_zero {w r : ℕ} (hr : r < M) : wrapSub M w r = 0 ↔ w = r := by
  rcases wrapSub_cases w hr with ⟨_, h⟩ | ⟨_, h⟩ <;> omega

theorem wrapSub_succ_left {w r : ℕ} (hw : w < M) (hr : r < M) (h : wrapSub M w r + 1 < M) :
    wrapSub M ((w + 1) % M) r = wrapSub M w r + 1 := by
  rcases wrapSub_cases w hr with ⟨_, h1⟩ | ⟨_, h1⟩ <;>
    rcases wrapSub_cases ((w + 1) % M) hr with ⟨_, h2⟩ | ⟨_, h2⟩ <;>
      rcases succ_mod_cases hw with ⟨_, h3⟩ | ⟨_, h3⟩ <;> omega

theorem wrapSub_succ_right {w r : ℕ} (hw : w < M) (hr : r < M) (h : w ≠ r) :
    wrapSub M w ((r + 1) % M) + 1 = wrapSub M w r := by
  have hr' : (r + 1) % M < M := Nat.mod_lt _ (by omega)
  rcases wrapSub_cases w hr with ⟨_, h1⟩ | ⟨_, h1⟩ <;>
    rcases wrapSub_cases w hr' with ⟨_, h2⟩ | ⟨_, h2⟩ <;>
      rcases succ_mod_cases hr with ⟨_, h3⟩ | ⟨_, h3⟩ <;> omega

theorem wrapSub_eq_succ {w r n : ℕ} (hw : w < M) (hr : r < M) (h : n + 1 = wrapSub M w r) :
    w ≠ r ∧ n = wrapSub M w ((r + 1) % M) := by
  have hne : w ≠ r := by
    rintro rfl
    rw [wrapSub_self] at h
    omega
  have hsub := wrapSub_succ_right hw hr hne
  exact ⟨hne, by omega⟩

theorem add_wrapSub_mod {w r : ℕ} (hw : w < M) (hr : r < M) : (r + wrapSub M w r) % M = w := by
  rcases wrapSub_cases w hr with ⟨_, h⟩ | ⟨_, h⟩
  · rw [h, Nat.mod_eq_of_lt (by omega)]
    omega
  · have he : r + wrapSub M w r = w + M := by omega
    rw [he, Nat.add_mod_right, Nat.mod_eq_of_lt hw]

/-- The `n` entries that start at cursor `r`, oldest first. -/
def window (M C : ℕ) (data : ℕ → α) (r n : ℕ) : List α :=
  (List.range n).map (fun k => data ((r + k) % M % C))

@[simp] theorem window_zero (data : ℕ → α) (r : ℕ) : window M C data r 0 = [] := rfl

@[simp] theorem window_length (data : ℕ → α) (r n : ℕ) :
    (window M C data r n).length = n := by
  simp [window]

theorem window_succ (data : ℕ → α) (r n : ℕ) :
    window M C data r (n + 1) = data (r % M % C) :: window M C data ((r + 1) % M) n := by
  unfold window
  rw [List.range_succ_eq_map, List.map_cons, List.map_map]
  refine congrArg₂ _ (by simp) (List.map_congr_left ?_)
  intro k _
  simp only [Function.comp_apply, Nat.mod_add_mod]
  congr 3
  omega

theorem window_succ_last (data : ℕ → α) (r n : ℕ) :
    window M C data r (n + 1) = window M C data r n ++ [data ((r + n) % M % C)] := by
  simp [window, List.range_succ]

theorem window_add (data : ℕ → α) (r m n : ℕ) :
    window M C data r (m + n) = window M C data r m ++ window M C data ((r + m) % M) n := by
  induction m generalizing r with
  | zero =>
    simp only [Nat.zero_add, Nat.add_zero, window]
    exact List.map_congr_left (fun k _ => by simp only [Nat.mod_add_mod])
  | succ m ih =>
    rw [show m + 1 + n = (m + n) + 1 by omega, window_succ, window_succ, ih, List.cons_append,
      Nat.mod_add_mod]
    congr 3
    rw [show r + 1 + m = r + (m + 1) by omega]

/-- Fewer than `C` consecutive cursors never meet in one cell. -/
theorem index_ne (hdvd : C ∣ M) {r j k : ℕ} (hjk : j < k) (hk : k < j + C) :
    (r + j) % M % C ≠ (r + k) % M % C := by
  rw [Nat.mod_mod_of_dvd _ hdvd, Nat.mod_mod_of_dvd _ hdvd]
  intro h
  have hd := (Nat.modEq_iff_dvd' (by omega)).mp (show r + j ≡ r + k [MOD C] from h)
  have := Nat.le_of_dvd (by omega) hd
  omega

theorem window_update (hdvd : C ∣ M) (data : ℕ → α) (r n : ℕ) (hn : n < C) (x : α) :
    window M C (Function.update data ((r + n) % M % C) x) r n = window M C data r n := by
  unfold window
  refine List.map_congr_left (fun k hk => ?_)
  have hk' : k < n := List.mem_range.mp hk
  exact Function.update_of_ne (index_ne hdvd hk' (by omega)) _ _

theorem window_push (hdvd : C ∣ M) (data : ℕ → α) (r n : ℕ) (hn : n < C) (x : α) :
    window M C (Function.update data ((r + n) % M % C) x) r (n + 1) =
      window M C data r n ++ [x] := by
  rw [window_succ_last, window_update hdvd data r n hn x, Function.update_self]

def between (M C : ℕ) (data : ℕ → α) (r w : ℕ) : List α := window M C data r (wrapSub M w r)

@[simp] theorem between_length (data : ℕ → α) (r w : ℕ) :
    (between M C data r w).length = wrapSub M w r := window_length _ _ _

@[simp] theorem between_self (data : ℕ → α) (r : ℕ) : between M C data r r = [] := by
  simp [between]

theorem between_push (hdvd : C ∣ M) (hCM : C < M) {w r : ℕ} (hw : w < M) (hr : r < M)
    (data : ℕ → α) (hroom : wrapSub M w r < C) (x : α) :
    between M C (Function.update data (w % C) x) r ((w + 1) % M) =
      between M C data r w ++ [x] := by
  have hi : w % C = (r + wrapSub M w r) % M % C := by rw [add_wrapSub_mod hw hr]
  unfold between
  rw [wrapSub_succ_left hw hr (by omega), hi]
  exact window_push hdvd data r _ hroom x

theorem between_pop {w r : ℕ} (hw : w < M) (hr : r < M) (data : ℕ → α) (h : w ≠ r) :
    between M C data r w = data (r % C) :: between M C data ((r + 1) % M) w := by
  unfold between
  rw [← wrapSub_succ_right hw hr h, window_succ, Nat.mod_eq_of_lt hr]

theorem between_split {w m r : ℕ} (hm : m < M) (hr : r < M) (data : ℕ → α)
    (h : wrapSub M m r + wrapSub M w m = wrapSub M w r) :
    between M C data r w = between M C data r m ++ between M C data m w := by
  unfold between
  rw [← h, window_add, add_wrapSub_mod hm hr]

/-- What a queue of capacity `cap` may do in one step, or leave undone. -/
inductive FifoStep (cap : ℕ) : List α → List α → Prop
  | stutter (q : List α) : FifoStep cap q q
  | enqueue (q : List α) (x : α) (h : q.length < cap) : FifoStep cap q (q ++ [x])
  | dequeue (q : List α) (x : α) : FifoStep cap (x :: q) q

section Overwriting

def newest (n : ℕ) (l : List α) : List α := l.drop (l.length - n)

@[simp] theorem newest_length (n : ℕ) (l : List α) : (newest n l).length = min l.length n := by
  rw [newest, List.length_drop]
  omega

theorem take_append_newest (n : ℕ) (l : List α) : l.take (l.length - n) ++ newest n l = l :=
  List.take_append_drop _ _

theorem newest_subset (n : ℕ) (l : List α) : newest n l ⊆ l := List.drop_subset _ _

/-- A ring that overwrites its oldest cell remembers the end of what was stored in it. -/
def Remembers (C : ℕ) (data : ℕ → α) (history : List α) : Prop :=
  ∀ k (h : k < history.length), history.length ≤ k + C → data (k % C) = history[k]

theorem Remembers.push {data : ℕ → α} {history : List α} (h : Remembers C data history) (x : α) :
    Remembers C (Function.update data (history.length % C) x) (history ++ [x]) := by
  intro k hk hrecent
  simp only [List.length_append, List.length_singleton] at hk hrecent
  rcases Nat.lt_or_ge k history.length with hlt | hge
  · have hne : k % C ≠ history.length % C := by
      intro heq
      have hdvd := (Nat.modEq_iff_dvd' (Nat.le_of_lt hlt)).mp heq
      have := Nat.le_of_dvd (by omega) hdvd
      omega
    rw [Function.update_of_ne hne, h k hlt (by omega), List.getElem_append_left]
  · have heq : k = history.length := by omega
    subst heq
    rw [Function.update_self, List.getElem_concat_length rfl]

theorem Remembers.backwards {data : ℕ → α} {history : List α} (h : Remembers C data history) :
    (List.range (min history.length C)).map (fun i => data ((history.length - (i + 1)) % C)) =
      (newest C history).reverse := by
  refine List.ext_getElem (by simp) ?_
  intro i hi hi'
  simp only [List.length_map, List.length_range] at hi
  have hlast : history.length - (i + 1) < history.length := by omega
  have hread : (newest C history).reverse[i] = history[history.length - (i + 1)] := by
    rw [List.getElem_reverse]
    simp only [newest, List.getElem_drop, List.length_drop]
    congr 1
    omega
  rw [hread, List.getElem_map, List.getElem_range]
  exact h _ hlast (by omega)

end Overwriting

end TradingPipeline.Lib
