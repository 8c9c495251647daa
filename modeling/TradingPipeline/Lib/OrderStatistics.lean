import Mathlib.Data.List.Count
import Mathlib.Data.List.GetD
import Mathlib.Data.List.Sort

/-! # Order statistics

The value at a place of the sorted list has that rank in the list: so many values are not
above it, and so many are not below it.
-/
namespace TradingPipeline.Lib

variable {α : Type*} [LinearOrder α]

/-- A value of the list with more than `k` values up to it, and at least `length - k` from
it on. -/
structure OfRank (l : List α) (k : ℕ) (v : α) : Prop where
  mem : v ∈ l
  below : k < l.countP (· ≤ v)
  above : l.length ≤ l.countP (v ≤ ·) + k

variable (l : List α) (d : α) {i j k : ℕ}

theorem sorted_getD_le (hij : i ≤ j) (hj : j < l.length) :
    (l.insertionSort (· ≤ ·)).getD i d ≤ (l.insertionSort (· ≤ ·)).getD j d := by
  have hlen := l.length_insertionSort (· ≤ ·)
  rw [List.getD_eq_getElem _ d (by omega), List.getD_eq_getElem _ d (by omega)]
  rcases Nat.lt_or_eq_of_le hij with hlt | rfl
  · exact List.pairwise_iff_getElem.mp (l.pairwise_insertionSort (· ≤ ·)) i j (by omega)
      (by omega) hlt
  · exact le_rfl

theorem ofRank_sorted (hk : k < l.length) :
    OfRank l k ((l.insertionSort (· ≤ ·)).getD k d) := by
  have hperm := l.perm_insertionSort (· ≤ ·)
  have hlen := l.length_insertionSort (· ≤ ·)
  generalize hv : (l.insertionSort (· ≤ ·)).getD k d = v
  have hlow : ∀ x ∈ (l.insertionSort (· ≤ ·)).take (k + 1), x ≤ v := by
    intro x hx
    obtain ⟨i, hi, rfl⟩ := List.mem_take_iff_getElem.mp hx
    rw [← hv, ← List.getD_eq_getElem _ d]
    exact sorted_getD_le l d (by omega) hk
  have hhigh : ∀ x ∈ (l.insertionSort (· ≤ ·)).drop k, v ≤ x := by
    intro x hx
    obtain ⟨i, hi, rfl⟩ := List.mem_drop_iff_getElem.mp hx
    rw [← hv, ← List.getD_eq_getElem _ d]
    exact sorted_getD_le l d (by omega) (by omega)
  refine ⟨?_, ?_, ?_⟩
  · rw [← hperm.mem_iff, ← hv, List.getD_eq_getElem _ d (by omega)]
    exact List.getElem_mem _
  · have hcount := List.countP_eq_length.mpr fun x hx => decide_eq_true (hlow x hx)
    rw [List.length_take, hlen, Nat.min_eq_left (by omega)] at hcount
    rw [← hperm.countP_eq, ← Nat.succ_le_iff, Nat.succ_eq_add_one, ← hcount]
    exact (List.take_sublist (k + 1) _).countP_le
  · have hcount := List.countP_eq_length.mpr fun x hx => decide_eq_true (hhigh x hx)
    rw [List.length_drop, hlen] at hcount
    rw [← hperm.countP_eq, ← Nat.sub_le_iff_le_add, ← hcount]
    exact (List.drop_sublist k _).countP_le

end TradingPipeline.Lib
