import Mathlib.Data.List.Nodup
import Mathlib.Data.List.Infix

/-! # Maps in insertion order

A map that lists its entries in the order in which their keys came in. Setting a key that
is present changes its value and keeps its place. A walk from the front can therefore trim
such a map: it drops outdated entries and entries beyond a limit, and stops at the first
other one.
-/
namespace TradingPipeline.Lib

structure InsertionMap (K V : Type*) where
  entries : List (K × V)
  nodup : (entries.map Prod.fst).Nodup

namespace InsertionMap
variable {K V : Type*} [DecidableEq K]

def empty : InsertionMap K V := ⟨[], List.nodup_nil⟩

def size (m : InsertionMap K V) : ℕ := m.entries.length

def get? (m : InsertionMap K V) (k : K) : Option V :=
  (m.entries.find? fun e => e.1 = k).map Prod.snd

def setEntries (k : K) (v : V) (es : List (K × V)) : List (K × V) :=
  if k ∈ es.map Prod.fst then es.map fun e => if e.1 = k then (k, v) else e
  else es ++ [(k, v)]

theorem map_fst_setEntries (k : K) (v : V) (es : List (K × V)) :
    (setEntries k v es).map Prod.fst =
      if k ∈ es.map Prod.fst then es.map Prod.fst else es.map Prod.fst ++ [k] := by
  unfold setEntries
  split
  · rw [List.map_map]
    refine List.map_congr_left fun e _ => ?_
    by_cases he : e.1 = k
    · simp [he]
    · simp [he]
  · rw [List.map_append]
    rfl

theorem nodup_setEntries {es : List (K × V)} (h : (es.map Prod.fst).Nodup) (k : K) (v : V) :
    ((setEntries k v es).map Prod.fst).Nodup := by
  rw [map_fst_setEntries]
  split
  · exact h
  · next hk => exact h.append (List.nodup_singleton k) (by simpa using hk)

def set (m : InsertionMap K V) (k : K) (v : V) : InsertionMap K V :=
  ⟨setEntries k v m.entries, nodup_setEntries m.nodup k v⟩

def delete (m : InsertionMap K V) (k : K) : InsertionMap K V :=
  ⟨m.entries.filter fun e => e.1 ≠ k, m.nodup.sublist (List.filter_sublist.map _)⟩

theorem get?_eq_some_iff (m : InsertionMap K V) {k : K} {v : V} :
    m.get? k = some v ↔ (k, v) ∈ m.entries := by
  constructor
  · intro h
    obtain ⟨e, he, rfl⟩ := Option.map_eq_some_iff.mp h
    have hk : e.1 = k := by simpa using List.find?_some he
    subst hk
    exact List.mem_of_find?_eq_some he
  · intro h
    obtain ⟨e, he⟩ : ∃ e, m.entries.find? (fun e => e.1 = k) = some e := by
      rw [← Option.isSome_iff_exists, List.find?_isSome]
      exact ⟨(k, v), h, by simp⟩
    have hk : e.1 = k := by simpa using List.find?_some he
    have hin := List.mem_of_find?_eq_some he
    have heq : e = (k, v) := List.inj_on_of_nodup_map m.nodup hin h hk
    rw [get?, he, heq]
    rfl

theorem mem_set {m : InsertionMap K V} {k : K} {v : V} {e : K × V} :
    e ∈ (m.set k v).entries ↔ e = (k, v) ∨ e ∈ m.entries ∧ e.1 ≠ k := by
  unfold set setEntries
  split
  · next hk =>
    obtain ⟨x, hx, rfl⟩ := List.mem_map.mp hk
    constructor
    · intro he
      obtain ⟨y, hy, rfl⟩ := List.mem_map.mp he
      by_cases hxy : y.1 = x.1
      · exact .inl (if_pos hxy)
      · rw [if_neg hxy]
        exact .inr ⟨hy, hxy⟩
    · rintro (rfl | ⟨he, hne⟩)
      · exact List.mem_map.mpr ⟨x, hx, if_pos rfl⟩
      · exact List.mem_map.mpr ⟨e, he, if_neg hne⟩
  · next hk =>
    rw [List.mem_append, List.mem_singleton]
    constructor
    · rintro (he | he)
      · exact .inr ⟨he, fun heq => hk (heq ▸ List.mem_map_of_mem he)⟩
      · exact .inl he
    · rintro (he | ⟨he, -⟩)
      · exact .inr he
      · exact .inl he

theorem get?_set (m : InsertionMap K V) (k : K) (v : V) (k' : K) :
    (m.set k v).get? k' = if k' = k then some v else m.get? k' := by
  apply Option.ext
  intro w
  rw [get?_eq_some_iff, mem_set, Prod.mk.injEq]
  split
  · next heq =>
    subst heq
    simp [eq_comm]
  · next hne => simp [hne, get?_eq_some_iff]

theorem mem_delete {m : InsertionMap K V} {k : K} {e : K × V} :
    e ∈ (m.delete k).entries ↔ e ∈ m.entries ∧ e.1 ≠ k := by
  simp [delete]

theorem entries_set_of_fresh {m : InsertionMap K V} {k : K} (h : k ∉ m.entries.map Prod.fst)
    (v : V) : (m.set k v).entries = m.entries ++ [(k, v)] := if_neg h

theorem entries_delete_head {m : InsertionMap K V} {e : K × V} {es : List (K × V)}
    (h : m.entries = e :: es) : (m.delete e.1).entries = es := by
  have hnodup := m.nodup
  rw [h, List.map_cons, List.nodup_cons] at hnodup
  show m.entries.filter (fun x => x.1 ≠ e.1) = es
  rw [h, List.filter_cons_of_neg (by simp), List.filter_eq_self]
  intro x hx
  have hne : x.1 ≠ e.1 := fun heq => hnodup.1 (heq ▸ List.mem_map_of_mem hx)
  exact decide_eq_true hne

end InsertionMap

section Trim
variable {α : Type*} (old : α → Bool) (limit : ℕ)

def trim : List α → List α
  | [] => []
  | e :: es =>
    if old e then trim es
    else if es.length + 1 ≤ limit then e :: es
    else trim es

/-- The walk drops an entry that is not outdated: more than the limit are left. -/
def Evicted (es : List α) (e : α) : Prop :=
  ∃ pre post, es = pre ++ e :: post ∧ old e = false ∧ limit < post.length + 1

/-- An entry at which the walk stops stands before an outdated one. -/
def Blocked (es : List α) : Prop :=
  ∃ pre e post, es = pre ++ e :: post ∧ old e = false ∧ post.length + 1 ≤ limit ∧
    ∃ x ∈ post, old x = true

variable {old limit}

theorem trim_suffix (es : List α) : trim old limit es <:+ es := by
  fun_induction trim old limit es with
  | case1 => exact List.suffix_refl _
  | case2 e es _ ih => exact ih.trans (List.suffix_cons e es)
  | case3 => exact List.suffix_refl _
  | case4 e es _ _ ih => exact ih.trans (List.suffix_cons e es)

theorem length_trim_le (es : List α) : (trim old limit es).length ≤ limit := by
  fun_induction trim old limit es with
  | case1 => exact Nat.zero_le _
  | case2 _ _ _ ih => exact ih
  | case3 _ _ _ hle => exact hle
  | case4 _ _ _ _ ih => exact ih

theorem Evicted.cons {es : List α} {e x : α} (h : Evicted old limit es e) :
    Evicted old limit (x :: es) e := by
  obtain ⟨pre, post, rfl, hold, hlt⟩ := h
  exact ⟨x :: pre, post, rfl, hold, hlt⟩

theorem mem_trim_or (limit : ℕ) {es : List α} {e : α} (h : e ∈ es) (hold : old e = false) :
    e ∈ trim old limit es ∨ Evicted old limit es e := by
  fun_induction trim old limit es with
  | case1 => exact absurd h List.not_mem_nil
  | case2 x es hx ih =>
    rcases List.mem_cons.mp h with rfl | h
    · rw [hold] at hx
      exact absurd hx Bool.false_ne_true
    · exact (ih h).imp_right Evicted.cons
  | case3 => exact .inl h
  | case4 x es hx hlt ih =>
    rcases List.mem_cons.mp h with rfl | h
    · exact .inr ⟨[], es, rfl, hold, Nat.lt_of_not_le hlt⟩
    · exact (ih h).imp_right Evicted.cons

theorem blocked_cons_iff {x : α} {es : List α} (h : old x = true ∨ limit < es.length + 1) :
    Blocked old limit (x :: es) ↔ Blocked old limit es := by
  constructor
  · rintro ⟨pre, e, post, heq, hold, hle, hx⟩
    cases pre with
    | nil =>
      obtain ⟨rfl, rfl⟩ := List.cons.inj heq
      rcases h with h | h
      · exact absurd (h.symm.trans hold) (by simp)
      · omega
    | cons y pre => exact ⟨pre, e, post, (List.cons.inj heq).2, hold, hle, hx⟩
  · rintro ⟨pre, e, post, rfl, hold, hle, hx⟩
    exact ⟨x :: pre, e, post, rfl, hold, hle, hx⟩

/-- No outdated entry is left exactly if the walk is not stopped before one. -/
theorem trim_clean_iff (es : List α) :
    (∀ e ∈ trim old limit es, old e = false) ↔ ¬ Blocked old limit es := by
  fun_induction trim old limit es with
  | case1 =>
    refine iff_of_true (fun e he => absurd he List.not_mem_nil) ?_
    rintro ⟨pre, e, post, heq, -⟩
    exact absurd heq (by simp)
  | case2 x es hx ih => rw [ih, blocked_cons_iff (.inl hx)]
  | case3 x es hx hle =>
    have hx : old x = false := by simpa using hx
    constructor
    · rintro hclean ⟨pre, e, post, heq, -, -, y, hy, hold⟩
      have hin : y ∈ x :: es := heq ▸ List.mem_append_right _ (List.mem_cons_of_mem _ hy)
      rw [hclean y hin] at hold
      exact absurd hold Bool.false_ne_true
    · intro hfree e he
      rcases List.mem_cons.mp he with rfl | he
      · exact hx
      · by_contra hold
        exact hfree ⟨[], x, es, rfl, hx, hle, e, he, by simpa using hold⟩
  | case4 x es _ hlt ih => rw [ih, blocked_cons_iff (.inr (Nat.lt_of_not_le hlt))]

theorem not_blocked_of_pairwise {es : List α}
    (h : es.Pairwise fun a b => old b = true → old a = true) : ¬ Blocked old limit es := by
  rintro ⟨pre, e, post, rfl, hold, -, x, hx, hxold⟩
  have hlater := (List.pairwise_cons.mp (List.pairwise_append.mp h).2.1).1 x hx hxold
  exact absurd (hlater.symm.trans hold) (by simp)

end Trim

end TradingPipeline.Lib
