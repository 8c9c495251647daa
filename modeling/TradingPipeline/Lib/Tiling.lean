import Mathlib.Algebra.GroupWithZero.Nat
import Mathlib.Data.List.Pairwise
import Mathlib.Order.Basic

/-! # Chains of adjacent ranges

A list of ranges `[lo s, hi s)` tiles `[a, b)` when the first starts at `a`, each next
one starts where the one before ends, and the last ends at `b`.
-/
namespace TradingPipeline.Lib

variable {α : Type*} {lo hi : α → ℕ}

def Tiles (lo hi : α → ℕ) : ℕ → List α → ℕ → Prop
  | a, [], b => a = b
  | a, s :: l, b => lo s = a ∧ lo s < hi s ∧ Tiles lo hi (hi s) l b

theorem Tiles.snoc {a b : ℕ} {l : List α} (h : Tiles lo hi a l b) {s : α} (hlo : lo s = b)
    (hlt : lo s < hi s) : Tiles lo hi a (l ++ [s]) (hi s) := by
  induction l generalizing a with
  | nil =>
    cases h
    exact ⟨hlo, hlt, rfl⟩
  | cons t l ih => exact ⟨h.1, h.2.1, ih h.2.2⟩

theorem Tiles.le {a b : ℕ} {l : List α} (h : Tiles lo hi a l b) : a ≤ b := by
  induction l generalizing a with
  | nil => exact Nat.le_of_eq h
  | cons s l ih =>
    have hle := ih h.2.2
    have hs := h.1
    have hlt := h.2.1
    omega

theorem Tiles.bounds {a b : ℕ} {l : List α} (h : Tiles lo hi a l b) {s : α} (hs : s ∈ l) :
    a ≤ lo s ∧ lo s < hi s ∧ hi s ≤ b := by
  induction l generalizing a with
  | nil => cases hs
  | cons t l ih =>
    obtain ⟨hlo, hlt, hrest⟩ := h
    rcases List.mem_cons.mp hs with rfl | hs
    · exact ⟨Nat.le_of_eq hlo.symm, hlt, hrest.le⟩
    · obtain ⟨ha, hmid, hb⟩ := ih hrest hs
      exact ⟨by omega, hmid, hb⟩

theorem Tiles.pairwise {a b : ℕ} {l : List α} (h : Tiles lo hi a l b) :
    l.Pairwise fun s t => hi s ≤ lo t := by
  induction l generalizing a with
  | nil => exact List.Pairwise.nil
  | cons s l ih =>
    refine List.pairwise_cons.mpr ⟨?_, ih h.2.2⟩
    intro t ht
    exact (h.2.2.bounds ht).1

theorem Tiles.exists_cover {a b : ℕ} {l : List α} (h : Tiles lo hi a l b) {n : ℕ} (ha : a ≤ n)
    (hb : n < b) : ∃ s ∈ l, lo s ≤ n ∧ n < hi s := by
  induction l generalizing a with
  | nil =>
    cases h
    omega
  | cons s l ih =>
    obtain ⟨hlo, hlt, hrest⟩ := h
    by_cases hn : n < hi s
    · exact ⟨s, List.mem_cons_self, by omega, hn⟩
    · obtain ⟨t, ht, hcov⟩ := ih hrest (by omega)
      exact ⟨t, List.mem_cons_of_mem s ht, hcov⟩

theorem Tiles.total {a b : ℕ} {l : List α} (h : Tiles lo hi a l b) :
    a + (l.map fun s => hi s - lo s).sum = b := by
  induction l generalizing a with
  | nil => exact h
  | cons s l ih =>
    obtain ⟨hlo, hlt, hrest⟩ := h
    have hsum := ih hrest
    rw [List.map_cons, List.sum_cons]
    omega

theorem Tiles.cover_unique {a b : ℕ} {l : List α} (h : Tiles lo hi a l b) {n : ℕ} {s t : α}
    (hs : s ∈ l) (ht : t ∈ l) (hsn : lo s ≤ n ∧ n < hi s) (htn : lo t ≤ n ∧ n < hi t) : s = t := by
  induction l generalizing a with
  | nil => cases hs
  | cons u l ih =>
    have hafter : ∀ v ∈ l, hi u ≤ lo v := (List.pairwise_cons.mp h.pairwise).1
    rcases List.mem_cons.mp hs with hsu | hsl <;> rcases List.mem_cons.mp ht with htu | htl
    · rw [hsu, htu]
    · have hlt := hafter t htl
      subst hsu
      omega
    · have hlt := hafter s hsl
      subst htu
      omega
    · exact ih h.2.2 hsl htl

/-- Of two chains from the same start, the one that uses only ranges of the other is the
first part of it. -/
theorem Tiles.split_of_subset {a b c : ℕ} {l k : List α} (hl : Tiles lo hi a l b)
    (hk : Tiles lo hi a k c) (hsub : l ⊆ k) : ∃ rest, k = l ++ rest ∧ Tiles lo hi b rest c := by
  induction l generalizing a k with
  | nil =>
    cases hl
    exact ⟨k, rfl, hk⟩
  | cons s l ih =>
    obtain ⟨hlo, hlt, hrest⟩ := hl
    have hs : s ∈ k := hsub List.mem_cons_self
    cases k with
    | nil => cases hs
    | cons t k =>
      obtain ⟨htlo, htlt, htrest⟩ := hk
      have hst : s = t := by
        rcases List.mem_cons.mp hs with hst | hs
        · exact hst
        · have := (htrest.bounds hs).1
          omega
      subst hst
      have hsub' : l ⊆ k := by
        intro u hu
        rcases List.mem_cons.mp (hsub (List.mem_cons_of_mem s hu)) with rfl | hu'
        · have := (hrest.bounds hu).1
          omega
        · exact hu'
      obtain ⟨rest, hk, htail⟩ := ih hrest htrest hsub'
      exact ⟨rest, by rw [hk, List.cons_append], htail⟩

theorem tiles_map {β : Type*} {f : β → α} {a b : ℕ} {l : List β} :
    Tiles lo hi a (l.map f) b ↔ Tiles (fun x => lo (f x)) (fun x => hi (f x)) a l b := by
  induction l generalizing a with
  | nil => exact Iff.rfl
  | cons x l ih => simp only [List.map_cons, Tiles, ih]

theorem Tiles.not_mem_of_append {a b : ℕ} {pre post : List α} {s : α}
    (h : Tiles lo hi a (pre ++ s :: post) b) : s ∉ pre ∧ s ∉ post := by
  have hlt := (h.bounds (s := s) (by simp)).2.1
  obtain ⟨_, hpost, hcross⟩ := List.pairwise_append.mp h.pairwise
  refine ⟨fun hs => ?_, fun hs => ?_⟩
  · have := hcross s hs s List.mem_cons_self
    omega
  · have := (List.pairwise_cons.mp hpost).1 s hs
    omega

theorem Tiles.sublist_of_subset {a b : ℕ} {l k : List α} (hk : Tiles lo hi a k b) (hsub : l ⊆ k)
    (hl : l.Pairwise fun s t => hi s ≤ lo t) : l.Sublist k := by
  induction k generalizing a l with
  | nil =>
    obtain rfl := List.subset_nil.mp hsub
    exact List.Sublist.refl []
  | cons s k ih =>
    obtain ⟨_, hlt, hrest⟩ := hk
    have hlater : ∀ t ∈ k, hi s ≤ lo t := fun t ht => (hrest.bounds ht).1
    -- no range of `k` comes before `s`
    have hbehind : ∀ {l : List α}, l ⊆ s :: k → (∀ t ∈ l, hi s ≤ lo t) → l ⊆ k := by
      intro l hsub hle t ht
      rcases List.mem_cons.mp (hsub ht) with rfl | ht'
      · have := hle t ht
        omega
      · exact ht'
    cases l with
    | nil => exact List.nil_sublist _
    | cons t l =>
      obtain ⟨hhead, htail⟩ := List.pairwise_cons.mp hl
      rcases List.mem_cons.mp (hsub List.mem_cons_self) with rfl | ht
      · refine List.Sublist.cons_cons t (ih hrest ?_ htail)
        exact hbehind (fun u hu => hsub (List.mem_cons_of_mem t hu)) hhead
      · refine List.Sublist.cons s (ih hrest (hbehind hsub fun u hu => ?_) hl)
        have hle := hlater t ht
        rcases List.mem_cons.mp hu with rfl | hu
        · exact hle
        · have hbound := (hrest.bounds ht).2.1
          have := hhead u hu
          omega

theorem Tiles.append_split {a b : ℕ} {l k : List α} (h : Tiles lo hi a (l ++ k) b) :
    ∃ m, Tiles lo hi a l m ∧ Tiles lo hi m k b := by
  induction l generalizing a with
  | nil => exact ⟨a, rfl, h⟩
  | cons s l ih =>
    obtain ⟨hlo, hlt, hrest⟩ := h
    obtain ⟨m, hl, hk⟩ := ih hrest
    exact ⟨m, ⟨hlo, hlt, hl⟩, hk⟩

theorem Tiles.not_last {a b : ℕ} {l pre post : List α} {s : α} (h : Tiles lo hi a l b)
    (hin : pre ++ s :: post <:+: l) (hpost : post ≠ []) : l.getLast? ≠ some s := by
  obtain ⟨before, behind, rfl⟩ := hin
  intro hlast
  have hmem : s ∈ post ++ behind := by
    have hne : post ++ behind ≠ [] := by simp [hpost]
    rw [show before ++ (pre ++ s :: post) ++ behind = (before ++ pre ++ [s]) ++
      (post ++ behind) by simp,
      List.getLast?_append, List.getLast?_eq_some_getLast hne, Option.some_or, Option.some.injEq]
        at hlast
    rw [← hlast]
    exact List.getLast_mem hne
  have hpair := h.pairwise
  have hbounds := h.bounds (s := s) (by simp)
  rw [show before ++ (pre ++ s :: post) ++ behind = (before ++ pre) ++
    (s :: (post ++ behind)) by simp,
    List.pairwise_append] at hpair
  have hle := (List.pairwise_cons.mp hpair.2.1).1 s hmem
  omega

theorem Tiles.isChain {a b : ℕ} {l : List α} (h : Tiles lo hi a l b) :
    l.IsChain fun s t => lo t = hi s := by
  induction l generalizing a with
  | nil => exact .nil
  | cons s l ih =>
    cases l with
    | nil => exact .singleton s
    | cons t l => exact .cons_cons h.2.2.1 (ih h.2.2)

end TradingPipeline.Lib
