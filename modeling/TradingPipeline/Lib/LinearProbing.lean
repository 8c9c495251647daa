import Mathlib.Data.Fintype.EquivFin
import Mathlib.Data.Int.ModEq
import Mathlib.Logic.Function.Basic

/-! # Open addressing with linear probing

A table of `n` cells in which every key is looked for from its own start, cell after
cell with wrap-around. A freed cell keeps a mark, so that the probes which passed it
still pass it. The invariant is that no probe path to a stored key meets a cell that
was never used.
-/
namespace TradingPipeline.Lib

/-- The first index satisfying `p` on the way round a table of `n` cells. -/
def probe (n : ℕ) (p : ℕ → Bool) : ℕ → ℕ → Option ℕ
  | 0, _ => none
  | turns + 1, i => if p i then some i else probe n p turns ((i + 1) % n)

theorem probe_eq_some {n : ℕ} {p : ℕ → Bool} {turns i j : ℕ} (hi : i < n) (hj : j < turns)
    (hp : p ((i + j) % n) = true) (hbefore : ∀ j' < j, p ((i + j') % n) = false) :
    probe n p turns i = some ((i + j) % n) := by
  induction turns generalizing i j with
  | zero => omega
  | succ turns ih =>
    cases j with
    | zero =>
      have hmod : (i + 0) % n = i := Nat.mod_eq_of_lt hi
      rw [hmod] at hp ⊢
      rw [probe, if_pos hp]
    | succ j =>
      have h0 : p i = false := by simpa [Nat.mod_eq_of_lt hi] using hbefore 0 (by omega)
      have hshift : ∀ k, ((i + 1) % n + k) % n = (i + (k + 1)) % n := by
        intro k
        rw [Nat.mod_add_mod, Nat.add_right_comm, Nat.add_assoc]
      rw [probe, h0, if_neg Bool.false_ne_true, ← hshift j]
      apply ih (Nat.mod_lt _ (by omega)) (by omega)
      · rwa [hshift]
      · intro j' hj'
        rw [hshift]
        exact hbefore (j' + 1) (by omega)

theorem probe_eq_none {n : ℕ} {p : ℕ → Bool} {turns i : ℕ} (hi : i < n)
    (h : ∀ j < turns, p ((i + j) % n) = false) : probe n p turns i = none := by
  induction turns generalizing i with
  | zero => rfl
  | succ turns ih =>
    have h0 : p i = false := by simpa [Nat.mod_eq_of_lt hi] using h 0 (by omega)
    rw [probe, h0, if_neg Bool.false_ne_true]
    apply ih (Nat.mod_lt _ (by omega))
    intro j hj
    rw [Nat.mod_add_mod, Nat.add_right_comm, Nat.add_assoc]
    exact h (j + 1) (by omega)

theorem probe_cases {n : ℕ} (p : ℕ → Bool) (turns : ℕ) {i : ℕ} (hi : i < n) :
    (probe n p turns i = none ∧ ∀ j < turns, p ((i + j) % n) = false) ∨
    ∃ j < turns, probe n p turns i = some ((i + j) % n) ∧ p ((i + j) % n) = true ∧
      ∀ j' < j, p ((i + j') % n) = false := by
  by_cases hex : ∃ j, j < turns ∧ p ((i + j) % n) = true
  · obtain ⟨hj, hp⟩ := Nat.find_spec hex
    have hbefore : ∀ j' < Nat.find hex, p ((i + j') % n) = false := by
      intro j' hj'
      have hmin := Nat.find_min hex hj'
      rw [not_and, Bool.not_eq_true] at hmin
      exact hmin (by omega)
    exact .inr ⟨_, hj, probe_eq_some hi hj hp hbefore, hp, hbefore⟩
  · have hall : ∀ j < turns, p ((i + j) % n) = false := by
      intro j hj
      rw [← Bool.not_eq_true]
      exact fun hp => hex ⟨j, hj, hp⟩
    exact .inl ⟨probe_eq_none hi hall, hall⟩

theorem exists_offset {n i start : ℕ} (hi : i < n) (hs : start < n) :
    ∃ j < n, (start + j) % n = i := by
  refine ⟨(i + n - start) % n, Nat.mod_lt _ (by omega), ?_⟩
  rw [Nat.add_mod_mod, show start + (i + n - start) = i + n by omega, Nat.add_mod_right,
    Nat.mod_eq_of_lt hi]

theorem offset_injective {n start j j' : ℕ} (hj : j < n) (hj' : j' < n)
    (h : (start + j) % n = (start + j') % n) : j = j' :=
  Nat.ModEq.eq_of_lt_of_lt (Nat.ModEq.add_left_cancel' start h) hj hj'

inductive Cell (K V : Type*)
  | empty
  | freed
  | full (k : K) (v : V)

namespace Cell
variable {K V : Type*} [DecidableEq K]

/-- Where a lookup of `k` ends. -/
def endsLookup (k : K) : Cell K V → Bool
  | .empty => true
  | .freed => false
  | .full k' _ => k' = k

def takes (k : K) : Cell K V → Bool
  | .empty => true
  | .freed => true
  | .full k' _ => k' = k

end Cell

variable {K V : Type*}

def Holds (n : ℕ) (cells : ℕ → Cell K V) (k : K) (v : V) : Prop :=
  ∃ i < n, cells i = .full k v

/-- No cell before `i` on the probe path from `start` was never used. -/
def Reached (n : ℕ) (cells : ℕ → Cell K V) (start i : ℕ) : Prop :=
  ∃ j < n, (start + j) % n = i ∧ ∀ j' < j, cells ((start + j') % n) ≠ .empty

theorem Reached.update {n start i : ℕ} {cells : ℕ → Cell K V} (h : Reached n cells start i)
    (i' : ℕ) {c : Cell K V} (hc : c ≠ .empty) :
    Reached n (Function.update cells i' c) start i := by
  obtain ⟨j, hj, hpos, hpath⟩ := h
  refine ⟨j, hj, hpos, ?_⟩
  intro j' hj' hempty
  by_cases hi : (start + j') % n = i'
  · rw [hi, Function.update_self] at hempty
    exact hc hempty
  · rw [Function.update_of_ne hi] at hempty
    exact hpath j' hj' hempty

theorem update_eq_full {cells : ℕ → Cell K V} {i : ℕ} {k : K} {v : V} {i' : ℕ} {k' : K} {v' : V}
    (h : Function.update cells i (.full k v) i' = .full k' v') :
    (i' = i ∧ k' = k ∧ v' = v) ∨ (i' ≠ i ∧ cells i' = .full k' v') := by
  by_cases hi : i' = i
  · subst hi
    rw [Function.update_self] at h
    cases h
    exact .inl ⟨rfl, rfl, rfl⟩
  · rw [Function.update_of_ne hi] at h
    exact .inr ⟨hi, h⟩

theorem update_freed_eq_full {cells : ℕ → Cell K V} {i i' : ℕ} {k' : K} {v' : V}
    (h : Function.update cells i .freed i' = .full k' v') : i' ≠ i ∧ cells i' = .full k' v' := by
  by_cases hi : i' = i
  · subst hi
    rw [Function.update_self] at h
    cases h
  · rw [Function.update_of_ne hi] at h
    exact ⟨hi, h⟩

section Probes
variable [DecidableEq K] {n start i : ℕ} {cells : ℕ → Cell K V} {k : K} {v : V}

theorem probe_stored (hs : start < n) (hr : Reached n cells start i) (hc : cells i = .full k v) :
    ∃ j < n, probe n (fun i => (cells i).endsLookup k) n start = some ((start + j) % n) ∧
      (∃ v', cells ((start + j) % n) = .full k v') ∧
      ∀ j' < j, ∀ v', cells ((start + j') % n) ≠ .full k v' := by
  obtain ⟨j₀, hj₀, rfl, hpath⟩ := hr
  rcases probe_cases (fun i => (cells i).endsLookup k) n hs with
    ⟨-, hall⟩ | ⟨j, hj, hsome, hstop, hbefore⟩
  · have hrefused := hall j₀ hj₀
    simp [hc, Cell.endsLookup] at hrefused
  · have hle : j ≤ j₀ := by
      by_contra hlt
      have hrefused := hbefore j₀ (by omega)
      simp [hc, Cell.endsLookup] at hrefused
    refine ⟨j, hj, hsome, ?_, ?_⟩
    · cases hcell : cells ((start + j) % n) with
      | empty =>
        rcases Nat.lt_or_eq_of_le hle with hlt | rfl
        · exact absurd hcell (hpath j hlt)
        · rw [hc] at hcell
          cases hcell
      | freed => simp [hcell, Cell.endsLookup] at hstop
      | full k' v' =>
        have hk : k' = k := by simpa [hcell, Cell.endsLookup] using hstop
        exact ⟨v', by rw [hk]⟩
    · intro j' hj' v' hcell
      have hrefused := hbefore j' hj'
      simp [hcell, Cell.endsLookup] at hrefused

/-- A lookup ends at the first cell with its key. -/
theorem probe_first {j : ℕ} (hs : start < n) (hr : Reached n cells start ((start + j) % n))
    (hc : cells ((start + j) % n) = .full k v)
    (hbefore : ∀ j' < j, ∀ v', cells ((start + j') % n) ≠ .full k v') :
    probe n (fun i => (cells i).endsLookup k) n start = some ((start + j) % n) := by
  obtain ⟨j', hj', hp, ⟨v', hc'⟩, hbefore'⟩ := probe_stored hs hr hc
  have hjj : j' = j := by
    rcases Nat.lt_trichotomy j' j with hlt | heq | hgt
    · exact absurd hc' (hbefore j' hlt v')
    · exact heq
    · exact absurd hc (hbefore' j hgt v)
  rw [hp, hjj]

theorem probe_absent (hs : start < n) (habs : ∀ v, ¬Holds n cells k v)
    (hp : probe n (fun i => (cells i).endsLookup k) n start = some i) : cells i = .empty := by
  rcases probe_cases (fun i => (cells i).endsLookup k) n hs with
    ⟨hnone, -⟩ | ⟨j, -, hsome, hstop, -⟩
  · rw [hnone] at hp
    cases hp
  · obtain rfl := Option.some.inj (hsome.symm.trans hp)
    have hlt : (start + j) % n < n := Nat.mod_lt _ (by omega)
    cases hcell : cells ((start + j) % n) with
    | empty => rfl
    | freed => simp [hcell, Cell.endsLookup] at hstop
    | full k' v' =>
      have hk : k' = k := by simpa [hcell, Cell.endsLookup] using hstop
      exact absurd ⟨_, hlt, hk ▸ hcell⟩ (habs v')

/-- Where an insertion ends: every cell before holds some other key. -/
theorem probe_takes_some (hs : start < n)
    (hp : probe n (fun i => (cells i).takes k) n start = some i) :
    i < n ∧ (∀ k' v', cells i = .full k' v' → k' = k) ∧ Reached n cells start i ∧
      ∃ j < n, (start + j) % n = i ∧ ∀ j' < j, ∀ v', cells ((start + j') % n) ≠ .full k v' := by
  rcases probe_cases (fun i => (cells i).takes k) n hs with
    ⟨hnone, -⟩ | ⟨j, hj, hsome, hstop, hbefore⟩
  · rw [hnone] at hp
    cases hp
  obtain rfl := Option.some.inj (hsome.symm.trans hp)
  refine ⟨Nat.mod_lt _ (by omega), ?_, ⟨j, hj, rfl, ?_⟩, j, hj, rfl, ?_⟩
  · intro k' v' hcell
    simpa [hcell, Cell.takes] using hstop
  · intro j' hj' hcell
    have hrefused := hbefore j' hj'
    simp [hcell, Cell.takes] at hrefused
  · intro j' hj' v' hcell
    have hrefused := hbefore j' hj'
    simp [hcell, Cell.takes] at hrefused

end Probes

/-- The invariant of a table: no stored key lies behind an unused cell on its probe
path, and no key is stored twice. -/
structure Probing (n : ℕ) (start : K → ℕ) (cells : ℕ → Cell K V) : Prop where
  start_lt : ∀ k, start k < n
  path : ∀ i < n, ∀ k v, cells i = .full k v →
    ∃ j < n, (start k + j) % n = i ∧ ∀ j' < j, cells ((start k + j') % n) ≠ .empty
  unique : ∀ i < n, ∀ i' < n, ∀ k v v', cells i = .full k v → cells i' = .full k v' → i = i'

namespace Probing
variable {n : ℕ} {start : K → ℕ} {cells : ℕ → Cell K V}

theorem of_empty (hs : ∀ k, start k < n) : Probing n start (fun _ => (.empty : Cell K V)) :=
  ⟨hs, fun _ _ _ _ h => (nomatch h), fun _ _ _ _ _ _ _ h => (nomatch h)⟩

section Lookup
variable [DecidableEq K]

theorem probe_full (h : Probing n start cells) {i : ℕ} (hi : i < n) {k : K} {v : V}
    (hc : cells i = .full k v) :
    probe n (fun i => (cells i).endsLookup k) n (start k) = some i := by
  obtain ⟨j, hj, hp, ⟨v', hcell⟩, -⟩ := probe_stored (h.start_lt k) (h.path i hi k v hc) hc
  have hlt : (start k + j) % n < n := Nat.mod_lt _ (by omega)
  rw [hp, h.unique _ hlt _ hi _ _ _ hcell hc]

theorem probe_takes (h : Probing n start cells) (k : K)
    (hfree : ∃ i < n, ∀ k' v', cells i ≠ .full k' v') :
    ∃ i, probe n (fun i => (cells i).takes k) n (start k) = some i := by
  obtain ⟨i, hi, hne⟩ := hfree
  obtain ⟨j, hj, rfl⟩ := exists_offset hi (h.start_lt k)
  rcases probe_cases (fun i => (cells i).takes k) n (h.start_lt k) with
    ⟨-, hall⟩ | ⟨j', -, hsome, -, -⟩
  · have hrefused := hall j hj
    cases hcell : cells ((start k + j) % n) with
    | empty => simp [hcell, Cell.takes] at hrefused
    | freed => simp [hcell, Cell.takes] at hrefused
    | full k' v' => exact absurd hcell (hne k' v')
  · exact ⟨_, hsome⟩

/-- Storing a new key where its probe ends keeps the invariant. -/
theorem insert (h : Probing n start cells) {k : K} (habs : ∀ v, ¬Holds n cells k v) {i : ℕ}
    (hp : probe n (fun i => (cells i).takes k) n (start k) = some i) (v : V) :
    i < n ∧ Probing n start (Function.update cells i (.full k v)) ∧
      ∀ k' v', Holds n (Function.update cells i (.full k v)) k' v' ↔
        (k' = k ∧ v' = v) ∨ Holds n cells k' v' := by
  obtain ⟨hlt, htaken, hreached, -⟩ := probe_takes_some (h.start_lt k) hp
  have hused : Cell.full k v ≠ .empty := by simp
  -- the cell taken held no key, since it did not hold `k`
  have hold : ∀ k' v', cells i ≠ .full k' v' :=
    fun k' v' hcell => habs v' ⟨i, hlt, htaken k' v' hcell ▸ hcell⟩
  refine ⟨hlt, ⟨h.start_lt, ?_, ?_⟩, ?_⟩
  · intro i' hi' k' v' hcell
    rcases update_eq_full hcell with ⟨rfl, rfl, rfl⟩ | ⟨-, hcell⟩
    · exact hreached.update i' hused
    · exact Reached.update (h.path i' hi' k' v' hcell) i hused
  · intro i₁ hi₁ i₂ hi₂ k' v₁ v₂ h₁ h₂
    rcases update_eq_full h₁ with ⟨hi₁', rfl, -⟩ | ⟨-, hc₁⟩ <;>
      rcases update_eq_full h₂ with ⟨hi₂', hk, -⟩ | ⟨-, hc₂⟩
    · exact hi₁'.trans hi₂'.symm
    · exact absurd ⟨i₂, hi₂, hc₂⟩ (habs v₂)
    · exact absurd ⟨i₁, hi₁, hk ▸ hc₁⟩ (habs v₁)
    · exact h.unique i₁ hi₁ i₂ hi₂ k' v₁ v₂ hc₁ hc₂
  · intro k' v'
    constructor
    · rintro ⟨i', hi', hcell⟩
      rcases update_eq_full hcell with ⟨-, hk, hv⟩ | ⟨-, hcell⟩
      · exact .inl ⟨hk, hv⟩
      · exact .inr ⟨i', hi', hcell⟩
    · rintro (⟨rfl, rfl⟩ | ⟨i', hi', hcell⟩)
      · exact ⟨i, hlt, Function.update_self ..⟩
      · have hi : i' ≠ i := by
          rintro rfl
          exact hold k' v' hcell
        exact ⟨i', hi', by rw [Function.update_of_ne hi, hcell]⟩

end Lookup

theorem erase (h : Probing n start cells) {i : ℕ} (hi : i < n) {k : K} {v : V}
    (hc : cells i = .full k v) :
    Probing n start (Function.update cells i .freed) ∧
      ∀ k' v', Holds n (Function.update cells i .freed) k' v' ↔ k' ≠ k ∧ Holds n cells k' v' := by
  refine ⟨⟨h.start_lt, ?_, ?_⟩, ?_⟩
  · intro i' hi' k' v' hcell
    exact Reached.update (h.path i' hi' k' v' (update_freed_eq_full hcell).2) i (by simp)
  · intro i₁ hi₁ i₂ hi₂ k' v₁ v₂ h₁ h₂
    exact h.unique i₁ hi₁ i₂ hi₂ k' v₁ v₂ (update_freed_eq_full h₁).2 (update_freed_eq_full h₂).2
  · intro k' v'
    constructor
    · rintro ⟨i', hi', hcell⟩
      obtain ⟨hne, hcell⟩ := update_freed_eq_full hcell
      refine ⟨?_, i', hi', hcell⟩
      rintro rfl
      exact hne (h.unique i' hi' i hi k' v' v hcell hc)
    · rintro ⟨hne, i', hi', hcell⟩
      have hii : i' ≠ i := by
        rintro rfl
        rw [hc] at hcell
        cases hcell
        exact hne rfl
      exact ⟨i', hi', by rw [Function.update_of_ne hii, hcell]⟩

theorem exists_not_full (h : Probing n start cells) (keys : Finset K) (hcard : keys.card < n)
    (hkeys : ∀ k v, Holds n cells k v → k ∈ keys) : ∃ i < n, ∀ k v, cells i ≠ .full k v := by
  by_contra hall
  have hfull : ∀ i : Fin n, ∃ k : keys, ∃ v, cells i = .full k.val v := by
    intro i
    by_contra hno
    refine hall ⟨i, i.isLt, ?_⟩
    intro k v hcell
    exact hno ⟨⟨k, hkeys k v ⟨i, i.isLt, hcell⟩⟩, v, hcell⟩
  choose key hkey using hfull
  have hinj : Function.Injective key := by
    intro i i' heq
    obtain ⟨v, hv⟩ := hkey i
    obtain ⟨v', hv'⟩ := hkey i'
    rw [heq] at hv
    exact Fin.ext (h.unique i i.isLt i' i'.isLt _ v v' hv hv')
  have hle := Fintype.card_le_of_injective key hinj
  simp only [Fintype.card_fin, Fintype.card_coe] at hle
  omega

end Probing

/-- The invariant of a table in which a key may be stored several times, as an insertion into
a freed cell does not look further: the first cell on the probe path of a key holds the value
that the map `m` has for it. -/
structure Newest (n : ℕ) (start : K → ℕ) (cells : ℕ → Cell K V) (m : K → Option V) : Prop where
  start_lt : ∀ k, start k < n
  path : ∀ i < n, ∀ k v, cells i = .full k v → Reached n cells (start k) i
  first : ∀ k v, m k = some v → ∃ j < n, cells ((start k + j) % n) = .full k v ∧
    ∀ j' < j, ∀ v', cells ((start k + j') % n) ≠ .full k v'
  present : ∀ i < n, ∀ k v, cells i = .full k v → m k ≠ none

namespace Newest
variable {n : ℕ} {start : K → ℕ} {cells : ℕ → Cell K V} {m : K → Option V}

theorem of_empty (hs : ∀ k, start k < n) :
    Newest n start (fun _ => (.empty : Cell K V)) (fun _ => none) :=
  ⟨hs, fun _ _ _ _ h => (nomatch h), fun _ _ h => (nomatch h), fun _ _ _ _ h => (nomatch h)⟩

theorem absent (h : Newest n start cells m) {k : K} (hk : m k = none) (v : V) :
    ¬Holds n cells k v := by
  rintro ⟨i, hi, hc⟩
  exact h.present i hi k v hc hk

variable [DecidableEq K]

theorem probe_present (h : Newest n start cells m) {k : K} {v : V} (hk : m k = some v) :
    ∃ i < n, probe n (fun i => (cells i).endsLookup k) n (start k) = some i ∧
      cells i = .full k v := by
  obtain ⟨j, hj, hcell, hfirst⟩ := h.first k v hk
  have hlt : (start k + j) % n < n := Nat.mod_lt _ (by omega)
  exact ⟨_, hlt, probe_first (h.start_lt k) (h.path _ hlt k v hcell) hcell hfirst, hcell⟩

/-- An insertion overwrites the value of its key, or stores a newer one in front of it. -/
theorem insert (h : Newest n start cells m) {k : K} {i : ℕ}
    (hp : probe n (fun i => (cells i).takes k) n (start k) = some i) (v : V) :
    i < n ∧
      Newest n start (Function.update cells i (.full k v)) (Function.update m k (some v)) ∧
      probe n (fun i' => (Function.update cells i (.full k v) i').endsLookup k) n (start k) =
        some i := by
  obtain ⟨hlt, htaken, hreached, j, hj, hpos, hbefore⟩ := probe_takes_some (h.start_lt k) hp
  have hused : Cell.full k v ≠ .empty := by simp
  have hcell : Function.update cells i (.full k v) ((start k + j) % n) = .full k v := by
    rw [hpos, Function.update_self]
  have hfront : ∀ j' < j, ∀ v',
      Function.update cells i (.full k v) ((start k + j') % n) ≠ .full k v' := by
    intro j' hj' v' hcell
    rcases update_eq_full hcell with ⟨heq, -, -⟩ | ⟨-, hcell⟩
    · have := offset_injective (by omega) hj (heq.trans hpos.symm)
      omega
    · exact hbefore j' hj' v' hcell
  have hfound := probe_first (h.start_lt k) (hpos ▸ hreached.update i hused) hcell hfront
  rw [hpos] at hfound
  refine ⟨hlt, ⟨h.start_lt, ?_, ?_, ?_⟩, hfound⟩
  · intro i' hi' k' v' hcell
    rcases update_eq_full hcell with ⟨rfl, rfl, rfl⟩ | ⟨-, hcell⟩
    · exact hreached.update i' hused
    · exact (h.path i' hi' k' v' hcell).update i hused
  · intro k' v' hk'
    by_cases hkk : k' = k
    · subst hkk
      rw [Function.update_self] at hk'
      cases hk'
      exact ⟨j, hj, hcell, hfront⟩
    · rw [Function.update_of_ne hkk] at hk'
      obtain ⟨j', hj', hcell, hfirst⟩ := h.first k' v' hk'
      have hne : (start k' + j') % n ≠ i := by
        intro heq
        rw [heq] at hcell
        exact hkk (htaken k' v' hcell)
      refine ⟨j', hj', by rw [Function.update_of_ne hne, hcell], ?_⟩
      intro j'' hj'' v'' hcell''
      rcases update_eq_full hcell'' with ⟨-, hk, -⟩ | ⟨-, hcell''⟩
      · exact hkk hk
      · exact hfirst j'' hj'' v'' hcell''
  · intro i' hi' k' v' hcell
    by_cases hkk : k' = k
    · rw [hkk, Function.update_self]
      exact Option.some_ne_none v
    · rw [Function.update_of_ne hkk]
      rcases update_eq_full hcell with ⟨-, hk, -⟩ | ⟨-, hcell⟩
      · exact absurd hk hkk
      · exact h.present i' hi' k' v' hcell

theorem erase (h : Newest n start cells m) {k : K} {i : ℕ} {v : V} (hc : cells i = .full k v)
    (hone : ∀ i' < n, ∀ v', cells i' = .full k v' → i' = i) :
    Newest n start (Function.update cells i .freed) (Function.update m k none) := by
  refine ⟨h.start_lt, ?_, ?_, ?_⟩
  · intro i' hi' k' v' hcell
    exact (h.path i' hi' k' v' (update_freed_eq_full hcell).2).update i (by simp)
  · intro k' v' hk'
    have hkk : k' ≠ k := by
      rintro rfl
      rw [Function.update_self] at hk'
      cases hk'
    rw [Function.update_of_ne hkk] at hk'
    obtain ⟨j, hj, hcell, hfirst⟩ := h.first k' v' hk'
    have hne : (start k' + j) % n ≠ i := by
      intro heq
      rw [heq, hc] at hcell
      cases hcell
      exact hkk rfl
    refine ⟨j, hj, by rw [Function.update_of_ne hne, hcell], ?_⟩
    intro j' hj' v'' hcell'
    exact hfirst j' hj' v'' (update_freed_eq_full hcell').2
  · intro i' hi' k' v' hcell
    obtain ⟨hne, hcell⟩ := update_freed_eq_full hcell
    have hkk : k' ≠ k := by
      rintro rfl
      exact hne (hone i' hi' v' hcell)
    rw [Function.update_of_ne hkk]
    exact h.present i' hi' k' v' hcell

/-- Freeing one of two cells of a key leaves the other one to be found. -/
theorem probe_copy (h : Newest n start cells m) {k : K} {i i' : ℕ} {v' : V} (hne : i' ≠ i)
    (hi' : i' < n) (hc' : cells i' = .full k v') :
    ∃ i₀ < n, probe n (fun i' => (Function.update cells i .freed i').endsLookup k) n (start k) =
      some i₀ ∧ i₀ ≠ i ∧ ∃ v, cells i₀ = .full k v := by
  have hcell : Function.update cells i .freed i' = .full k v' := by
    rw [Function.update_of_ne hne, hc']
  obtain ⟨j, hj, hp, ⟨v, hfull⟩, -⟩ := probe_stored (h.start_lt k)
    ((h.path i' hi' k v' hc').update i (by simp)) hcell
  obtain ⟨hne, hfull⟩ := update_freed_eq_full hfull
  exact ⟨_, Nat.mod_lt _ (by omega), hp, hne, v, hfull⟩

end Newest
end TradingPipeline.Lib
