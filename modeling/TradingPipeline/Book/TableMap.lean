import TradingPipeline.Book.TableInvariant

/-! # The table of live orders under overwriting

`insert` takes the first slot on the probe path that is unused, freed or has the key. A key
that is present behind a freed slot is thereby stored a second time. Lookups still find the
newest handle, until the key is erased: then the older one comes back.
-/
namespace TradingPipeline.Book
open Lib
namespace LiveOrderTable
variable {H : Type}

/-- The calls that change the table: `insert(key, h)` and `erase(find(key))`, the latter for a
key that is found. -/
inductive Call (H : Type)
  | insert (key : ℕ) (isRef : IsRef key) (h : H)
  | erase (key : ℕ)

def call (t : LiveOrderTable H) : Call H → Option (LiveOrderTable H)
  | .insert key _ h => t.insert key h
  | .erase key => if t.find key < 0 then some t else some (t.erase (t.find key))

/-- What the calls mean for a map. -/
def Call.onMap (m : ℕ → Option H) : Call H → ℕ → Option H
  | .insert key _ h => Function.update m key (some h)
  | .erase key => Function.update m key none

/-- `find` yields an index with the handle that the map has for the key, or `-1`. -/
def IsMap (t : LiveOrderTable H) (m : ℕ → Option H) : Prop :=
  ∀ key, match m key with
    | some h => 0 ≤ t.find key ∧ t.find key < t.size ∧ t.handle (t.find key) = some h
    | none => t.find key = -1

/-- After every front part of the calls the table is the map. -/
def BehavesAsMap (cap : ℕ) (calls : List (Call H)) : Prop :=
  ∀ front, front <+: calls → ∃ t, front.foldlM call (create cap) = some t ∧
    t.IsMap (front.foldl Call.onMap fun _ => none)

def Stores (t : LiveOrderTable H) (key i : ℕ) : Prop :=
  (t.slots i).key = key ∧ (t.slots i).handle.isSome

instance (t : LiveOrderTable H) (key i : ℕ) : Decidable (t.Stores key i) :=
  inferInstanceAs (Decidable (_ ∧ _))

/-- An inserted key meets a slot that takes it, with an index that fits 32 bits. An erased key
is stored in one slot at most. -/
def Admits (t : LiveOrderTable H) : Call H → Prop
  | .insert key _ _ => ∃ i ∈ t.insertIndex key, i < 2 ^ 31
  | .erase key => ∀ i < t.size, ∀ j < t.size, t.Stores key i → t.Stores key j → i = j

instance (t : LiveOrderTable H) : DecidablePred t.Admits
  | .insert key _ _ => inferInstanceAs (Decidable (∃ i ∈ t.insertIndex key, i < 2 ^ 31))
  | .erase key => inferInstanceAs
      (Decidable (∀ i < t.size, ∀ j < t.size, t.Stores key i → t.Stores key j → i = j))

def AdmitsAll (t : LiveOrderTable H) : List (Call H) → Prop
  | [] => True
  | c :: calls => t.Admits c ∧ ∀ t', t.call c = some t' → t'.AdmitsAll calls

instance AdmitsAll.decidable (t : LiveOrderTable H) :
    (calls : List (Call H)) → Decidable (t.AdmitsAll calls)
  | [] => .isTrue trivial
  | c :: calls =>
    match hc : t.call c with
    | none => decidable_of_iff (t.Admits c) ⟨fun h => ⟨h, by simp [hc]⟩, fun h => h.1⟩
    | some t' =>
      have := AdmitsAll.decidable t' calls
      decidable_of_iff (t.Admits c ∧ t'.AdmitsAll calls)
        ⟨fun h => ⟨h.1, by simpa [hc] using h.2⟩, fun h => ⟨h.1, h.2 t' hc⟩⟩

/-- The table and the map along the calls, as long as each call is admitted. -/
structure Tracks (t : LiveOrderTable H) (m : ℕ → Option H) : Prop where
  marked : t.Marked
  size_le : t.size ≤ 2 ^ 32
  newest : Newest t.size t.start t.cell m
  low : ∀ i, (t.slots i).handle.isSome → i < 2 ^ 31

theorem create_tracks {cap : ℕ} (hcap : cap ≤ 2 ^ 32) :
    (create cap : LiveOrderTable H).Tracks fun _ => none := by
  refine ⟨create_marked cap, create_size_le hcap, ?_, fun _ h => (nomatch h)⟩
  rw [create_cell]
  exact Newest.of_empty (create cap).start_lt

namespace Tracks
variable {t : LiveOrderTable H} {m : ℕ → Option H} {key : ℕ} {h : H}

theorem int32_index (ht : t.Tracks m) {i : ℕ} (hc : t.cell i = .full key h) : int32 i = i :=
  int32_natCast (ht.low i (by rw [(cell_eq_full.mp hc).2]; rfl))

theorem find_some (ht : t.Tracks m) (hk : m key = some h) :
    ∃ i < t.size, t.find key = i ∧ t.cell i = .full key h := by
  obtain ⟨i, hi, hp, hc⟩ := ht.newest.probe_present hk
  exact ⟨i, hi, by rw [ht.marked.find_of_probe hp hc, ht.int32_index hc], hc⟩

theorem find_none (ht : t.Tracks m) (hk : m key = none) : t.find key = -1 :=
  ht.marked.find_of_absent (ht.newest.absent hk)

theorem isMap (ht : t.Tracks m) : t.IsMap m := by
  intro key
  split
  · rename_i h hk
    obtain ⟨i, hi, hfind, hc⟩ := ht.find_some hk
    rw [hfind]
    exact ⟨by omega, by omega, (cell_eq_full.mp hc).2⟩
  · rename_i hk
    exact ht.find_none hk

theorem call_insert (ht : t.Tracks m) (hkey : IsRef key) (h : H) :
    (t.Admits (.insert key hkey h) → ∃ t', t.call (.insert key hkey h) = some t' ∧
      t'.Tracks (Function.update m key (some h))) ∧
    (∀ t', t.call (.insert key hkey h) = some t' → t'.IsMap (Function.update m key (some h)) →
      t.Admits (.insert key hkey h)) := by
  simp only [call, insert_eq, Admits, ht.marked.insertIndex_eq]
  cases hp : probe t.size (fun i => (t.cell i).takes key) t.size (t.start key) with
  | none => simp
  | some i =>
    obtain ⟨hi, hnewest, hfound⟩ := ht.newest.insert hp h
    rw [← cell_put] at hnewest hfound
    have hmarked := ht.marked.put i hkey h
    constructor
    · rintro ⟨i', hi', hlow⟩
      cases hi'
      refine ⟨_, rfl, hmarked, ht.size_le, hnewest, ?_⟩
      intro j hj
      by_cases hji : j = i
      · exact hji ▸ hlow
      · simp only [Function.update_of_ne hji] at hj
        exact ht.low j hj
    · intro t' ht' hmap
      cases ht'
      refine ⟨i, rfl, ?_⟩
      have hslot := hmap key
      rw [Function.update_self] at hslot
      have hfind := hmarked.find_of_probe hfound (h := h) (by rw [cell_put, Function.update_self])
      have hpos : 0 ≤ int32 i := hfind ▸ hslot.1
      have hsize := ht.size_le
      simp only [int32, Int.bmod_def] at hpos
      split at hpos <;> omega

theorem call_erase (ht : t.Tracks m) (key : ℕ) :
    (t.Admits (.erase key) → ∃ t', t.call (.erase key) = some t' ∧
      t'.Tracks (Function.update m key none)) ∧
    (∀ t', t.call (.erase key) = some t' → t'.IsMap (Function.update m key none) →
      t.Admits (.erase key)) := by
  cases hk : m key with
  | none =>
    have hneg : t.find key < 0 := by
      rw [ht.find_none hk]
      decide
    have hsame : Function.update m key none = m := Function.update_eq_self_iff.mpr hk.symm
    rw [call, if_pos hneg, hsame]
    refine ⟨fun _ => ⟨t, rfl, ht⟩, ?_⟩
    rintro t' - - i hi j hj ⟨hki, hsi⟩ -
    obtain ⟨h, hh⟩ := Option.isSome_iff_exists.mp hsi
    exact absurd ⟨i, hi, cell_eq_full.mpr ⟨hki, hh⟩⟩ (ht.newest.absent hk h)
  | some h =>
    obtain ⟨i, hi, hfind, hc⟩ := ht.find_some hk
    have hpos : ¬t.find key < 0 := by
      rw [hfind]
      omega
    rw [call, if_neg hpos, hfind]
    constructor
    · intro hone
      refine ⟨_, rfl, ht.marked.erase i, ht.size_le, ?_, ?_⟩
      · rw [cell_erase]
        refine ht.newest.erase hc fun i' hi' v' hc' => ?_
        obtain ⟨hk', hv'⟩ := cell_eq_full.mp hc'
        obtain ⟨hk, hv⟩ := cell_eq_full.mp hc
        exact hone i' hi' i hi ⟨hk', by rw [hv']; rfl⟩ ⟨hk, by rw [hv]; rfl⟩
      · intro j hj
        by_cases hji : j = i
        · subst hji
          simp [erase] at hj
        · simp only [erase, Int.toNat_natCast, Function.update_of_ne hji] at hj
          exact ht.low j hj
    · intro t' ht' hmap
      cases ht'
      have hgone := hmap key
      rw [Function.update_self] at hgone
      have honly : ∀ i' < t.size, t.Stores key i' → i' = i := by
        rintro i' hi' ⟨hk', hs'⟩
        obtain ⟨h', hh'⟩ := Option.isSome_iff_exists.mp hs'
        by_contra hne
        obtain ⟨i₀, hi₀, hp, hne₀, v, hc₀⟩ :=
          ht.newest.probe_copy hne hi' (cell_eq_full.mpr ⟨hk', hh'⟩)
        rw [← cell_erase] at hp
        have hc₁ : (t.erase i).cell i₀ = .full key v := by
          rw [cell_erase, Function.update_of_ne hne₀, hc₀]
        have hfind₀ := (ht.marked.erase i).find_of_probe hp hc₁
        rw [hgone, ht.int32_index hc₀] at hfind₀
        omega
      exact fun a ha b hb hsa hsb => (honly a ha hsa).trans (honly b hb hsb).symm

/-- A call is admitted exactly if it leaves the table as the map. -/
theorem call (ht : t.Tracks m) (c : Call H) :
    (t.Admits c → ∃ t', t.call c = some t' ∧ t'.Tracks (c.onMap m)) ∧
    (∀ t', t.call c = some t' → t'.IsMap (c.onMap m) → t.Admits c) :=
  match c with
  | .insert _ hkey h => ht.call_insert hkey h
  | .erase key => ht.call_erase key

theorem calls (ht : t.Tracks m) (calls : List (Call H)) :
    (∀ front, front <+: calls → ∃ t', front.foldlM LiveOrderTable.call t = some t' ∧
      t'.IsMap (front.foldl Call.onMap m)) ↔ t.AdmitsAll calls := by
  induction calls generalizing t m with
  | nil =>
    refine ⟨fun _ => trivial, ?_⟩
    rintro _ front hfront
    rw [List.prefix_nil.mp hfront]
    exact ⟨t, rfl, ht.isMap⟩
  | cons c calls ih =>
    obtain ⟨hgo, hback⟩ := ht.call c
    constructor
    · intro h
      obtain ⟨t₁, hcall, hmap⟩ := h [c] (by simp)
      have hcall : t.call c = some t₁ := by simpa using hcall
      have hadmits := hback t₁ hcall hmap
      refine ⟨hadmits, ?_⟩
      intro t' ht'
      obtain ⟨t₂, hcall₂, htracks⟩ := hgo hadmits
      obtain rfl := Option.some.inj (hcall₂.symm.trans ht')
      refine (ih htracks).mp fun front hfront => ?_
      obtain ⟨t₃, hrun, hmap₃⟩ := h (c :: front) (List.cons_prefix_cons.mpr ⟨rfl, hfront⟩)
      rw [List.foldlM_cons, ht'] at hrun
      exact ⟨t₃, hrun, hmap₃⟩
    · rintro ⟨hadmits, hrest⟩ front hfront
      obtain ⟨t₁, hcall, htracks⟩ := hgo hadmits
      cases front with
      | nil => exact ⟨t, rfl, ht.isMap⟩
      | cons c' front =>
        obtain ⟨rfl, htail⟩ := List.cons_prefix_cons.mp hfront
        obtain ⟨t₂, hrun, hmap⟩ := (ih htracks).mpr (hrest t₁ hcall) front htail
        refine ⟨t₂, ?_, hmap⟩
        rw [List.foldlM_cons, hcall]
        exact hrun

end Tracks

/-- The table behaves as a map along a sequence of calls exactly if no erased key is stored in
two slots and no inserted key goes round a table without a slot for it. -/
theorem behavesAsMap_iff {cap : ℕ} (hcap : cap ≤ 2 ^ 32) (calls : List (Call H)) :
    BehavesAsMap cap calls ↔ (create cap : LiveOrderTable H).AdmitsAll calls :=
  (create_tracks hcap).calls calls

/-- Keys 3 and 4 hash to the same slot of four. -/
def overwritingCalls : List (Call ℕ) :=
  [.insert 3 (by decide) 30, .insert 4 (by decide) 40, .insert 4 (by decide) 41, .erase 3,
    .erase 4, .insert 4 (by decide) 42]

theorem behavesAsMap_iff_overwritingCalls : 4 ≤ 2 ^ 32 ∧ BehavesAsMap 4 overwritingCalls :=
  ⟨by decide, (behavesAsMap_iff (by decide) _).mpr (by decide +kernel)⟩

/-- Once key 3 is gone, the second handle of key 4 goes into the slot freed by it, in front of
the first one. -/
def resurfacingCalls : List (Call ℕ) :=
  [.insert 3 (by decide) 30, .insert 4 (by decide) 40, .erase 3, .insert 4 (by decide) 41, .erase 4]

/-- The erased key is found again, with the handle that was overwritten. -/
theorem erased_key_resurfaces :
    (resurfacingCalls.foldlM call (create 4)).map (fun t => (t.find 4, t.handle (t.find 4))) =
      some (1, some 40) ∧
    resurfacingCalls.foldl Call.onMap (fun _ => none) 4 = none ∧
    ¬BehavesAsMap 4 resurfacingCalls := by
  have hrun : (resurfacingCalls.foldlM call (create 4)).map
      (fun t => (t.find 4, t.handle (t.find 4))) = some (1, some 40) := by decide +kernel
  have hmap : resurfacingCalls.foldl Call.onMap (fun _ => none) 4 = none := by decide +kernel
  refine ⟨hrun, hmap, fun h => ?_⟩
  obtain ⟨t, ht, his⟩ := h resurfacingCalls (List.prefix_refl _)
  have hfind := his 4
  rw [hmap] at hfind
  rw [ht, Option.map_some, hfind] at hrun
  cases hrun

-- with one key present in two slots, a third key finds no slot and the call never returns
example : ([.insert 2 (by decide) 20, .insert 3 (by decide) 30, .erase 2, .insert 3 (by decide) 31,
    .insert 4 (by decide) 40] : List (Call ℕ)).foldlM call (create 2) |>.isNone := by
  decide +kernel

end LiveOrderTable
end TradingPipeline.Book
