import TradingPipeline.Book.LiveOrderTable
import TradingPipeline.Lib.LinearProbing

/-! # The table of live orders as a map

The slots of `LiveOrderTable` are cells of a linear probing table: a slot with a
handle is full, a slot without one is unused or freed according to its key.
-/
namespace TradingPipeline.Book
open Lib

theorem roundUp_spec {cap turns k : ℕ} (hreach : cap ≤ 2 ^ k * 2 ^ turns)
    (hk : k = 0 ∨ 2 ^ k < 2 * cap) :
    ∃ k', roundUp cap turns (2 ^ k) = 2 ^ k' ∧ cap ≤ 2 ^ k' ∧ (k' = 0 ∨ 2 ^ k' < 2 * cap) := by
  induction turns generalizing k with
  | zero => exact ⟨k, rfl, by simpa using hreach, hk⟩
  | succ turns ih =>
    rw [roundUp]
    split
    · rename_i hlt
      have hshift : 2 ^ k <<< 1 = 2 ^ (k + 1) := by rw [Nat.shiftLeft_eq, pow_one, pow_succ]
      rw [hshift]
      apply ih
      · rwa [pow_succ, Nat.mul_assoc, ← pow_succ']
      · right
        rw [pow_succ]
        omega
    · rename_i hge
      exact ⟨k, rfl, by omega, hk⟩

namespace LiveOrderTable
variable {H : Type}

def cell (t : LiveOrderTable H) (i : ℕ) : Cell ℕ H :=
  match (t.slots i).handle with
  | some h => .full (t.slots i).key h
  | none => if (t.slots i).key = kEmpty then .empty else .freed

def size (t : LiveOrderTable H) : ℕ := t.mask + 1

def start (t : LiveOrderTable H) (key : ℕ) : ℕ := hash key &&& t.mask

/-- A key that is neither of the two marks. -/
def IsRef (key : ℕ) : Prop := key ≠ kEmpty ∧ key ≠ kTombstone

instance (key : ℕ) : Decidable (IsRef key) := inferInstanceAs (Decidable (_ ∧ _))

structure Valid (t : LiveOrderTable H) : Prop where
  size_eq : ∃ k ≤ 31, t.size = 2 ^ k
  key_of_handle : ∀ i, (t.slots i).handle.isSome → IsRef (t.slots i).key
  key_of_none : ∀ i, (t.slots i).handle = none →
    (t.slots i).key = kEmpty ∨ (t.slots i).key = kTombstone
  probing : Probing t.size t.start t.cell

theorem cell_eq_full {t : LiveOrderTable H} {i key : ℕ} {h : H} :
    t.cell i = .full key h ↔ (t.slots i).key = key ∧ (t.slots i).handle = some h := by
  unfold cell
  split
  · rename_i h' hh
    simp [hh]
  · rename_i hh
    split <;> simp [hh]

section Loops
variable (t : LiveOrderTable H)

theorem start_lt (key : ℕ) : t.start key < t.size := by
  have := Nat.and_le_right (n := hash key) (m := t.mask)
  simp only [start, size]
  omega

theorem next_lt (i : ℕ) : (i + 1) &&& t.mask < t.size := by
  have := Nat.and_le_right (n := i + 1) (m := t.mask)
  simp only [size]
  omega

theorem findFrom_cases (key turns : ℕ) {i : ℕ} (hi : i < t.size) :
    t.findFrom key turns i = -1 ∨ ∃ j < t.size, t.findFrom key turns i = int32 j ∧
      (t.slots j).key = key ∧ (t.slots j).handle.isSome := by
  induction turns generalizing i with
  | zero => exact .inl rfl
  | succ turns ih =>
    rw [findFrom]
    split
    · next hfound => exact .inr ⟨i, hi, rfl, hfound⟩
    · split
      · exact .inl rfl
      · exact ih (t.next_lt i)

theorem find_cases (key : ℕ) : t.find key = -1 ∨ ∃ j < t.size, t.find key = int32 j ∧
    (t.slots j).key = key ∧ (t.slots j).handle.isSome :=
  t.findFrom_cases key _ (t.start_lt key)

def insertIndexFrom (key : ℕ) : ℕ → ℕ → Option ℕ
  | 0, _ => none
  | turns + 1, i =>
    if (t.slots i).key = kEmpty ∨ (t.slots i).key = kTombstone ∨ (t.slots i).key = key then some i
    else insertIndexFrom key turns ((i + 1) &&& t.mask)

def insertIndex (key : ℕ) : Option ℕ :=
  t.insertIndexFrom key (t.mask + 1) (hash key &&& t.mask)

theorem insertFrom_eq (key : ℕ) (h : H) (turns i : ℕ) : t.insertFrom key h turns i =
    (t.insertIndexFrom key turns i).map fun i =>
      { t with slots := Function.update t.slots i ⟨key, some h⟩ } := by
  induction turns generalizing i with
  | zero => rfl
  | succ turns ih =>
    rw [insertFrom, insertIndexFrom, ih]
    split <;> rfl

theorem insert_eq (key : ℕ) (h : H) : t.insert key h =
    (t.insertIndex key).map fun i =>
      { t with slots := Function.update t.slots i ⟨key, some h⟩ } :=
  t.insertFrom_eq key h _ _

theorem insertIndexFrom_lt {key turns i j : ℕ} (hi : i < t.size)
    (h : t.insertIndexFrom key turns i = some j) : j < t.size := by
  induction turns generalizing i with
  | zero => cases h
  | succ turns ih =>
    rw [insertIndexFrom] at h
    split at h
    · cases h
      exact hi
    · exact ih (t.next_lt i) h

theorem insertIndex_lt {key i : ℕ} (h : t.insertIndex key = some i) : i < t.size :=
  t.insertIndexFrom_lt (t.start_lt key) h

end Loops

/-- The number of slots is a power of two, and a slot without a handle is marked as unused or
as freed. -/
structure Marked (t : LiveOrderTable H) : Prop where
  size_eq : ∃ k, t.size = 2 ^ k
  key_of_handle : ∀ i, (t.slots i).handle.isSome → IsRef (t.slots i).key
  key_of_none : ∀ i, (t.slots i).handle = none →
    (t.slots i).key = kEmpty ∨ (t.slots i).key = kTombstone

section Cells
variable (t : LiveOrderTable H)

theorem cell_put (i key : ℕ) (h : H) :
    cell { t with slots := Function.update t.slots i ⟨key, some h⟩ } =
      Function.update t.cell i (.full key h) := by
  funext i'
  by_cases hi : i' = i
  · subst hi
    simp [cell]
  · simp [cell, hi]

theorem cell_erase (i : ℕ) : (t.erase i).cell = Function.update t.cell i .freed := by
  funext i'
  by_cases hi : i' = i
  · subst hi
    simp [cell, erase, kTombstone, kEmpty]
  · simp [cell, erase, hi]

end Cells

namespace Marked
variable {t : LiveOrderTable H}

theorem and_mask (hm : t.Marked) (i : ℕ) : i &&& t.mask = i % t.size := by
  obtain ⟨k, hsize⟩ := hm.size_eq
  have hmask : t.mask = 2 ^ k - 1 := by
    rw [← hsize]
    rfl
  rw [hmask, hsize, Nat.and_two_pow_sub_one_eq_mod]

theorem findFrom_eq (hm : t.Marked) (key turns i : ℕ) :
    t.findFrom key turns i =
      match probe t.size (fun i => (t.cell i).endsLookup key) turns i with
      | none => -1
      | some i => if (t.slots i).handle.isSome then int32 i else -1 := by
  induction turns generalizing i with
  | zero => rfl
  | succ turns ih =>
    rw [findFrom, probe, hm.and_mask, ih]
    cases hh : (t.slots i).handle with
    | some h =>
      have hne := (hm.key_of_handle i (by simp [hh])).1
      by_cases hk : (t.slots i).key = key
      · simp [cell, hh, hk, Cell.endsLookup]
      · simp [cell, hh, hk, hne, Cell.endsLookup]
    | none =>
      by_cases hk : (t.slots i).key = kEmpty
      · simp [cell, hh, hk, Cell.endsLookup]
      · simp [cell, hh, hk, Cell.endsLookup]

theorem find_of_probe (hm : t.Marked) {key i : ℕ} {h : H}
    (hp : probe t.size (fun i => (t.cell i).endsLookup key) t.size (t.start key) = some i)
    (hc : t.cell i = .full key h) : t.find key = int32 i := by
  rw [find, hm.findFrom_eq]
  simp only [size, start] at hp ⊢
  rw [hp]
  simp [(cell_eq_full.mp hc).2]

theorem find_of_absent (hm : t.Marked) {key : ℕ} (habs : ∀ h, ¬Holds t.size t.cell key h) :
    t.find key = -1 := by
  rw [find, hm.findFrom_eq]
  cases hp : probe t.size (fun i => (t.cell i).endsLookup key) (t.mask + 1)
      (hash key &&& t.mask) with
  | none => rfl
  | some i =>
    have hempty := probe_absent (t.start_lt key) habs hp
    have hnone : (t.slots i).handle = none := by
      cases hh : (t.slots i).handle with
      | none => rfl
      | some h => simp [cell, hh] at hempty
    simp [hnone]

theorem insertIndexFrom_eq (hm : t.Marked) (key turns i : ℕ) :
    t.insertIndexFrom key turns i =
      probe t.size (fun i => (t.cell i).takes key) turns i := by
  induction turns generalizing i with
  | zero => rfl
  | succ turns ih =>
    rw [insertIndexFrom, probe, hm.and_mask, ih]
    cases hh : (t.slots i).handle with
    | some h' =>
      obtain ⟨hempty, htomb⟩ := hm.key_of_handle i (by simp [hh])
      by_cases hk : (t.slots i).key = key
      · simp [cell, hh, hk, Cell.takes]
      · simp [cell, hh, hk, hempty, htomb, Cell.takes]
    | none =>
      have hmark := hm.key_of_none i hh
      rw [if_pos (hmark.imp_right .inl)]
      by_cases hk : (t.slots i).key = kEmpty
      · simp [cell, hh, hk, Cell.takes]
      · simp [cell, hh, hk, Cell.takes]

theorem insertIndex_eq (hm : t.Marked) (key : ℕ) : t.insertIndex key =
    probe t.size (fun i => (t.cell i).takes key) t.size (t.start key) :=
  hm.insertIndexFrom_eq key _ _

theorem put (hm : t.Marked) (i : ℕ) {key : ℕ} (hkey : IsRef key) (h : H) :
    Marked { t with slots := Function.update t.slots i ⟨key, some h⟩ } := by
  refine ⟨hm.size_eq, ?_, ?_⟩
  · intro i' hsome
    by_cases hi : i' = i
    · subst hi
      simpa using hkey
    · simp only [Function.update_of_ne hi] at hsome ⊢
      exact hm.key_of_handle i' hsome
  · intro i' hnone
    by_cases hi : i' = i
    · subst hi
      simp at hnone
    · simp only [Function.update_of_ne hi] at hnone ⊢
      exact hm.key_of_none i' hnone

theorem erase (hm : t.Marked) (i : ℕ) : (t.erase i).Marked := by
  refine ⟨hm.size_eq, ?_, ?_⟩
  · intro i' hsome
    by_cases hi : i' = i
    · subst hi
      simp [LiveOrderTable.erase] at hsome
    · simp only [LiveOrderTable.erase, Int.toNat_natCast, Function.update_of_ne hi] at hsome ⊢
      exact hm.key_of_handle i' hsome
  · intro i' hnone
    by_cases hi : i' = i
    · subst hi
      simp [LiveOrderTable.erase]
    · simp only [LiveOrderTable.erase, Int.toNat_natCast, Function.update_of_ne hi] at hnone ⊢
      exact hm.key_of_none i' hnone

end Marked

namespace Valid
variable {t : LiveOrderTable H}

theorem marked (hv : t.Valid) : t.Marked :=
  ⟨hv.size_eq.imp fun _ h => h.2, hv.key_of_handle, hv.key_of_none⟩

theorem of_marked (hm : t.Marked) (hsize : ∃ k ≤ 31, t.size = 2 ^ k)
    (hp : Probing t.size t.start t.cell) : t.Valid :=
  ⟨hsize, hm.key_of_handle, hm.key_of_none, hp⟩

theorem int32_index (hv : t.Valid) {i : ℕ} (hi : i < t.size) : int32 i = i := by
  obtain ⟨k, hk, hsize⟩ := hv.size_eq
  have hle : t.size ≤ 2 ^ 31 := hsize ▸ Nat.pow_le_pow_right (by omega) hk
  exact int32_eq_self (by omega) (by omega)

theorem find_of_holds (hv : t.Valid) {key : ℕ} {h : H} (hh : Holds t.size t.cell key h) :
    ∃ i < t.size, t.find key = i ∧ t.cell i = .full key h := by
  obtain ⟨i, hi, hc⟩ := hh
  refine ⟨i, hi, ?_, hc⟩
  rw [hv.marked.find_of_probe (hv.probing.probe_full hi hc) hc, hv.int32_index hi]

theorem find_of_absent (hv : t.Valid) {key : ℕ} (habs : ∀ h, ¬Holds t.size t.cell key h) :
    t.find key = -1 :=
  hv.marked.find_of_absent habs

/-- With fewer references than slots, the insertion of a new reference ends; it adds
the reference and keeps the others. -/
theorem insert_new (hv : t.Valid) {key : ℕ} (hkey : IsRef key)
    (habs : ∀ h, ¬Holds t.size t.cell key h)
    (hfree : ∃ i < t.size, ∀ k v, t.cell i ≠ .full k v) (h : H) :
    ∃ t', t.insert key h = some t' ∧ t'.Valid ∧ t'.size = t.size ∧
      ∀ k v, Holds t'.size t'.cell k v ↔ (k = key ∧ v = h) ∨ Holds t.size t.cell k v := by
  obtain ⟨i, hp⟩ := hv.probing.probe_takes key hfree
  obtain ⟨-, hprobing, hholds⟩ := hv.probing.insert habs hp h
  rw [← cell_put] at hprobing hholds
  refine ⟨_, ?_, of_marked (hv.marked.put i hkey h) hv.size_eq hprobing, rfl, hholds⟩
  rw [insert_eq, hv.marked.insertIndex_eq, hp]
  rfl

theorem erase_full (hv : t.Valid) {i key : ℕ} {h : H} (hi : i < t.size)
    (hc : t.cell i = .full key h) :
    (t.erase i).Valid ∧ (t.erase i).size = t.size ∧
      ∀ k v, Holds (t.erase i).size (t.erase i).cell k v ↔
        k ≠ key ∧ Holds t.size t.cell k v := by
  obtain ⟨hprobing, hholds⟩ := hv.probing.erase hi hc
  rw [← cell_erase] at hprobing hholds
  exact ⟨of_marked (hv.marked.erase i) hv.size_eq hprobing, rfl, hholds⟩

end Valid

theorem create_size (cap : ℕ) : ∃ k, (create cap : LiveOrderTable H).size = 2 ^ k ∧ cap ≤ 2 ^ k ∧
    (k = 0 ∨ 2 ^ k < 2 * cap) := by
  have hreach : cap ≤ 2 ^ 0 * 2 ^ cap := by
    rw [pow_zero, Nat.one_mul]
    exact Nat.lt_two_pow_self.le
  obtain ⟨k, hk, hbounds⟩ := roundUp_spec hreach (.inl rfl)
  refine ⟨k, ?_, hbounds⟩
  have hone := Nat.two_pow_pos k
  simp only [size, create]
  rw [pow_zero] at hk
  omega

theorem create_size_le {cap : ℕ} (hcap : cap ≤ 2 ^ 32) :
    (create cap : LiveOrderTable H).size ≤ 2 ^ 32 := by
  obtain ⟨k, hsize, -, hlt⟩ := create_size (H := H) cap
  rw [hsize]
  apply Nat.pow_le_pow_right (by omega)
  rcases hlt with rfl | hlt
  · omega
  · have := (Nat.pow_lt_pow_iff_right (by omega)).mp (by omega : 2 ^ k < 2 ^ 33)
    omega

theorem create_cell (cap : ℕ) : (create cap : LiveOrderTable H).cell = fun _ => .empty := rfl

theorem create_marked (cap : ℕ) : (create cap : LiveOrderTable H).Marked :=
  ⟨(create_size cap).imp fun _ h => h.1, fun _ h => (nomatch h), fun _ _ => .inl rfl⟩

theorem create_valid {cap : ℕ} (hcap : cap ≤ 2 ^ 31) :
    (create cap : LiveOrderTable H).Valid ∧ cap ≤ (create cap : LiveOrderTable H).size ∧
      ∀ k v, ¬Holds (create cap : LiveOrderTable H).size
        (create cap : LiveOrderTable H).cell k v := by
  obtain ⟨k, hsize, hle, hlt⟩ := create_size (H := H) cap
  have hk31 : k ≤ 31 := by
    rcases hlt with rfl | hlt
    · omega
    · have h2 : 2 ^ k < 2 ^ 32 := by omega
      have := (Nat.pow_lt_pow_iff_right (by omega)).mp h2
      omega
  refine ⟨Valid.of_marked (create_marked cap) ⟨k, hk31, hsize⟩ ?_, by omega, ?_⟩
  · rw [create_cell]
    exact Probing.of_empty (create cap).start_lt
  · rintro k v ⟨i, -, hc⟩
    cases hc

end LiveOrderTable
end TradingPipeline.Book
