import Mathlib.Data.List.GetD
import TradingPipeline.Lib.Bytes

/-! # Memory as bytes at addresses

Loads and stores of byte strings: what a store puts, what it leaves alone, and fields of
fixed width as they stand in memory.
-/
namespace TradingPipeline.Lib

abbrev Memory := ℕ → UInt8

namespace Memory

def load (m : Memory) (a n : ℕ) : List UInt8 := (List.range n).map fun i => m (a + i)

def store (m : Memory) (a : ℕ) (bs : List UInt8) : Memory :=
  fun i => if a ≤ i ∧ i < a + bs.length then bs.getD (i - a) 0 else m i

/-- The memory as it is seen through a pointer. -/
def behind (m : Memory) (p : ℕ) : Memory := fun i => m (p + i)

def uint (m : Memory) (w a : ℕ) : ℕ := readLE (m.load a w)

section Load
variable {m m' : Memory} {a n : ℕ}

@[simp] theorem load_length (m : Memory) (a n : ℕ) : (m.load a n).length = n := by
  simp [load]

theorem load_congr (h : ∀ i, a ≤ i → i < a + n → m i = m' i) : m.load a n = m'.load a n := by
  refine List.map_congr_left fun i hi => h _ (Nat.le_add_right _ _) ?_
  have := List.mem_range.mp hi
  omega

theorem load_add (m : Memory) (a n k : ℕ) : m.load a (n + k) = m.load a n ++ m.load (a + n) k := by
  simp only [load, List.range_add, List.map_append, List.map_map, Function.comp_def, Nat.add_assoc]

theorem take_load (m : Memory) (a : ℕ) {n k : ℕ} (h : k ≤ n) :
    (m.load a n).take k = m.load a k := by
  obtain ⟨j, rfl⟩ := Nat.exists_eq_add_of_le h
  rw [load_add]
  exact List.take_left' (load_length m a k)

theorem head?_load (m : Memory) (a : ℕ) (hn : n ≠ 0) : (m.load a n).head? = some (m a) := by
  simp [load, List.head?_range, hn]

theorem getD_load (m : Memory) (a : ℕ) {i : ℕ} (hi : i < n) (d : UInt8) :
    (m.load a n).getD i d = m (a + i) := by
  simp [load, hi]

end Load

section Store
variable {m : Memory} {a b n : ℕ} {bs : List UInt8}

theorem load_store_same (m : Memory) (a : ℕ) (bs : List UInt8) :
    (m.store a bs).load a bs.length = bs := by
  apply List.ext_getElem (load_length ..)
  intro i _ hi
  simp [load, store, hi]

theorem load_store_of_disjoint (h : b + n ≤ a ∨ a + bs.length ≤ b) :
    (m.store a bs).load b n = m.load b n :=
  load_congr fun i hlo hhi => if_neg fun hin => by omega

theorem load_store_load (m t : Memory) (a c : ℕ) {n k : ℕ} (h : b + k ≤ n) :
    (m.store a (t.load c n)).load (a + b) k = t.load (c + b) k := by
  refine List.map_congr_left fun i hi => ?_
  have hi := List.mem_range.mp hi
  rw [store, load_length, if_pos (by omega), getD_load _ _ (by omega)]
  exact congrArg t (by omega)

theorem store_append (m : Memory) (a : ℕ) (bs cs : List UInt8) :
    m.store a (bs ++ cs) = (m.store a bs).store (a + bs.length) cs := by
  funext i
  simp only [store, List.length_append]
  by_cases hlo : a ≤ i
  · by_cases hbs : i < a + bs.length
    · rw [if_pos ⟨hlo, by omega⟩, if_neg (by omega), if_pos ⟨hlo, hbs⟩,
        List.getD_append _ _ _ _ (by omega)]
    · by_cases hcs : i < a + bs.length + cs.length
      · rw [if_pos ⟨hlo, by omega⟩, if_pos ⟨by omega, hcs⟩,
          List.getD_append_right _ _ _ _ (by omega), Nat.sub_add_eq]
      · rw [if_neg (by omega), if_neg (by omega), if_neg (by omega)]
  · rw [if_neg (by omega), if_neg (by omega), if_neg (by omega)]

theorem uint_store_mod (m : Memory) (a w v : ℕ) :
    (m.store a (writeLE w v)).uint w a = v % 256 ^ w := by
  have hload := m.load_store_same a (writeLE w v)
  rw [writeLE_length] at hload
  rw [uint, hload, readLE_writeLE_mod]

theorem uint_store_same (m : Memory) (a : ℕ) {w v : ℕ} (hv : v < 256 ^ w) :
    (m.store a (writeLE w v)).uint w a = v := by
  rw [uint_store_mod, Nat.mod_eq_of_lt hv]

theorem uint_store_of_disjoint (h : b + n ≤ a ∨ a + bs.length ≤ b) :
    (m.store a bs).uint n b = m.uint n b := by
  rw [uint, load_store_of_disjoint h, uint]

theorem writeLE_uint (m : Memory) (w a : ℕ) : writeLE w (m.uint w a) = m.load a w := by
  have hread := writeLE_readLE (m.load a w)
  rwa [load_length] at hread

end Store

end Memory
end TradingPipeline.Lib
