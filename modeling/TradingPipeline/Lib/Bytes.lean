import Mathlib.Data.List.Induction
import Mathlib.Algebra.Order.Group.Nat
import Mathlib.Tactic.Ring

/-! # Fixed-width integers as bytes

Big-endian fields as they stand on the wire, little-endian fields as they stand in
memory, and the effect of overwriting the low bytes of such a field.
-/
namespace TradingPipeline.Lib

def readBE (bs : List UInt8) : ℕ := bs.foldl (fun acc b => acc * 256 + b.toNat) 0

/-- The low `w` bytes of `n`, most significant first. -/
def writeBE : ℕ → ℕ → List UInt8
  | 0, _ => []
  | w + 1, n => writeBE w (n / 256) ++ [UInt8.ofNat n]

theorem readBE_append_singleton (bs : List UInt8) (b : UInt8) :
    readBE (bs ++ [b]) = readBE bs * 256 + b.toNat := by
  simp [readBE]

theorem readBE_lt (bs : List UInt8) : readBE bs < 256 ^ bs.length := by
  induction bs using List.reverseRecOn with
  | nil => decide
  | append_singleton bs b ih =>
    have hb := b.toNat_lt
    rw [readBE_append_singleton, List.length_append, List.length_singleton, Nat.pow_succ]
    omega

@[simp] theorem writeBE_length (w n : ℕ) : (writeBE w n).length = w := by
  induction w generalizing n with
  | zero => rfl
  | succ w ih => simp [writeBE, ih]

theorem readBE_writeBE {w n : ℕ} (h : n < 256 ^ w) : readBE (writeBE w n) = n := by
  induction w generalizing n with
  | zero =>
    simp only [Nat.pow_zero, Nat.lt_one_iff] at h
    rw [h]
    rfl
  | succ w ih =>
    have hdiv : n / 256 < 256 ^ w := by
      rw [Nat.pow_succ] at h
      omega
    rw [writeBE, readBE_append_singleton, ih hdiv, UInt8.toNat_ofNat']
    omega

theorem writeBE_readBE (bs : List UInt8) : writeBE bs.length (readBE bs) = bs := by
  induction bs using List.reverseRecOn with
  | nil => rfl
  | append_singleton bs b ih =>
    have hb := b.toNat_lt
    have hdiv : (readBE bs * 256 + b.toNat) / 256 = readBE bs := by omega
    have hlow : UInt8.ofNat (readBE bs * 256 + b.toNat) = b := by
      rw [← UInt8.toNat_inj, UInt8.toNat_ofNat']
      omega
    rw [List.length_append, List.length_singleton, writeBE, readBE_append_singleton, hdiv, hlow, ih]

def readLE : List UInt8 → ℕ
  | [] => 0
  | b :: bs => b.toNat + 256 * readLE bs

/-- The low `w` bytes of `n`, least significant first. -/
def writeLE : ℕ → ℕ → List UInt8
  | 0, _ => []
  | w + 1, n => UInt8.ofNat n :: writeLE w (n / 256)

@[simp] theorem writeLE_length (w n : ℕ) : (writeLE w n).length = w := by
  induction w generalizing n with
  | zero => rfl
  | succ w ih => simp [writeLE, ih]

theorem drop_writeLE_append {w k : ℕ} (h : w ≤ k) (n : ℕ) (rest : List UInt8) :
    (writeLE w n ++ rest).drop k = rest.drop (k - w) := by
  rw [List.drop_append, writeLE_length, List.drop_eq_nil_of_le (by rwa [writeLE_length]),
    List.nil_append]

theorem readLE_writeLE_mod (w n : ℕ) : readLE (writeLE w n) = n % 256 ^ w := by
  induction w generalizing n with
  | zero => exact (Nat.mod_one n).symm
  | succ w ih =>
    have hpow : 256 ^ (w + 1) = 256 * 256 ^ w := Nat.pow_succ'
    rw [writeLE, readLE, ih, UInt8.toNat_ofNat', hpow, Nat.mod_mul]

theorem readLE_writeLE {w n : ℕ} (h : n < 256 ^ w) : readLE (writeLE w n) = n := by
  rw [readLE_writeLE_mod, Nat.mod_eq_of_lt h]

theorem writeLE_readLE (bs : List UInt8) : writeLE bs.length (readLE bs) = bs := by
  induction bs with
  | nil => rfl
  | cons b bs ih =>
    have hb := b.toNat_lt
    have hdiv : (b.toNat + 256 * readLE bs) / 256 = readLE bs := by omega
    have hlow : UInt8.ofNat (b.toNat + 256 * readLE bs) = b := by
      rw [← UInt8.toNat_inj, UInt8.toNat_ofNat']
      omega
    rw [List.length_cons, writeLE, readLE, hdiv, hlow, ih]

theorem writeLE_readLE_mod {w : ℕ} {bs : List UInt8} (h : bs.length = w) :
    writeLE w (readLE bs % 256 ^ w) = bs := by
  subst h
  rw [← readLE_writeLE_mod, writeLE_readLE, writeLE_readLE]

theorem readLE_set_ne {bs : List UInt8} {i : ℕ} {b : UInt8} (hi : i < bs.length)
    (hne : bs[i]? ≠ some b) : readLE (bs.set i b) ≠ readLE bs := by
  intro hread
  have hset : (bs.set i b).length = bs.length := List.length_set
  have hbytes : bs.set i b = bs := by
    rw [← writeLE_readLE_mod hset, hread, writeLE_readLE_mod rfl]
  apply hne
  rw [← hbytes, List.getElem?_set_self hi]

theorem readLE_lt (bs : List UInt8) : readLE bs < 256 ^ bs.length := by
  have h := readLE_writeLE_mod bs.length (readLE bs)
  rw [writeLE_readLE] at h
  rw [h]
  exact Nat.mod_lt _ (Nat.pow_pos (by decide))

theorem readLE_reverse (bs : List UInt8) : readLE bs.reverse = readBE bs := by
  induction bs using List.reverseRecOn with
  | nil => rfl
  | append_singleton bs b ih =>
    rw [List.reverse_append, List.reverse_singleton, List.singleton_append, readLE, ih,
      readBE_append_singleton]
    ring

theorem readLE_writeLE_uint8 (x : UInt8) : UInt8.ofNat (readLE (writeLE 1 x.toNat)) = x := by
  rw [readLE_writeLE (by simpa using x.toNat_lt), UInt8.ofNat_toNat]

theorem readLE_writeLE_uint16 (x : UInt16) : UInt16.ofNat (readLE (writeLE 2 x.toNat)) = x := by
  rw [readLE_writeLE (by simpa using x.toNat_lt), UInt16.ofNat_toNat]

theorem readLE_writeLE_uint32 (x : UInt32) : UInt32.ofNat (readLE (writeLE 4 x.toNat)) = x := by
  rw [readLE_writeLE (by simpa using x.toNat_lt), UInt32.ofNat_toNat]

theorem readLE_writeLE_uint64 (x : UInt64) : UInt64.ofNat (readLE (writeLE 8 x.toNat)) = x := by
  rw [readLE_writeLE (by simpa using x.toNat_lt), UInt64.ofNat_toNat]

/-- A `w`-byte little-endian field after the first bytes of it were overwritten with `bs`. -/
def patchLE (w old : ℕ) (bs : List UInt8) : ℕ :=
  let low := bs.take w
  readLE low + old / 256 ^ low.length * 256 ^ low.length

end TradingPipeline.Lib
