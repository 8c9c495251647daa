import Mathlib.Algebra.BigOperators.Fin
import Mathlib.Data.UInt
import TradingPipeline.Lib.OnesComplement

/-! # The checksum of the transmit path

`cksum_partial_simd` adds 16-bit words in host order, 32 bytes at a time where AVX2 is there.
All its additions are modulo 2³², so that both builds compute the same sum.
-/
namespace TradingPipeline.Afxdp
open Lib

/-- An `__m256i` as lanes of 32 bits. -/
abbrev M256 := Fin 8 → UInt32

def mm256LoaduSi256 (p : List UInt8) : M256 := fun i =>
  UInt32.ofNat (readLE ((p.drop (4 * i)).take 4))

/-- The loop over blocks of 32 bytes. -/
def accumulate (acc : M256) (p : List UInt8) : M256 × List UInt8 :=
  if 32 ≤ p.length then
    let v := mm256LoaduSi256 p
    let lo : M256 := fun i => v i &&& 0xFFFF
    let hi : M256 := fun i => v i >>> 16
    accumulate (acc + lo + hi) (p.drop 32)
  else (acc, p)
termination_by p.length

/-- An `__m128i` as lanes of 32 bits. -/
abbrev M128 := Fin 4 → UInt32

/-- `_mm_srli_si128` by whole lanes. -/
def mmSrliSi128 (s : M128) (lanes : ℕ) : M128 := fun i =>
  if h : i + lanes < 4 then s ⟨i + lanes, h⟩ else 0

def horizontalAdd (acc : M256) : UInt32 :=
  let hi128 : M128 := fun i => acc (i.natAdd 4)
  let lo128 : M128 := fun i => acc (i.castAdd 4)
  let s := lo128 + hi128
  let s := s + mmSrliSi128 s 2
  let s := s + mmSrliSi128 s 1
  s 0

/-- The loop over words, and the odd byte. -/
def addWords : UInt32 → List UInt8 → UInt32
  | sum, x :: y :: rest => addWords (sum + (x.toUInt32 ||| y.toUInt32 <<< 8)) rest
  | sum, [x] => sum + x.toUInt32
  | sum, [] => sum

def cksumPartialSimd (avx2 : Bool) (data : List UInt8) (seed : UInt32) : UInt32 :=
  if avx2 ∧ 32 ≤ data.length then
    let (acc, rest) := accumulate 0 data
    addWords (seed + horizontalAdd acc) rest
  else addWords seed data

theorem toNat_lo (x : UInt32) : (x &&& (0xFFFF : UInt32)).toNat = x.toNat % 65536 := by
  rw [UInt32.toNat_and]
  exact Nat.and_two_pow_sub_one_eq_mod x.toNat 16

theorem toNat_hi (x : UInt32) : (x >>> 16).toNat = x.toNat / 65536 := by
  rw [UInt32.toNat_shiftRight]
  exact Nat.shiftRight_eq_div_pow x.toNat 16

theorem toNat_fold (x : UInt32) :
    ((x &&& (0xFFFF : UInt32)) + x >>> 16).toNat = x.toNat % 65536 + x.toNat / 65536 := by
  have hlt := x.toNat_lt
  rw [UInt32.toNat_add, toNat_lo, toNat_hi, Nat.mod_eq_of_lt (by omega)]

theorem hi_ne_zero_iff (x : UInt32) : x >>> 16 ≠ 0 ↔ 65536 ≤ x.toNat := by
  have hzero : (0 : UInt32).toNat = 0 := rfl
  rw [ne_eq, ← UInt32.toNat_inj, toNat_hi, hzero]
  omega

def cksumFold16 (sum : UInt32) : UInt16 :=
  if sum >>> 16 ≠ 0 then cksumFold16 ((sum &&& (0xFFFF : UInt32)) + sum >>> 16) else sum.toUInt16
termination_by sum.toNat
decreasing_by
  next h =>
    have hhi := (hi_ne_zero_iff sum).mp h
    have hlt := sum.toNat_lt
    rw [toNat_fold]
    omega

def ipChecksum (avx2 : Bool) (buf : List UInt8) : UInt16 :=
  ~~~cksumFold16 (cksumPartialSimd avx2 buf 0)

def csumReplace2 (oldCsum oldWord newWord : UInt16) : UInt16 :=
  let sum := (~~~oldCsum).toUInt32
  let sum := sum + (~~~oldWord).toUInt32
  let sum := sum + newWord.toUInt32
  ~~~cksumFold16 sum

section Sum

theorem toNat_word (x y : UInt8) :
    (x.toUInt32 ||| y.toUInt32 <<< 8).toNat = x.toNat + 256 * y.toNat := by
  have hx := x.toNat_lt
  have hy := y.toNat_lt
  have hshift : (y.toUInt32 <<< 8).toNat = y.toNat <<< 8 := by
    rw [UInt32.toNat_shiftLeft, UInt8.toNat_toUInt32]
    change y.toNat <<< 8 % 2 ^ 32 = y.toNat <<< 8
    rw [Nat.shiftLeft_eq]
    omega
  rw [UInt32.toNat_or, hshift, UInt8.toNat_toUInt32, Nat.or_comm,
    ← Nat.shiftLeft_add_eq_or_of_lt hx, Nat.shiftLeft_eq]
  omega

theorem addWords_eq (sum : UInt32) (p : List UInt8) :
    addWords sum p = sum + UInt32.ofNat (wordSumLE p) := by
  fun_induction addWords sum p with
  | case1 sum x y rest ih =>
    have hword : x.toUInt32 ||| y.toUInt32 <<< 8 = UInt32.ofNat (x.toNat + 256 * y.toNat) := by
      have hlt := (x.toUInt32 ||| y.toUInt32 <<< 8).toNat_lt
      apply UInt32.toNat_inj.mp
      rw [toNat_word] at hlt ⊢
      rw [UInt32.toNat_ofNat', Nat.mod_eq_of_lt hlt]
    rw [ih, hword, wordSumLE, UInt32.ofNat_add (x.toNat + 256 * y.toNat), UInt32.add_assoc]
  | case2 sum x =>
    rw [wordSumLE]
    exact congrArg (sum + ·) (UInt32.toNat_inj.mp (by simp))
  | case3 sum => exact (UInt32.add_zero sum).symm

theorem lane_eq (bs : List UInt8) (h : bs.length = 4) :
    (UInt32.ofNat (readLE bs) &&& (0xFFFF : UInt32)) + UInt32.ofNat (readLE bs) >>> 16 =
      UInt32.ofNat (wordSumLE bs) := by
  obtain ⟨x, y, z, w, rfl⟩ := List.length_eq_four.mp h
  have hx := x.toNat_lt
  have hy := y.toNat_lt
  have hz := z.toNat_lt
  have hw := w.toNat_lt
  have hread : readLE [x, y, z, w] =
      (x.toNat + 256 * y.toNat) + 65536 * (z.toNat + 256 * w.toNat) := by
    simp only [readLE]
    omega
  have hlt : readLE [x, y, z, w] < 2 ^ 32 := by omega
  have hmod : readLE [x, y, z, w] % 65536 = x.toNat + 256 * y.toNat := by omega
  have hdiv : readLE [x, y, z, w] / 65536 = z.toNat + 256 * w.toNat := by omega
  apply UInt32.toNat_inj.mp
  rw [toNat_fold, UInt32.toNat_ofNat', UInt32.toNat_ofNat', Nat.mod_eq_of_lt hlt, hmod, hdiv]
  simp only [wordSumLE]
  omega

theorem horizontalAdd_eq (acc : M256) : horizontalAdd acc = ∑ i, acc i := by
  have hsum : ∑ i, acc i = acc 0 + acc 1 + acc 2 + acc 3 + acc 4 + acc 5 + acc 6 + acc 7 :=
    Fin.sum_univ_eight acc
  rw [hsum]
  change acc 0 + acc 4 + (acc 2 + acc 6) + (acc 1 + acc 5 + (acc 3 + acc 7)) = _
  ac_rfl

theorem sum_lanes (p : List UInt8) (h : 32 ≤ p.length) :
    ∑ i, ((mm256LoaduSi256 p i &&& (0xFFFF : UInt32)) + mm256LoaduSi256 p i >>> 16) =
      UInt32.ofNat (wordSumLE (p.take 32)) := by
  have hlane : ∀ i : Fin 8, (mm256LoaduSi256 p i &&& (0xFFFF : UInt32)) +
      mm256LoaduSi256 p i >>> 16 = UInt32.ofNat (wordSumLE ((p.drop (4 * i)).take 4)) := by
    intro i
    refine lane_eq _ ?_
    rw [List.length_take, List.length_drop]
    omega
  have hwords := wordSumLE_take_mul (k := 4) (by decide) 8 h
  rw [Finset.sum_congr rfl fun i _ => hlane i, hwords, Fin.sum_univ_eight]
  simp only [← UInt32.ofNat_add, Finset.sum_range_succ, Finset.sum_range_zero, Nat.zero_add]
  rfl

theorem accumulate_eq (acc : M256) (p : List UInt8) :
    ∑ i, (accumulate acc p).1 i + UInt32.ofNat (wordSumLE (accumulate acc p).2) =
      ∑ i, acc i + UInt32.ofNat (wordSumLE p) := by
  fun_induction accumulate acc p with
  | case1 acc p h v lo hi ih =>
    have heven : 2 ∣ (p.take 32).length := by
      rw [List.length_take_of_le h]
      decide
    have hsplit : wordSumLE p = wordSumLE (p.take 32) + wordSumLE (p.drop 32) := by
      rw [← wordSumLE_append heven, List.take_append_drop]
    have hturn : ∑ i, (acc + lo + hi) i = ∑ i, acc i + UInt32.ofNat (wordSumLE (p.take 32)) := by
      rw [← sum_lanes p h, ← Finset.sum_add_distrib]
      exact Finset.sum_congr rfl fun i _ => UInt32.add_assoc _ _ _
    rw [ih, hturn, hsplit, UInt32.ofNat_add, UInt32.add_assoc]
  | case2 acc p h => rfl

theorem cksumPartialSimd_eq (avx2 : Bool) (data : List UInt8) (seed : UInt32) :
    cksumPartialSimd avx2 data seed = seed + UInt32.ofNat (wordSumLE data) := by
  unfold cksumPartialSimd
  split
  · have hacc := accumulate_eq 0 data
    have hzero : ∑ i, (0 : M256) i = 0 := Finset.sum_const_zero
    rw [hzero, UInt32.zero_add] at hacc
    dsimp only
    rw [addWords_eq, horizontalAdd_eq, UInt32.add_assoc, hacc]
  · exact addWords_eq seed data

theorem toNat_cksumFold16 (sum : UInt32) :
    (cksumFold16 sum).toNat = endAround 65536 sum.toNat := by
  fun_induction cksumFold16 sum with
  | case1 sum h ih =>
    have hle := (hi_ne_zero_iff sum).mp h
    conv_rhs => rw [endAround, if_pos ⟨by decide, hle⟩]
    rw [ih, toNat_fold]
  | case2 sum h =>
    rw [hi_ne_zero_iff, Nat.not_le] at h
    rw [UInt32.toNat_toUInt16, Nat.mod_eq_of_lt h, endAround_of_lt h]

end Sum

section Checksum

theorem toNat_complement (x : UInt16) : (~~~x).toNat = 65535 - x.toNat := UInt16.toNat_not x

theorem toNat_ipChecksum (avx2 : Bool) {buf : List UInt8} (h : wordSumLE buf < 2 ^ 32) :
    (ipChecksum avx2 buf).toNat = 65535 - endAround 65536 (wordSumLE buf) := by
  rw [ipChecksum, toNat_complement, toNat_cksumFold16, cksumPartialSimd_eq, UInt32.zero_add,
    UInt32.toNat_ofNat', Nat.mod_eq_of_lt h]

theorem toNat_csumReplace2 (oldCsum oldWord newWord : UInt16) :
    (csumReplace2 oldCsum oldWord newWord).toNat =
      65535 - endAround 65536
        (65535 - oldCsum.toNat + (65535 - oldWord.toNat) + newWord.toNat) := by
  have hcsum := oldCsum.toNat_lt
  have hold := oldWord.toNat_lt
  have hnew := newWord.toNat_lt
  simp only [csumReplace2, toNat_complement, toNat_cksumFold16, UInt32.toNat_add,
    UInt16.toNat_toUInt32]
  rw [Nat.mod_eq_of_lt (a := _ + (_ - oldWord.toNat)) (by omega), Nat.mod_eq_of_lt (by omega)]

end Checksum

end TradingPipeline.Afxdp
