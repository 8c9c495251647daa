import Mathlib.Algebra.BigOperators.Intervals
import Mathlib.Data.Int.ModEq
import TradingPipeline.Lib.Bytes

/-! # Ones-complement sums

A sum is brought into one digit by adding its carries back in, which keeps it modulo the
greatest digit. Of the two representations of zero only the greatest digit is ever reached
from a positive sum.
-/
namespace TradingPipeline.Lib

/-- The carries of `s` out of a digit to base `b` are added back in until there are none. -/
def endAround (b s : ℕ) : ℕ :=
  if 1 < b ∧ b ≤ s then endAround b (s % b + s / b) else s
termination_by s
decreasing_by
  next h =>
    have hdiv := Nat.div_add_mod s b
    have hquot : 0 < s / b := Nat.div_pos h.2 (by omega)
    have hlt : s / b < b * (s / b) := (Nat.lt_mul_iff_one_lt_left hquot).mpr h.1
    omega

section EndAround
variable {b s t : ℕ}

theorem endAround_lt (hb : 1 < b) (s : ℕ) : endAround b s < b := by
  fun_induction endAround b s with
  | case1 s _ ih => exact ih
  | case2 s h => omega

theorem endAround_of_lt (h : s < b) : endAround b s = s := by
  rw [endAround, if_neg (by omega)]

theorem endAround_pos (b : ℕ) (hs : 0 < s) : 0 < endAround b s := by
  fun_induction endAround b s with
  | case1 s h ih =>
    have hquot : 0 < s / b := Nat.div_pos h.2 (by omega)
    exact ih (by omega)
  | case2 s _ => exact hs

theorem endAround_modEq (b s : ℕ) : endAround b s ≡ s [MOD b - 1] := by
  fun_induction endAround b s with
  | case1 s h ih =>
    have hbase : 1 ≡ b [MOD b - 1] := (Nat.modEq_iff_dvd' h.1.le).mpr dvd_rfl
    calc endAround b (s % b + s / b)
        ≡ s % b + 1 * (s / b) [MOD b - 1] := by rwa [Nat.one_mul]
      _ ≡ s % b + b * (s / b) [MOD b - 1] := (hbase.mul_right _).add_left _
      _ = s := Nat.mod_add_div s b
  | case2 s _ => exact Nat.ModEq.refl s

theorem endAround_congr (hb : 1 < b) (hs : 0 < s) (ht : 0 < t) (h : s ≡ t [MOD b - 1]) :
    endAround b s = endAround b t := by
  have hmod : endAround b s ≡ endAround b t [MOD b - 1] :=
    (endAround_modEq b s).trans (h.trans (endAround_modEq b t).symm)
  have hslt := endAround_lt hb s
  have htlt := endAround_lt hb t
  have hspos := endAround_pos b hs
  have htpos := endAround_pos b ht
  -- both are in 1..b-1, and their difference is a multiple of b-1
  rcases Nat.le_total (endAround b s) (endAround b t) with hle | hle
  · have hzero := Nat.eq_zero_of_dvd_of_lt ((Nat.modEq_iff_dvd' hle).mp hmod) (by omega)
    omega
  · have hzero := Nat.eq_zero_of_dvd_of_lt ((Nat.modEq_iff_dvd' hle).mp hmod.symm) (by omega)
    omega

theorem endAround_endAround_add (hb : 1 < b) (s t : ℕ) :
    endAround b (endAround b s + t) = endAround b (s + t) := by
  rcases Nat.eq_zero_or_pos s with rfl | hs
  · rw [endAround_of_lt (Nat.lt_trans Nat.zero_lt_one hb)]
  · have hpos := endAround_pos b hs
    apply endAround_congr hb (by omega) (by omega)
    exact (endAround_modEq b s).add_right t

theorem endAround_of_dvd (hb : 1 < b) (hs : 0 < s) (h : b - 1 ∣ s) : endAround b s = b - 1 := by
  have hcongr : s ≡ b - 1 [MOD b - 1] := by
    unfold Nat.ModEq
    rw [Nat.mod_self, Nat.mod_eq_zero_of_dvd h]
  rw [endAround_congr hb hs (by omega) hcongr, endAround_of_lt (by omega)]

theorem dvd_add_complement (hb : 1 < b) (s : ℕ) : b - 1 ∣ s + (b - 1 - endAround b s) := by
  have hlt := endAround_lt hb s
  refine (Nat.modEq_zero_iff_dvd).mp ?_
  calc s + (b - 1 - endAround b s)
      ≡ endAround b s + (b - 1 - endAround b s) [MOD b - 1] :=
        (endAround_modEq b s).symm.add_right _
    _ = b - 1 := by omega
    _ ≡ 0 [MOD b - 1] := Nat.modEq_zero_iff_dvd.mpr dvd_rfl

theorem endAround_replace (hb : 1 < b) (hs : 0 < s) {old : ℕ} (hold : old < b) (new : ℕ) :
    endAround b (endAround b (s + old) + (b - 1 - old) + new) = endAround b (s + new) := by
  have hpos := endAround_pos b (s := s + old) (by omega)
  refine endAround_congr hb (by omega) (by omega) ?_
  calc endAround b (s + old) + (b - 1 - old) + new
      ≡ s + old + (b - 1 - old) + new [MOD b - 1] :=
        ((endAround_modEq b (s + old)).add_right _).add_right _
    _ = s + new + (b - 1) := by omega
    _ ≡ s + new [MOD b - 1] := Nat.add_modEq_right

end EndAround

/-- The sum of the 16-bit words of `bs`, read with the low byte first. -/
def wordSumLE : List UInt8 → ℕ
  | [] => 0
  | [x] => x.toNat
  | x :: y :: rest => x.toNat + 256 * y.toNat + wordSumLE rest

/-- The sum of the 16-bit words of `bs`, read with the high byte first. -/
def wordSumBE : List UInt8 → ℕ
  | [] => 0
  | [x] => 256 * x.toNat
  | x :: y :: rest => 256 * x.toNat + y.toNat + wordSumBE rest

section Words
variable {xs ys : List UInt8}

theorem wordSumLE_append (h : 2 ∣ xs.length) :
    wordSumLE (xs ++ ys) = wordSumLE xs + wordSumLE ys := by
  fun_induction wordSumLE xs with
  | case1 => simp
  | case2 x => simp at h
  | case3 x y rest ih =>
    have hrest : 2 ∣ rest.length := by
      simp only [List.length_cons] at h
      omega
    simp only [List.cons_append, wordSumLE, ih hrest]
    omega

theorem wordSumLE_take_mul {k : ℕ} (hk : 2 ∣ k) (n : ℕ) (h : k * n ≤ xs.length) :
    wordSumLE (xs.take (k * n)) = ∑ i ∈ Finset.range n, wordSumLE ((xs.drop (k * i)).take k) := by
  induction n with
  | zero => rfl
  | succ n ih =>
    rw [Nat.mul_succ] at h
    have hlength : (xs.take (k * n)).length = k * n := List.length_take_of_le (by omega)
    rw [Finset.sum_range_succ, ← ih (by omega), Nat.mul_succ, List.take_add,
      wordSumLE_append (by rw [hlength]; exact hk.mul_right n)]

theorem wordSumLE_le (xs : List UInt8) : wordSumLE xs ≤ 65535 * ((xs.length + 1) / 2) := by
  fun_induction wordSumLE xs with
  | case1 => exact Nat.zero_le _
  | case2 x =>
    have hx := x.toNat_lt
    simp only [List.length_cons, List.length_nil]
    omega
  | case3 x y rest ih =>
    have hx := x.toNat_lt
    have hy := y.toNat_lt
    simp only [List.length_cons]
    omega

/-- What a byte counts in its word. -/
def byteWeight (i : ℕ) : ℕ := if i % 2 = 0 then 1 else 256

theorem wordSumLE_set (xs : List UInt8) {i : ℕ} (hi : i < xs.length) (b : UInt8) :
    wordSumLE (xs.set i b) + byteWeight i * xs[i].toNat =
      wordSumLE xs + byteWeight i * b.toNat := by
  have hzero : byteWeight 0 = 1 := rfl
  have hone : byteWeight 1 = 256 := rfl
  fun_induction wordSumLE xs generalizing i with
  | case1 => exact absurd hi (Nat.not_lt_zero i)
  | case2 x =>
    obtain rfl : i = 0 := Nat.lt_one_iff.mp hi
    simp only [List.set_cons_zero, wordSumLE, List.getElem_cons_zero, hzero]
    omega
  | case3 x y rest ih =>
    match i with
    | 0 =>
      simp only [List.set_cons_zero, wordSumLE, List.getElem_cons_zero, hzero]
      omega
    | 1 =>
      simp only [List.set_cons_succ, List.set_cons_zero, wordSumLE, List.getElem_cons_succ,
        List.getElem_cons_zero, hone]
      omega
    | i + 2 =>
      have hrest := ih (Nat.lt_of_add_lt_add_right hi)
      have hsame : byteWeight (i + 2) = byteWeight i := by
        rw [byteWeight, byteWeight, Nat.add_mod_right]
      simp only [List.set_cons_succ, wordSumLE, List.getElem_cons_succ, hsame]
      omega

/-- One other byte always changes the digit: its word moves by less than the greatest digit. -/
theorem endAround_wordSumLE_set_ne {xs : List UInt8} {i : ℕ} (hi : i < xs.length) {b : UInt8}
    (hne : xs[i] ≠ b) :
    endAround 65536 (wordSumLE (xs.set i b)) ≠ endAround 65536 (wordSumLE xs) := by
  intro heq
  have hsum := wordSumLE_set xs hi b
  have hmod : wordSumLE (xs.set i b) ≡ wordSumLE xs [MOD 65535] := by
    have hset := endAround_modEq 65536 (wordSumLE (xs.set i b))
    rw [heq] at hset
    exact hset.symm.trans (endAround_modEq 65536 (wordSumLE xs))
  have hbytes : byteWeight i * xs[i].toNat ≡ byteWeight i * b.toNat [MOD 65535] := by
    apply hmod.add_left_cancel
    rw [hsum]
  have hx := xs[i].toNat_lt
  have hb := b.toNat_lt
  apply hne
  apply UInt8.toNat_inj.mp
  unfold byteWeight at hbytes
  split at hbytes
  · have := hbytes.eq_of_lt_of_lt (by omega) (by omega)
    omega
  · have := hbytes.eq_of_lt_of_lt (by omega) (by omega)
    omega

theorem wordSumBE_modEq (xs : List UInt8) : wordSumBE xs ≡ 256 * wordSumLE xs [MOD 65535] := by
  fun_induction wordSumLE xs with
  | case1 => rfl
  | case2 x => rfl
  | case3 x y rest ih =>
    have hturn : y.toNat ≡ 256 * (256 * y.toNat) [MOD 65535] := by
      unfold Nat.ModEq
      omega
    calc wordSumBE (x :: y :: rest)
        ≡ 256 * x.toNat + 256 * (256 * y.toNat) + 256 * wordSumLE rest [MOD 65535] :=
          (hturn.add_left _).add ih
      _ = 256 * (x.toNat + 256 * y.toNat + wordSumLE rest) := by ring

theorem wordSumBE_pos (h : 0 < wordSumLE xs) : 0 < wordSumBE xs := by
  fun_induction wordSumLE xs with
  | case1 => exact h
  | case2 x =>
    unfold wordSumBE
    omega
  | case3 x y rest ih =>
    unfold wordSumBE
    omega

/-- Whether words sum up to zero does not depend on the order of their bytes. -/
theorem endAround_wordSumBE (hpos : 0 < wordSumLE xs) (h : 65535 ∣ wordSumLE xs) :
    endAround 65536 (wordSumBE xs) = 65535 := by
  refine endAround_of_dvd (by decide) (wordSumBE_pos hpos) ?_
  exact Nat.modEq_zero_iff_dvd.mp
    ((wordSumBE_modEq xs).trans (Nat.modEq_zero_iff_dvd.mpr (h.mul_left 256)))

end Words

end TradingPipeline.Lib
