import Mathlib.Data.Int.ModEq

/-! # Fixed-width integers

Values of the signed and unsigned machine types are integers and naturals in range;
each operation that may leave the range wraps its result explicitly.
-/
namespace TradingPipeline.Lib

def int32 (x : ℤ) : ℤ := x.bmod (2 ^ 32)

def int64 (x : ℤ) : ℤ := x.bmod (2 ^ 64)

/-- Conversion of a signed value to a 64-bit unsigned one. -/
def uint64 (x : ℤ) : ℕ := (x % 2 ^ 64).toNat

/-- Increment of a 64-bit counter. -/
def succ64 (n : ℕ) : ℕ := (n + 1) % 2 ^ 64

theorem int32_eq_self {x : ℤ} (hlo : -2 ^ 31 ≤ x) (hhi : x < 2 ^ 31) : int32 x = x := by
  rw [int32, Int.bmod_def]
  split <;> omega

theorem int32_natCast {n : ℕ} (h : n < 2 ^ 31) : int32 n = n :=
  int32_eq_self (by omega) (by omega)

theorem int64_eq_self {x : ℤ} (hlo : -2 ^ 63 ≤ x) (hhi : x < 2 ^ 63) : int64 x = x := by
  rw [int64, Int.bmod_def]
  split <;> omega

theorem int32_add_int32 (x y : ℤ) : int32 (x + int32 y) = int32 (x + y) :=
  Int.add_bmod_bmod

theorem int32_neg_int32 (x : ℤ) : int32 (-int32 x) = int32 (-x) := by
  simp [int32]

end TradingPipeline.Lib
