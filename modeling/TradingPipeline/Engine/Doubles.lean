import Mathlib.Data.Rat.Floor

/-! # Floating point

The strategy computes its prices and bands in `double`. The arithmetic is a parameter
of the development; where a result depends on a value that `double` represents
exactly, it asks for just that. The rationals, with the out-of-range conversion of
x86-64, are one such arithmetic, and `Float`, which the core library models bit by bit
as binary64, is the one that the code runs on.
-/
namespace TradingPipeline.Engine

/-- The operations on `double` that the strategy uses. -/
class DoubleArith (D : Type) extends Add D, Sub D, Mul D, Div D, Neg D where
  /-- a decimal literal -/
  lit : ℚ → D
  /-- conversion from an integer type -/
  ofInt : ℤ → D
  lt : D → D → Bool
  eq : D → D → Bool
  floor : D → D
  ceil : D → D
  toPriceTicks : D → ℤ
  toInt32 : D → ℤ
  llround : D → ℤ

open DoubleArith

/-- A product whose exact value needs at most 53 bits is exact, and the conversion to
`int32_t` drops the fraction of any value in its range. -/
def ExactProducts (D : Type) [DoubleArith D] : Prop :=
  ∀ (a n : ℤ) (k : ℕ), |a| < 2 ^ 21 → |n| < 2 ^ 31 → k ≤ 21 →
    -2 ^ 31 ≤ (a * n).tdiv (2 ^ k) → (a * n).tdiv (2 ^ k) < 2 ^ 31 →
    toInt32 (lit (a / 2 ^ k) * ofInt n : D) = (a * n).tdiv (2 ^ k)

def trunc (x : ℚ) : ℤ := if 0 ≤ x then ⌊x⌋ else ⌈x⌉

instance : DoubleArith ℚ where
  lit := id
  ofInt n := n
  lt x y := x < y
  eq x y := x = y
  floor x := ⌊x⌋
  ceil x := ⌈x⌉
  toPriceTicks := trunc
  -- `cvttsd2si` answers the smallest integer for a value out of range
  toInt32 x := if -2 ^ 31 ≤ trunc x ∧ trunc x < 2 ^ 31 then trunc x else -2 ^ 31
  llround x := if 0 ≤ x then ⌊x + 1 / 2⌋ else ⌈x - 1 / 2⌉

theorem trunc_div_pow (m : ℤ) (k : ℕ) : trunc (m / 2 ^ k) = m.tdiv (2 ^ k) := by
  have hk : (2 : ℚ) ^ k = ((2 ^ k : ℕ) : ℚ) := by push_cast; rfl
  have hk' : (2 : ℤ) ^ k = ((2 ^ k : ℕ) : ℤ) := by push_cast; rfl
  have hpos : (0 : ℚ) < ((2 ^ k : ℕ) : ℚ) := by positivity
  have hsign : (0 : ℚ) ≤ m / ((2 ^ k : ℕ) : ℚ) ↔ 0 ≤ m := by
    rw [le_div_iff₀ hpos, zero_mul, Int.cast_nonneg_iff]
  unfold trunc
  rw [hk, hk', if_congr hsign rfl rfl]
  split
  · rename_i hm
    rw [Rat.floor_intCast_div_natCast, Int.tdiv_eq_ediv_of_nonneg hm]
  · rename_i hm
    have hneg : m.tdiv (2 ^ k : ℕ) = -((-m).tdiv (2 ^ k : ℕ)) := by rw [Int.neg_tdiv, neg_neg]
    rw [Rat.ceil_intCast_div_natCast, hneg, Int.tdiv_eq_ediv_of_nonneg (by omega)]

theorem exactProducts_rat : ExactProducts ℚ := by
  intro a n k _ _ _ hlo hhi
  have hval : (lit (a / 2 ^ k : ℚ) * ofInt n : ℚ) = ((a * n : ℤ) : ℚ) / 2 ^ k := by
    change (a / 2 ^ k : ℚ) * n = _
    push_cast
    ring
  rw [hval]
  change (if -2 ^ 31 ≤ trunc _ ∧ trunc _ < 2 ^ 31 then trunc _ else -2 ^ 31) = _
  rw [trunc_div_pow, if_pos ⟨hlo, hhi⟩]

section Binary64

/-- The number that a `double` stands for, unless it is infinite or no number. -/
def doubleValue (x : Float) : Option ℚ :=
  match x.toModel.unpack with
  | .finite .positive m e _ => some (m * 2 ^ e)
  | .finite .negative m e _ => some (-(m * 2 ^ e))
  | .zero _ => some 0
  | .infinity _ | .notANumber => none

/-- A rounding to an integral value. From `2 ^ 52` on every value is integral. -/
def roundDouble (round : ℚ → ℤ) (x : Float) : Float :=
  match doubleValue x with
  | some v => if |v| < 2 ^ 52 then Float.ofInt (round v) else x
  | none => x

/-- A conversion to a signed type, as `cvttsd2si` answers out of range. -/
def convertDouble (bits : ℕ) (round : ℚ → ℤ) (x : Float) : ℤ :=
  match doubleValue x with
  | some v => if -2 ^ (bits - 1) ≤ round v ∧ round v < 2 ^ (bits - 1) then round v
    else -2 ^ (bits - 1)
  | none => -2 ^ (bits - 1)

/-- A literal is a quotient of two integers below `2 ^ 53`, so one division rounds it. -/
instance : DoubleArith Float where
  lit q := Float.ofInt q.num / Float.ofNat q.den
  ofInt := Float.ofInt
  lt := Float.lt
  eq := Float.beq
  floor := roundDouble Int.floor
  ceil := roundDouble Int.ceil
  toPriceTicks := convertDouble 64 trunc
  toInt32 := convertDouble 32 trunc
  llround := convertDouble 64 fun v => if 0 ≤ v then ⌊v + 1 / 2⌋ else ⌈v - 1 / 2⌉

-- the average of 101 and 101 falls short of 101, that of 100 and 100 does not
example : floor (lit (5 / 100) * lit 101 + (lit 1 - lit (5 / 100)) * lit 101 : Float) = 100 ∧
    floor (lit (5 / 100) * lit 100 + (lit 1 - lit (5 / 100)) * lit 100 : Float) = 100 := by
  decide +kernel

end Binary64

end TradingPipeline.Engine
