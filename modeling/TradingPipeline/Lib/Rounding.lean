import Mathlib.Algebra.Order.Field.Basic
import Mathlib.Algebra.Order.Ring.Abs
import Mathlib.Tactic.Linarith
import Mathlib.Tactic.Ring

/-! # Rounded arithmetic

The standard model of floating point: an operation returns its exact result up to a
relative error, or an absolute one where results underflow. Under it a value that is
averaged over and over with new samples does not drift: once the slack around the range
of the samples pays for the error of one step, it pays for every step.
-/
namespace TradingPipeline.Lib

variable {K : Type*} [Field K] [LinearOrder K] [IsStrictOrderedRing K]

/-- `y` is `x` up to a relative error of `u` and an absolute one of `t`. -/
def Rounded (u t x y : K) : Prop := |y - x| ≤ u * |x| + t

theorem Rounded.of_eq {u t x : K} (hu : 0 ≤ u) (ht : 0 ≤ t) : Rounded u t x x := by
  rw [Rounded, sub_self, abs_zero]
  exact add_nonneg (mul_nonneg hu (abs_nonneg x)) ht

theorem Rounded.abs_sub_le {u t x y M : K} (h : Rounded u t x y) (hu : 0 ≤ u) (hx : |x| ≤ M) :
    |y - x| ≤ u * M + t := by
  have hrel : u * |x| ≤ u * M := mul_le_mul_of_nonneg_left hx hu
  exact h.trans (by linarith)

/-- `y` lies between `lo` and `hi`, up to `η`. -/
structure Enclosed (lo hi η y : K) : Prop where
  lower : lo - η ≤ y
  upper : y ≤ hi + η

theorem Enclosed.mono {lo hi η η' y : K} (h : Enclosed lo hi η y) (hη : η ≤ η') :
    Enclosed lo hi η' y := by
  obtain ⟨hlower, hupper⟩ := h
  exact ⟨by linarith, by linarith⟩

theorem Enclosed.widen {lo hi η ε x y : K} (h : Enclosed lo hi η x) (hy : |y - x| ≤ ε) :
    Enclosed lo hi (η + ε) y := by
  obtain ⟨hlower, hupper⟩ := h
  obtain ⟨hneg, hpos⟩ := abs_le.mp hy
  exact ⟨by linarith, by linarith⟩

theorem Enclosed.abs_bound {lo hi η y M : K} (h : Enclosed lo hi η y) (hlo : |lo| ≤ M)
    (hhi : |hi| ≤ M) : |y| ≤ M + η := by
  obtain ⟨hlower, hupper⟩ := h
  rw [abs_le] at hlo hhi ⊢
  exact ⟨by linarith, by linarith⟩

theorem average_le {a b m e y hi δ η σ ε M : K} (ha : 0 ≤ a) (hb : 0 ≤ b)
    (hsum : |a + b - 1| ≤ σ) (hm : m ≤ hi + δ) (he : e ≤ hi + η)
    (hy : y ≤ a * m + b * e + ε) (hhi : |hi| ≤ M) (hroom : a * δ + b * η + σ * M + ε ≤ η) :
    y ≤ hi + η := by
  have hσ : 0 ≤ σ := (abs_nonneg _).trans hsum
  have hdrift : (a + b - 1) * hi ≤ σ * M :=
    calc (a + b - 1) * hi ≤ |(a + b - 1) * hi| := le_abs_self _
      _ = |a + b - 1| * |hi| := abs_mul _ _
      _ ≤ σ * M := mul_le_mul hsum hhi (abs_nonneg hi) hσ
  calc y ≤ a * m + b * e + ε := hy
    _ ≤ a * (hi + δ) + b * (hi + η) + ε := by gcongr
    _ = hi + (a + b - 1) * hi + (a * δ + b * η + ε) := by ring
    _ ≤ hi + η := by linarith

/-- Averaging an enclosed value with an enclosed sample keeps it enclosed, when the slack
pays for the weight it loses and for the rounding. -/
theorem Enclosed.average {a b m e y lo hi δ η σ ε M : K} (ha : 0 ≤ a) (hb : 0 ≤ b)
    (hsum : |a + b - 1| ≤ σ) (hm : Enclosed lo hi δ m) (he : Enclosed lo hi η e)
    (hy : |y - (a * m + b * e)| ≤ ε) (hlo : |lo| ≤ M) (hhi : |hi| ≤ M)
    (hroom : a * δ + b * η + σ * M + ε ≤ η) : Enclosed lo hi η y := by
  obtain ⟨hneg, hpos⟩ := abs_le.mp hy
  constructor
  · -- the lower bound is the upper bound of the negated values
    have hneg' : -y ≤ a * -m + b * -e + ε := by linarith
    have hm' : -m ≤ -lo + δ := by linarith [hm.lower]
    have he' : -e ≤ -lo + η := by linarith [he.lower]
    have h := average_le ha hb hsum hm' he' hneg' (by rwa [abs_neg]) hroom
    linarith
  · exact average_le ha hb hsum hm.upper he.upper (by linarith) hhi hroom

end TradingPipeline.Lib
