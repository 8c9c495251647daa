import Mathlib.Algebra.Order.Field.Basic
import Mathlib.Tactic.FieldSimp
import Mathlib.Tactic.Ring
import Mathlib.Tactic.Linarith

/-! # Average cost accounting

A position is a signed quantity with an average entry price. A trade that opens or adds
moves the average; one that goes against the position realizes a gain on the part it
closes, and what is left over opens a new position at the trade's price. The value at cost
changes by exactly the cash that was paid and the gain that was realized.
-/
namespace TradingPipeline.Lib

structure Position (K : Type*) where
  qty : K
  avg : K

namespace Position
variable {K : Type*} [Field K] [LinearOrder K] [IsStrictOrderedRing K]

/-- The trade goes against the position. -/
def Closes (p : Position K) (x : K) : Prop := p.qty * x < 0

instance (p : Position K) (x : K) : Decidable (p.Closes x) := inferInstanceAs (Decidable (_ < _))

/-- The position after `x` was bought (sold, if negative) at `px`. -/
def trade (p : Position K) (x px : K) : Position K where
  qty := p.qty + x
  avg :=
    if p.Closes x then
      if p.qty + x = 0 then 0 else if |x| < |p.qty| then p.avg else px
    else if p.qty = 0 then px else (p.qty * p.avg + x * px) / (p.qty + x)

/-- The gain that the trade realizes. -/
def gain (p : Position K) (x px : K) : K :=
  if p.Closes x then
    if |x| < |p.qty| then x * (p.avg - px) else p.qty * (px - p.avg)
  else 0

theorem add_ne_zero_of_not_closes {p : Position K} {x : K} (h : ¬p.Closes x) (hp : p.qty ≠ 0) :
    p.qty + x ≠ 0 := by
  intro hsum
  have hx : x = -p.qty := by linarith
  have hpos : 0 < p.qty * p.qty := mul_self_pos.mpr hp
  rw [Closes, hx] at h
  exact h (by linarith)

theorem trade_value (p : Position K) (x px : K) :
    (p.trade x px).qty * (p.trade x px).avg = p.qty * p.avg + x * px + p.gain x px := by
  unfold trade gain
  dsimp only
  by_cases hclose : p.Closes x
  · rw [if_pos hclose, if_pos hclose]
    by_cases hflat : p.qty + x = 0
    · have hx : x = -p.qty := by linarith
      have habs : ¬|x| < |p.qty| := by rw [hx, abs_neg]; exact lt_irrefl _
      rw [if_pos hflat, if_neg habs, hx]
      ring
    · rw [if_neg hflat]
      split <;> ring
  · rw [if_neg hclose, if_neg hclose]
    by_cases hzero : p.qty = 0
    · rw [if_pos hzero, hzero]
      ring
    · have hsum := add_ne_zero_of_not_closes hclose hzero
      rw [if_neg hzero]
      field_simp
      ring

theorem trade_avg_of_flat {p : Position K} {x px : K} (hx : x ≠ 0)
    (h : (p.trade x px).qty = 0) : (p.trade x px).avg = 0 := by
  have hflat : p.qty + x = 0 := h
  have hclose : p.Closes x := by
    have hp : p.qty = -x := by linarith
    have hpos : 0 < x * x := mul_self_pos.mpr hx
    rw [Closes, hp]
    linarith
  unfold trade
  dsimp only
  rw [if_pos hclose, if_pos hflat]

end Position

end TradingPipeline.Lib
