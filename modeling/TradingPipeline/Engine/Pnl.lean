import TradingPipeline.Engine.Inventory
import TradingPipeline.Lib.AverageCost

/-! # Profit and loss

`apply_fill_pnl` keeps books at average cost in 32-bit inventory and rounds the gain of each
closing fill to whole ticks. As long as nothing overflows, it is the accounting of the
library with an error of at most half a tick per closing fill.
-/
namespace TradingPipeline.Engine
open Lib Book DoubleArith

section Rounding

theorem llround_error (x : ℚ) : |(llround x : ℚ) - x| ≤ 1 / 2 := by
  change |((if 0 ≤ x then ⌊x + 1 / 2⌋ else ⌈x - 1 / 2⌉ : ℤ) : ℚ) - x| ≤ 1 / 2
  split
  · have hle := Int.floor_le (x + 1 / 2)
    have hlt := Int.lt_floor_add_one (x + 1 / 2)
    rw [abs_le]
    exact ⟨by linarith, by linarith⟩
  · have hle := Int.le_ceil (x - 1 / 2)
    have hlt := Int.ceil_lt_add_one (x - 1 / 2)
    rw [abs_le]
    exact ⟨by linarith, by linarith⟩

theorem llround_zero : llround (0 : ℚ) = 0 := by
  change (if (0 : ℚ) ≤ 0 then ⌊(0 : ℚ) + 1 / 2⌋ else ⌈(0 : ℚ) - 1 / 2⌉) = 0
  rw [if_pos le_rfl, Int.floor_eq_zero_iff]
  norm_num

end Rounding

def Fill.signed (f : Fill) : ℤ := towards f.side f.qty

def State.position (s : State ℚ) : Position ℚ := ⟨s.inventory, s.avgEntryPx⟩

/-- The fill reduces, closes or flips the position. -/
def Reduces (s : State ℚ) (f : Fill) : Prop :=
  0 < s.inventory ∧ f.signed < 0 ∨ s.inventory < 0 ∧ 0 < f.signed

instance (s : State ℚ) (f : Fill) : Decidable (Reduces s f) := inferInstanceAs (Decidable (_ ∨ _))

/-- Quantity, inventory and realized profit stay inside their types. -/
structure Fits (s : State ℚ) (f : Fill) : Prop where
  pos : 0 < f.qty
  qty : f.qty < 2 ^ 31
  inventory : |s.inventory + f.signed| < 2 ^ 31
  realized : |s.realizedPnlTicks + llround (s.position.gain f.signed f.px)| < 2 ^ 63

instance (s : State ℚ) (f : Fill) : Decidable (Fits s f) :=
  decidable_of_iff (0 < f.qty ∧ f.qty < 2 ^ 31 ∧ |s.inventory + f.signed| < 2 ^ 31 ∧
    |s.realizedPnlTicks + llround (s.position.gain f.signed f.px)| < 2 ^ 63)
    ⟨fun h => ⟨h.1, h.2.1, h.2.2.1, h.2.2.2⟩, fun h => ⟨h.1, h.2, h.3, h.4⟩⟩

section Step
variable {s : State ℚ} {f : Fill}

theorem closes_iff (s : State ℚ) (f : Fill) : s.position.Closes f.signed ↔ Reduces s f := by
  unfold Position.Closes State.position Reduces
  rw [← Int.cast_mul, Int.cast_lt_zero]
  exact mul_neg_iff

theorem abs_signed (h : 0 < f.qty) : |f.signed| = f.qty := by
  unfold Fill.signed towards
  cases f.side with
  | buy => exact abs_of_pos h
  | sell => exact (abs_neg f.qty).trans (abs_of_pos h)

theorem signedQty_eq (hpos : 0 < f.qty) (hqty : f.qty < 2 ^ 31) : f.signedQty = f.signed := by
  have hq : int32 f.qty = f.qty := int32_eq_self (by omega) (by omega)
  unfold Fill.signedQty Fill.signed towards
  rw [hq]
  cases f.side with
  | buy => rfl
  | sell => exact int32_eq_self (by omega) (by omega)

/-- Nothing wraps in a fill that fits. -/
structure Unwrapped (s : State ℚ) (f : Fill) : Prop where
  qty : int32 f.qty = f.qty
  signedQty : f.signedQty = f.signed
  newInv : int32 (s.inventory + f.signed) = s.inventory + f.signed
  oldAbs : int32 |s.inventory| = |s.inventory|
  newAbs : int32 |s.inventory + f.signed| = |s.inventory + f.signed|

theorem Fits.unwrapped (hs : |s.inventory| < 2 ^ 31) (h : Fits s f) : Unwrapped s f where
  qty := int32_eq_self (le_trans (by decide) (le_of_lt h.pos)) h.qty
  signedQty := signedQty_eq h.pos h.qty
  newInv := by
    have hinv := abs_lt.mp h.inventory
    exact int32_eq_self (le_of_lt hinv.1) hinv.2
  oldAbs := int32_eq_self (le_trans (by decide) (abs_nonneg _)) hs
  newAbs := int32_eq_self (le_trans (by decide) (abs_nonneg _)) h.inventory

theorem applyFillPnl_opens (hs : |s.inventory| < 2 ^ 31) (h : Fits s f) (hopen : ¬Reduces s f) :
    (applyFillPnl s f).avgEntryPx = (if ((|s.inventory| : ℤ) : ℚ) = 0 then (f.px : ℚ)
      else ((|s.inventory| : ℤ) * s.avgEntryPx + f.qty * f.px) / (|s.inventory + f.signed| : ℤ)) ∧
    (applyFillPnl s f).realizedPnlTicks = s.realizedPnlTicks := by
  have hu := h.unwrapped hs
  have hne : f.signed ≠ 0 := by
    rw [← abs_pos, abs_signed h.pos]
    exact h.pos
  have hcond : s.inventory = 0 ∨ (s.inventory > 0 ∧ f.signed > 0) ∨
      (s.inventory < 0 ∧ f.signed < 0) := by
    unfold Reduces at hopen
    omega
  unfold applyFillPnl
  dsimp only
  rw [hu.signedQty, if_pos hcond, hu.newInv, hu.qty, hu.oldAbs, hu.newAbs]
  refine ⟨?_, rfl⟩
  change (if decide (_ = _) = true then _ else _) = _
  simp only [decide_eq_true_iff]
  rfl

theorem applyFillPnl_reduces (hs : |s.inventory| < 2 ^ 31) (h : Fits s f) (hred : Reduces s f) :
    (applyFillPnl s f).avgEntryPx = (if s.inventory + f.signed = 0 then 0
      else if f.qty < |s.inventory| then s.avgEntryPx else (f.px : ℚ)) ∧
    (applyFillPnl s f).realizedPnlTicks = int64 (s.realizedPnlTicks + llround (if 0 < s.inventory
      then ((f.px : ℚ) - s.avgEntryPx) * (min |s.inventory| f.qty : ℤ)
      else (s.avgEntryPx - f.px) * (min |s.inventory| f.qty : ℤ))) := by
  have hu := h.unwrapped hs
  have hcond : ¬(s.inventory = 0 ∨ (s.inventory > 0 ∧ f.signed > 0) ∨
      (s.inventory < 0 ∧ f.signed < 0)) := by
    unfold Reduces at hred
    omega
  have hflips : ¬s.inventory + f.signed = 0 →
      ((s.inventory > 0 ∧ s.inventory + f.signed < 0) ∨
        (s.inventory < 0 ∧ s.inventory + f.signed > 0) ↔ ¬f.qty < |s.inventory|) := by
    intro hflat
    rw [← abs_signed h.pos]
    rcases hred with ⟨hlong, hsell⟩ | ⟨hshort, hbuy⟩
    · rw [abs_of_pos hlong, abs_of_neg hsell]
      omega
    · rw [abs_of_neg hshort, abs_of_pos hbuy]
      omega
  unfold applyFillPnl
  dsimp only
  rw [hu.signedQty, if_neg hcond, hu.newInv, hu.qty, hu.oldAbs]
  constructor
  · dsimp only
    by_cases hflat : s.inventory + f.signed = 0
    · rw [if_pos hflat, if_pos hflat]
      rfl
    · rw [if_neg hflat, if_neg hflat, if_congr (hflips hflat) rfl rfl, ite_not]
      rfl
  · dsimp only
    by_cases hlong : s.inventory > 0
    · rw [if_pos hlong, if_pos hlong]
      rfl
    · rw [if_neg hlong, if_neg hlong]
      rfl

theorem abs_signed_lt_iff (h : 0 < f.qty) :
    |(f.signed : ℚ)| < |(s.inventory : ℚ)| ↔ f.qty < |s.inventory| := by
  rw [← Int.cast_abs, ← Int.cast_abs, Int.cast_lt, abs_signed h]

theorem gain_of_reduces (hpos : 0 < f.qty) (hred : Reduces s f) :
    s.position.gain f.signed f.px = if 0 < s.inventory
      then ((f.px : ℚ) - s.avgEntryPx) * (min |s.inventory| f.qty : ℤ)
      else (s.avgEntryPx - f.px) * (min |s.inventory| f.qty : ℤ) := by
  have habs := abs_signed hpos
  have hlt := abs_signed_lt_iff (s := s) hpos
  rw [Position.gain, if_pos ((closes_iff s f).mpr hred)]
  change (if |(f.signed : ℚ)| < |(s.inventory : ℚ)| then _ else _) = _
  rw [if_congr hlt rfl rfl]
  change (if f.qty < |s.inventory| then (f.signed : ℚ) * (s.avgEntryPx - f.px)
    else (s.inventory : ℚ) * (f.px - s.avgEntryPx)) = _
  rcases hred with ⟨hlong, hsell⟩ | ⟨hshort, hbuy⟩
  · have hsigned : f.signed = -f.qty := by rw [abs_of_neg hsell] at habs; omega
    rw [abs_of_pos hlong, hsigned, if_pos hlong]
    split
    · rename_i hpart
      rw [min_eq_right (le_of_lt hpart)]
      push_cast
      ring
    · rename_i hall
      rw [min_eq_left (not_lt.mp hall)]
      ring
  · have hsigned : f.signed = f.qty := by rw [abs_of_pos hbuy] at habs; exact habs
    have hlong : ¬0 < s.inventory := by omega
    rw [abs_of_neg hshort, hsigned, if_neg hlong]
    split
    · rename_i hpart
      rw [min_eq_right (le_of_lt hpart)]
      ring
    · rename_i hall
      rw [min_eq_left (not_lt.mp hall)]
      push_cast
      ring

theorem trade_avg_of_opens (hpos : 0 < f.qty) (hopen : ¬Reduces s f) (hne : s.inventory ≠ 0) :
    (s.position.trade f.signed f.px).avg =
      ((|s.inventory| : ℤ) * s.avgEntryPx + f.qty * f.px) / (|s.inventory + f.signed| : ℤ) := by
  have habs := abs_signed hpos
  have hzero : ¬(s.position.qty = 0) := fun h => hne (Int.cast_eq_zero.mp h)
  unfold Position.trade
  dsimp only
  rw [if_neg (mt (closes_iff s f).mp hopen), if_neg hzero]
  change ((s.inventory : ℚ) * s.avgEntryPx + (f.signed : ℚ) * f.px) /
    ((s.inventory : ℚ) + f.signed) = _
  rcases lt_or_gt_of_ne hne with hshort | hlong
  · have hsell : f.signed < 0 := by
      unfold Reduces at hopen
      have hsigned : f.signed ≠ 0 := by rw [← abs_pos, habs]; exact hpos
      omega
    have hsigned : f.signed = -f.qty := by rw [abs_of_neg hsell] at habs; omega
    rw [abs_of_neg hshort, abs_of_neg (by omega), hsigned]
    push_cast
    rw [← neg_div_neg_eq]
    congr 1
    ring
  · have hbuy : 0 < f.signed := by
      unfold Reduces at hopen
      have hsigned : f.signed ≠ 0 := by rw [← abs_pos, habs]; exact hpos
      omega
    have hsigned : f.signed = f.qty := by rw [abs_of_pos hbuy] at habs; exact habs
    rw [abs_of_pos hlong, abs_of_pos (by omega), hsigned]
    push_cast
    rfl

theorem applyFillPnl_spec (hs : |s.inventory| < 2 ^ 31) (h : Fits s f) :
    (applyFillPnl s f).inventory = s.inventory + f.signed ∧
    (applyFillPnl s f).avgEntryPx = (s.position.trade f.signed f.px).avg ∧
    (applyFillPnl s f).realizedPnlTicks =
      s.realizedPnlTicks + llround (s.position.gain f.signed f.px) := by
  refine ⟨?_, ?_⟩
  · rw [applyFillPnl_inventory]
    exact (h.unwrapped hs).newInv
  have hreal := abs_lt.mp h.realized
  by_cases hred : Reduces s f
  · obtain ⟨havg, hgain⟩ := applyFillPnl_reduces hs h hred
    rw [← gain_of_reduces h.pos hred, int64_eq_self (le_of_lt hreal.1) hreal.2] at hgain
    refine ⟨?_, hgain⟩
    have hflat : (s.inventory : ℚ) + (f.signed : ℚ) = 0 ↔ s.inventory + f.signed = 0 := by
      rw [← Int.cast_add, Int.cast_eq_zero]
    rw [havg, Position.trade]
    dsimp only
    rw [if_pos ((closes_iff s f).mpr hred)]
    exact (if_congr hflat rfl (if_congr (abs_signed_lt_iff h.pos) rfl rfl)).symm
  · obtain ⟨havg, hgain⟩ := applyFillPnl_opens hs h hred
    have hclose := mt (closes_iff s f).mp hred
    refine ⟨?_, ?_⟩
    · rw [havg]
      by_cases hzero : s.inventory = 0
      · have hqty : s.position.qty = 0 := Int.cast_eq_zero.mpr hzero
        unfold Position.trade
        dsimp only
        rw [if_neg hclose, if_pos hqty, hzero, abs_zero, if_pos Int.cast_zero]
      · have habs : ¬((|s.inventory| : ℤ) : ℚ) = 0 := by
          rw [Int.cast_eq_zero, abs_eq_zero]
          exact hzero
        rw [if_neg habs, trade_avg_of_opens h.pos hred hzero]
    · rw [hgain, Position.gain, if_neg hclose, llround_zero, add_zero]

end Step

section Fills

def applyFills (s : State ℚ) (fs : List Fill) : State ℚ := fs.foldl applyFillPnl s

/-- Every fill fits where it is applied. -/
def FitsAll (s : State ℚ) : List Fill → Prop
  | [] => True
  | f :: fs => Fits s f ∧ FitsAll (applyFillPnl s f) fs

instance decidableFitsAll (s : State ℚ) : (fs : List Fill) → Decidable (FitsAll s fs)
  | [] => isTrue trivial
  | f :: fs =>
    have := decidableFitsAll (applyFillPnl s f) fs
    inferInstanceAs (Decidable (_ ∧ _))

def signedSum (fs : List Fill) : ℤ := (fs.map Fill.signed).sum

/-- The sum of `signed_qty * px`. -/
def cashPaid (fs : List Fill) : ℤ := (fs.map fun f => f.signed * f.px).sum

/-- The fills that reduce, close or flip a position. -/
def reductions (s : State ℚ) : List Fill → ℕ
  | [] => 0
  | f :: fs => (if Reduces s f then 1 else 0) + reductions (applyFillPnl s f) fs

structure Booked (s : State ℚ) (sum cash : ℤ) (n : ℕ) : Prop where
  inventory : s.inventory = sum
  range : |s.inventory| < 2 ^ 31
  flat : s.inventory = 0 → s.avgEntryPx = 0
  error : |(s.realizedPnlTicks : ℚ) - (s.inventory * s.avgEntryPx - cash)| ≤ (n : ℚ) / 2

variable {s : State ℚ} {sum cash : ℤ} {n : ℕ}

theorem rounded_gain_error (s : State ℚ) (f : Fill) :
    |(llround (s.position.gain f.signed f.px) : ℚ) - s.position.gain f.signed f.px| ≤
      ((if Reduces s f then 1 else 0 : ℕ) : ℚ) / 2 := by
  split
  · have h := llround_error (s.position.gain f.signed f.px)
    simpa using h
  · rename_i hopen
    rw [Position.gain, if_neg (mt (closes_iff s f).mp hopen), llround_zero]
    simp

theorem Booked.fill (hs : Booked s sum cash n) {f : Fill} (h : Fits s f) :
    Booked (applyFillPnl s f) (sum + f.signed) (cash + f.signed * f.px)
      (n + if Reduces s f then 1 else 0) := by
  obtain ⟨hinv, havg, hreal⟩ := applyFillPnl_spec hs.range h
  have hvalue : ((s.inventory + f.signed : ℤ) : ℚ) * (s.position.trade f.signed f.px).avg =
      s.inventory * s.avgEntryPx + f.signed * f.px + s.position.gain f.signed f.px := by
    push_cast
    exact s.position.trade_value f.signed f.px
  refine ⟨by rw [hinv, hs.inventory], by rw [hinv]; exact h.inventory, ?_, ?_⟩
  · intro hflat
    have hne : (f.signed : ℚ) ≠ 0 := by
      rw [Ne, Int.cast_eq_zero, ← abs_eq_zero, abs_signed h.pos]
      exact ne_of_gt h.pos
    rw [havg]
    refine Position.trade_avg_of_flat hne ?_
    change (s.inventory : ℚ) + f.signed = 0
    rw [← Int.cast_add, ← hinv, hflat, Int.cast_zero]
  · rw [hreal, hinv, havg, hvalue]
    have hround := rounded_gain_error s f
    have herror := hs.error
    rw [abs_le] at hround herror ⊢
    push_cast at hround ⊢
    constructor <;> linarith [hround.1, hround.2, herror.1, herror.2]

theorem Booked.fills (hs : Booked s sum cash n) {fs : List Fill} (h : FitsAll s fs) :
    Booked (applyFills s fs) (sum + signedSum fs) (cash + cashPaid fs) (n + reductions s fs) := by
  induction fs generalizing s sum cash n with
  | nil => simpa [applyFills, signedSum, cashPaid, reductions] using hs
  | cons f fs ih =>
    have hrest := ih (hs.fill h.1) h.2
    simpa [applyFills, signedSum, cashPaid, reductions, add_assoc] using hrest

theorem init_booked (p : Params ℚ) : Booked (State.init p) 0 0 0 := by
  refine ⟨rfl, by simp [State.init], fun _ => rfl, ?_⟩
  simp [State.init]

/-- As long as nothing overflows, the inventory is the sum of the fills and the realized
profit is the value at cost minus the cash paid, up to half a tick per closing fill. -/
theorem pnl_identity (p : Params ℚ) {fs : List Fill} (h : FitsAll (State.init p) fs) :
    (applyFills (State.init p) fs).inventory = signedSum fs ∧
    |((applyFills (State.init p) fs).realizedPnlTicks : ℚ) -
      ((applyFills (State.init p) fs).inventory * (applyFills (State.init p) fs).avgEntryPx -
        cashPaid fs)| ≤ (reductions (State.init p) fs : ℚ) / 2 ∧
    ((applyFills (State.init p) fs).inventory = 0 →
      (applyFills (State.init p) fs).avgEntryPx = 0 ∧
      |((applyFills (State.init p) fs).realizedPnlTicks : ℚ) - -(cashPaid fs : ℚ)| ≤
        (reductions (State.init p) fs : ℚ) / 2) := by
  have hb := (init_booked p).fills h
  rw [zero_add, zero_add, zero_add] at hb
  refine ⟨hb.inventory, hb.error, fun hflat => ⟨hb.flat hflat, ?_⟩⟩
  have herror := hb.error
  rwa [hflat, Int.cast_zero, zero_mul, zero_sub] at herror

/-- Bought at 100 and 101, sold at 105 in two parts, the second of which goes short, and
bought back at 104. -/
def sampleFills : List Fill :=
  [⟨.buy, 100, 2, 1⟩, ⟨.buy, 101, 1, 1⟩, ⟨.sell, 105, 1, 1⟩, ⟨.sell, 105, 4, 1⟩, ⟨.buy, 104, 2, 1⟩]

theorem pnl_identity_sampleFills :
    FitsAll (State.init Params.default) sampleFills ∧
    (applyFills (State.init Params.default) sampleFills).realizedPnlTicks = 16 ∧
    reductions (State.init Params.default) sampleFills = 3 ∧
    |((applyFills (State.init Params.default) sampleFills).realizedPnlTicks : ℚ) -
      -(cashPaid sampleFills : ℚ)| ≤
        (reductions (State.init Params.default) sampleFills : ℚ) / 2 := by
  have hfits : FitsAll (State.init Params.default) sampleFills := by decide +kernel
  exact ⟨hfits, by decide +kernel, by decide +kernel,
    ((pnl_identity Params.default hfits).2.2 (by decide +kernel)).2⟩

/-- Two buys of `2 ^ 31 - 1` leave an inventory of minus two. -/
theorem inventory_wraps :
    (applyFills (State.init Params.default)
      [⟨.buy, 100, 2 ^ 31 - 1, 1⟩, ⟨.buy, 100, 2 ^ 31 - 1, 1⟩]).inventory = -2 ∧
    signedSum [⟨.buy, 100, 2 ^ 31 - 1, 1⟩, ⟨.buy, 100, 2 ^ 31 - 1, 1⟩] = 2 ^ 32 - 2 := by
  decide +kernel

end Fills

end TradingPipeline.Engine
