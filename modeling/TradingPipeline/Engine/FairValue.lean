import TradingPipeline.Engine.Sides
import TradingPipeline.Lib.Rounding
import Mathlib.Tactic.NormNum
import Mathlib.Tactic.Positivity

/-! # The fair value and the quoted prices

The fair value is a moving average kept in `double`, and every event rounds it once more.
Under the error bounds of IEEE arithmetic it stays within a fraction of a tick of the
range of the mid prices the strategy has seen, however long the run. The prices of the
quotes follow: half a spread, the capped skew and the skew for the inventory away from
that range and no further.
-/
namespace TradingPipeline.Engine
open Lib Book
open DoubleArith

variable {api : OrderBookApi} {D : Type}

/-- Half a unit in the last place of a significand of 53 bits. -/
def unitRoundoff : ℚ := 1 / 2 ^ 53

/-- A bound, far from tight, of the error of a product that underflows. -/
def underflow : ℚ := 1 / 2 ^ 100

theorem unitRoundoff_nonneg : 0 ≤ unitRoundoff := by norm_num [unitRoundoff]

theorem underflow_nonneg : 0 ≤ underflow := by norm_num [underflow]

/-- The laws of IEEE 754 that bound rounding, for results far from overflow. Sums and
differences do not underflow. -/
structure IeeeArith (D : Type) [DoubleArith D] where
  finite : D → Prop
  val : D → ℚ
  lit_int : ∀ n : ℤ, |n| ≤ 2 ^ 53 → finite (lit n) ∧ val (lit n) = n
  lit_rounds : ∀ q, |q| ≤ 2 ^ 100 →
    finite (lit q) ∧ Rounded unitRoundoff underflow q (val (lit q))
  ofInt_exact : ∀ n : ℤ, |n| ≤ 2 ^ 53 → finite (ofInt n) ∧ val (ofInt n) = n
  add_rounds : ∀ x y, finite x → finite y → |val x + val y| ≤ 2 ^ 100 →
    finite (x + y) ∧ Rounded unitRoundoff 0 (val x + val y) (val (x + y))
  sub_rounds : ∀ x y, finite x → finite y → |val x - val y| ≤ 2 ^ 100 →
    finite (x - y) ∧ Rounded unitRoundoff 0 (val x - val y) (val (x - y))
  mul_rounds : ∀ x y, finite x → finite y → |val x * val y| ≤ 2 ^ 100 →
    finite (x * y) ∧ Rounded unitRoundoff underflow (val x * val y) (val (x * y))
  neg_exact : ∀ x, finite x → finite (-x) ∧ val (-x) = -val x
  lt_iff : ∀ x y, finite x → finite y → (lt x y = true ↔ val x < val y)
  floor_exact : ∀ x, finite x → finite (floor x) ∧ val (floor x) = ⌊val x⌋
  ceil_exact : ∀ x, finite x → finite (ceil x) ∧ val (ceil x) = ⌈val x⌉
  toPriceTicks_exact : ∀ x, finite x → |val x| < 2 ^ 31 → toPriceTicks x = trunc (val x)

theorem trunc_intCast (n : ℤ) : trunc n = n := by
  unfold trunc
  split
  · exact Int.floor_intCast n
  · exact Int.ceil_intCast n

/-- The rationals round nothing. -/
def ieeeRat : IeeeArith ℚ where
  finite _ := True
  val := id
  lit_int _ _ := ⟨trivial, rfl⟩
  lit_rounds _ _ := ⟨trivial, .of_eq unitRoundoff_nonneg underflow_nonneg⟩
  ofInt_exact _ _ := ⟨trivial, rfl⟩
  add_rounds _ _ _ _ _ := ⟨trivial, .of_eq unitRoundoff_nonneg le_rfl⟩
  sub_rounds _ _ _ _ _ := ⟨trivial, .of_eq unitRoundoff_nonneg le_rfl⟩
  mul_rounds _ _ _ _ _ := ⟨trivial, .of_eq unitRoundoff_nonneg underflow_nonneg⟩
  neg_exact _ _ := ⟨trivial, rfl⟩
  lt_iff _ _ _ _ := decide_eq_true_iff
  floor_exact _ _ := ⟨trivial, rfl⟩
  ceil_exact _ _ := ⟨trivial, rfl⟩
  toPriceTicks_exact _ _ _ := rfl

/-- What one operation loses on results below 2³². -/
def opError : ℚ := 1 / 2 ^ 20

namespace IeeeArith
variable [DoubleArith D] (F : IeeeArith D)

/-- `x` is finite and stands for `v` up to `e`. -/
def Near (x : D) (v e : ℚ) : Prop := F.finite x ∧ |F.val x - v| ≤ e

variable {F} {x y z : D} {a b e f v w : ℚ}

theorem near_val (hx : F.finite x) : F.Near x (F.val x) 0 := ⟨hx, by rw [sub_self, abs_zero]⟩

theorem near_ofInt {n : ℤ} (hn : |n| ≤ 2 ^ 53) : F.Near (ofInt n) n 0 := by
  obtain ⟨hfin, hval⟩ := F.ofInt_exact n hn
  exact ⟨hfin, by rw [hval, sub_self, abs_zero]⟩

theorem near_lit {q : ℚ} (hq : 0 ≤ q) (hle : q ≤ 1) : F.Near (lit q) q (1 / 2 ^ 52) := by
  have habs : |q| ≤ 1 := by rwa [abs_of_nonneg hq]
  obtain ⟨hfin, hround⟩ := F.lit_rounds q (habs.trans (by norm_num))
  refine ⟨hfin, (hround.abs_sub_le unitRoundoff_nonneg habs).trans ?_⟩
  norm_num [unitRoundoff, underflow]

theorem Near.mono (h : F.Near x v e) (he : e ≤ f) : F.Near x v f := ⟨h.1, h.2.trans he⟩

theorem Near.abs_val (h : F.Near x v e) : |F.val x| ≤ |v| + e := by
  have htri := abs_add_le v (F.val x - v)
  rw [add_sub_cancel] at htri
  exact htri.trans (add_le_add le_rfl h.2)

theorem near_of_rounds {t : ℚ} (ht : t ≤ underflow)
    (hlaw : |w| ≤ 2 ^ 100 → F.finite z ∧ Rounded unitRoundoff t w (F.val z))
    (hw : |w - v| ≤ e) (hsize : |v| + e ≤ 2 ^ 32) : F.Near z v (e + opError) := by
  have hlarge : |w| ≤ 2 ^ 32 := by
    have htri := abs_add_le v (w - v)
    rw [add_sub_cancel] at htri
    linarith
  obtain ⟨hfin, hround⟩ := hlaw (hlarge.trans (by norm_num))
  have hop := hround.abs_sub_le unitRoundoff_nonneg hlarge
  have hcost : unitRoundoff * 2 ^ 32 + underflow ≤ opError := by
    norm_num [unitRoundoff, underflow, opError]
  refine ⟨hfin, (abs_sub_le _ w _).trans ?_⟩
  linarith

theorem Near.add (hx : F.Near x a e) (hy : F.Near y b f) (h : |a + b| + (e + f) ≤ 2 ^ 32) :
    F.Near (x + y) (a + b) (e + f + opError) := by
  refine near_of_rounds underflow_nonneg (F.add_rounds x y hx.1 hy.1) ?_ h
  rw [add_sub_add_comm]
  exact (abs_add_le _ _).trans (add_le_add hx.2 hy.2)

theorem Near.sub (hx : F.Near x a e) (hy : F.Near y b f) (h : |a - b| + (e + f) ≤ 2 ^ 32) :
    F.Near (x - y) (a - b) (e + f + opError) := by
  refine near_of_rounds underflow_nonneg (F.sub_rounds x y hx.1 hy.1) ?_ h
  rw [sub_sub_sub_comm]
  exact (abs_sub _ _).trans (add_le_add hx.2 hy.2)

theorem near_mul (hx : F.finite x) (hy : F.finite y) (hw : |F.val x * F.val y - v| ≤ e)
    (h : |v| + e ≤ 2 ^ 32) : F.Near (x * y) v (e + opError) :=
  near_of_rounds le_rfl (F.mul_rounds x y hx hy) hw h

theorem clamp_enclosed {v lo hi : D} (hv : F.finite v) (hlo : F.finite lo) (hhi : F.finite hi)
    (h : F.val lo ≤ F.val hi) :
    F.finite (clamp v lo hi) ∧ F.val lo ≤ F.val (clamp v lo hi) ∧
      F.val (clamp v lo hi) ≤ F.val hi := by
  unfold clamp
  split
  · exact ⟨hlo, le_rfl, h⟩
  · rename_i hge
    rw [F.lt_iff v lo hv hlo, not_lt] at hge
    split
    · exact ⟨hhi, h, le_rfl⟩
    · rename_i hle
      rw [F.lt_iff hi v hhi hv, not_lt] at hle
      exact ⟨hv, hge, hle⟩

theorem Near.toPriceTicks_near {n : ℤ} (hx : F.Near x v e) (h : |v| + e ≤ 2 ^ 31 - 2)
    (hz : F.finite z ∧ F.val z = n) (hn : |(n : ℚ) - F.val x| ≤ 1) :
    |(toPriceTicks z : ℚ) - v| ≤ e + 1 := by
  obtain ⟨hfin, hval⟩ := hz
  obtain ⟨hlower, hupper⟩ := abs_le.mp (hx.abs_val.trans h)
  obtain ⟨hdown, hup⟩ := abs_le.mp hn
  have hrange : |F.val z| < 2 ^ 31 := by
    rw [hval, abs_lt]
    exact ⟨by linarith, by linarith⟩
  rw [F.toPriceTicks_exact z hfin hrange, hval, trunc_intCast]
  have htri := abs_sub_le (n : ℚ) (F.val x) v
  linarith [hx.2]

theorem Near.toPriceTicks_floor (hx : F.Near x v e) (h : |v| + e ≤ 2 ^ 31 - 2) :
    |(toPriceTicks (floor x) : ℚ) - v| ≤ e + 1 := by
  refine hx.toPriceTicks_near h (F.floor_exact x hx.1) (abs_le.mpr ⟨?_, ?_⟩)
  · linarith [Int.lt_floor_add_one (F.val x)]
  · linarith [Int.floor_le (F.val x)]

theorem Near.toPriceTicks_ceil (hx : F.Near x v e) (h : |v| + e ≤ 2 ^ 31 - 2) :
    |(toPriceTicks (ceil x) : ℚ) - v| ≤ e + 1 := by
  refine hx.toPriceTicks_near h (F.ceil_exact x hx.1) (abs_le.mpr ⟨?_, ?_⟩)
  · linarith [Int.le_ceil (F.val x)]
  · linarith [Int.ceil_lt_add_one (F.val x)]

end IeeeArith

section Prices
variable [DoubleArith D]

/-- Parameters under which the bounds hold. `K` bounds the aversion on both sides of the
soft band. A smaller weight of new samples would let rounding errors outweigh them. -/
structure Tame (F : IeeeArith D) (p : Params D) (K : ℚ) : Prop where
  finite_alpha : F.finite p.emaAlpha
  alpha_lower : 1 / 1000 ≤ F.val p.emaAlpha
  alpha_upper : F.val p.emaAlpha ≤ 1
  halfSpread : |p.halfSpreadTicks| ≤ 2 ^ 20
  maxSkew_nonneg : 0 ≤ p.maxSkewTicks
  maxSkew : p.maxSkewTicks ≤ 2 ^ 20
  aversion : F.Near p.inventoryAversion 0 K
  softAversion : F.Near (p.inventoryAversion * p.softBandAversionMult) 0 K
  hardBand : p.hardBandFrac = lit 1
  maxInventory : 0 ≤ p.maxInventory
  quoteQty : 0 < p.quoteQty
  limit : p.maxInventory + p.quoteQty < 2 ^ 31
  skew : (p.maxInventory + p.quoteQty : ℤ) * K ≤ 2 ^ 20

/-- What each side keeps from the fair value. -/
def spreadOf (p : Params D) : Side → ℚ
  | .buy => -p.halfSpreadTicks
  | .sell => p.halfSpreadTicks

/-- How far the two skews move a price, in ticks. -/
def skewOf (p : Params D) (K : ℚ) : ℚ :=
  p.maxSkewTicks + (p.maxInventory + p.quoteQty : ℤ) * K

/-- A price of a side, for mids between `lo` and `hi`. The two ticks pay for rounding to
a whole tick and in `double`. -/
def QuotedNear (p : Params D) (K lo hi : ℚ) (side : Side) (px : ℤ) : Prop :=
  Enclosed (lo + spreadOf p side) (hi + spreadOf p side) (skewOf p K + 2) px

/-- How far rounding may carry the fair value out of the range of the mids, in ticks. -/
def emaSlack : ℚ := 1 / 64

structure MidRange (lo hi : ℚ) : Prop where
  nonneg : 0 ≤ lo
  le : lo ≤ hi
  lt : hi < 2 ^ 30

theorem MidRange.abs_lower {lo hi : ℚ} (h : MidRange lo hi) : |lo| ≤ 2 ^ 30 := by
  have hle := h.le
  have hlt := h.lt
  rw [abs_of_nonneg h.nonneg]
  linarith

theorem MidRange.abs_upper {lo hi : ℚ} (h : MidRange lo hi) : |hi| ≤ 2 ^ 30 := by
  rw [abs_of_nonneg (h.nonneg.trans h.le)]
  exact h.lt.le

/-- If the strategy computes a mid of this book, it is in the range. -/
def MidIn (lo hi : ℚ) (top : TopOfBook) : Prop :=
  top.TwoSided → lo ≤ (top.bestBidPrice + top.bestAskPrice : ℤ) / 2 ∧
    ((top.bestBidPrice + top.bestAskPrice : ℤ) / 2 : ℚ) ≤ hi

variable {F : IeeeArith D} {p : Params D} {K lo hi : ℚ}

theorem midOf_enclosed (hr : MidRange lo hi) {top : TopOfBook}
    (hlo : lo ≤ (top.bestBidPrice + top.bestAskPrice : ℤ) / 2)
    (hhi : ((top.bestBidPrice + top.bestAskPrice : ℤ) / 2 : ℚ) ≤ hi) :
    F.finite (midOf top) ∧ Enclosed lo hi (2 * opError) (F.val (midOf top)) := by
  unfold midOf
  generalize top.bestBidPrice + top.bestAskPrice = n at hlo hhi
  have hnonneg := hr.nonneg
  have hlt := hr.lt
  have hn : |(n : ℚ)| ≤ 2 ^ 31 := by
    rw [abs_le]
    exact ⟨by linarith, by linarith⟩
  have hn' : |n| ≤ 2 ^ 53 := by
    have hcast : |n| ≤ 2 ^ 31 := by exact_mod_cast hn
    exact hcast.trans (by norm_num)
  obtain ⟨hfin, hval⟩ := F.ofInt_exact n hn'
  obtain ⟨hhalf, herr⟩ : F.Near (lit (1 / 2)) (1 / 2) (1 / 2 ^ 52) :=
    IeeeArith.near_lit (by norm_num) (by norm_num)
  have hprod : |F.val (lit (1 / 2)) * F.val (ofInt n) - n / 2| ≤ opError := by
    have hfactor : F.val (lit (1 / 2)) * F.val (ofInt n) - n / 2 =
        (F.val (lit (1 / 2)) - 1 / 2) * n := by
      rw [hval]
      ring
    rw [hfactor, abs_mul]
    calc |F.val (lit (1 / 2)) - 1 / 2| * |(n : ℚ)| ≤ 1 / 2 ^ 52 * 2 ^ 31 :=
          mul_le_mul herr hn (abs_nonneg _) (by norm_num)
      _ ≤ opError := by norm_num [opError]
  have hsize : |(n / 2 : ℚ)| + opError ≤ 2 ^ 32 := by
    rw [abs_of_nonneg (hnonneg.trans hlo)]
    norm_num [opError]
    linarith
  have hnear := IeeeArith.near_mul hhalf hfin hprod hsize
  have hexact : Enclosed lo hi 0 (n / 2 : ℚ) := ⟨by linarith, by linarith⟩
  exact ⟨hnear.1, (hexact.widen hnear.2).mono (by linarith)⟩

/-- The fair value, once there is one, is in the range of the mids. -/
def EmaIn (F : IeeeArith D) (lo hi : ℚ) (s : State D) : Prop :=
  s.emaInit = true → F.finite s.emaMid ∧ Enclosed lo hi emaSlack (F.val s.emaMid)

theorem Tame.weight (hp : Tame F p K) :
    F.finite (lit 1 - p.emaAlpha) ∧ 0 ≤ F.val (lit 1 - p.emaAlpha) ∧
      |F.val p.emaAlpha + F.val (lit 1 - p.emaAlpha) - 1| ≤ unitRoundoff := by
  have hlower := hp.alpha_lower
  have hupper := hp.alpha_upper
  obtain ⟨hone, hval⟩ := F.lit_int 1 (by norm_num)
  rw [Int.cast_one] at hone hval
  have hexact : F.val (lit 1) - F.val p.emaAlpha = 1 - F.val p.emaAlpha := by rw [hval]
  have habs : |1 - F.val p.emaAlpha| = 1 - F.val p.emaAlpha := abs_of_nonneg (by linarith)
  have hlaw := F.sub_rounds (lit 1) p.emaAlpha hone hp.finite_alpha
  rw [hexact, habs] at hlaw
  obtain ⟨hfin, hround⟩ := hlaw (by linarith)
  rw [Rounded, habs, add_zero] at hround
  obtain ⟨hneg, hpos⟩ := abs_le.mp hround
  have hscaled : unitRoundoff * (1 - F.val p.emaAlpha) ≤ unitRoundoff :=
    mul_le_of_le_one_right unitRoundoff_nonneg (by linarith)
  have hscaled' : unitRoundoff * (1 - F.val p.emaAlpha) ≤ 1 - F.val p.emaAlpha :=
    mul_le_of_le_one_left (by linarith) (by norm_num [unitRoundoff])
  refine ⟨hfin, by linarith, ?_⟩
  rw [abs_le]
  exact ⟨by linarith, by linarith⟩

theorem Tame.updateEma (hp : Tame F p K) (hr : MidRange lo hi) {mid : D}
    (hmid : F.finite mid) (henc : Enclosed lo hi (2 * opError) (F.val mid)) {s : State D}
    (hs : EmaIn F lo hi s) :
    F.finite (updateEma p mid s).emaMid ∧
      Enclosed lo hi emaSlack (F.val (updateEma p mid s).emaMid) := by
  unfold Engine.updateEma
  split
  · rename_i hinit
    obtain ⟨hema, hin⟩ := hs hinit
    obtain ⟨hweight, hnonneg, hsum⟩ := hp.weight
    have hlower := hp.alpha_lower
    have hupper := hp.alpha_upper
    have ha : 0 ≤ F.val p.emaAlpha := by linarith
    have hweight' : F.val (lit 1 - p.emaAlpha) ≤ 1 + 1 / 2 ^ 53 - F.val p.emaAlpha := by
      have hsumPos := (abs_le.mp hsum).2
      rw [unitRoundoff] at hsumPos
      linarith
    have hscaled : ∀ {c v : ℚ}, 0 ≤ c → c ≤ 1 → |v| ≤ 2 ^ 30 + 1 → |c * v| ≤ 2 ^ 30 + 1 := by
      intro c v hc hle hv
      rw [abs_mul, abs_of_nonneg hc]
      exact (mul_le_of_le_one_left (abs_nonneg v) hle).trans hv
    have hnew := hscaled ha hupper
      ((henc.abs_bound hr.abs_lower hr.abs_upper).trans (by norm_num [opError]))
    have hold := hscaled hnonneg (by linarith)
      ((hin.abs_bound hr.abs_lower hr.abs_upper).trans (by norm_num [emaSlack]))
    have hexact : ∀ c : ℚ, |c - c| ≤ 0 := fun c => by rw [sub_self, abs_zero]
    have hmean := (IeeeArith.near_mul hp.finite_alpha hmid (hexact _) (by linarith)).add
      (IeeeArith.near_mul hweight hema (hexact _) (by linarith)) ?_
    · refine ⟨hmean.1, Enclosed.average ha hnonneg hsum henc hin hmean.2 hr.abs_lower
        hr.abs_upper ?_⟩
      simp only [opError, emaSlack, unitRoundoff]
      linarith
    · refine (add_le_add (abs_add_le _ _) le_rfl).trans ?_
      simp only [opError]
      linarith
  · exact ⟨hmid, henc.mono (by norm_num [opError, emaSlack])⟩

theorem Tame.revSkew (hp : Tame F p K) {gap : D} (hgap : F.finite gap) :
    F.Near (clamp gap (-ofInt p.maxSkewTicks) (ofInt p.maxSkewTicks)) 0 p.maxSkewTicks := by
  have hnonneg : (0 : ℚ) ≤ p.maxSkewTicks := by exact_mod_cast hp.maxSkew_nonneg
  have hsize : |p.maxSkewTicks| ≤ 2 ^ 53 := by
    rw [abs_of_nonneg hp.maxSkew_nonneg]
    exact hp.maxSkew.trans (by norm_num)
  obtain ⟨hcap, hcapVal⟩ := F.ofInt_exact _ hsize
  obtain ⟨hneg, hnegVal⟩ := F.neg_exact _ hcap
  obtain ⟨hfin, hlower, hupper⟩ := IeeeArith.clamp_enclosed hgap hneg hcap
    (by rw [hnegVal, hcapVal]; linarith)
  rw [hnegVal, hcapVal] at hlower
  rw [hcapVal] at hupper
  exact ⟨hfin, by rw [sub_zero, abs_le]; exact ⟨hlower, hupper⟩⟩

theorem Tame.invSkew (hp : Tame F p K) {inv : ℤ} (hinv : |inv| ≤ p.maxInventory + p.quoteQty)
    {aversion : D} (hnear : F.Near aversion 0 K) :
    F.Near (-ofInt inv * aversion) 0 ((p.maxInventory + p.quoteQty : ℤ) * K + opError) := by
  have hskew := hp.skew
  have hlimit := hp.limit
  obtain ⟨hpos, hposVal⟩ := F.ofInt_exact inv (by omega)
  obtain ⟨hneg, hnegVal⟩ := F.neg_exact _ hpos
  have hinvSize : |F.val (-ofInt inv)| ≤ (p.maxInventory + p.quoteQty : ℤ) := by
    rw [hnegVal, hposVal, abs_neg]
    exact_mod_cast hinv
  have hK : |F.val aversion| ≤ K := by
    have h := hnear.2
    rwa [sub_zero] at h
  refine IeeeArith.near_mul hneg hnear.1 ?_ (by rw [abs_zero]; linarith)
  rw [sub_zero, abs_mul]
  exact mul_le_mul hinvSize hK (abs_nonneg _) ((abs_nonneg _).trans hinvSize)

theorem Tame.skewed (hp : Tame F p K) {s : State D}
    (hinv : |s.inventory| ≤ p.maxInventory + p.quoteQty) {gap base : D} {v : ℚ}
    (hgap : F.finite gap) (hbase : F.Near base v opError) (hv : |v| ≤ 2 ^ 30 + 2 ^ 21) :
    F.Near (base - clamp gap (-ofInt p.maxSkewTicks) (ofInt p.maxSkewTicks) +
      -ofInt s.inventory * (if beyondBand p p.softBandFrac s.inventory
        then p.inventoryAversion * p.softBandAversionMult else p.inventoryAversion))
      v (skewOf p K + 4 * opError) := by
  have hskew := hp.skew
  have hcapSize : (p.maxSkewTicks : ℚ) ≤ 2 ^ 20 := by exact_mod_cast hp.maxSkew
  have hop : opError = 1 / 2 ^ 20 := rfl
  have hnear : F.Near (if beyondBand p p.softBandFrac s.inventory
      then p.inventoryAversion * p.softBandAversionMult else p.inventoryAversion) 0 K := by
    split
    · exact hp.softAversion
    · exact hp.aversion
  have hreverted := hbase.sub (hp.revSkew hgap) (by rw [sub_zero]; linarith)
  have hall := hreverted.add (hp.invSkew hinv hnear) (by rw [sub_zero, add_zero]; linarith)
  rw [sub_zero, add_zero] at hall
  refine hall.mono (le_of_eq ?_)
  rw [skewOf]
  ring

theorem Tame.targetPrices (hp : Tame F p K) (hr : MidRange lo hi) {mid : D}
    (hmid : F.finite mid) (henc : Enclosed lo hi (2 * opError) (F.val mid)) {s : State D}
    (hema : F.finite s.emaMid) (hin : Enclosed lo hi emaSlack (F.val s.emaMid))
    (hinv : |s.inventory| ≤ p.maxInventory + p.quoteQty) (side : Side) :
    QuotedNear p K lo hi side
      (sidePx (targetPrices p mid s).1 (targetPrices p mid s).2 side) := by
  have hop : opError = 1 / 2 ^ 20 := rfl
  have hslack : emaSlack = 1 / 64 := rfl
  have hskew := hp.skew
  have hcapSize : (p.maxSkewTicks : ℚ) ≤ 2 ^ 20 := by exact_mod_cast hp.maxSkew
  have hreach : skewOf p K ≤ 2 ^ 21 := by
    rw [skewOf]
    linarith
  have hspread : |(p.halfSpreadTicks : ℚ)| ≤ 2 ^ 20 := by exact_mod_cast hp.halfSpread
  have hmidSize := henc.abs_bound hr.abs_lower hr.abs_upper
  have hemaSize := hin.abs_bound hr.abs_lower hr.abs_upper
  have hgap : F.finite (mid - s.emaMid) := by
    refine ((IeeeArith.near_val hmid).sub (IeeeArith.near_val hema) ?_).1
    have htri := abs_sub (F.val mid) (F.val s.emaMid)
    linarith
  have hhalf : F.Near (ofInt p.halfSpreadTicks) p.halfSpreadTicks 0 :=
    IeeeArith.near_ofInt (hp.halfSpread.trans (by norm_num))
  have hsize : |F.val s.emaMid + spreadOf p side| ≤ 2 ^ 30 + 2 ^ 21 := by
    have htri := abs_add_le (F.val s.emaMid) (spreadOf p side)
    have hside : |spreadOf p side| ≤ 2 ^ 20 := by
      cases side with
      | buy => rwa [spreadOf, abs_neg]
      | sell => exact hspread
    linarith
  -- a side starts at its half of the spread from the fair value, and both skews move it
  have hnear : |(sidePx (Engine.targetPrices p mid s).1 (Engine.targetPrices p mid s).2 side : ℚ) -
      (F.val s.emaMid + spreadOf p side)| ≤ skewOf p K + 4 * opError + 1 := by
    cases side with
    | buy =>
      have hexact : F.val s.emaMid + spreadOf p .buy = F.val s.emaMid - p.halfSpreadTicks :=
        (sub_eq_add_neg _ _).symm
      rw [hexact] at hsize ⊢
      have hbase := (IeeeArith.near_val hema).sub hhalf (by linarith)
      exact (hp.skewed hinv hgap (hbase.mono (by linarith)) hsize).toPriceTicks_floor (by linarith)
    | sell =>
      have hbase := (IeeeArith.near_val hema).add hhalf (by
        change |F.val s.emaMid + p.halfSpreadTicks| ≤ _ at hsize
        linarith)
      exact (hp.skewed hinv hgap (hbase.mono (by linarith)) hsize).toPriceTicks_ceil (by
        change |F.val s.emaMid + p.halfSpreadTicks| ≤ _ at hsize
        linarith)
  have hbase : Enclosed (lo + spreadOf p side) (hi + spreadOf p side) emaSlack
      (F.val s.emaMid + spreadOf p side) :=
    ⟨by linarith [hin.lower], by linarith [hin.upper]⟩
  exact (hbase.widen hnear).mono (by linarith)

end Prices

section Frames

def State.ema (s : State D) : Bool × D := (s.emaInit, s.emaMid)

namespace Desk

theorem flattenSide_ema (d : Desk D) (side : Side) : (d.flattenSide side).s.ema = d.s.ema := by
  unfold flattenSide
  split
  · cases side <;> rfl
  · rfl

theorem flatten_ema (d : Desk D) : d.flatten.s.ema = d.s.ema :=
  ((d.flattenSide .buy).flattenSide_ema .sell).trans (d.flattenSide_ema .buy)

theorem flatten_sentOn (d : Desk D) (locate : ℕ) (side : Side) :
    d.flatten.sentOn locate side = d.sentOn locate side := by
  rw [sentOn, flatten_submitted, sentOn]

theorem cancelBlocked_ema (locate ts : ℕ) (side : Side) (block : Bool) (d : Desk D) :
    (d.cancelBlocked locate ts side block).s.ema = d.s.ema := by
  unfold cancelBlocked
  split
  · split
    · rename_i d' hd
      obtain ⟨-, -, rfl⟩ := tryConsumeMsg_eq_some hd
      cases side <;> rfl
    · rfl
  · rfl

theorem quoteSide_ema (p : Params D) (top : TopOfBook) (locate ts : ℕ) (side : Side) (px : ℤ)
    (wanted : Bool) (d : Desk D) :
    (d.quoteSide p top locate ts side px wanted).s.ema = d.s.ema := by
  unfold quoteSide
  split
  · split
    · rename_i d' hd
      obtain ⟨-, -, rfl⟩ := tryConsumeMsg_eq_some hd
      cases side <;> rfl
    · rfl
  · rfl

theorem countHardBand_ema (block : Bool) (d : Desk D) :
    (d.countHardBand block).s.ema = d.s.ema := by
  unfold countHardBand
  split <;> rfl

theorem countQuotedBoth_ema (d : Desk D) : d.countQuotedBoth.s.ema = d.s.ema := by
  unfold countQuotedBoth
  split <;> rfl

end Desk

theorem SideMove.px_eq {p : Params D} {locate ts : ℕ} {side : Side} {px : ℤ}
    {old new : ℤ × RestingQuote} {l : List Submit}
    (h : SideMove p locate ts side px old l new) {m : Submit} (hm : m ∈ l) (hq : m.qty ≠ 0) :
    m.px = px := by
  cases h with
  | kept => exact absurd hm List.not_mem_nil
  | cancelled =>
    obtain rfl := List.mem_singleton.mp hm
    exact absurd rfl hq
  | quoted qa _ =>
    obtain rfl := List.mem_singleton.mp hm
    rfl

/-- The desk of a shard on which the strategy runs in a step from `g`: fills and controls
came before. -/
structure Before (p : Params D) (g : Dispatcher api D) (shard : Shard) (d : Desk D) : Prop where
  ema : d.s.ema = (g.states shard).ema
  sent : ∀ side, d.sentOn (locateOf shard) side = g.sentOn shard side
  inventory : |d.s.inventory| ≤ p.maxInventory + p.quoteQty

theorem Before.controls {p : Params D} {g g₁ : Dispatcher api D} {shard : Shard}
    (h : Before p g shard (g₁.desk shard)) (cs : List Control) :
    Before p g shard ((g₁.controls cs).desk shard) := by
  obtain ⟨b, hb⟩ := controls_desk g₁ cs shard
  rw [hb]
  exact ⟨h.ema, h.sent, h.inventory⟩

theorem InventoryInv.before {p : Params D} {g : Dispatcher api D} (h : InventoryInv p g)
    (shard : Shard) : Before p g shard (g.desk shard) :=
  ⟨rfl, fun _ => rfl, (h shard).abs_inventory_le⟩

variable [DoubleArith D]

theorem requote_ema (p : Params D) (top : TopOfBook) (locate ts : ℕ) (bidPx askPx : ℤ)
    (d : Desk D) : (requote p top locate ts bidPx askPx d).s.ema = d.s.ema := by
  simp only [requote, Desk.countQuotedBoth_ema, Desk.quoteSide_ema, Desk.cancelBlocked_ema,
    Desk.countHardBand_ema]

theorem updateEma_ema {s t : State D} (h : t.ema = s.ema) (p : Params D) (mid : D) :
    (updateEma p mid t).ema = (updateEma p mid s).ema := by
  obtain ⟨hinit, hmid⟩ := Prod.mk.inj h
  unfold updateEma
  rw [hinit, hmid]
  split <;> rfl

theorem onTradePrint_ema (e : Event) (info : Option OrderInfo) (d : Desk D) :
    (onTradePrint api e info d).s.ema = d.s.ema := by
  have hfill : ∀ (s : State D) (f : Fill), (onFill s f).ema = s.ema := by
    intro s f
    have hpnl : (applyFillPnl s f).ema = s.ema := by
      simp only [applyFillPnl]
      split <;> rfl
    rw [← hpnl, onFill]
    cases f.side <;> rfl
  cases info with
  | none => rfl
  | some info =>
    simp only [onTradePrint]
    split
    · exact hfill _ _
    · rfl

/-- What `on_book_event` may do to the average and the quotes: nothing, or, when the book
has a mid, an update of the average and quotes at the prices that follow from it. -/
inductive Priced (p : Params D) (top : TopOfBook) (locate : ℕ) (d d' : Desk D) : Prop
  | idle (hema : d'.s.ema = d.s.ema)
      (hsent : ∀ side, d'.sentOn locate side = d.sentOn locate side)
  | priced (htop : top.TwoSided) (hema : d'.s.ema = (updateEma p (midOf top) d.s).ema)
      (hsent : ∀ side, ∃ l, d'.sentOn locate side = d.sentOn locate side ++ l ∧
        ∀ m ∈ l, m.qty ≠ 0 →
          m.px = sidePx (ownPrices p top d.s).1 (ownPrices p top d.s).2 side)

theorem onTopOfBook_priced (p : Params D) {top : TopOfBook} (htop : top.TwoSided)
    (locate ts : ℕ) (d : Desk D) :
    Priced p top locate d (onTopOfBook p top locate ts d) := by
  have hquiet : ∀ d' : Desk D, d'.submitted = d.submitted → ∀ side, ∃ l,
      d'.sentOn locate side = d.sentOn locate side ++ l ∧ ∀ m ∈ l, m.qty ≠ 0 →
        m.px = sidePx (ownPrices p top d.s).1 (ownPrices p top d.s).2 side := by
    intro d' hsub side
    refine ⟨[], ?_, fun m hm => absurd hm List.not_mem_nil⟩
    rw [Desk.sentOn, hsub, List.append_nil, Desk.sentOn]
  have hmid : (lit (1 / 2) * ofInt (top.bestBidPrice + top.bestAskPrice) : D) = midOf top := rfl
  unfold onTopOfBook
  rw [hmid]
  dsimp only
  split
  · exact .priced htop (Desk.flatten_ema _) (hquiet _ (Desk.flatten_submitted _))
  · split
    · exact .priced htop rfl (hquiet _ rfl)
    · refine .priced htop (requote_ema ..) fun side => ?_
      obtain ⟨l, hsent, hmove⟩ := requote_sideMove p top locate ts _ _
        { d with s := updateEma p (midOf top) d.s } side
      exact ⟨l, hsent, fun m hm hq => hmove.px_eq hm hq⟩

theorem onBookEvent_priced (p : Params D) (top : TopOfBook) (locate : ℕ) (globalKill : Bool)
    (ts : ℕ) (d : Desk D) : Priced p top locate d (onBookEvent p top locate globalKill ts d) := by
  unfold onBookEvent
  split
  · exact .idle (Desk.flatten_ema _) fun side => Desk.flatten_sentOn _ locate side
  · dsimp only
    split
    · exact .idle rfl fun _ => rfl
    · rename_i hsides
      split
      · exact .idle rfl fun _ => rfl
      · rename_i hcross
        have htop : top.TwoSided := by
          simp only [Bool.or_eq_true, Bool.not_eq_true', not_or, Bool.not_eq_false] at hsides
          exact ⟨hsides.1, hsides.2, not_le.mp hcross⟩
        -- the refill of the buckets touches neither the average nor the messages
        have hrefill : (d.refillBuckets p ts).s.ema = d.s.ema := rfl
        cases onTopOfBook_priced p htop locate ts (d.refillBuckets p ts) with
        | idle hema hsent => exact .idle hema hsent
        | priced _ hema hsent =>
          rw [ownPrices_refillBuckets] at hsent
          exact .priced htop (hema.trans (updateEma_ema hrefill p _)) hsent

end Frames

section Runs
variable [DoubleArith D] {F : IeeeArith D} {p : Params D} {K lo hi : ℚ}

theorem Step.priced {g t : Dispatcher api D} {a : Action} (h : Step p g a t)
    (hinv : InventoryInv p g) (hL : p.maxInventory + p.quoteQty < 2 ^ 31) (shard : Shard) :
    ∃ d, Before p g shard d ∧
      Priced p (topOfBook (t.books shard).book) (locateOf shard) d (t.desk shard) := by
  have hbefore := hinv.before shard
  have hidle : ∀ d : Desk D, Priced p (topOfBook (t.books shard).book) (locateOf shard) d d :=
    fun d => .idle rfl fun _ => rfl
  cases h.effect with
  | control c => exact ⟨_, hbefore.controls [c], hidle _⟩
  | ignored during => exact ⟨_, hbefore.controls during, hidle _⟩
  | @applied e during i a g₁ g₂ hs htype ha hg₁ hg₂ =>
    by_cases hi : shard = i
    · subst hi
      have hdesk₁ : g₁.desk shard =
          onTradePrint api e (tradeInfo (g.books shard) e) (g.desk shard) := by
        rw [hg₁, desk_setDesk]
      have hfilled : Before p g shard (g₁.desk shard) := by
        rw [hdesk₁]
        refine ⟨onTradePrint_ema e _ _, fun side => ?_, ?_⟩
        · rw [Desk.sentOn, onTradePrint_submitted]
          rfl
        · exact (Bounded.onTradePrint api hL (d := g.desk shard) (hinv shard) e _).abs_inventory_le
      have hrun := onBookEvent_priced p (topOfBook (g₂.books shard).book) (locateOf shard)
        g₂.globalKill e.ts (g₂.desk shard)
      refine ⟨g₂.desk shard, hg₂ ▸ hfilled.controls during, ?_⟩
      rw [runStrategy, desk_setDesk]
      exact hrun
    · -- an event of another shard
      have hstate : (g₁.states shard).ema = (g.states shard).ema := by
        rw [hg₁, Dispatcher.setDesk_states_of_ne _ _ hi]
        rfl
      have hsent₁ : ∀ side, g₁.sentOn shard side = g.sentOn shard side := by
        intro side
        rw [hg₁, @sentOn_setDesk_of_ne _ _ (g.setBook i a) i shard _ [] ?_ (by simp) hi]
        · rfl
        · rw [onTradePrint_submitted, List.append_nil]
          rfl
      have hsame : Before p g shard (g₁.desk shard) := by
        refine ⟨hstate, hsent₁, ?_⟩
        have hinv₁ : (g₁.states shard).inventory = (g.states shard).inventory := by
          rw [hg₁, Dispatcher.setDesk_states_of_ne _ _ hi]
          rfl
        exact (congrArg abs hinv₁).trans_le hbefore.inventory
      refine ⟨g₂.desk shard, hg₂ ▸ hsame.controls during, .idle ?_ fun side => ?_⟩
      · exact congrArg State.ema (Dispatcher.setDesk_states_of_ne _ _ hi)
      · obtain ⟨new, hsub, hnew⟩ := sentFor_onBookEvent p (topOfBook (g₂.books i).book) (locateOf i)
          g₂.globalKill e.ts (g₂.desk i)
        exact sentOn_setDesk_of_ne hsub hnew hi side

theorem EmaIn.congr {s t : State D} (h : EmaIn F lo hi s) (hst : t.ema = s.ema) :
    EmaIn F lo hi t := by
  obtain ⟨hinit, hmid⟩ := Prod.mk.inj hst
  intro ht
  rw [hmid]
  exact h (hinit ▸ ht)

/-- The invariant of a shard whose mids stay in a range. -/
structure PriceInv (F : IeeeArith D) (p : Params D) (K lo hi : ℚ) (shard : Shard)
    (g : Dispatcher api D) : Prop where
  inventory : InventoryInv p g
  ema : EmaIn F lo hi (g.states shard)
  quotes : ∀ side, ∀ m ∈ g.sentOn shard side, m.qty ≠ 0 → QuotedNear p K lo hi side m.px

/-- A step after which a mid of the shard's book, if it has one, is in the range. -/
def MidStep (p : Params D) (lo hi : ℚ) (shard : Shard) (g : Dispatcher api D) (a : Action)
    (t : Dispatcher api D) : Prop :=
  Step p g a t ∧ MidIn lo hi (topOfBook (t.books shard).book)

theorem priceInv_init (hp : Tame F p K) (shard : Shard) :
    PriceInv F p K lo hi shard (Dispatcher.init api p) where
  inventory i side := by
    have hM := hp.maxInventory
    have hQ := hp.quoteQty
    have hflat : towards side 0 + 0 ≤ p.maxInventory + p.quoteQty := by
      cases side <;> simp only [towards] <;> omega
    cases side <;> exact ⟨le_rfl, hflat⟩
  ema h := absurd h Bool.false_ne_true
  quotes _ _ hm := absurd hm List.not_mem_nil

theorem step_priceInv (hD : ExactProducts D) (hp : Tame F p K) (hr : MidRange lo hi)
    {shard : Shard} {g t : Dispatcher api D} {a : Action}
    (h : PriceInv F p K lo hi shard g) (hstep : MidStep p lo hi shard g a t) :
    PriceInv F p K lo hi shard t := by
  obtain ⟨hstep, hmid⟩ := hstep
  have hinv := step_inventoryInv hD hp.hardBand hp.maxInventory hp.quoteQty hp.limit
    h.inventory hstep
  obtain ⟨d, hbefore, hpriced⟩ := hstep.priced h.inventory hp.limit shard
  have hold : EmaIn F lo hi d.s := h.ema.congr hbefore.ema
  have hquotes : ∀ side, ∀ m ∈ d.sentOn (locateOf shard) side, m.qty ≠ 0 →
      QuotedNear p K lo hi side m.px := by
    intro side
    rw [hbefore.sent]
    exact h.quotes side
  cases hpriced with
  | idle hema hsent =>
    refine ⟨hinv, hold.congr hema, fun side => ?_⟩
    rw [Dispatcher.sentOn, hsent]
    exact hquotes side
  | priced htop hema hsent =>
    obtain ⟨hlo, hhi⟩ := hmid htop
    obtain ⟨hfin, henc⟩ := midOf_enclosed (F := F) hr hlo hhi
    obtain ⟨hnew, hin⟩ := hp.updateEma hr hfin henc hold
    refine ⟨hinv, EmaIn.congr (fun _ => ⟨hnew, hin⟩) hema, fun side m hm hq => ?_⟩
    obtain ⟨l, hl, hpx⟩ := hsent side
    rw [Dispatcher.sentOn, hl, List.mem_append] at hm
    rcases hm with hm | hm
    · exact hquotes side m hm hq
    · rw [hpx m hm hq]
      refine hp.targetPrices hr hfin henc hnew hin ?_ side
      rw [(updateEma_kept p (midOf _) d.s).inventory]
      exact hbefore.inventory

/-- As long as the mids of a shard stay in a range, so does its fair value, up to a 64th
of a tick, and each of its quotes is at most the two skews and two ticks from the range,
moved by half a spread to its side. -/
theorem quotes_near_mids (hD : ExactProducts D) (hp : Tame F p K) (hr : MidRange lo hi)
    {shard : Shard} {as : List Action} {t : Dispatcher api D}
    (hrun : Runs (MidStep p lo hi shard) (Dispatcher.init api p) as t) :
    EmaIn F lo hi (t.states shard) ∧
      ∀ m ∈ t.submitted, m.locate = locateOf shard → m.qty ≠ 0 →
        QuotedNear p K lo hi m.side m.px := by
  have hinv : PriceInv F p K lo hi shard t :=
    hrun.invariant (priceInv_init hp shard) fun _ _ _ => step_priceInv hD hp hr
  refine ⟨hinv.ema, fun m hm hlocate hq => hinv.quotes m.side m ?_ hq⟩
  exact List.mem_filter.mpr ⟨hm, by simp [hlocate]⟩

/-- The default parameters keep the bounds, whatever the rounding: in and beyond the soft
band the aversion is at most 0.031 ticks a share. -/
theorem tame_default (F : IeeeArith D) : Tame F Params.default (31 / 1000) := by
  obtain ⟨halpha, halphaErr⟩ : F.Near (lit (5 / 100)) (5 / 100) (1 / 2 ^ 52) :=
    IeeeArith.near_lit (by norm_num) (by norm_num)
  obtain ⟨haversion, haversionErr⟩ : F.Near (lit (1 / 100)) (1 / 100) (1 / 2 ^ 52) :=
    IeeeArith.near_lit (by norm_num) (by norm_num)
  obtain ⟨hmult, hmultVal⟩ := F.lit_int 3 (by norm_num)
  rw [Int.cast_ofNat] at hmult hmultVal
  rw [abs_le] at halphaErr haversionErr
  have hsoft : F.Near (lit (1 / 100) * lit 3) 0 (31 / 1000) := by
    have hprod : |F.val (lit (1 / 100)) * F.val (lit 3) - 3 / 100| ≤ 1 / 2 ^ 40 := by
      rw [hmultVal, abs_le]
      exact ⟨by linarith, by linarith⟩
    obtain ⟨hfin, herr⟩ := IeeeArith.near_mul haversion hmult hprod (by norm_num)
    have hsmall : (1 : ℚ) / 2 ^ 40 + opError ≤ 1 / 1000 := by norm_num [opError]
    rw [abs_le] at herr
    refine ⟨hfin, ?_⟩
    rw [sub_zero, abs_le]
    exact ⟨by linarith, by linarith⟩
  exact {
    finite_alpha := halpha
    alpha_lower := by
      change 1 / 1000 ≤ F.val (lit (5 / 100))
      linarith
    alpha_upper := by
      change F.val (lit (5 / 100)) ≤ 1
      linarith
    halfSpread := by norm_num [Params.default]
    maxSkew_nonneg := by norm_num [Params.default]
    maxSkew := by norm_num [Params.default]
    aversion := by
      refine ⟨haversion, ?_⟩
      change |F.val (lit (1 / 100)) - 0| ≤ 31 / 1000
      rw [sub_zero, abs_le]
      exact ⟨by linarith, by linarith⟩
    softAversion := hsoft
    hardBand := rfl
    maxInventory := by norm_num [Params.default]
    quoteQty := by norm_num [Params.default]
    limit := by norm_num [Params.default]
    skew := by norm_num [Params.default] }

instance (lo hi : ℚ) (top : TopOfBook) : Decidable (MidIn lo hi top) :=
  inferInstanceAs (Decidable (top.TwoSided → _))

/-- A bid at 100 and an ask at 102 ticks, then a better bid at 101. -/
def midMoves : List Action :=
  [.event (addEvent 1 'B' 10 10000) [], .event (addEvent 2 'S' 10 10200) [],
    .event (addEvent 3 'B' 10 10100) []]

theorem quotes_near_mids_moves : ∃ t : Dispatcher demoApi ℚ,
    Runs (MidStep Params.default 101 (203 / 2) aapl) (Dispatcher.init demoApi Params.default)
      midMoves t ∧ t.submitted.length = 3 ∧ (t.states aapl).emaMid = 4041 / 40 ∧
    EmaIn ieeeRat 101 (203 / 2) (t.states aapl) ∧
    ∀ m ∈ t.submitted, m.locate = locateOf aapl → m.qty ≠ 0 →
      QuotedNear (Params.default (D := ℚ)) (31 / 1000) 101 (203 / 2) m.side m.px := by
  have hrun : ∃ t ∈ midMoves.foldlM (guarded (step Params.default) fun _ _ t =>
          MidIn 101 (203 / 2) (topOfBook (t.books aapl).book))
        (Dispatcher.init demoApi (Params.default (D := ℚ))),
      t.submitted.length = 3 ∧ (t.states aapl).emaMid = 4041 / 40 := by decide +kernel
  obtain ⟨t, ht, hlength, hema⟩ := hrun
  have hr : Runs (MidStep Params.default 101 (203 / 2) aapl)
      (Dispatcher.init demoApi Params.default) midMoves t := Runs.of_guarded ht
  have hrange : MidRange 101 (203 / 2) := ⟨by norm_num, by norm_num, by norm_num⟩
  exact ⟨t, hr, hlength, hema,
    quotes_near_mids exactProducts_rat (tame_default ieeeRat) hrange hr⟩

end Runs

end TradingPipeline.Engine
