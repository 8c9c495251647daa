import TradingPipeline.Lib.MachineInt
import TradingPipeline.Lib.TokenBucket
import TradingPipeline.Book.OrderBook
import Mathlib.Algebra.Order.Ring.Abs
import Mathlib.Algebra.Order.Ring.Int
import Mathlib.Data.List.Induction

/-! # The risk gate

`check_and_fill` decides on a signal with six comparisons, on values that may have
wrapped, and books an accepted order as filled in full. The token bucket refills from the
time stamps of the signals.
-/
namespace TradingPipeline.Engine
open Lib Book

def riskMaxPositionPerStock : ℤ := 10000
def riskMaxOrderQty : ℕ := 500
def riskMaxOrderNotional : ℕ := 2 ^ 64 - 1
def riskMaxDailyNotional : ℕ := 2 ^ 64 - 1
def riskMaxOrdersPerSec : ℕ := 100
def riskOrderBurst : ℕ := 50

/-- The sentinel of `rl_last_ns`: no refill yet. -/
def unprimed : ℕ := 2 ^ 64 - 1

structure Signal where
  stockLocate : UInt16
  price : UInt32
  qty : UInt32
  side : Side
  parseNs : UInt64
  deriving DecidableEq, Repr

/-- The statics of `risk.cpp`. -/
structure Risk where
  rlTokens : ℤ
  rlLastNs : ℕ
  positions : UInt16 → ℤ
  dailyNotional : ℕ
  rlOrdersPerSec : ℕ
  rlBurst : ℕ

namespace Risk

def init : Risk where
  rlTokens := riskOrderBurst
  rlLastNs := unprimed
  positions _ := 0
  dailyNotional := 0
  rlOrdersPerSec := riskMaxOrdersPerSec
  rlBurst := riskOrderBurst

def setLimits (r : Risk) (ordersPerSec burst : UInt32) : Risk :=
  let r := if ordersPerSec > 0 then { r with rlOrdersPerSec := ordersPerSec.toNat } else r
  if burst > 0 then { r with rlBurst := burst.toNat, rlTokens := burst.toNat } else r

/-- The tokens that `inline_refill` adds for the time since the last refill: the product is
taken in 64 unsigned bits. -/
def refillAdd (r : Risk) (nowNs : ℕ) : ℤ :=
  int64 ((nowNs - r.rlLastNs) * r.rlOrdersPerSec % 2 ^ 64 / 1000000000 : ℕ)

def inlineRefill (r : Risk) (nowNs : ℕ) : Risk :=
  if r.rlLastNs = unprimed then { r with rlLastNs := nowNs }
  else if nowNs ≤ r.rlLastNs then r
  else if r.refillAdd nowNs ≤ 0 then r
  else
    let want := int64 (r.rlTokens + r.refillAdd nowNs)
    { r with rlLastNs := nowNs, rlTokens := if want > r.rlBurst then r.rlBurst else want }

end Risk

def Signal.notional (s : Signal) : ℕ := s.price.toNat * s.qty.toNat % 2 ^ 64

def Signal.delta (s : Signal) : ℤ :=
  if s.side = .buy then int32 s.qty.toNat else int32 (-int32 s.qty.toNat)

namespace Risk

def newPos (r : Risk) (s : Signal) : ℤ := int32 (r.positions s.stockLocate + s.delta)

/-- The conjunction of the checks, after the refill. -/
def ok (r : Risk) (s : Signal) : Bool :=
  r.rlTokens > 0 ∧ s.qty.toNat ≤ riskMaxOrderQty ∧ s.notional ≤ riskMaxOrderNotional ∧
    (r.dailyNotional + s.notional) % 2 ^ 64 ≤ riskMaxDailyNotional ∧
    r.newPos s ≤ riskMaxPositionPerStock ∧ r.newPos s ≥ -riskMaxPositionPerStock

def fill (r : Risk) (s : Signal) : Risk :=
  { r with
    rlTokens := int64 (r.rlTokens - 1)
    positions := Function.update r.positions s.stockLocate (r.newPos s)
    dailyNotional := (r.dailyNotional + s.notional) % 2 ^ 64 }

def checkAndFill (r : Risk) (s : Signal) : Risk × Bool :=
  let r := r.inlineRefill s.parseNs.toNat
  if r.ok s then (r.fill s, true) else (r, false)

end Risk

inductive RiskCall
  | setLimits (ordersPerSec burst : UInt32)
  | checkAndFill (s : Signal)
  deriving DecidableEq, Repr

def Risk.call (r : Risk) : RiskCall → Risk
  | .setLimits ordersPerSec burst => r.setLimits ordersPerSec burst
  | .checkAndFill s => (r.checkAndFill s).1

def riskAfter (calls : List RiskCall) : Risk := calls.foldl Risk.call Risk.init

/-- What the quantity of an order does to the position. -/
def Signal.signedQty (s : Signal) : ℤ :=
  if s.side = .buy then (s.qty.toNat : ℤ) else -(s.qty.toNat : ℤ)

section Invariant
variable {r : Risk}

structure RiskInv (r : Risk) : Prop where
  positions : ∀ l, |r.positions l| ≤ riskMaxPositionPerStock
  tokens_nonneg : 0 ≤ r.rlTokens
  tokens_le : r.rlTokens ≤ r.rlBurst
  burst_lt : r.rlBurst < 2 ^ 32

theorem init_riskInv : RiskInv Risk.init := by
  refine ⟨fun l => ?_, ?_, ?_, ?_⟩
  · exact abs_zero.trans_le (by decide)
  · decide
  · decide
  · decide

theorem setLimits_riskInv (h : RiskInv r) (ordersPerSec burst : UInt32) :
    RiskInv (r.setLimits ordersPerSec burst) := by
  have hb := burst.toNat_lt
  unfold Risk.setLimits
  dsimp only
  split
  · split <;> exact ⟨h.positions, Int.natCast_nonneg _, le_rfl, hb⟩
  · split <;> exact ⟨h.positions, h.tokens_nonneg, h.tokens_le, h.burst_lt⟩

theorem refillAdd_eq (r : Risk) (nowNs : ℕ) : r.refillAdd nowNs =
    ((nowNs - r.rlLastNs) * r.rlOrdersPerSec % 2 ^ 64 / 1000000000 : ℕ) := by
  have hlt : (nowNs - r.rlLastNs) * r.rlOrdersPerSec % 2 ^ 64 < 2 ^ 64 :=
    Nat.mod_lt _ (Nat.two_pow_pos 64)
  exact int64_eq_self (by omega) (by omega)

theorem refillAdd_lt (r : Risk) (nowNs : ℕ) : r.refillAdd nowNs < 2 ^ 62 := by
  have hlt : (nowNs - r.rlLastNs) * r.rlOrdersPerSec % 2 ^ 64 < 2 ^ 64 :=
    Nat.mod_lt _ (Nat.two_pow_pos 64)
  rw [refillAdd_eq]
  omega

theorem inlineRefill_cases (h0 : 0 ≤ r.rlTokens) (hcap : r.rlTokens ≤ r.rlBurst)
    (hburst : r.rlBurst < 2 ^ 32) (nowNs : ℕ) :
    (r.rlLastNs = unprimed ∧ r.inlineRefill nowNs = { r with rlLastNs := nowNs }) ∨
    (r.rlLastNs ≠ unprimed ∧ (nowNs ≤ r.rlLastNs ∨ r.refillAdd nowNs ≤ 0) ∧
      r.inlineRefill nowNs = r) ∨
    (r.rlLastNs ≠ unprimed ∧ r.rlLastNs < nowNs ∧ 0 < r.refillAdd nowNs ∧
      r.inlineRefill nowNs = { r with
        rlLastNs := nowNs
        rlTokens := min (r.rlTokens + r.refillAdd nowNs) r.rlBurst }) := by
  unfold Risk.inlineRefill
  by_cases hprime : r.rlLastNs = unprimed
  · exact .inl ⟨hprime, if_pos hprime⟩
  · rw [if_neg hprime]
    by_cases hle : nowNs ≤ r.rlLastNs
    · exact .inr (.inl ⟨hprime, .inl hle, if_pos hle⟩)
    · rw [if_neg hle]
      by_cases hadd : r.refillAdd nowNs ≤ 0
      · exact .inr (.inl ⟨hprime, .inr hadd, if_pos hadd⟩)
      · have hsmall := refillAdd_lt r nowNs
        have hwant : int64 (r.rlTokens + r.refillAdd nowNs) = r.rlTokens + r.refillAdd nowNs :=
          int64_eq_self (by omega) (by omega)
        refine .inr (.inr ⟨hprime, by omega, by omega, ?_⟩)
        simp only [if_neg hadd, hwant]
        congr 1
        split <;> omega

theorem inlineRefill_frame (r : Risk) (nowNs : ℕ) : ∃ last tokens,
    r.inlineRefill nowNs = { r with rlLastNs := last, rlTokens := tokens } := by
  unfold Risk.inlineRefill
  split
  · exact ⟨_, _, rfl⟩
  · split
    · exact ⟨_, _, rfl⟩
    · split <;> exact ⟨_, _, rfl⟩

theorem inlineRefill_riskInv (h : RiskInv r) (nowNs : ℕ) : RiskInv (r.inlineRefill nowNs) := by
  have htokens := h.tokens_nonneg
  rcases inlineRefill_cases htokens h.tokens_le h.burst_lt nowNs with ⟨_, he⟩ | ⟨_, _, he⟩ |
    ⟨_, _, hadd, he⟩
  · rw [he]
    exact { h with }
  · rwa [he]
  · rw [he]
    refine ⟨h.positions, ?_, min_le_right _ _, h.burst_lt⟩
    dsimp only
    omega

theorem delta_eq {s : Signal} (hqty : s.qty.toNat ≤ riskMaxOrderQty) : s.delta = s.signedQty := by
  have hq : s.qty.toNat ≤ 500 := hqty
  have hcast : int32 s.qty.toNat = s.qty.toNat := int32_natCast (by omega)
  have hneg : int32 (-(s.qty.toNat : ℤ)) = -s.qty.toNat := int32_eq_self (by omega) (by omega)
  rw [Signal.delta, Signal.signedQty, hcast, hneg]

theorem abs_signedQty (s : Signal) : |s.signedQty| = s.qty.toNat := by
  unfold Signal.signedQty
  split
  · exact Nat.abs_cast _
  · rw [abs_neg]
    exact Nat.abs_cast _

theorem newPos_eq (h : RiskInv r) {s : Signal} (hqty : s.qty.toNat ≤ riskMaxOrderQty) :
    r.newPos s = r.positions s.stockLocate + s.signedQty := by
  have hpos := abs_le.mp (h.positions s.stockLocate)
  have hdelta := abs_le.mp (le_of_eq (abs_signedQty s))
  have hq : s.qty.toNat ≤ 500 := hqty
  rw [Risk.newPos, delta_eq hqty]
  simp only [riskMaxPositionPerStock] at hpos
  exact int32_eq_self (by omega) (by omega)

theorem notional_eq (s : Signal) : s.notional = s.price.toNat * s.qty.toNat := by
  have hprice := s.price.toNat_lt
  have hqty := s.qty.toNat_lt
  have hlt : s.price.toNat * s.qty.toNat < 2 ^ 32 * 2 ^ 32 := Nat.mul_lt_mul'' hprice hqty
  exact Nat.mod_eq_of_lt (by omega)

theorem ok_iff (h : RiskInv r) (s : Signal) : r.ok s = true ↔
    0 < r.rlTokens ∧ s.qty.toNat ≤ riskMaxOrderQty ∧
      |r.positions s.stockLocate + s.signedQty| ≤ riskMaxPositionPerStock := by
  have hnotional : s.notional ≤ riskMaxOrderNotional :=
    Nat.le_pred_of_lt (Nat.mod_lt _ (Nat.two_pow_pos 64))
  have hdaily : (r.dailyNotional + s.notional) % 2 ^ 64 ≤ riskMaxDailyNotional :=
    Nat.le_pred_of_lt (Nat.mod_lt _ (Nat.two_pow_pos 64))
  rw [Risk.ok, decide_eq_true_iff]
  constructor
  · rintro ⟨htokens, hqty, -, -, hhi, hlo⟩
    rw [newPos_eq h hqty] at hhi hlo
    exact ⟨htokens, hqty, abs_le.mpr ⟨hlo, hhi⟩⟩
  · rintro ⟨htokens, hqty, hpos⟩
    rw [newPos_eq h hqty]
    exact ⟨htokens, hqty, hnotional, hdaily, (abs_le.mp hpos).2, (abs_le.mp hpos).1⟩

theorem fill_eq (h : RiskInv r) {s : Signal} (hok : r.ok s = true) : r.fill s = { r with
    rlTokens := r.rlTokens - 1
    positions := Function.update r.positions s.stockLocate
      (r.positions s.stockLocate + s.signedQty)
    dailyNotional := (r.dailyNotional + s.price.toNat * s.qty.toNat) % 2 ^ 64 } := by
  obtain ⟨htokens, hqty, -⟩ := (ok_iff h s).mp hok
  have hcap := h.tokens_le
  have hburst := h.burst_lt
  have hdec : int64 (r.rlTokens - 1) = r.rlTokens - 1 := int64_eq_self (by omega) (by omega)
  rw [Risk.fill, hdec, newPos_eq h hqty, notional_eq]

theorem fill_riskInv (h : RiskInv r) {s : Signal} (hok : r.ok s = true) : RiskInv (r.fill s) := by
  obtain ⟨htokens, -, hpos⟩ := (ok_iff h s).mp hok
  have hcap := h.tokens_le
  rw [fill_eq h hok]
  refine ⟨fun l => ?_, ?_, ?_, h.burst_lt⟩
  · by_cases hl : l = s.stockLocate
    · simp only [hl, Function.update_self]
      exact hpos
    · simp only [Function.update_of_ne hl]
      exact h.positions l
  · dsimp only
    omega
  · dsimp only
    omega

theorem checkAndFill_riskInv (h : RiskInv r) (s : Signal) : RiskInv (r.checkAndFill s).1 := by
  have hrefill := inlineRefill_riskInv h s.parseNs.toNat
  unfold Risk.checkAndFill
  dsimp only
  split
  · rename_i hok
    exact fill_riskInv hrefill hok
  · exact hrefill

theorem riskAfter_riskInv (calls : List RiskCall) : RiskInv (riskAfter calls) := by
  induction calls using List.reverseRecOn with
  | nil => exact init_riskInv
  | append_singleton calls c ih =>
    rw [riskAfter, List.foldl_append]
    cases c with
    | setLimits ordersPerSec burst => exact setLimits_riskInv ih ordersPerSec burst
    | checkAndFill s => exact checkAndFill_riskInv ih s

end Invariant

/-- The gate after any calls keeps its limits, an accepted signal moves one token, one
position and the notional, and a rejected one leaves only the refill behind. -/
theorem riskGate_safe (calls : List RiskCall) :
    (∀ l, |(riskAfter calls).positions l| ≤ 10000) ∧
    0 ≤ (riskAfter calls).rlTokens ∧ (riskAfter calls).rlTokens ≤ (riskAfter calls).rlBurst ∧
    ∀ s : Signal,
      let r := riskAfter calls
      let refilled := r.inlineRefill s.parseNs.toNat
      (∃ last tokens, refilled = { r with rlLastNs := last, rlTokens := tokens }) ∧
      ((r.checkAndFill s).2 = true → s.qty.toNat ≤ 500 ∧
        (r.checkAndFill s).1 = { refilled with
          rlTokens := refilled.rlTokens - 1
          positions := Function.update r.positions s.stockLocate
            (r.positions s.stockLocate +
              if s.side = .buy then (s.qty.toNat : ℤ) else -(s.qty.toNat : ℤ))
          dailyNotional := (r.dailyNotional + s.price.toNat * s.qty.toNat) % 2 ^ 64 }) ∧
      ((r.checkAndFill s).2 = false → (r.checkAndFill s).1 = refilled) := by
  have h := riskAfter_riskInv calls
  refine ⟨h.positions, h.tokens_nonneg, h.tokens_le, fun s => ?_⟩
  have hframe := inlineRefill_frame (riskAfter calls) s.parseNs.toNat
  have hrefill := inlineRefill_riskInv h s.parseNs.toNat
  refine ⟨hframe, ?_⟩
  by_cases hok : ((riskAfter calls).inlineRefill s.parseNs.toNat).ok s = true
  · have hcheck : (riskAfter calls).checkAndFill s =
        (((riskAfter calls).inlineRefill s.parseNs.toNat).fill s, true) := if_pos hok
    rw [hcheck]
    refine ⟨fun _ => ⟨((ok_iff hrefill s).mp hok).2.1, ?_⟩, fun hfalse => Bool.noConfusion hfalse⟩
    rw [fill_eq hrefill hok]
    obtain ⟨last, tokens, hframe⟩ := hframe
    rw [hframe]
    rfl
  · have hcheck : (riskAfter calls).checkAndFill s =
        ((riskAfter calls).inlineRefill s.parseNs.toNat, false) := if_neg hok
    rw [hcheck]
    exact ⟨fun htrue => Bool.noConfusion htrue, fun _ => rfl⟩

def sampleSignal (side : Side) (qty : UInt32) (parseNs : UInt64) : Signal :=
  ⟨13, 32000, qty, side, parseNs⟩

theorem riskGate_safe_first_order :
    (Risk.init.checkAndFill (sampleSignal .buy 100 5)).2 = true ∧
      (sampleSignal .buy 100 5).qty.toNat ≤ 500 ∧
      |(riskAfter [.checkAndFill (sampleSignal .buy 100 5)]).positions 13| ≤ 10000 := by
  have hok : (Risk.init.checkAndFill (sampleSignal .buy 100 5)).2 = true := by decide +kernel
  exact ⟨hok, (((riskGate_safe []).2.2.2 (sampleSignal .buy 100 5)).2.1 hok).1,
    (riskGate_safe [.checkAndFill (sampleSignal .buy 100 5)]).1 13⟩

section Executions

/-- The signals among the calls that the gate accepts, oldest first. -/
def acceptedSignals (r : Risk) : List RiskCall → List Signal
  | [] => []
  | .setLimits ordersPerSec burst :: calls => acceptedSignals (r.setLimits ordersPerSec burst) calls
  | .checkAndFill s :: calls =>
    if (r.checkAndFill s).2 then s :: acceptedSignals (r.checkAndFill s).1 calls
    else acceptedSignals (r.checkAndFill s).1 calls

/-- An accepted order of which `filled` shares were executed. -/
structure Execution where
  order : Signal
  filled : ℕ
  filled_le : filled ≤ order.qty.toNat

def Execution.signedFill (x : Execution) : ℤ :=
  if x.order.side = .buy then (x.filled : ℤ) else -(x.filled : ℤ)

/-- The position of a stock that the executions lead to. -/
def executedPosition (l : UInt16) (xs : List Execution) : ℤ :=
  ((xs.filter fun x => x.order.stockLocate = l).map Execution.signedFill).sum

def unfilled (l : UInt16) (side : Side) (xs : List Execution) : ℕ :=
  ((xs.filter fun x => x.order.stockLocate = l ∧ x.order.side = side).map fun x =>
    x.order.qty.toNat - x.filled).sum

/-- The position of a stock if the orders are executed in full. -/
def netQty (l : UInt16) (orders : List Signal) : ℤ :=
  ((orders.filter fun s => s.stockLocate = l).map Signal.signedQty).sum

theorem checkAndFill_positions {r : Risk} (h : RiskInv r) (s : Signal) (l : UInt16) :
    (r.checkAndFill s).1.positions l = r.positions l +
      if (r.checkAndFill s).2 = true ∧ s.stockLocate = l then s.signedQty else 0 := by
  have hrefill := inlineRefill_riskInv h s.parseNs.toNat
  obtain ⟨last, tokens, hframe⟩ := inlineRefill_frame r s.parseNs.toNat
  have hpos : (r.inlineRefill s.parseNs.toNat).positions = r.positions := by rw [hframe]
  by_cases hok : (r.inlineRefill s.parseNs.toNat).ok s = true
  · have hcheck : r.checkAndFill s = ((r.inlineRefill s.parseNs.toNat).fill s, true) := if_pos hok
    rw [hcheck, fill_eq hrefill hok]
    by_cases hl : s.stockLocate = l
    · subst hl
      simp only [Function.update_self, hpos, and_self, if_true]
    · simp only [Function.update_of_ne (Ne.symm hl), hpos, hl, and_false, if_false, add_zero]
  · have hcheck : r.checkAndFill s = (r.inlineRefill s.parseNs.toNat, false) := if_neg hok
    rw [hcheck, hpos]
    simp only [Bool.false_eq_true, false_and, if_false, add_zero]

/-- The counter of a stock is the net quantity of the accepted orders. -/
theorem positions_eq {r : Risk} (h : RiskInv r) (calls : List RiskCall) (l : UInt16) :
    (calls.foldl Risk.call r).positions l = r.positions l + netQty l (acceptedSignals r calls) := by
  induction calls generalizing r with
  | nil => simp [acceptedSignals, netQty]
  | cons c calls ih =>
    rw [List.foldl_cons]
    cases c with
    | setLimits ordersPerSec burst =>
      have hpos : (r.setLimits ordersPerSec burst).positions = r.positions := by
        unfold Risk.setLimits
        dsimp only
        split <;> split <;> rfl
      rw [Risk.call, ih (setLimits_riskInv h ordersPerSec burst), hpos, acceptedSignals]
    | checkAndFill s =>
      rw [Risk.call, ih (checkAndFill_riskInv h s), checkAndFill_positions h, acceptedSignals,
        add_assoc]
      congr 1
      by_cases hok : (r.checkAndFill s).2 = true
      · by_cases hl : s.stockLocate = l
        · simp [netQty, hok, hl]
        · simp [netQty, hok, hl]
      · simp [hok]

theorem executed_add_unfilled (l : UInt16) (xs : List Execution) :
    executedPosition l xs + unfilled l .buy xs - unfilled l .sell xs =
      netQty l (xs.map Execution.order) := by
  induction xs with
  | nil => rfl
  | cons x xs ih =>
    have hle := x.filled_le
    by_cases hl : x.order.stockLocate = l
    · cases hside : x.order.side with
      | buy =>
        simp [executedPosition, unfilled, netQty, Execution.signedFill, Signal.signedQty, hl,
          hside] at ih ⊢
        omega
      | sell =>
        simp [executedPosition, unfilled, netQty, Execution.signedFill, Signal.signedQty, hl,
          hside] at ih ⊢
        omega
    · simpa [executedPosition, unfilled, netQty, hl] using ih

/-- The gate bounds the position that all accepted orders lead to if they are executed in
full. What is left unexecuted on one side moves the real position towards the other. -/
theorem executed_position_bounded (calls : List RiskCall) (l : UInt16) (xs : List Execution)
    (hxs : xs.map Execution.order = acceptedSignals Risk.init calls) :
    |executedPosition l xs + unfilled l .buy xs - unfilled l .sell xs| ≤ 10000 ∧
      executedPosition l xs ≤ 10000 + unfilled l .sell xs ∧
      -(10000 + unfilled l .buy xs : ℤ) ≤ executedPosition l xs := by
  have hbound := (riskAfter_riskInv calls).positions l
  have hcounter := positions_eq init_riskInv calls l
  rw [← hxs, ← executed_add_unfilled] at hcounter
  have hzero : Risk.init.positions l = 0 := rfl
  rw [hzero, zero_add] at hcounter
  rw [riskAfter, hcounter] at hbound
  have hsplit := abs_le.mp hbound
  simp only [riskMaxPositionPerStock] at hsplit
  exact ⟨hbound, by omega, by omega⟩

/-- Twenty buys, a sell and another buy of 500 shares each. -/
def overLimitCalls : List RiskCall :=
  List.replicate 20 (.checkAndFill (sampleSignal .buy 500 1)) ++
    [.checkAndFill (sampleSignal .sell 500 1), .checkAndFill (sampleSignal .buy 500 1)]

def overLimitExecutions : List Execution :=
  List.replicate 20 ⟨sampleSignal .buy 500 1, 500, by decide⟩ ++
    [⟨sampleSignal .sell 500 1, 0, by decide⟩, ⟨sampleSignal .buy 500 1, 500, by decide⟩]

theorem overLimitExecutions_orders :
    overLimitExecutions.map Execution.order = acceptedSignals Risk.init overLimitCalls := by
  decide +kernel

theorem executed_position_bounded_overLimit :
    overLimitExecutions.map Execution.order = acceptedSignals Risk.init overLimitCalls ∧
      executedPosition 13 overLimitExecutions ≤ 10000 + unfilled 13 .sell overLimitExecutions :=
  ⟨overLimitExecutions_orders,
    (executed_position_bounded overLimitCalls 13 overLimitExecutions
      overLimitExecutions_orders).2.1⟩

/-- An accepted sell that is never executed makes room for a buy beyond the limit. -/
theorem unfilled_sell_exceeds_limit :
    overLimitExecutions.map Execution.order = acceptedSignals Risk.init overLimitCalls ∧
      executedPosition 13 overLimitExecutions = 10500 :=
  ⟨overLimitExecutions_orders, by decide +kernel⟩

end Executions

end TradingPipeline.Engine
