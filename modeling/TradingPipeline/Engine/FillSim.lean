import TradingPipeline.Book.OrderBook

/-! # The fill simulator

`FillSim` keeps one resting quote per side with the quantity queued ahead of it and
decides from the trades of the feed when the strategy's own quotes would have traded.
-/
namespace TradingPipeline.Engine
open Book

structure RestingQuote where
  px : ℤ := 0
  qty : ℤ := 0
  queueAhead : ℤ := 0
  deriving DecidableEq, Repr

structure Fill where
  side : Side
  px : ℤ
  qty : ℤ
  ts : ℕ
  deriving DecidableEq, Repr

structure FillSim where
  bid : RestingQuote := {}
  ask : RestingQuote := {}
  deriving DecidableEq, Repr

namespace FillSim

def quote (f : FillSim) : Side → RestingQuote
  | .buy => f.bid
  | .sell => f.ask

def setQuote (f : FillSim) (q : RestingQuote) : Side → FillSim
  | .buy => { f with bid := q }
  | .sell => { f with ask := q }

def onQuote (f : FillSim) (side : Side) (px qty queueAhead : ℤ) : FillSim :=
  f.setQuote ⟨px, qty, queueAhead⟩ side

def onCancel (f : FillSim) (side : Side) : FillSim := f.setQuote {} side

/-- Our quote is at a better price than the trade. -/
def pxBetter (side : Side) (q : RestingQuote) (tradePx : ℤ) : Bool :=
  match side with
  | .buy => q.px > tradePx
  | .sell => q.px < tradePx

/-- The quantity filled and the quote left by a trade that reaches our price. -/
def reached (q : RestingQuote) (better : Bool) (tradeQty : ℤ) : ℤ × RestingQuote :=
  if better then (q.qty, { q with qty := 0, queueAhead := 0 })
  else
    let eat := min q.queueAhead tradeQty
    let residual := tradeQty - eat
    let fillQty := min q.qty residual
    let left := q.qty - fillQty
    (fillQty, { q with qty := left, queueAhead := if left = 0 then 0 else q.queueAhead - eat })

def onTrade (f : FillSim) (restingSide : Side) (tradePx tradeQty : ℤ) (ts : ℕ) :
    Option Fill × FillSim :=
  let q := f.quote restingSide
  if q.qty ≤ 0 ∨ tradeQty ≤ 0 then (none, f)
  else
    let better := pxBetter restingSide q tradePx
    if !better && q.px ≠ tradePx then (none, f)
    else
      let r := reached q better tradeQty
      (if r.1 = 0 then none else some ⟨restingSide, q.px, r.1, ts⟩, f.setQuote r.2 restingSide)

@[simp] theorem quote_setQuote_self (f : FillSim) (q : RestingQuote) (side : Side) :
    (f.setQuote q side).quote side = q := by cases side <;> rfl

theorem quote_setQuote_of_ne (f : FillSim) (q : RestingQuote) {side side' : Side}
    (h : side' ≠ side) : (f.setQuote q side).quote side' = f.quote side' := by
  cases side <;> cases side' <;> first | rfl | exact absurd rfl h

@[simp] theorem onCancel_qty (f : FillSim) (side : Side) :
    ((f.onCancel side).quote side).qty = 0 := by simp [onCancel]

theorem reached_spec {q : RestingQuote} (better : Bool) (tradeQty : ℤ)
    (hq : 0 < q.qty) : 0 ≤ (reached q better tradeQty).1 ∧
      0 ≤ (reached q better tradeQty).2.qty ∧
      (reached q better tradeQty).1 + (reached q better tradeQty).2.qty = q.qty := by
  cases better with
  | true => simp [reached]; omega
  | false => simp only [reached, Bool.false_eq_true, ↓reduceIte]; omega

/-- All that a trade can do: pass the quote by, or move a quantity `n` from the quote
into a fill, which is reported unless it is empty. -/
theorem onTrade_cases (f : FillSim) (side : Side) (px qty : ℤ) (ts : ℕ) :
    f.onTrade side px qty ts = (none, f) ∨
    ∃ n q, 0 < (f.quote side).qty ∧ 0 ≤ n ∧ 0 ≤ q.qty ∧ n + q.qty = (f.quote side).qty ∧
      f.onTrade side px qty ts =
        (if n = 0 then none else some ⟨side, (f.quote side).px, n, ts⟩, f.setQuote q side) := by
  simp only [onTrade]
  split
  · exact .inl rfl
  · rename_i hpos
    split
    · exact .inl rfl
    · have hq : 0 < (f.quote side).qty := by omega
      obtain ⟨hn, hleft, hsum⟩ :=
        reached_spec (pxBetter side (f.quote side) px) qty hq
      exact .inr ⟨_, _, hq, hn, hleft, hsum, rfl⟩

end FillSim
end TradingPipeline.Engine
