import TradingPipeline.Engine.FillSim
import TradingPipeline.Engine.Doubles

/-! # The market maker

`MarketMaker` quotes both sides around a moving average of the mid price, skewed by
its inventory, under a token bucket per symbol and one for all symbols. An event of
a shard touches the shard's `State` and `FillSim` and the shared bucket: together
with the calls of `submit_` they make up a `Desk`, on which everything here acts.
-/
namespace TradingPipeline.Engine
open Lib Book

open DoubleArith

variable {D : Type}

structure Params (D : Type) where
  emaAlpha : D
  halfSpreadTicks : ℤ
  maxSkewTicks : ℤ
  inventoryAversion : D
  quoteQty : ℤ
  maxInventory : ℤ
  requoteThresholdTicks : ℤ
  perSymbolMsgsPerSec : ℤ
  aggregateMsgsPerSec : ℤ
  burstMsgs : ℤ
  softBandFrac : D
  hardBandFrac : D
  panicBandFrac : D
  softBandAversionMult : D

structure State (D : Type) where
  emaMid : D
  lastMid : D
  avgEntryPx : D
  emaInit : Bool := false
  panic : Bool := false
  inventory : ℤ := 0
  realizedPnlTicks : ℤ := 0
  restingBid : ℤ := 0
  restingAsk : ℤ := 0
  totalQuotes : ℕ := 0
  totalFills : ℕ := 0
  rateLimited : ℕ := 0
  tokens : ℤ
  lastRefillTs : ℕ := 0
  skipNoTob : ℕ := 0
  skipCrossed : ℕ := 0
  skipBadPx : ℕ := 0
  skipHardBand : ℕ := 0
  skipPanic : ℕ := 0
  quotedBoth : ℕ := 0

def State.resting (s : State D) : Side → ℤ
  | .buy => s.restingBid
  | .sell => s.restingAsk

def State.setResting (s : State D) (px : ℤ) : Side → State D
  | .buy => { s with restingBid := px }
  | .sell => { s with restingAsk := px }

/-- One call of `submit_`; quantity 0 is a cancel. -/
structure Submit where
  locate : ℕ
  side : Side
  px : ℤ
  qty : ℤ
  parseNs : ℕ
  deriving DecidableEq, Repr

structure Desk (D : Type) where
  s : State D
  fsim : FillSim
  aggTokens : ℤ
  lastAggRefill : ℕ
  submitted : List Submit

structure TopOfBook where
  hasBid : Bool
  hasAsk : Bool
  bestBidPrice : ℤ
  bestAskPrice : ℤ
  bestBidQty : ℤ
  bestAskQty : ℤ
  deriving DecidableEq, Repr

def TopOfBook.bestPrice (b : TopOfBook) : Side → ℤ
  | .buy => b.bestBidPrice
  | .sell => b.bestAskPrice

def TopOfBook.bestQty (b : TopOfBook) : Side → ℤ
  | .buy => b.bestBidQty
  | .sell => b.bestAskQty

/-- The refill of one bucket: the time of the last refill and the tokens. The product
`dt * rate` is taken in 64 unsigned bits and the tokens to add in 32 signed ones. -/
def refillBucket (rate burst : ℤ) (ts : ℕ) (last : ℕ) (tokens : ℤ) : ℕ × ℤ :=
  if last = 0 then (ts, tokens)
  else if ts > last then
    let dt := ts - last
    let add := int32 ((dt * uint64 rate % 2 ^ 64 / 1000000000 : ℕ) : ℤ)
    if add > 0 then (ts, min (int32 (tokens + add)) burst) else (last, tokens)
  else (last, tokens)

namespace Desk

def refillBuckets (p : Params D) (ts : ℕ) (d : Desk D) : Desk D :=
  let sym := refillBucket p.perSymbolMsgsPerSec p.burstMsgs ts d.s.lastRefillTs d.s.tokens
  let agg := refillBucket p.aggregateMsgsPerSec p.burstMsgs ts d.lastAggRefill d.aggTokens
  { d with
    s := { d.s with lastRefillTs := sym.1, tokens := sym.2 }
    lastAggRefill := agg.1
    aggTokens := agg.2 }

def tryConsumeMsg (d : Desk D) : Option (Desk D) :=
  if d.s.tokens ≤ 0 ∨ d.aggTokens ≤ 0 then none
  else some { d with s := { d.s with tokens := d.s.tokens - 1 }, aggTokens := d.aggTokens - 1 }

/-- Tear down the simulated quote of one side, if the strategy thinks it has one. -/
def flattenSide (d : Desk D) (side : Side) : Desk D :=
  if d.s.resting side ≠ 0 then
    { d with fsim := d.fsim.onCancel side, s := d.s.setResting 0 side }
  else d

def flatten (d : Desk D) : Desk D := (d.flattenSide .buy).flattenSide .sell

/-- Withdraw the quote of a side that the inventory blocks, within the rate budget. -/
def cancelBlocked (locate ts : ℕ) (side : Side) (block : Bool) (d : Desk D) : Desk D :=
  if block && d.s.resting side ≠ 0 then
    match d.tryConsumeMsg with
    | some d' =>
      { d' with
        fsim := d'.fsim.onCancel side
        submitted := d'.submitted ++ [⟨locate, side, d'.s.resting side, 0, ts⟩]
        s := d'.s.setResting 0 side }
    | none => d
  else d

/-- Place the quote of one side, within the rate budget. -/
def quoteSide (p : Params D) (top : TopOfBook) (locate ts : ℕ) (side : Side) (px : ℤ)
    (wanted : Bool) (d : Desk D) : Desk D :=
  if wanted then
    match d.tryConsumeMsg with
    | some d' =>
      let qa := if px = top.bestPrice side then top.bestQty side else 0
      let s := d'.s.setResting px side
      { d' with
        fsim := d'.fsim.onQuote side px p.quoteQty qa
        submitted := d'.submitted ++ [⟨locate, side, px, p.quoteQty, ts⟩]
        s := { s with totalQuotes := succ64 s.totalQuotes } }
    | none => { d with s := { d.s with rateLimited := succ64 d.s.rateLimited } }
  else d

def countSkipPanic (d : Desk D) : Desk D :=
  { d with s := { d.s with skipPanic := succ64 d.s.skipPanic } }

def countHardBand (block : Bool) (d : Desk D) : Desk D :=
  if block then { d with s := { d.s with skipHardBand := succ64 d.s.skipHardBand } } else d

def countQuotedBoth (d : Desk D) : Desk D :=
  if d.s.restingBid ≠ 0 ∧ d.s.restingAsk ≠ 0
    then { d with s := { d.s with quotedBoth := succ64 d.s.quotedBoth } } else d

end Desk

section Arithmetic
variable [DoubleArith D]

def Params.default : Params D where
  emaAlpha := lit (5 / 100)
  halfSpreadTicks := 1
  maxSkewTicks := 3
  inventoryAversion := lit (1 / 100)
  quoteQty := 100
  maxInventory := 500
  requoteThresholdTicks := 1
  perSymbolMsgsPerSec := 100
  aggregateMsgsPerSec := 1000
  burstMsgs := 50
  softBandFrac := lit (7 / 10)
  hardBandFrac := lit 1
  panicBandFrac := lit (3 / 2)
  softBandAversionMult := lit 3

/-- A `State` as the constructor of `MarketMaker` leaves it. -/
def State.init (p : Params D) : State D :=
  { emaMid := lit 0, lastMid := lit 0, avgEntryPx := lit 0, tokens := p.burstMsgs }

def updateEma (p : Params D) (mid : D) (s : State D) : State D :=
  if s.emaInit then
    { s with
      lastMid := mid
      emaMid := p.emaAlpha * mid + (lit 1 - p.emaAlpha) * s.emaMid }
  else { s with lastMid := mid, emaMid := mid, emaInit := true }

/-- `abs_inv` exceeds the given fraction of the largest inventory. -/
def beyondBand (p : Params D) (frac : D) (inv : ℤ) : Bool :=
  int32 |inv| > toInt32 (frac * ofInt p.maxInventory)

def clamp (v lo hi : D) : D := if lt v lo then lo else if lt hi v then hi else v

def targetPrices (p : Params D) (mid : D) (s : State D) : ℤ × ℤ :=
  let aversion := if beyondBand p p.softBandFrac s.inventory
    then p.inventoryAversion * p.softBandAversionMult else p.inventoryAversion
  let fv := s.emaMid
  let cap := ofInt p.maxSkewTicks
  let revSkew := clamp (mid - fv) (-cap) cap
  let invSkew := -ofInt s.inventory * aversion
  let bidT := fv - ofInt p.halfSpreadTicks - revSkew + invSkew
  let askT := fv + ofInt p.halfSpreadTicks - revSkew + invSkew
  (toPriceTicks (floor bidT), toPriceTicks (ceil askT))

def requoteNeeded (p : Params D) (px resting : ℤ) : Bool :=
  resting = 0 || |px - resting| ≥ p.requoteThresholdTicks

/-- `block_buy` and `block_sell`: beyond the hard band the side that would add to the
inventory is not quoted. -/
def blocked (p : Params D) (inv : ℤ) : Side → Bool
  | .buy => beyondBand p p.hardBandFrac inv && inv > 0
  | .sell => beyondBand p p.hardBandFrac inv && inv < 0

/-- The part of `on_book_event` that withdraws blocked quotes and places new ones. -/
def requote (p : Params D) (top : TopOfBook) (locate ts : ℕ) (bidPx askPx : ℤ)
    (d : Desk D) : Desk D :=
  let requoteB := requoteNeeded p bidPx d.s.restingBid
  let requoteA := requoteNeeded p askPx d.s.restingAsk
  let blockBuy := blocked p d.s.inventory .buy
  let blockSell := blocked p d.s.inventory .sell
  let d := d.countHardBand (blockBuy || blockSell)
  let d := d.cancelBlocked locate ts .buy blockBuy
  let d := d.cancelBlocked locate ts .sell blockSell
  let d := d.quoteSide p top locate ts .buy bidPx (requoteB && !blockBuy)
  let d := d.quoteSide p top locate ts .sell askPx (requoteA && !blockSell)
  d.countQuotedBoth

/-- The part of `on_book_event` after the top of the book has been read. -/
def onTopOfBook (p : Params D) (top : TopOfBook) (locate ts : ℕ) (d : Desk D) : Desk D :=
  let mid := lit (1 / 2) * ofInt (top.bestBidPrice + top.bestAskPrice)
  let d := { d with s := updateEma p mid d.s }
  if beyondBand p p.panicBandFrac d.s.inventory then
    { d with s := { d.s with panic := true } }.countSkipPanic.flatten
  else
    let px := targetPrices p mid d.s
    if px.1 ≤ 0 ∨ px.1 ≥ px.2
      then { d with s := { d.s with skipBadPx := succ64 d.s.skipBadPx } }
      else requote p top locate ts px.1 px.2 d

def onBookEvent (p : Params D) (top : TopOfBook) (locate : ℕ) (globalKill : Bool) (ts : ℕ)
    (d : Desk D) : Desk D :=
  if globalKill || d.s.panic then d.countSkipPanic.flatten
  else
    let d := d.refillBuckets p ts
    if !top.hasBid || !top.hasAsk
      then { d with s := { d.s with skipNoTob := succ64 d.s.skipNoTob } }
    else if top.bestBidPrice ≥ top.bestAskPrice
      then { d with s := { d.s with skipCrossed := succ64 d.s.skipCrossed } }
    else onTopOfBook p top locate ts d

def Fill.signedQty (f : Fill) : ℤ :=
  let qty := int32 f.qty
  if f.side = .buy then qty else int32 (-qty)

/-- The new average entry price and realized profit are read off the old inventory. -/
def applyFillPnl (s : State D) (f : Fill) : State D :=
  let qty := int32 f.qty
  let signedQty := f.signedQty
  let oldInv := s.inventory
  let newInv := int32 (oldInv + signedQty)
  let px : D := ofInt f.px
  if oldInv = 0 ∨ (oldInv > 0 ∧ signedQty > 0) ∨ (oldInv < 0 ∧ signedQty < 0) then
    let oldAbs : D := ofInt (int32 |oldInv|)
    let newAbs : D := ofInt (int32 |newInv|)
    { s with
      avgEntryPx := if eq oldAbs (lit 0) then px
        else (oldAbs * s.avgEntryPx + ofInt qty * px) / newAbs
      inventory := newInv }
  else
    let closing := min (int32 |oldInv|) qty
    let gain := if oldInv > 0 then llround ((px - s.avgEntryPx) * ofInt closing)
      else llround ((s.avgEntryPx - px) * ofInt closing)
    { s with
      realizedPnlTicks := int64 (s.realizedPnlTicks + gain)
      inventory := newInv
      avgEntryPx := if newInv = 0 then lit 0
        else if (oldInv > 0 ∧ newInv < 0) ∨ (oldInv < 0 ∧ newInv > 0) then px
        else s.avgEntryPx }

def onFill (s : State D) (f : Fill) : State D :=
  let s := (applyFillPnl s f).setResting 0 f.side
  { s with totalFills := succ64 s.totalFills }

end Arithmetic

/-- The strategy moved nothing that only fills and the kill switches may move. -/
structure State.Kept (s t : State D) : Prop where
  inventory : t.inventory = s.inventory
  realizedPnlTicks : t.realizedPnlTicks = s.realizedPnlTicks
  avgEntryPx : t.avgEntryPx = s.avgEntryPx
  panic : t.panic = s.panic

theorem State.Kept.trans {s t u : State D} (h : s.Kept t) (h' : t.Kept u) : s.Kept u :=
  ⟨h'.1.trans h.1, h'.2.trans h.2, h'.3.trans h.3, h'.4.trans h.4⟩

theorem State.kept_setResting (s : State D) (px : ℤ) (side : Side) :
    s.Kept (s.setResting px side) := by
  cases side <;> exact ⟨rfl, rfl, rfl, rfl⟩

theorem State.resting_setResting_self (s : State D) (px : ℤ) (side : Side) :
    (s.setResting px side).resting side = px := by cases side <;> rfl

theorem State.resting_setResting_of_ne (s : State D) (px : ℤ) {side side' : Side}
    (h : side' ≠ side) : (s.setResting px side).resting side' = s.resting side' := by
  cases side <;> cases side' <;> first | rfl | exact absurd rfl h

namespace Desk

theorem tryConsumeMsg_eq_some {d d' : Desk D} (h : d.tryConsumeMsg = some d') :
    0 < d.s.tokens ∧ 0 < d.aggTokens ∧
      d' = { d with s := { d.s with tokens := d.s.tokens - 1 }, aggTokens := d.aggTokens - 1 } := by
  unfold tryConsumeMsg at h
  split at h
  · cases h
  · rename_i hpos
    cases h
    exact ⟨by omega, by omega, rfl⟩

theorem flattenSide_kept (d : Desk D) (side : Side) : d.s.Kept (d.flattenSide side).s := by
  unfold flattenSide
  split
  · exact State.kept_setResting _ _ _
  · exact ⟨rfl, rfl, rfl, rfl⟩

theorem flatten_kept (d : Desk D) : d.s.Kept d.flatten.s :=
  (d.flattenSide_kept .buy).trans ((d.flattenSide .buy).flattenSide_kept .sell)

theorem cancelBlocked_kept (locate ts : ℕ) (side : Side) (block : Bool) (d : Desk D) :
    d.s.Kept (d.cancelBlocked locate ts side block).s := by
  unfold cancelBlocked
  split
  · split
    · rename_i d' hd
      obtain ⟨-, -, rfl⟩ := tryConsumeMsg_eq_some hd
      have h := State.kept_setResting { d.s with tokens := d.s.tokens - 1 } 0 side
      exact ⟨h.1, h.2, h.3, h.4⟩
    · exact ⟨rfl, rfl, rfl, rfl⟩
  · exact ⟨rfl, rfl, rfl, rfl⟩

theorem quoteSide_kept (p : Params D) (top : TopOfBook) (locate ts : ℕ) (side : Side) (px : ℤ)
    (wanted : Bool) (d : Desk D) :
    d.s.Kept (d.quoteSide p top locate ts side px wanted).s := by
  unfold quoteSide
  split
  · split
    · rename_i d' hd
      obtain ⟨-, -, rfl⟩ := tryConsumeMsg_eq_some hd
      have h := State.kept_setResting { d.s with tokens := d.s.tokens - 1 } px side
      exact ⟨h.1, h.2, h.3, h.4⟩
    · exact ⟨rfl, rfl, rfl, rfl⟩
  · exact ⟨rfl, rfl, rfl, rfl⟩

theorem countHardBand_kept (block : Bool) (d : Desk D) : d.s.Kept (d.countHardBand block).s := by
  unfold countHardBand
  split <;> exact ⟨rfl, rfl, rfl, rfl⟩

theorem countQuotedBoth_kept (d : Desk D) : d.s.Kept d.countQuotedBoth.s := by
  unfold countQuotedBoth
  split <;> exact ⟨rfl, rfl, rfl, rfl⟩

@[simp] theorem countHardBand_fsim (block : Bool) (d : Desk D) :
    (d.countHardBand block).fsim = d.fsim := by
  unfold countHardBand
  split <;> rfl

@[simp] theorem countQuotedBoth_fsim (d : Desk D) : d.countQuotedBoth.fsim = d.fsim := by
  unfold countQuotedBoth
  split <;> rfl

end Desk

variable [DoubleArith D]

theorem updateEma_kept (p : Params D) (mid : D) (s : State D) : s.Kept (updateEma p mid s) := by
  unfold updateEma
  split <;> exact ⟨rfl, rfl, rfl, rfl⟩

theorem requote_kept (p : Params D) (top : TopOfBook) (locate ts : ℕ) (bidPx askPx : ℤ)
    (d : Desk D) : d.s.Kept (requote p top locate ts bidPx askPx d).s :=
  (d.countHardBand_kept _).trans <| (Desk.cancelBlocked_kept ..).trans <|
    (Desk.cancelBlocked_kept ..).trans <| (Desk.quoteSide_kept ..).trans <|
    (Desk.quoteSide_kept ..).trans (Desk.countQuotedBoth_kept _)

theorem onTopOfBook_kept {p : Params D} {d : Desk D}
    (hband : beyondBand p p.panicBandFrac d.s.inventory = false) (top : TopOfBook)
    (locate ts : ℕ) : d.s.Kept (onTopOfBook p top locate ts d).s := by
  have hema := updateEma_kept p (lit (1 / 2) * ofInt (top.bestBidPrice + top.bestAskPrice)) d.s
  rw [← hema.inventory] at hband
  refine hema.trans ?_
  simp only [onTopOfBook, hband, Bool.false_eq_true, ↓reduceIte]
  split
  · exact ⟨rfl, rfl, rfl, rfl⟩
  · exact requote_kept p top locate ts _ _ { d with s := updateEma p _ d.s }

theorem onBookEvent_kept {p : Params D} {d : Desk D}
    (hband : beyondBand p p.panicBandFrac d.s.inventory = false) (top : TopOfBook) (locate : ℕ)
    (globalKill : Bool) (ts : ℕ) : d.s.Kept (onBookEvent p top locate globalKill ts d).s := by
  unfold onBookEvent
  split
  · have h := d.countSkipPanic.flatten_kept
    exact ⟨h.1, h.2, h.3, h.4⟩
  · dsimp only
    split
    · exact ⟨rfl, rfl, rfl, rfl⟩
    · split
      · exact ⟨rfl, rfl, rfl, rfl⟩
      · have h := onTopOfBook_kept (d := d.refillBuckets p ts) hband top locate ts
        exact ⟨h.1, h.2, h.3, h.4⟩

end TradingPipeline.Engine
