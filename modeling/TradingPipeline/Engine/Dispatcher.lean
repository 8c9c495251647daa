import TradingPipeline.Engine.MarketMaker
import TradingPipeline.Book.Adapter
import TradingPipeline.Lib.Runs
import Mathlib.Data.Fintype.Basic

/-! # The dispatcher

`apply_event` routes an order event to the book of its shard, lets a printed trade
fill the shard's simulated quotes and then runs the strategy. The kill switches are
atomics that other threads set and clear at any time: besides the controls between
two events, an event carries those that take effect inside its call, after the fill
and before the strategy loads the flags.
-/
namespace TradingPipeline.Engine
open Lib Book

def kLocates : List ℕ :=
  [6562, 7457, 7939, 347, 4321, 5294, 2741, 13, 7159, 2020, 8000, 7888, 8036, 8757, 5336]

def kSize : ℕ := kLocates.length

abbrev Shard := Fin kSize

def locateOf (shard : Shard) : ℕ := kLocates.get shard

/-- `none` is `kNotInUniverse`. -/
def kShardLut : ℕ → Option Shard :=
  (List.finRange kSize).foldl (fun lut i => Function.update lut (locateOf i) (some i))
    fun _ => none

def shardForLocate (locate : ℕ) : Option Shard := kShardLut locate

theorem shardForLocate_locateOf (shard : Shard) :
    shardForLocate (locateOf shard) = some shard := by
  revert shard
  decide

/-- The message types `apply_event` distinguishes: `A`, `F`, `X`, `D`, `E`, `C`, `U`
and the rest. -/
inductive MsgType
  | add | addMpid | cancelPartial | delete | execute | executeWithPrice | replace | other
  deriving DecidableEq, Repr

structure Event where
  ts : ℕ
  orderId : ℕ
  aux : ℕ
  price : ℕ
  qty : ℕ
  stockLocate : ℕ
  type : MsgType
  side : Char
  deriving DecidableEq, Repr

/-- The stores other threads make to `global_kill_` and to the `panic` flags. -/
inductive Control
  | kill (shard : Shard)
  | arm (shard : Shard)
  | killGlobal
  | armAll
  deriving DecidableEq, Repr

/-- What a control leaves of the `panic` flag of a shard. -/
def Control.panic (shard : Shard) (flag : Bool) : Control → Bool
  | .kill i => if i = shard then true else flag
  | .arm i => if i = shard then false else flag
  | .killGlobal => flag
  | .armAll => false

/-- What a control leaves of `global_kill_`. -/
def Control.globalKill (flag : Bool) : Control → Bool
  | .kill _ | .arm _ => flag
  | .killGlobal => true
  | .armAll => false

structure Dispatcher (api : OrderBookApi) (D : Type) where
  books : Shard → ItchBookAdapter api
  sims : Shard → FillSim
  states : Shard → State D
  aggTokens : ℤ
  lastAggRefill : ℕ
  globalKill : Bool
  submitted : List Submit

def kPoolPerBook : ℕ := 1 <<< 18

variable {api : OrderBookApi} {D : Type}

namespace Dispatcher

def init [DoubleArith D] (api : OrderBookApi) (p : Params D) : Dispatcher api D where
  books := fun _ => ItchBookAdapter.create api kPoolPerBook
  sims := fun _ => {}
  states := fun _ => State.init p
  aggTokens := p.burstMsgs
  lastAggRefill := 0
  globalKill := false
  submitted := []

def setPanic (g : Dispatcher api D) (shard : Shard) (v : Bool) : Dispatcher api D :=
  { g with states := Function.update g.states shard { g.states shard with panic := v } }

def control (g : Dispatcher api D) : Control → Dispatcher api D
  | .kill shard => g.setPanic shard true
  | .arm shard => g.setPanic shard false
  | .killGlobal => { g with globalKill := true }
  | .armAll => { g with globalKill := false, states := fun i => { g.states i with panic := false } }

def controls (g : Dispatcher api D) (cs : List Control) : Dispatcher api D := cs.foldl control g

def desk (g : Dispatcher api D) (shard : Shard) : Desk D :=
  ⟨g.states shard, g.sims shard, g.aggTokens, g.lastAggRefill, g.submitted⟩

def setDesk (g : Dispatcher api D) (shard : Shard) (d : Desk D) : Dispatcher api D :=
  { g with
    states := Function.update g.states shard d.s
    sims := Function.update g.sims shard d.fsim
    aggTokens := d.aggTokens
    lastAggRefill := d.lastAggRefill
    submitted := d.submitted }

def setBook (g : Dispatcher api D) (shard : Shard) (a : ItchBookAdapter api) : Dispatcher api D :=
  { g with books := Function.update g.books shard a }

@[simp] theorem setDesk_states_self (g : Dispatcher api D) (shard : Shard) (d : Desk D) :
    (g.setDesk shard d).states shard = d.s := by simp [setDesk]

@[simp] theorem setDesk_sims_self (g : Dispatcher api D) (shard : Shard) (d : Desk D) :
    (g.setDesk shard d).sims shard = d.fsim := by simp [setDesk]

theorem setDesk_states_of_ne (g : Dispatcher api D) {shard i : Shard} (d : Desk D)
    (h : i ≠ shard) : (g.setDesk shard d).states i = g.states i := by simp [setDesk, h]

theorem setDesk_sims_of_ne (g : Dispatcher api D) {shard i : Shard} (d : Desk D)
    (h : i ≠ shard) : (g.setDesk shard d).sims i = g.sims i := by simp [setDesk, h]

theorem control_frame (g : Dispatcher api D) (c : Control) :
    (g.control c).sims = g.sims ∧ (g.control c).books = g.books ∧
      (g.control c).submitted = g.submitted ∧
      ∀ i, ∃ b, (g.control c).states i = { g.states i with panic := b } := by
  have hset : ∀ shard v i, ∃ b, (g.setPanic shard v).states i = { g.states i with panic := b } := by
    intro shard v i
    by_cases hi : i = shard
    · subst hi
      exact ⟨v, by simp [setPanic]⟩
    · exact ⟨(g.states i).panic, by simp [setPanic, hi]⟩
  cases c with
  | kill shard => exact ⟨rfl, rfl, rfl, hset shard true⟩
  | arm shard => exact ⟨rfl, rfl, rfl, hset shard false⟩
  | killGlobal => exact ⟨rfl, rfl, rfl, fun i => ⟨(g.states i).panic, rfl⟩⟩
  | armAll => exact ⟨rfl, rfl, rfl, fun i => ⟨false, rfl⟩⟩

theorem controls_frame (g : Dispatcher api D) (cs : List Control) :
    (g.controls cs).sims = g.sims ∧ (g.controls cs).books = g.books ∧
      (g.controls cs).submitted = g.submitted ∧
      ∀ i, ∃ b, (g.controls cs).states i = { g.states i with panic := b } := by
  induction cs generalizing g with
  | nil => exact ⟨rfl, rfl, rfl, fun i => ⟨(g.states i).panic, rfl⟩⟩
  | cons c cs ih =>
    obtain ⟨hsims, hbooks, hsub, hstates⟩ := g.control_frame c
    obtain ⟨hsims', hbooks', hsub', hstates'⟩ := ih (g.control c)
    refine ⟨hsims'.trans hsims, hbooks'.trans hbooks, hsub'.trans hsub, ?_⟩
    intro i
    obtain ⟨b, hb⟩ := hstates i
    obtain ⟨b', hb'⟩ := hstates' i
    exact ⟨b', by rw [controls, List.foldl_cons, ← controls, hb', hb]⟩

theorem control_panic (g : Dispatcher api D) (c : Control) (shard : Shard) :
    ((g.control c).states shard).panic = c.panic shard (g.states shard).panic := by
  have hset : ∀ i v, ((g.setPanic i v).states shard).panic =
      if i = shard then v else (g.states shard).panic := by
    intro i v
    by_cases hi : i = shard
    · subst hi
      simp [setPanic]
    · simp [setPanic, hi, Ne.symm hi]
  cases c with
  | kill i => exact hset i true
  | arm i => exact hset i false
  | killGlobal => rfl
  | armAll => rfl

theorem controls_panic (g : Dispatcher api D) (cs : List Control) (shard : Shard) :
    ((g.controls cs).states shard).panic =
      cs.foldl (fun flag c => c.panic shard flag) (g.states shard).panic := by
  induction cs generalizing g with
  | nil => rfl
  | cons c cs ih => rw [controls, List.foldl_cons, ← controls, ih, control_panic, List.foldl_cons]

theorem controls_globalKill (g : Dispatcher api D) (cs : List Control) :
    (g.controls cs).globalKill = cs.foldl Control.globalKill g.globalKill := by
  induction cs generalizing g with
  | nil => rfl
  | cons c cs ih =>
    rw [controls, List.foldl_cons, ← controls, ih, List.foldl_cons]
    cases c <;> rfl

end Dispatcher

def topOfBook (b : api.OrderBook) : TopOfBook where
  hasBid := api.hasBid b
  hasAsk := api.hasAsk b
  bestBidPrice := api.bestBidPrice b
  bestAskPrice := api.bestAskPrice b
  bestBidQty := api.bestBidQty b
  bestAskQty := api.bestAskQty b

/-- The `switch` of `apply_event`; its default case is handled by the caller. -/
def applyToBook (a : ItchBookAdapter api) (e : Event) : Option (ItchBookAdapter api) :=
  match e.type with
  | .add | .addMpid => a.onAdd e.orderId e.side e.qty e.price
  | .cancelPartial => a.onCancelPartial e.orderId e.qty
  | .delete => a.onDelete e.orderId
  | .execute => a.onExecute e.orderId e.qty
  | .executeWithPrice => a.onExecuteWithPrice e.orderId e.qty e.price 'Y'
  | .replace => a.onReplace e.orderId e.aux e.qty e.price
  | .other => some a

def tradeInfo (a : ItchBookAdapter api) (e : Event) : Option OrderInfo :=
  if e.type = .execute ∨ e.type = .executeWithPrice then a.peek e.orderId else none

variable [DoubleArith D]

/-- What a trade print does to the shard's simulated quotes and position. -/
def onTradePrint (api : OrderBookApi) (e : Event) (info : Option OrderInfo) (d : Desk D) :
    Desk D :=
  match info with
  | none => d
  | some info =>
    let tp := if e.type = .executeWithPrice then api.toPriceTicks (e.price / 100) else info.px
    match d.fsim.onTrade info.side tp (api.toQuantity e.qty) e.ts with
    | (some f, fsim) => { d with fsim := fsim, s := onFill d.s f }
    | (none, fsim) => { d with fsim := fsim }

/-- The end of `apply_event`: the strategy runs on the shard's desk. -/
def runStrategy (p : Params D) (shard : Shard) (ts : ℕ) (g : Dispatcher api D) : Dispatcher api D :=
  g.setDesk shard (onBookEvent p (topOfBook (g.books shard).book) (locateOf shard)
    g.globalKill ts (g.desk shard))

def applyEvent (p : Params D) (g : Dispatcher api D) (e : Event) (during : List Control) :
    Option (Dispatcher api D) :=
  match shardForLocate e.stockLocate with
  | none => some (g.controls during)
  | some shard =>
    if e.type = .other then some (g.controls during)
    else
      let info := tradeInfo (g.books shard) e
      (applyToBook (g.books shard) e).map fun a =>
        let g := g.setBook shard a
        let g := g.setDesk shard (onTradePrint api e info (g.desk shard))
        runStrategy p shard e.ts (g.controls during)

inductive Action
  | event (e : Event) (during : List Control)
  | control (c : Control)
  deriving DecidableEq, Repr

def step (p : Params D) (g : Dispatcher api D) : Action → Option (Dispatcher api D)
  | .event e during => applyEvent p g e during
  | .control c => some (g.control c)

abbrev Step (p : Params D) (g : Dispatcher api D) (a : Action) (t : Dispatcher api D) : Prop :=
  step p g a = some t

/-- All that an action can do: a control, an event that the dispatcher ignores, or an
event of a shard that goes through book, simulated fills and strategy. -/
inductive Effect (p : Params D) (g : Dispatcher api D) : Action → Dispatcher api D → Prop
  | control (c : Control) : Effect p g (.control c) (g.control c)
  | ignored {e : Event} (during : List Control) :
      shardForLocate e.stockLocate = none ∨ e.type = .other →
      Effect p g (.event e during) (g.controls during)
  | applied {e : Event} {during : List Control} {shard : Shard} {a : ItchBookAdapter api}
      {g₁ g₂ : Dispatcher api D} :
      shardForLocate e.stockLocate = some shard → e.type ≠ .other →
      applyToBook (g.books shard) e = some a →
      g₁ = (g.setBook shard a).setDesk shard
        (onTradePrint api e (tradeInfo (g.books shard) e) (g.desk shard)) →
      g₂ = g₁.controls during →
      Effect p g (.event e during) (runStrategy p shard e.ts g₂)

theorem Step.effect {p : Params D} {g t : Dispatcher api D} {a : Action} (h : Step p g a t) :
    Effect p g a t := by
  cases a with
  | control c =>
    cases h
    exact .control c
  | event e during =>
    simp only [Step, step, applyEvent] at h
    cases hs : shardForLocate e.stockLocate with
    | none =>
      rw [hs] at h
      cases h
      exact .ignored during (.inl hs)
    | some shard =>
      simp only [hs] at h
      by_cases ht : e.type = .other
      · rw [if_pos ht] at h
        cases h
        exact .ignored during (.inr ht)
      · rw [if_neg ht] at h
        obtain ⟨a, ha, rfl⟩ := Option.map_eq_some_iff.mp h
        exact .applied hs ht ha rfl rfl

end TradingPipeline.Engine
