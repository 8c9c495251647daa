import TradingPipeline.MarketData.Path
import TradingPipeline.Engine.ShardBooks

/-! # From the exchange's file to the books

The engine is put behind the receiver: each payload that the dispatcher reads goes through
`consume`, and the events of its messages through `apply_event`, with the kill switches of other
threads at any place between. The books then follow the file, from wherever the receiver joined.
-/
namespace TradingPipeline.LiveBooks
open Lib Book Mold Feed Engine MarketData

/-- One turn of `consume`: the payload as it lies in memory, the memory of `ev` for each message,
and what the engine does meanwhile. -/
structure Turn where
  payload : Payload
  stack : ℕ → Memory
  acts : List Engine.Action

def Turn.bytes (u : Turn) : List UInt8 := u.payload.data.load 0 u.payload.len

structure State (api : OrderBookApi) (D : Type) where
  path : MarketData.State
  engine : Dispatcher api D

/-- A step of the path, with the turns that the dispatcher makes during it, or a kill switch. -/
inductive Action
  | path (a : MarketData.Action) (turns : List Turn)
  | control (c : Control)

/-- The turns read what the dispatcher finds behind its ring, one payload after the other, and
apply the events of each. -/
def Fits (pshufb : Bool) (s t : MarketData.State) (turns : List Turn) : Prop :=
  t.receiver.dispatched = s.receiver.dispatched ++ turns.map (fun u => some u.bytes) ∧
    ∀ u ∈ turns, u.payload.consume pshufb u.stack = some (eventsOf u.acts)

instance (pshufb : Bool) (s t : MarketData.State) (turns : List Turn) :
    Decidable (Fits pshufb s t turns) := inferInstanceAs (Decidable (_ ∧ _))

section System
variable {api : OrderBookApi} {D : Type} [DoubleArith D] (plan : Plan) (p : Params D)
  (pshufb : Bool)

def start (api : OrderBookApi) (fd : ℤ) : State api D :=
  ⟨MarketData.start plan fd, Dispatcher.init api p⟩

def step (s : State api D) : Action → Option (State api D)
  | .path a turns =>
    if s.path.overtakes a then none
    else
      match MarketData.step plan s.path a with
      | none => none
      | some t =>
        if Fits pshufb s.path t turns then
          ((turns.flatMap Turn.acts).foldlM (Engine.step p) s.engine).map fun engine => ⟨t, engine⟩
        else none
  | .control c => some { s with engine := s.engine.control c }

def Step (s : State api D) (a : Action) (t : State api D) : Prop := step plan p pshufb s a = some t

inductive Moves (s : State api D) : Action → State api D → Prop
  | path {a turns t engine} (hpath : Timely plan s.path a t) (hfits : Fits pshufb s.path t turns)
      (hengine : (turns.flatMap Turn.acts).foldlM (Engine.step p) s.engine = some engine) :
      Moves s (.path a turns) ⟨t, engine⟩
  | control (c : Control) : Moves s (.control c) { s with engine := s.engine.control c }

variable {plan p pshufb} {s t : State api D}

theorem Step.moves {a : Action} (h : Step plan p pshufb s a t) : Moves plan p pshufb s a t := by
  unfold Step step at h
  cases a with
  | path a turns =>
    dsimp only at h
    split at h
    · cases h
    · next hover =>
      split at h
      · cases h
      · next u hu =>
        split at h
        · next hfits =>
          obtain ⟨engine, hengine, rfl⟩ := Option.map_eq_some_iff.mp h
          exact .path ⟨hu, Bool.eq_false_iff.mpr hover⟩ hfits hengine
        · cases h
  | control c =>
    cases h
    exact .control c

end System

def ordersOf (shard : Shard) (ms : List (List UInt8)) : List Event :=
  shardEvents shard (ms.filterMap (blockEvent 0))

/-- The orders of one shard that are live after the messages. -/
def liveOrders (shard : Shard) (ms : List (List UInt8)) : List Book.LiveOrder :=
  (ordersOf shard ms).foldl referenceStep []

section Applied
variable {plan : Plan} {fd : ℤ} {made : List (List UInt8)} {s t : MarketData.State}
  {turns : List Turn} {pshufb : Bool}

theorem Fits.parsed (h : Fits pshufb s t turns) :
    t.parsed = s.parsed ++ turns.flatMap fun u => messages u.bytes := by
  unfold MarketData.State.parsed
  rw [h.1, List.flatMap_append, List.flatMap_map]
  rfl

theorem Fits.mem_dispatched (h : Fits pshufb s t turns) {u : Turn} (hu : u ∈ turns) :
    some u.bytes ∈ t.receiver.dispatched := by
  rw [h.1]
  exact List.mem_append_right _ (List.mem_map_of_mem hu)

theorem bytes_of_dispatched (ht : MarketData.Inv plan fd made t) {bytes : List UInt8}
    (h : some bytes ∈ t.receiver.dispatched) : ∃ q ∈ plan.packets, blocks q = bytes := by
  rw [ht.dispatched] at h
  obtain ⟨q, hq, hsome⟩ := List.mem_map.mp h
  exact ⟨q, ht.published.subset (List.mem_of_mem_take hq), Option.some.inj hsome⟩

theorem consume_packet (pshufb : Bool) (stack : ℕ → Memory) (payload : Payload)
    (hwhole : ∀ m ∈ plan.messages, Whole m) {q : List UInt8} (hq : q ∈ plan.packets)
    (hbytes : payload.data.load 0 payload.len = blocks q) :
    payload.consume pshufb stack =
      some ((messages (blocks q)).filterMap (blockEvent payload.ts)) := by
  have hlen : payload.len ≤ packetSize := by
    have hlength := congrArg List.length hbytes
    rw [Memory.load_length, blocks, List.length_drop] at hlength
    have hsize := (Plan.mem_length hq).2
    omega
  have hmem : ∀ m ∈ messages (blocks q), Whole m := by
    intro m hm
    refine hwhole m ?_
    rw [← Plan.flatMap_messages, List.mem_flatMap]
    exact ⟨q, hq, hm⟩
  rw [← hbytes] at hmem ⊢
  exact consume_whole pshufb stack payload (by simp only [packetSize] at hlen; omega) hmem

theorem Fits.turn_events (h : Fits pshufb s t turns) (ht : MarketData.Inv plan fd made t)
    (hwhole : ∀ m ∈ plan.messages, Whole m) {u : Turn} (hu : u ∈ turns) :
    (eventsOf u.acts).map Event.untimed = (messages u.bytes).filterMap (blockEvent 0) := by
  obtain ⟨q, hq, hbytes⟩ := bytes_of_dispatched ht (h.mem_dispatched hu)
  have hevents := consume_packet pshufb u.stack u.payload hwhole hq hbytes.symm
  rw [h.2 u hu, hbytes] at hevents
  rw [Option.some.inj hevents, List.map_filterMap]
  exact List.filterMap_congr fun m _ => blockEvent_untimed _ m

theorem eventsOf_append (as bs : List Engine.Action) :
    eventsOf (as ++ bs) = eventsOf as ++ eventsOf bs := List.filterMap_append

theorem Fits.events (h : Fits pshufb s t turns) (ht : MarketData.Inv plan fd made t)
    (hwhole : ∀ m ∈ plan.messages, Whole m) :
    (eventsOf (turns.flatMap Turn.acts)).map Event.untimed =
      (turns.flatMap fun u => messages u.bytes).filterMap (blockEvent 0) := by
  have hturns := fun u hu => @Fits.turn_events plan fd made s t turns pshufb h ht hwhole u hu
  clear h
  induction turns with
  | nil => rfl
  | cons u turns ih =>
    rw [List.flatMap_cons, List.flatMap_cons, eventsOf_append, List.map_append,
      List.filterMap_append, hturns u List.mem_cons_self,
      ih fun v hv => hturns v (List.mem_cons_of_mem u hv)]

theorem Fits.events_after {acts : List Engine.Action} (h : Fits pshufb s t turns)
    (hacts : (eventsOf acts).map Event.untimed = s.parsed.filterMap (blockEvent 0))
    (ht : MarketData.Inv plan fd made t) (hwhole : ∀ m ∈ plan.messages, Whole m) :
    (eventsOf (acts ++ turns.flatMap Turn.acts)).map Event.untimed =
      t.parsed.filterMap (blockEvent 0) := by
  rw [eventsOf_append, List.map_append, hacts, h.events ht hwhole, ← List.filterMap_append,
    h.parsed]

end Applied

section Following
variable {api : OrderBookApi} {D : Type} [DoubleArith D] {plan : Plan} {p : Params D}
  {pshufb : Bool} {fd : ℤ} {as : List Action} {s : State api D}

/-- The engine has applied the events of the messages that were parsed. -/
structure Inv (plan : Plan) (p : Params D) (fd : ℤ) (s : State api D) : Prop where
  path : ∃ as, Runs (Timely plan) (MarketData.start plan fd) as s.path
  engine : ∃ acts : List Engine.Action,
    acts.foldlM (Engine.step p) (Dispatcher.init api p) = some s.engine ∧
      (eventsOf acts).map Event.untimed = s.path.parsed.filterMap (blockEvent 0)

theorem runs_inv (hr : Runs (Step plan p pshufb) (start plan p api fd) as s)
    (hwhole : ∀ m ∈ plan.messages, Whole m) : Inv plan p fd s := by
  refine hr.invariant ⟨⟨[], .nil⟩, [], rfl, rfl⟩ ?_
  rintro s a t ⟨⟨bs, hpath⟩, acts, hacts, hevents⟩ hstep
  cases hstep.moves with
  | @path a turns t engine htimely hfits hengine =>
    have hpath' := hpath.snoc htimely
    obtain ⟨made, ht⟩ := MarketData.runs_inv hpath'
    refine ⟨⟨_, hpath'⟩, acts ++ turns.flatMap Turn.acts, ?_, hfits.events_after hevents ht hwhole⟩
    rw [List.foldlM_append, hacts]
    exact hengine
  | control c =>
    refine ⟨⟨bs, hpath⟩, acts ++ [.control c], ?_, ?_⟩
    · rw [List.foldlM_append, hacts]
      rfl
    · rw [eventsOf_append]
      exact (congrArg _ (List.append_nil _)).trans hevents

end Following

section GoingOn
variable {api : OrderBookApi} {D : Type} [DoubleArith D] {plan : Plan} {p : Params D} {fd : ℤ}
  {s : State api D}

end GoingOn

end TradingPipeline.LiveBooks
