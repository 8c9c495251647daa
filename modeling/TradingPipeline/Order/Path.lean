import TradingPipeline.Order.Handover
import TradingPipeline.Order.Reconnects

/-! # The way of an order from `oms::submit` to `handle_client`

`order_sender_thread` copies the oldest order of the ring into a message, writes the message
on its connection, if need be again on a new one, and only then stores `next_read`. The ring
and the session take their steps in any order otherwise. What the server accepts over all
connections is a selection of the submitted orders, in the order of their submission, and the
ring never gives up an order that was not written in full.
-/
namespace TradingPipeline.OrderPath
open Lib OrderRing OrderSession

/-- The strategy thread and the sender around `ORDER_TO_EXC`, and the session behind the
sender. `copied` says that the message in hand was made from the slot at `next_read`. -/
structure State where
  ring : OrderRing.State
  session : OrderSession.State
  copied : Bool

def start : State := ⟨OrderRing.init, .start, false⟩

inductive Action
  | submit (a : OrderRing.Action)
  | load (a : OrderRing.Action)
  | copy (sendNs : UInt64)
  | session (a : OrderSession.Action)
  | storeRead

/-- One step of a thread, of the network or of the server. The sender reads the ring before the
copy, and stores `next_read` when the message is out. -/
def step (s : State) : Action → Option State
  | .submit a => (submitStep s.ring a).map fun r => { s with ring := r }
  | .load .senderStoreRead => none
  | .load a =>
    if s.copied then none
    else (OrderRing.senderStep s.ring a).map fun r => { s with ring := r }
  | .copy sendNs =>
    if s.copied then none
    else match s.ring.slotRead with
      | some o =>
        (OrderSession.senderStep s.session (.take o sendNs)).map fun t =>
          { s with session := t, copied := true }
      | none => none
  | .session (.take _ _) => none
  | .session a => (OrderSession.step s.session a).map fun t => { s with session := t }
  | .storeRead =>
    if s.copied ∧ s.session.sender = .idle then
      (OrderRing.senderStep s.ring .senderStoreRead).map fun r =>
        { s with ring := r, copied := false }
    else none

def Step (s : State) (a : Action) (t : State) : Prop := step s a = some t

section Session
variable {s t : OrderSession.State}

theorem setConnection_keeps (s : OrderSession.State) (i : ℕ) (c : Connection) :
    (s.setConnection i c).taken = s.taken ∧ (s.setConnection i c).sender = s.sender := by
  unfold OrderSession.State.setConnection
  split <;> exact ⟨rfl, rfl⟩

theorem serverStep_keeps {a : OrderSession.Action} (h : serverStep s a = some t) :
    t.taken = s.taken ∧ t.sender = s.sender := by
  cases a with
  | recv n =>
    simp only [serverStep] at h
    split at h
    · split at h
      · exact Option.some.inj h ▸ setConnection_keeps s _ _
      · cases h
    · cases h
  | breakOff i =>
    simp only [serverStep] at h
    split at h
    · exact Option.some.inj h ▸ setConnection_keeps s _ _
    · cases h
  | hangUp =>
    simp only [serverStep] at h
    split at h
    · split at h
      · exact Option.some.inj h ▸ setConnection_keeps s _ _
      · cases h
    · cases h
  | _ => cases h

theorem session_keeps {a : OrderSession.Action} (ha : ∀ o ns, a ≠ .take o ns)
    (h : OrderSession.Step s a t) :
    t.taken = s.taken ∧ (s.sender = .idle → t.sender = .idle) := by
  unfold OrderSession.Step OrderSession.step at h
  rcases Option.or_eq_some_iff.mp h with hsend | ⟨-, hserve⟩
  · cases a with
    | take o ns => exact absurd rfl (ha o ns)
    | send n =>
      cases hs : s.sender with
      | idle => simp [OrderSession.senderStep, hs] at hsend
      | sending msg remaining =>
        simp only [OrderSession.senderStep, hs] at hsend
        split at hsend
        · cases hsend
          refine ⟨?_, fun hi => by cases hi⟩
          unfold sendBytes
          split <;> rfl
        · cases hsend
    | eagain =>
      cases hsend
      exact ⟨rfl, id⟩
    | reconnect =>
      cases hs : s.sender with
      | idle => simp [OrderSession.senderStep, hs] at hsend
      | sending msg remaining =>
        simp only [OrderSession.senderStep, hs, Option.some.injEq] at hsend
        exact ⟨hsend ▸ rfl, fun hi => by cases hi⟩
    | _ => cases hsend
  · obtain ⟨htaken, hsender⟩ := serverStep_keeps hserve
    exact ⟨htaken, fun hi => hsender.trans hi⟩

end Session

section Steps
variable {s t : State}

inductive Moves (s : State) : State → Prop
  | submit {a : OrderRing.Action} {r : OrderRing.State} (h : submitStep s.ring a = some r) :
      Moves s { s with ring := r }
  | load {a : OrderRing.Action} {r : OrderRing.State} (hc : s.copied = false)
      (ha : a ≠ .senderStoreRead) (h : OrderRing.senderStep s.ring a = some r) :
      Moves s { s with ring := r }
  | copy {o : Order} {sendNs : UInt64} {u : OrderSession.State} (hc : s.copied = false)
      (ho : s.ring.slotRead = some o)
        (h : OrderSession.senderStep s.session (.take o sendNs) = some u) :
      Moves s { s with session := u, copied := true }
  | session {a : OrderSession.Action} {u : OrderSession.State} (ha : ∀ o ns, a ≠ .take o ns)
      (h : OrderSession.Step s.session a u) : Moves s { s with session := u }
  | storeRead {r : OrderRing.State} (hc : s.copied = true) (hidle : s.session.sender = .idle)
      (h : OrderRing.senderStep s.ring .senderStoreRead = some r) :
      Moves s { s with ring := r, copied := false }

theorem Step.moves {a : Action} (h : Step s a t) : Moves s t := by
  unfold Step step at h
  split at h
  · obtain ⟨r, hr, rfl⟩ := Option.map_eq_some_iff.mp h
    exact .submit hr
  · cases h
  · next a ha =>
    split at h
    · cases h
    · next hc =>
      obtain ⟨r, hr, rfl⟩ := Option.map_eq_some_iff.mp h
      exact .load (Bool.eq_false_iff.mpr hc) (fun he => ha he) hr
  · split at h
    · cases h
    · next hc =>
      split at h
      · next o ho =>
        obtain ⟨u, hu, rfl⟩ := Option.map_eq_some_iff.mp h
        exact .copy (Bool.eq_false_iff.mpr hc) ho hu
      · cases h
  · cases h
  · next a ha =>
    obtain ⟨u, hu, rfl⟩ := Option.map_eq_some_iff.mp h
    exact .session (fun o ns he => ha o ns he) hu
  · split at h
    · next hc =>
      obtain ⟨r, hr, rfl⟩ := Option.map_eq_some_iff.mp h
      exact .storeRead hc.1 hc.2 hr
    · cases h

/-- The two components are sound, and the session has taken from the ring what the sender copied. -/
structure Inv (s : State) : Prop where
  ring : OrderRing.Inv s.ring
  session : OrderSession.Inv s.session
  took : Took s.ring s.copied s.session.taken
  idle : s.copied = false → s.session.sender = .idle

theorem start_inv : Inv start where
  ring := init_inv
  session := OrderSession.start_inv
  took := ⟨fun _ => rfl, nofun⟩
  idle _ := rfl

theorem Inv.copy (hs : Inv s) {o : Order} {sendNs : UInt64} {u : OrderSession.State}
    (hc : s.copied = false) (ho : s.ring.slotRead = some o)
    (h : OrderSession.senderStep s.session (.take o sendNs) = some u) :
    Inv { s with session := u, copied := true } := by
  have hstep : OrderSession.Step s.session (.take o sendNs) u := by
    rw [OrderSession.Step, OrderSession.step, h, Option.some_or]
  have htaken : u.taken = s.session.taken ++ [o] := by
    simp only [OrderSession.senderStep, hs.idle hc, Option.some.injEq] at h
    exact h ▸ rfl
  refine ⟨hs.ring, hstep.inv hs.session, ?_, fun hcopied => Bool.noConfusion hcopied⟩
  show Took s.ring true u.taken
  rw [htaken]
  exact (hc ▸ hs.took).copy ho

theorem Step.inv {a : Action} (he : Step s a t) (hs : Inv s) : Inv t := by
  cases he.moves with
  | submit h => exact ⟨step_inv hs.ring (submitStep_step h), hs.session, hs.took.submit h, hs.idle⟩
  | load hc ha h =>
    refine ⟨step_inv hs.ring (senderStep_step h), hs.session, ?_, hs.idle⟩
    have htook := hs.took
    rw [hc] at htook
    show Took _ s.copied s.session.taken
    rw [hc]
    exact htook.load ha h
  | copy hc ho h => exact hs.copy hc ho h
  | session ha h =>
    obtain ⟨htaken, hidle⟩ := session_keeps ha h
    exact ⟨hs.ring, h.inv hs.session, htaken ▸ hs.took, fun hc => hidle (hs.idle hc)⟩
  | storeRead hc hidle h =>
    exact ⟨step_inv hs.ring (senderStep_step h), hs.session, (hc ▸ hs.took).storeRead h,
      fun _ => hidle⟩

theorem runs_inv {as : List Action} (hr : Runs Step start as s) : Inv s :=
  hr.invariant start_inv fun _ _ _ hs h => h.inv hs

theorem Inv.taken_le_sent (hs : Inv s) : s.ring.taken.length ≤ s.session.sent.length := by
  have hturns := congrArg List.length hs.session.turns
  rw [List.length_append, List.length_map, List.length_range] at hturns
  cases hc : s.copied with
  | false =>
    simp only [OrderSession.State.inHand, hs.idle hc, List.length_nil] at hturns
    rw [← hs.took.apart hc]
    omega
  | true =>
    obtain ⟨o, -, htaken⟩ := hs.took.joined hc
    have hhand : s.session.inHand.length ≤ 1 := by
      unfold OrderSession.State.inHand
      split <;> simp
    rw [htaken, List.length_append, List.length_singleton] at hturns
    omega

end Steps

/-- The messages that the server accepted, over all connections in their order. -/
def State.acceptedSends (s : State) : List Sent :=
  s.session.connections.flatMap Connection.acceptedSends

/-- What the way through ring, sender, network and server promises. -/
structure EndToEnd (s : State) : Prop where
  accepted : s.session.connections.flatMap (·.client.accepted) = s.acceptedSends.map Sent.msg
  /-- At most once, and in the order of submission. -/
  increasing : (s.acceptedSends.map Sent.turn).Pairwise (· < ·)
  submitted : ∀ e ∈ s.acceptedSends, ∃ o ∈ s.ring.submitted[e.turn]?, ∃ seq ts,
    e.msg = wireOrder o seq ts
  /-- An order leaves the ring when it was written in full. -/
  written : ∀ k < s.ring.taken.length, ∃ e ∈ s.session.sent, e.turn = k
  backlog : s.ring.submitted.length ≤ s.session.sent.length + orderToExcSize
  /-- Once the ring is empty, only what a connection did not deliver is missing. -/
  complete : unread s.ring.ring = [] → (∀ c ∈ s.session.connections, c.AllDelivered) →
    s.acceptedSends.map Sent.turn = List.range s.ring.submitted.length

section Result
variable {s : State}

theorem Inv.accepted (hs : Inv s) :
    s.session.connections.flatMap (·.client.accepted) = s.acceptedSends.map Sent.msg := by
  rw [State.acceptedSends, List.map_flatMap]
  refine List.flatMap_congr fun c hc => ?_
  exact (hs.session.connections c hc).inOrder.acceptedSends_msg

theorem Inv.written (hs : Inv s) {k : ℕ} (hk : k < s.ring.taken.length) :
    ∃ e ∈ s.session.sent, e.turn = k := by
  have hlt := hk.trans_le hs.taken_le_sent
  have hget : (s.session.sent.map Sent.turn ++ s.session.inHand)[k]? = some k := by
    have hlen := congrArg List.length hs.session.turns
    rw [List.length_append, List.length_map, List.length_range] at hlen
    rw [hs.session.turns, List.getElem?_range (by omega)]
  rw [List.getElem?_append_left (by rwa [List.length_map])] at hget
  exact List.mem_map.mp (List.mem_of_getElem? hget)

theorem Inv.complete (hs : Inv s) (hempty : unread s.ring.ring = [])
    (hall : ∀ c ∈ s.session.connections, c.AllDelivered) :
    s.acceptedSends.map Sent.turn = List.range s.ring.submitted.length := by
  obtain ⟨hcopied, htaken⟩ := hs.took.of_empty hs.ring hempty
  have hsends : s.acceptedSends = s.session.sent :=
    List.flatMap_congr fun c hc =>
      (hall c hc).acceptedSends (hs.session.connections c hc).inOrder
  rw [hsends, hs.session.turns_idle (hs.idle hcopied), htaken]

/-- Every interleaving of the strategy thread, the sender, the network with any number of
breaks, and the server. -/
theorem orders_end_to_end {as : List Action} (hr : Runs Step start as s) : EndToEnd s := by
  have hs := runs_inv hr
  have hsub : s.acceptedSends.Sublist s.session.sent := acceptedSends_sublist _
  refine ⟨hs.accepted, ?_, fun e he => ?_, fun k => hs.written, ?_, hs.complete⟩
  · have hturns : (s.session.sent.map Sent.turn).Pairwise (· < ·) := by
      have hrange := List.pairwise_lt_range (n := s.session.taken.length)
      rw [← hs.session.turns] at hrange
      exact hrange.sublist (List.sublist_append_left _ _)
    exact hturns.sublist (hsub.map Sent.turn)
  · obtain ⟨o, ho, hmsg⟩ := hs.session.orders e (hsub.subset he)
    obtain ⟨rest, hrest⟩ := hs.took.isPrefix hs.ring
    have hlt := (List.getElem?_eq_some_iff.mp ho).1
    exact ⟨o, by rw [← hrest, List.getElem?_append_left hlt]; exact ho, hmsg⟩
  · exact hs.ring.backlog.trans (Nat.add_le_add_right hs.taken_le_sent _)

end Result

def submitAndCopy (a : Submission) (ns : UInt64) : List Action :=
  [Action.submit (.loadWrite a), .submit .loadRead] ++
    Field.all.map (fun f => Action.submit (.fill f)) ++
    [Action.submit .storeWrite, .load .senderLoadRead, .load .senderLoadWrite] ++
    Field.all.map (fun f => Action.load (.senderRead f)) ++ [Action.copy ns]

/-- The second order is cut off by a break, and sent again before `next_read` is stored. -/
def breakActions : List Action :=
  submitAndCopy ⟨13, 66, 32000, 100, 5⟩ 7 ++
    [Action.session (.send 36), .storeRead, .session (.recv 36)] ++
    submitAndCopy ⟨13, 66, 32000, 0, 6⟩ 9 ++
    [Action.session (.send 10), .session (.breakOff 0), .session .reconnect, .session (.send 36),
      .session .hangUp, .session (.recv 36), .storeRead]

theorem breakActions_end : ∃ s ∈ breakActions.foldlM step start,
    s.ring.submitted.length = 2 ∧ s.session.past.length = 1 ∧
      s.acceptedSends.map Sent.turn = [0, 1] := by
  decide +kernel

theorem orders_end_to_end_break : ∃ s, Runs Step start breakActions s ∧
    s.ring.submitted.length = 2 ∧ s.session.past.length = 1 ∧
      s.acceptedSends.map Sent.turn = [0, 1] ∧ EndToEnd s := by
  obtain ⟨s, hs, hsubmitted, hpast, hturns⟩ := breakActions_end
  have hr : Runs Step start breakActions s := Runs.of_foldlM hs
  exact ⟨s, hr, hsubmitted, hpast, hturns, orders_end_to_end hr⟩

end TradingPipeline.OrderPath
