import TradingPipeline.Order.AckFraming
import TradingPipeline.Order.SessionSafety

/-! # Orders lost over a reconnect

The sender forgets an order as soon as the system has taken its last byte. An order that was
completed on a connection and not delivered before it broke is never sent again: only
the order in hand is. Everything else is accepted.
-/
namespace TradingPipeline.OrderSession
open Lib OrderRing

deriving instance DecidableEq for Sender

/-- The session, with what the sender has received of the answers on its own connection. -/
structure Linked where
  session : State
  got : ℕ
  drain : Drain

inductive LinkedAction
  | session (a : Action)
  | drain (n : ℕ)

namespace Linked

def start : Linked := ⟨.start, 0, .start⟩

def answers (net : ℕ → AckSocket) (s : Linked) : List UInt8 :=
  (net s.session.past.length).stream s.session.conn.client.acks

/-- One step of the session or one call of `drain_acks`. A reconnect sets `acked_seq` to zero. -/
def step (net : ℕ → AckSocket) (s : Linked) : LinkedAction → Option Linked
  | .session .reconnect =>
    (OrderSession.step s.session .reconnect).map fun t => ⟨t, 0, s.drain.reconnect⟩
  | .session a => (OrderSession.step s.session a).map fun t => { s with session := t }
  | .drain n =>
    if 0 < n ∧ n ≤ ackBufBytes - s.drain.carry.length ∧ s.got + n ≤ (s.answers net).length then
      some { s with
        got := s.got + n
        drain := s.drain.drainAcks (((s.answers net).drop s.got).take n) }
    else none

def Step (net : ℕ → AckSocket) (s : Linked) (a : LinkedAction) (t : Linked) : Prop :=
  s.step net a = some t

/-- The sender is idle on a live connection on which everything was delivered and
acknowledged. -/
structure Settled (s : Linked) : Prop where
  idle : s.session.sender = .idle
  live : s.session.conn.broken = false
  delivered : s.session.conn.delivered = s.session.conn.stream.written.length
  acked : s.drain.counts.ackedSeq = s.session.nextSeq - 1

instance : DecidablePred Settled := fun s =>
  decidable_of_iff (s.session.sender = .idle ∧ s.session.conn.broken = false ∧
      s.session.conn.delivered = s.session.conn.stream.written.length ∧
      s.drain.counts.ackedSeq = s.session.nextSeq - 1)
    ⟨fun h => ⟨h.1, h.2.1, h.2.2.1, h.2.2.2⟩, fun h => ⟨h.idle, h.live, h.delivered, h.acked⟩⟩

variable {net : ℕ → AckSocket} {s t : Linked}

theorem Step.session {a : LinkedAction} (h : Step net s a t) :
    t.session = s.session ∨ ∃ b, OrderSession.Step s.session b t.session := by
  unfold Step step at h
  split at h
  · obtain ⟨u, hu, rfl⟩ := Option.map_eq_some_iff.mp h
    exact Or.inr ⟨_, hu⟩
  · obtain ⟨u, hu, rfl⟩ := Option.map_eq_some_iff.mp h
    exact Or.inr ⟨_, hu⟩
  · split at h
    · exact Or.inl (Option.some.inj h ▸ rfl)
    · cases h

theorem runs_inv {as : List LinkedAction} (hr : Runs (Step net) start as s) : Inv s.session := by
  refine hr.invariant (P := fun s => Inv s.session) start_inv fun _ _ _ hinv h => ?_
  rcases h.session with hsame | ⟨b, hb⟩
  · rwa [hsame]
  · exact hb.inv hinv

end Linked

/-- The order taken in turn `k` was accepted by the server on some connection. -/
def State.Accepted (s : State) (k : ℕ) : Prop :=
  ∃ c ∈ s.connections, ∃ e ∈ c.acceptedSends, e.turn = k ∧ e.msg ∈ c.client.accepted

/-- All messages completed on the connection have reached the server. -/
def Connection.AllDelivered (c : Connection) : Prop :=
  wireOrderSize * c.stream.sent.length ≤ c.delivered

section Lost
variable {s : State} {c : Connection}

theorem Connection.InOrder.accepted_length (h : c.InOrder) :
    c.client.accepted.length = min (c.delivered / wireOrderSize) c.stream.sent.length := by
  rw [h.accepted, List.length_take, List.length_map]

theorem Connection.AllDelivered.acceptedSends (h : c.AllDelivered) (hin : c.InOrder) :
    c.acceptedSends = c.stream.sent := by
  have hle : c.stream.sent.length ≤ c.delivered / wireOrderSize :=
    (Nat.le_div_iff_mul_le (by decide)).mpr (by rw [Nat.mul_comm]; exact h)
  rw [Connection.acceptedSends, hin.accepted_length, Nat.min_eq_right hle, List.take_length]

theorem Connection.InOrder.allDelivered (hin : c.InOrder)
    (h : c.stream.sent.length ≤ c.client.accepted.length) : c.AllDelivered := by
  rw [hin.accepted_length] at h
  rw [Connection.AllDelivered, Nat.mul_comm]
  exact (Nat.le_div_iff_mul_le (by decide)).mp (h.trans (Nat.min_le_left _ _))

/-- Nothing was cut off anywhere if the parts together are everything. -/
theorem le_of_acceptedSends_eq {cs : List Connection}
    (h : cs.flatMap Connection.acceptedSends = cs.flatMap (·.stream.sent)) :
    ∀ c ∈ cs, c.stream.sent.length ≤ c.client.accepted.length := by
  induction cs with
  | nil => simp
  | cons d cs ih =>
    have hsub := (acceptedSends_sublist cs).length_le
    have hlen := congrArg List.length h
    simp only [List.flatMap_cons, List.length_append, Connection.acceptedSends,
      List.length_take] at hlen hsub
    rw [List.flatMap_cons, List.flatMap_cons] at h
    obtain ⟨-, hrest⟩ := List.append_inj h (by
      rw [Connection.acceptedSends, List.length_take]
      omega)
    intro c hc
    rcases List.mem_cons.mp hc with rfl | hc
    · omega
    · exact ih hrest c hc

theorem Inv.turns_idle (h : Inv s) (hidle : s.sender = .idle) :
    s.sent.map Sent.turn = List.range s.taken.length := by
  have ht := h.turns
  rwa [State.inHand, hidle, List.append_nil] at ht

/-- If every turn was accepted, then on every connection everything was. -/
theorem Inv.allDelivered_of_accepted (h : Inv s) (hidle : s.sender = .idle)
    (hall : ∀ k < s.taken.length, s.Accepted k) : ∀ c ∈ s.connections, c.AllDelivered := by
  have hsub : (s.connections.flatMap Connection.acceptedSends).Sublist s.sent :=
    acceptedSends_sublist s.connections
  have hcover : List.range s.taken.length ⊆
      (s.connections.flatMap Connection.acceptedSends).map Sent.turn := by
    intro k hk
    obtain ⟨c, hc, e, he, rfl, -⟩ := hall k (List.mem_range.mp hk)
    exact List.mem_map_of_mem (List.mem_flatMap.mpr ⟨c, hc, he⟩)
  have hlen : s.sent.length ≤ (s.connections.flatMap Connection.acceptedSends).length := by
    have hle := (List.nodup_range.subperm hcover).length_le
    rwa [← h.turns_idle hidle, List.length_map, List.length_map] at hle
  intro c hc
  exact (h.connections c hc).inOrder.allDelivered
    (le_of_acceptedSends_eq (hsub.eq_of_length_le hlen) c hc)

theorem Inv.accepted_of_allDelivered (h : Inv s) (hidle : s.sender = .idle)
    (hall : ∀ c ∈ s.connections, c.AllDelivered) {k : ℕ} (hk : k < s.taken.length) :
    s.Accepted k := by
  have hmem := List.mem_range.mpr hk
  rw [← h.turns_idle hidle] at hmem
  obtain ⟨e, he, rfl⟩ := List.mem_map.mp hmem
  obtain ⟨c, hc, he⟩ := List.mem_flatMap.mp he
  have hin := (h.connections c hc).inOrder
  have he' : e ∈ c.acceptedSends := by
    rw [(hall c hc).acceptedSends hin]
    exact he
  refine ⟨c, hc, e, he', rfl, ?_⟩
  rw [hin.acceptedSends_msg]
  exact List.mem_map_of_mem he'

theorem Inv.conn_allDelivered (h : Inv s) (hidle : s.sender = .idle)
    (hdel : s.conn.delivered = s.conn.stream.written.length) : s.conn.AllDelivered := by
  have hw := h.writing
  simp only [State.Writing, hidle] at hw
  have hframes : ∀ y ∈ s.conn.stream.sent.map (·.msg.bytes), y.length = wireOrderSize := by simp
  have hlen := length_flatten_of_frames hframes
  rw [Connection.AllDelivered, hdel, hw.written, List.append_nil, hlen, List.length_map]

end Lost

/-- Whatever the answers, in every run that ends with an idle sender on a live connection, with
everything delivered and acknowledged there: each order ever taken from the ring was accepted if
and only if each connection that was given up had delivered all messages completed on it. -/
theorem no_order_lost_iff {net : ℕ → AckSocket} {as : List LinkedAction} {s : Linked}
    (hr : Runs (Linked.Step net) Linked.start as s) (hs : s.Settled) :
    (∀ k < s.session.taken.length, s.session.Accepted k) ↔
      ∀ c ∈ s.session.past, c.AllDelivered := by
  have hinv := Linked.runs_inv hr
  constructor
  · intro h c hc
    exact hinv.allDelivered_of_accepted hs.idle h c (List.mem_append_left _ hc)
  · intro h k hk
    refine hinv.accepted_of_allDelivered hs.idle (fun c hc => ?_) hk
    rcases List.mem_append.mp hc with hc | hc
    · exact h c hc
    · rw [List.mem_singleton.mp hc]
      exact hinv.conn_allDelivered hs.idle hs.delivered

/-- A socket for every connection that takes each answer whole. -/
def wholeNet : ℕ → AckSocket := fun _ => .whole fun _ => 7

/-- The second order is cut off by the break of the first connection, and sent again. -/
def cutActions : List LinkedAction := reconnectActions.map .session ++ [.drain 24]

theorem cutActions_end : ∃ s ∈ cutActions.foldlM (Linked.step wholeNet) Linked.start,
    s.Settled ∧ s.session.taken.length = 2 ∧
      s.session.past.map (fun c => (c.stream.sent.length, c.delivered)) = [(1, 46)] := by
  decide +kernel

theorem no_order_lost_iff_cutActions :
    ∃ s, Runs (Linked.Step wholeNet) Linked.start cutActions s ∧ s.Settled ∧
      s.session.taken.length = 2 ∧ s.session.past.length = 1 ∧
      ∀ k < s.session.taken.length, s.session.Accepted k := by
  obtain ⟨s, hs, hsettled, htaken, hpast⟩ := cutActions_end
  have hr : Runs (Linked.Step wholeNet) Linked.start cutActions s := Runs.of_foldlM hs
  have hone := congrArg List.length hpast
  rw [List.length_map] at hone
  refine ⟨s, hr, hsettled, htaken, hone, (no_order_lost_iff hr hsettled).mpr fun c hc => ?_⟩
  have hmem := List.mem_map_of_mem
    (f := fun c : Connection => (c.stream.sent.length, c.delivered)) hc
  rw [hpast, List.mem_singleton, Prod.mk.injEq] at hmem
  rw [Connection.AllDelivered, hmem.1, hmem.2]
  decide

/-- The first connection breaks before its order is delivered. The sender notices with the
second order, which it sends on a new connection. -/
def lossActions : List LinkedAction :=
  [.session (.take buySlot 5), .session (.send 36), .session (.breakOff 0),
    .session (.take cancelSlot 9), .session .reconnect, .session (.send 36), .session .hangUp,
    .session (.recv 36), .drain 24]

theorem lossActions_end : ∃ s ∈ lossActions.foldlM (Linked.step wholeNet) Linked.start,
    s.Settled ∧ s.session.taken.length = 2 ∧
      s.session.connections.map (·.acceptedSends.map Sent.turn) = [[], [1]] := by
  decide +kernel

/-- The first order was taken from the ring and no connection has it. -/
theorem order_lost_on_break :
    ∃ s, Runs (Linked.Step wholeNet) Linked.start lossActions s ∧ s.Settled ∧
      0 < s.session.taken.length ∧ ¬s.session.Accepted 0 := by
  obtain ⟨s, hs, hsettled, htaken, haccepted⟩ := lossActions_end
  refine ⟨s, Runs.of_foldlM hs, hsettled, by omega, ?_⟩
  rintro ⟨c, hc, e, he, hturn, -⟩
  have hmem := List.mem_map_of_mem (f := fun c : Connection => c.acceptedSends.map Sent.turn) hc
  have hzero : 0 ∈ c.acceptedSends.map Sent.turn := hturn ▸ List.mem_map_of_mem he
  rw [haccepted] at hmem
  rcases List.mem_cons.mp hmem with hnil | hone
  · rw [hnil] at hzero
    exact List.not_mem_nil hzero
  · rw [List.mem_singleton.mp hone] at hzero
    exact absurd hzero (by decide)

end TradingPipeline.OrderSession
