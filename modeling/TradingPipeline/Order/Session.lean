import TradingPipeline.Lib.FixedFrames
import TradingPipeline.Lib.Runs
import TradingPipeline.Order.Wire

/-! # The order session between `order_sender_thread` and `handle_client`

Each connection is a byte stream that arrives in pieces of any size and may break at any
time, which loses what was not delivered. The sender may be told so late: until `send`
fails it goes on writing into a broken connection. A failed `send` opens a new
connection, on which the order in hand is sent again from its first byte. The server
serves the connections one after the other.
-/
namespace TradingPipeline.OrderSession
open Lib OrderRing

inductive AckFlag
  | ok | badCsum | seqGap
  deriving DecidableEq, Repr

/-- The local variables of `handle_client`, the orders it accepted and the
acknowledgements it sent. -/
structure Client where
  orderCount : UInt64
  loggedCount : UInt64
  expectedSeq : UInt64
  badCsum : UInt64
  seqGaps : UInt64
  accepted : List WireOrder
  acks : List (UInt64 × AckFlag)
  deriving DecidableEq, Repr

namespace Client

def start : Client where
  orderCount := 0
  loggedCount := 0
  expectedSeq := 1
  badCsum := 0
  seqGaps := 0
  accepted := []
  acks := []

def sendAck (c : Client) (seq : UInt64) (flag : AckFlag) : Client :=
  { c with acks := c.acks ++ [(seq, flag)] }

/-- The end of a turn in which the order is taken. Every hundredth order is logged. -/
def accept (c : Client) (o : WireOrder) : Client :=
  { c.sendAck o.seq .ok with
    loggedCount := if c.orderCount % 100 = 0 then c.loggedCount + 1 else c.loggedCount
    orderCount := c.orderCount + 1
    expectedSeq := o.seq + 1
    accepted := c.accepted ++ [o] }

/-- One turn of the inner loop of `handle_client`. -/
def handleFrame (c : Client) (frame : List UInt8) : Client :=
  let o := WireOrder.ofBytes frame
  if o.checksum ≠ o.wantCsum then
    { c with badCsum := c.badCsum + 1 }.sendAck o.seq .badCsum
  else if o.seq = c.expectedSeq then c.accept o
  else if c.expectedSeq < o.seq then
    -- skip ahead: the missing orders are given up
    ({ c with seqGaps := c.seqGaps + 1, expectedSeq := o.seq }.sendAck (c.expectedSeq - 1)
      .seqGap).accept o
  else c.sendAck (c.expectedSeq - 1) .ok

end Client

/-- A message whose last byte was written. `turn` says for which of the orders taken from
the ring, counted from zero. -/
structure Sent where
  turn : ℕ
  msg : WireOrder
  deriving DecidableEq, Repr

/-- The bytes that `send` took on one connection, and the messages completed there. -/
structure Stream where
  written : List UInt8
  sent : List Sent
  deriving DecidableEq, Repr

/-- One connection, with the server's variables for it. Of the bytes written the first
`delivered` were returned by `recv`. -/
structure Connection where
  stream : Stream
  broken : Bool
  delivered : ℕ
  client : Client
  carry : List UInt8
  deriving DecidableEq, Repr

def Connection.fresh : Connection := ⟨⟨[], []⟩, false, 0, Client.start, []⟩

def bufSize : ℕ := 4096

/-- `recv` returned `n` bytes. -/
def Connection.recv (c : Connection) (n : ℕ) : Connection :=
  let buf := c.carry ++ (c.stream.written.drop c.delivered).take n
  let r := readFrames wireOrderSize Client.handleFrame buf.length c.client buf
  { c with delivered := c.delivered + n, client := r.1, carry := r.2 }

/-- `send` took `bytes`, which complete the messages `done`. -/
def Connection.write (c : Connection) (bytes : List UInt8) (done : List Sent) : Connection :=
  { c with stream := ⟨c.stream.written ++ bytes, c.stream.sent ++ done⟩ }

/-- Where the sender stands: between orders, or with `remaining` bytes still to write. -/
inductive Sender
  | idle
  | sending (msg : WireOrder) (remaining : ℕ)

/-- The sender's variables, all connections with the sender's own one last, how many of
them the server is done with, and the orders taken from the ring so far. -/
structure State where
  sender : Sender
  nextSeq : UInt64
  past : List Connection
  conn : Connection
  serving : ℕ
  taken : List Order

namespace State

def start : State := ⟨.idle, 1, [], .fresh, 0, []⟩

def connections (s : State) : List Connection := s.past ++ [s.conn]

def setConnection (s : State) (i : ℕ) (c : Connection) : State :=
  if i < s.past.length then { s with past := s.past.set i c } else { s with conn := c }

end State

inductive Action
  | take (slot : Order) (sendNs : UInt64)
  | send (n : ℕ)
  | eagain
  | reconnect
  | recv (n : ℕ)
  | breakOff (i : ℕ)
  | hangUp

/-- `send` took `n` of the remaining bytes. -/
def sendBytes (s : State) (msg : WireOrder) (remaining n : ℕ) : State :=
  let bytes := (msg.bytes.drop (wireOrderSize - remaining)).take n
  if n < remaining then
    { s with
      conn := s.conn.write bytes []
      sender := .sending msg (remaining - n) }
  else
    { s with
      conn := s.conn.write bytes [⟨s.taken.length - 1, msg⟩]
      nextSeq := s.nextSeq + 1
      sender := .idle }

def senderStep (s : State) : Action → Option State
  | .take slot sendNs =>
    match s.sender with
    | .idle =>
      some { s with
        sender := .sending (wireOrder slot s.nextSeq sendNs) wireOrderSize
        taken := s.taken ++ [slot] }
    | .sending _ _ => none
  | .send n =>
    match s.sender with
    | .sending msg remaining =>
      if 0 < n ∧ n ≤ remaining then some (sendBytes s msg remaining n) else none
    | .idle => none
  | .eagain => some s
  | .reconnect =>
    match s.sender with
    | .sending msg _ =>
      some { s with
        past := s.connections
        conn := .fresh
        nextSeq := 1
        sender := .sending (WireOrder.withChecksum { msg with seq := 1 }) wireOrderSize }
    | .idle => none
  | _ => none

/-- One step of the server or of the network. `recv` returns nothing more once the
connection is broken or closed by the sender and read to its end; a server that cannot
open its log leaves at once. -/
def serverStep (s : State) : Action → Option State
  | .recv n =>
    match s.connections[s.serving]? with
    | some c =>
      if c.broken = false ∧ 0 < n ∧ n ≤ bufSize ∧ c.delivered + n ≤ c.stream.written.length then
        some (s.setConnection s.serving (c.recv n))
      else none
    | none => none
  | .breakOff i =>
    match s.connections[i]? with
    | some c => some (s.setConnection i { c with broken := true })
    | none => none
  | .hangUp =>
    match s.connections[s.serving]? with
    | some c =>
      if c.broken = true ∨ c.delivered = 0 ∨
          (s.serving < s.past.length ∧ c.delivered = c.stream.written.length) then
        some { s.setConnection s.serving { c with broken := true } with serving := s.serving + 1 }
      else none
    | none => none
  | _ => none

def step (s : State) (a : Action) : Option State := (senderStep s a).or (serverStep s a)

def Step (s : State) (a : Action) (t : State) : Prop := step s a = some t

/-- What the server and the network can do to a connection. -/
inductive ServerMove (c : Connection) : Connection → Prop
  | recv {n : ℕ} (hn : c.delivered + n ≤ c.stream.written.length) : ServerMove c (c.recv n)
  | broken : ServerMove c { c with broken := true }

inductive Moves (s : State) : State → Prop
  | take (slot : Order) (sendNs : UInt64) (hs : s.sender = .idle) :
      Moves s { s with
        sender := .sending (wireOrder slot s.nextSeq sendNs) wireOrderSize
        taken := s.taken ++ [slot] }
  | send {msg : WireOrder} {remaining n : ℕ} (hs : s.sender = .sending msg remaining)
      (hn : n ≤ remaining) : Moves s (sendBytes s msg remaining n)
  | stutter : Moves s s
  | reconnect {msg : WireOrder} {remaining : ℕ} (hs : s.sender = .sending msg remaining) :
      Moves s { s with
        past := s.connections
        conn := .fresh
        nextSeq := 1
        sender := .sending (WireOrder.withChecksum { msg with seq := 1 }) wireOrderSize }
  | serve {i k : ℕ} {c c' : Connection} (hc : s.connections[i]? = some c) (h : ServerMove c c') :
      Moves s { s.setConnection i c' with serving := k }

theorem Step.moves {s t : State} {a : Action} (h : Step s a t) : Moves s t := by
  unfold Step step at h
  cases a with
  | take slot sendNs =>
    cases hs : s.sender with
    | idle =>
      simp only [senderStep, hs, Option.some_or, Option.some.injEq] at h
      exact h ▸ .take slot sendNs hs
    | sending msg remaining => simp [senderStep, serverStep, hs] at h
  | send n =>
    cases hs : s.sender with
    | idle => simp [senderStep, serverStep, hs] at h
    | sending msg remaining =>
      simp only [senderStep, serverStep, hs, Option.or_none] at h
      split at h
      · next hn => exact Option.some.inj h ▸ .send hs hn.2
      · cases h
  | eagain =>
    simp only [senderStep, Option.some_or, Option.some.injEq] at h
    exact h ▸ .stutter
  | reconnect =>
    cases hs : s.sender with
    | idle => simp [senderStep, serverStep, hs] at h
    | sending msg remaining =>
      simp only [senderStep, hs, Option.some_or, Option.some.injEq] at h
      exact h ▸ .reconnect hs
  | recv n =>
    simp only [senderStep, serverStep, Option.none_or] at h
    split at h
    · next c hc =>
      split at h
      · next hn => exact Option.some.inj h ▸ .serve hc (.recv hn.2.2.2)
      · cases h
    · cases h
  | breakOff i =>
    simp only [senderStep, serverStep, Option.none_or] at h
    split at h
    · next c hc => exact Option.some.inj h ▸ .serve hc .broken
    · cases h
  | hangUp =>
    simp only [senderStep, serverStep, Option.none_or] at h
    split at h
    · next c hc =>
      split at h
      · exact Option.some.inj h ▸ .serve hc .broken
      · cases h
    · cases h

theorem State.setConnection_spec {s : State} {i : ℕ} {c c' : Connection}
    (hc : s.connections[i]? = some c) (hst : c'.stream = c.stream) :
    ∃ l r, s.connections = l ++ c :: r ∧ (s.setConnection i c').connections = l ++ c' :: r ∧
      (s.setConnection i c').conn.stream = s.conn.stream := by
  unfold State.connections at hc
  unfold State.setConnection
  split
  · next hi =>
    rw [List.getElem?_append_left hi] at hc
    obtain ⟨hlt, hget⟩ := List.getElem?_eq_some_iff.mp hc
    have hset := List.set_eq_take_append_cons_drop (l := s.past) (i := i) (a := c')
    have hpast : s.past = s.past.take i ++ c :: s.past.drop (i + 1) := by
      rw [← hget, ← List.drop_eq_getElem_cons hlt, List.take_append_drop]
    refine ⟨s.past.take i, s.past.drop (i + 1) ++ [s.conn], ?_, ?_, rfl⟩
    · rw [State.connections, ← List.cons_append, ← List.append_assoc, ← hpast]
    · simp only [State.connections, hset, if_pos hlt, List.append_assoc, List.cons_append]
  · next hi =>
    have hle : s.past.length ≤ i := Nat.le_of_not_lt hi
    rw [List.getElem?_append_right hle] at hc
    obtain ⟨_, hget⟩ := List.getElem?_eq_some_iff.mp hc
    have hconn : s.conn = c := by simpa using hget
    exact ⟨s.past, [], by rw [State.connections, hconn], rfl, hst.trans (by rw [hconn])⟩

end TradingPipeline.OrderSession
