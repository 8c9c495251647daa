import TradingPipeline.Order.Session

/-! # Orders are accepted at most once and in order

The bytes of a connection are complete messages numbered from one and, at their end, a part
of one message. A message that was cut off by a break is never complete on its connection, so
sending it again on the next one repeats nothing that the server has seen.
-/
namespace TradingPipeline.OrderSession
open Lib OrderRing

section Numbered

/-- Messages with the sequence numbers one, two, and so on. -/
def Numbered (ms : List WireOrder) : Prop :=
  ∀ k m, ms[k]? = some m → ∃ slot ts, m = wireOrder slot (UInt64.ofNat (k + 1)) ts

variable {ms : List WireOrder}

theorem Numbered.snoc (h : Numbered ms) (slot : Order) (ts : UInt64) :
    Numbered (ms ++ [wireOrder slot (UInt64.ofNat (ms.length + 1)) ts]) := by
  intro k m hk
  rcases Nat.lt_or_ge k ms.length with hlt | hge
  · exact h k m (by rwa [List.getElem?_append_left hlt] at hk)
  · rw [List.getElem?_append_right hge, List.getElem?_singleton] at hk
    split at hk
    · next h0 =>
      have hkl : k = ms.length := by omega
      exact ⟨slot, ts, by rw [hkl]; exact (Option.some.inj hk).symm⟩
    · cases hk

theorem Numbered.of_prefix {ms' : List WireOrder} (h : Numbered ms) (hpre : ms' <+: ms) :
    Numbered ms' := by
  intro k m hk
  obtain ⟨rest, rfl⟩ := hpre
  have hlt := (List.getElem?_eq_some_iff.mp hk).1
  exact h k m (by rwa [List.getElem?_append_left hlt])

/-- The variables of `handle_client` after the messages `ms`, all of which it accepted. -/
structure Client.Took (c : Client) (ms : List WireOrder) : Prop where
  accepted : c.accepted = ms
  orderCount : c.orderCount = UInt64.ofNat ms.length
  expectedSeq : c.expectedSeq = UInt64.ofNat (ms.length + 1)
  badCsum : c.badCsum = 0
  seqGaps : c.seqGaps = 0
  acks : c.acks = ms.map (fun o => (o.seq, AckFlag.ok))

theorem Client.Took.next {c : Client} (h : c.Took ms) (slot : Order) (ts : UInt64) :
    let m := wireOrder slot (UInt64.ofNat (ms.length + 1)) ts
    (c.handleFrame m.bytes).Took (ms ++ [m]) := by
  intro m
  have hcsum : ¬m.checksum ≠ m.wantCsum := not_not.mpr rfl
  have hseq : m.seq = c.expectedSeq := h.expectedSeq.symm
  have haccept : c.handleFrame m.bytes = c.accept m := by
    rw [Client.handleFrame, WireOrder.ofBytes_bytes, if_neg hcsum, if_pos hseq]
  rw [haccept]
  refine ⟨?_, ?_, ?_, h.badCsum, h.seqGaps, ?_⟩
  · exact congrArg (· ++ [m]) h.accepted
  · rw [List.length_append, List.length_singleton, UInt64.ofNat_add]
    exact congrArg (· + 1) h.orderCount
  · rw [List.length_append, List.length_singleton, UInt64.ofNat_add (ms.length + 1)]
    rfl
  · rw [List.map_append, ← h.acks]
    rfl

theorem Numbered.took (h : Numbered ms) :
    ((ms.map WireOrder.bytes).foldl Client.handleFrame Client.start).Took ms := by
  induction ms using List.reverseRecOn with
  | nil => exact ⟨rfl, rfl, rfl, rfl, rfl, rfl⟩
  | append_singleton ms m ih =>
    have hlast : (ms ++ [m])[ms.length]? = some m := by simp
    obtain ⟨slot, ts, hm⟩ := h ms.length m hlast
    have hms := ih (h.of_prefix (List.prefix_append ms [m]))
    rw [List.map_append, List.foldl_append, hm]
    exact hms.next slot ts

end Numbered

section Connections
variable {c c' : Connection} {st : Stream} {part : List UInt8}

/-- What was written on a connection: complete messages, and a part of one more. -/
structure Stream.Ok (st : Stream) (part : List UInt8) : Prop where
  written : st.written = (st.sent.map (·.msg.bytes)).flatten ++ part
  part_lt : part.length < wireOrderSize
  numbered : Numbered (st.sent.map Sent.msg)

structure Connection.Ok (c : Connection) : Prop where
  stream : ∃ part, c.stream.Ok part
  delivered : c.delivered ≤ c.stream.written.length
  read : HasRead wireOrderSize Client.handleFrame Client.start
    (c.stream.written.take c.delivered) (c.client, c.carry)

theorem Stream.ok_nil : Stream.Ok ⟨[], []⟩ [] :=
  ⟨rfl, by decide, fun k m hk => by simp at hk⟩

theorem Connection.fresh_ok : Connection.fresh.Ok :=
  ⟨⟨[], Stream.ok_nil⟩, Nat.zero_le _, HasRead.start (by decide)⟩

theorem ServerMove.stream_eq (h : ServerMove c c') : c'.stream = c.stream := by
  cases h <;> rfl

theorem ServerMove.ok (h : ServerMove c c') (hc : c.Ok) : c'.Ok := by
  cases h with
  | broken => exact ⟨hc.stream, hc.delivered, hc.read⟩
  | recv hn =>
    refine ⟨hc.stream, hn, ?_⟩
    rw [Connection.recv, List.take_add]
    exact hc.read.read (by decide) le_rfl

theorem Connection.Ok.write (hc : c.Ok) {bytes : List UInt8} {done : List Sent}
    (hst : (c.write bytes done).stream.Ok part) : (c.write bytes done).Ok := by
  refine ⟨⟨part, hst⟩, ?_, ?_⟩
  · exact hc.delivered.trans (by simp [Connection.write])
  · have htake : (c.stream.written ++ bytes).take c.delivered = c.stream.written.take c.delivered :=
      List.take_append_of_le_length hc.delivered
    simp only [Connection.write, htake]
    exact hc.read

theorem WireOrder.take_remaining (msg : WireOrder) {remaining n : ℕ}
    (hrem : remaining ≤ wireOrderSize)
    (hn : n ≤ remaining) : msg.bytes.take (wireOrderSize - remaining) ++
      (msg.bytes.drop (wireOrderSize - remaining)).take n =
        msg.bytes.take (wireOrderSize - (remaining - n)) := by
  rw [← List.take_add]
  congr 1
  omega

theorem Connection.write_part {msg : WireOrder} {remaining n : ℕ}
    (hst : c.stream.Ok (msg.bytes.take (wireOrderSize - remaining)))
    (hrem : remaining ≤ wireOrderSize) (hlt : n < remaining) :
    (c.write ((msg.bytes.drop (wireOrderSize - remaining)).take n) []).stream.Ok
      (msg.bytes.take (wireOrderSize - (remaining - n))) := by
  refine ⟨?_, ?_, ?_⟩
  · simp only [Connection.write, List.append_nil, hst.written, List.append_assoc,
      msg.take_remaining hrem (Nat.le_of_lt hlt)]
  · rw [List.length_take, msg.bytes_length]
    simp only [wireOrderSize] at hrem ⊢
    omega
  · simpa only [Connection.write, List.append_nil] using hst.numbered

theorem Connection.write_last {slot : Order} {ts : UInt64} {msg : WireOrder} {remaining k : ℕ}
    (hst : c.stream.Ok (msg.bytes.take (wireOrderSize - remaining)))
    (hrem : remaining ≤ wireOrderSize)
    (hmsg : msg = wireOrder slot (UInt64.ofNat (c.stream.sent.length + 1)) ts) :
    (c.write ((msg.bytes.drop (wireOrderSize - remaining)).take remaining)
      [⟨k, msg⟩]).stream.Ok [] := by
  have hall := msg.take_remaining hrem le_rfl
  rw [Nat.sub_self, Nat.sub_zero, List.take_of_length_le (Nat.le_of_eq msg.bytes_length)] at hall
  refine ⟨?_, by decide, ?_⟩
  · simp only [Connection.write, hst.written, List.append_assoc, hall, List.map_append,
      List.flatten_append]
    simp
  · have hnum := hst.numbered.snoc slot ts
    rw [List.length_map, ← hmsg] at hnum
    simpa [Connection.write] using hnum

theorem Connection.Ok.took (hc : c.Ok) :
    c.client.Took ((c.stream.sent.map Sent.msg).take (c.delivered / wireOrderSize)) := by
  obtain ⟨part, hst⟩ := hc.stream
  have hframes : ∀ y ∈ c.stream.sent.map (·.msg.bytes), y.length = wireOrderSize := by
    intro y hy
    obtain ⟨e, _, rfl⟩ := List.mem_map.mp hy
    exact e.msg.bytes_length
  have hpre : c.stream.written.take c.delivered <+: (c.stream.sent.map (·.msg.bytes)).flatten ++
    part :=
    hst.written ▸ List.take_prefix _ _
  have hclient := hc.read.of_prefix hframes hst.part_lt hpre
  rw [List.length_take, Nat.min_eq_left hc.delivered] at hclient
  have hmap : (c.stream.sent.map (·.msg.bytes)).take (c.delivered / wireOrderSize) =
      ((c.stream.sent.map Sent.msg).take (c.delivered / wireOrderSize)).map WireOrder.bytes := by
    rw [List.map_take, List.map_map]
    rfl
  rw [hclient, hmap]
  exact (hst.numbered.of_prefix (List.take_prefix _ _)).took

end Connections

/-- The message is one for the order taken in its turn. -/
def Sent.For (e : Sent) (taken : List Order) : Prop :=
  ∃ slot ∈ taken[e.turn]?, ∃ seq ts, e.msg = wireOrder slot seq ts

theorem Sent.For.append {e : Sent} {taken : List Order} (h : e.For taken) (slot : Order) :
    e.For (taken ++ [slot]) := by
  obtain ⟨o, ho, hmsg⟩ := h
  have hlt := (List.getElem?_eq_some_iff.mp ho).1
  exact ⟨o, by rwa [List.getElem?_append_left hlt], hmsg⟩

/-- Every message completed on some connection, in the order of the connections. -/
def State.sent (s : State) : List Sent := s.connections.flatMap (·.stream.sent)

/-- The turn of the order that the sender is writing. -/
def State.inHand (s : State) : List ℕ :=
  match s.sender with
  | .idle => []
  | .sending _ _ => [s.taken.length - 1]

/-- What stands on the sender's connection behind the complete messages. -/
def State.Writing (s : State) : Prop :=
  match s.sender with
  | .idle => s.conn.stream.Ok []
  | .sending msg remaining =>
    remaining ≤ wireOrderSize ∧ s.conn.stream.Ok (msg.bytes.take (wireOrderSize - remaining)) ∧
      ∃ slot ∈ s.taken[s.taken.length - 1]?, ∃ ts, msg = wireOrder slot s.nextSeq ts

structure Inv (s : State) : Prop where
  connections : ∀ c ∈ s.connections, c.Ok
  writing : s.Writing
  nextSeq : s.nextSeq = UInt64.ofNat (s.conn.stream.sent.length + 1)
  turns : s.sent.map Sent.turn ++ s.inHand = List.range s.taken.length
  orders : ∀ e ∈ s.sent, e.For s.taken

section Steps
variable {s t : State}

theorem start_inv : Inv State.start where
  connections c hc := by
    rw [State.connections, State.start, List.nil_append, List.mem_singleton] at hc
    exact hc ▸ Connection.fresh_ok
  writing := Stream.ok_nil
  nextSeq := rfl
  turns := rfl
  orders e he := by simp [State.sent, State.connections, State.start, Connection.fresh] at he

theorem Inv.take (h : Inv s) (hs : s.sender = .idle) (slot : Order) (ts : UInt64) :
    Inv { s with
      sender := .sending (wireOrder slot s.nextSeq ts) wireOrderSize
      taken := s.taken ++ [slot] } where
  connections := h.connections
  writing := by
    have hw := h.writing
    simp only [State.Writing, hs] at hw
    refine ⟨le_rfl, ?_, slot, by simp, ts, rfl⟩
    rwa [Nat.sub_self, List.take_zero]
  nextSeq := h.nextSeq
  turns := by
    have ht := h.turns
    simp only [State.inHand, hs, List.append_nil] at ht
    simp only [State.inHand, List.length_append, List.length_singleton, Nat.add_sub_cancel,
      List.range_succ, ← ht]
    rfl
  orders e he := (h.orders e he).append slot

theorem Inv.reconnect (h : Inv s) {msg : WireOrder} {remaining : ℕ}
    (hs : s.sender = .sending msg remaining) :
    Inv { s with
      past := s.connections
      conn := .fresh
      nextSeq := 1
      sender := .sending (WireOrder.withChecksum { msg with seq := 1 }) wireOrderSize } := by
  have hsent : (s.connections ++ [Connection.fresh]).flatMap (·.stream.sent) = s.sent := by
    simp [State.sent, Connection.fresh]
  have hw := h.writing
  simp only [State.Writing, hs] at hw
  obtain ⟨_, _, slot, hslot, ts, rfl⟩ := hw
  refine ⟨?_, ⟨le_rfl, ?_, slot, hslot, ts, rfl⟩, rfl, ?_, ?_⟩
  · intro c hc
    rcases List.mem_append.mp hc with hc | hc
    · exact h.connections c hc
    · exact List.mem_singleton.mp hc ▸ Connection.fresh_ok
  · rw [Nat.sub_self, List.take_zero]
    exact Stream.ok_nil
  · have ht := h.turns
    simp only [State.inHand, hs] at ht
    simp only [State.sent, State.connections, State.inHand] at hsent ⊢
    rw [hsent]
    exact ht
  · intro e he
    exact h.orders e (hsent ▸ he)

theorem Inv.serve (h : Inv s) {i k : ℕ} {c c' : Connection} (hc : s.connections[i]? = some c)
    (hm : ServerMove c c') : Inv { s.setConnection i c' with serving := k } := by
  obtain ⟨l, r, hold, hnew, hconn⟩ := State.setConnection_spec hc hm.stream_eq
  have hrest : (s.setConnection i c').sender = s.sender ∧ (s.setConnection i c').taken = s.taken ∧
      (s.setConnection i c').nextSeq = s.nextSeq := by
    unfold State.setConnection
    split <;> exact ⟨rfl, rfl, rfl⟩
  obtain ⟨hsender, htaken, hseq⟩ := hrest
  have hsent : (s.setConnection i c').sent = s.sent := by
    simp only [State.sent, hold, hnew, List.flatMap_append, List.flatMap_cons, hm.stream_eq]
  generalize s.setConnection i c' = t at *
  refine ⟨?_, ?_, ?_, ?_, ?_⟩
  · intro d hd
    have hd' : d ∈ l ++ c' :: r := hnew ▸ hd
    have hall := h.connections
    rw [hold] at hall
    rcases List.mem_append.mp hd' with hd' | hd'
    · exact hall d (List.mem_append_left _ hd')
    · rcases List.mem_cons.mp hd' with rfl | hd'
      · exact hm.ok (hall c (List.mem_append_right _ List.mem_cons_self))
      · exact hall d (List.mem_append_right _ (List.mem_cons_of_mem c hd'))
  · have hw := h.writing
    simpa only [State.Writing, hsender, htaken, hseq, hconn] using hw
  · rw [hseq, hconn]
    exact h.nextSeq
  · have ht := h.turns
    simp only [State.inHand] at ht ⊢
    rw [hsender, htaken, ← ht, ← hsent]
    rfl
  · intro e he
    exact htaken ▸ h.orders e (hsent ▸ he)

theorem State.sent_write (s : State) (bytes : List UInt8) (done : List Sent) :
    (s.past ++ [s.conn.write bytes done]).flatMap (·.stream.sent) = s.sent ++ done := by
  simp [State.sent, State.connections, Connection.write]

theorem Inv.write (h : Inv s) {bytes part : List UInt8} {done : List Sent}
    (hst : (s.conn.write bytes done).stream.Ok part) :
    ∀ c ∈ s.past ++ [s.conn.write bytes done], c.Ok := by
  intro c hc
  rcases List.mem_append.mp hc with hc | hc
  · exact h.connections c (List.mem_append_left _ hc)
  · rw [List.mem_singleton.mp hc]
    exact (h.connections s.conn (by simp [State.connections])).write hst

theorem Inv.send (h : Inv s) {msg : WireOrder} {remaining n : ℕ}
    (hs : s.sender = .sending msg remaining) (hn : n ≤ remaining) :
    Inv (sendBytes s msg remaining n) := by
  have hw := h.writing
  simp only [State.Writing, hs] at hw
  obtain ⟨hrem, hst, slot, hslot, ts, hmsg⟩ := hw
  have hturns := h.turns
  simp only [State.inHand, hs] at hturns
  unfold sendBytes
  split
  · next hlt =>
    have hst' := Connection.write_part hst hrem hlt
    have hsent := s.sent_write ((msg.bytes.drop (wireOrderSize - remaining)).take n) []
    rw [List.append_nil] at hsent
    refine ⟨h.write hst', ⟨by omega, hst', slot, hslot, ts, hmsg⟩, ?_, ?_, ?_⟩
    · simpa only [Connection.write, List.append_nil] using h.nextSeq
    · simp only [State.sent, State.connections, State.inHand] at hsent ⊢
      rw [hsent]
      exact hturns
    · intro e he
      exact h.orders e (hsent ▸ he)
  · next hge =>
    obtain rfl : n = remaining := by omega
    have hst' := Connection.write_last (k := s.taken.length - 1) hst hrem (h.nextSeq ▸ hmsg)
    have hsent := s.sent_write ((msg.bytes.drop (wireOrderSize - n)).take n)
      [⟨s.taken.length - 1, msg⟩]
    refine ⟨h.write hst', hst', ?_, ?_, ?_⟩
    · simp only [Connection.write, List.length_append, List.length_singleton, UInt64.ofNat_add,
        h.nextSeq]
      rfl
    · simp only [State.sent, State.connections, State.inHand, List.append_nil] at hsent ⊢
      rw [hsent, List.map_append]
      exact hturns
    · intro e he
      have he' : e ∈ s.sent ++ [⟨s.taken.length - 1, msg⟩] := by
        rw [← hsent]
        exact he
      rcases List.mem_append.mp he' with he' | he'
      · exact h.orders e he'
      · rw [List.mem_singleton.mp he']
        exact ⟨slot, hslot, s.nextSeq, ts, hmsg⟩

theorem Step.inv {a : Action} (hstep : Step s a t) (h : Inv s) : Inv t := by
  cases hstep.moves with
  | take slot ts hs => exact h.take hs slot ts
  | send hs hn => exact h.send hs hn
  | stutter => exact h
  | reconnect hs => exact h.reconnect hs
  | serve hc hm => exact h.serve hc hm

theorem runs_inv {as : List Action} (hr : Runs Step State.start as s) : Inv s :=
  hr.invariant start_inv (fun _ _ _ hs he => he.inv hs)

end Steps

/-- What the server has accepted on a connection: as many of the messages sent there as were
delivered in full, with sequence numbers counting up from one modulo `2 ^ 64`. -/
structure Connection.InOrder (c : Connection) : Prop where
  accepted : c.client.accepted = (c.stream.sent.map Sent.msg).take (c.delivered / wireOrderSize)
  counted : c.client.orderCount = UInt64.ofNat c.client.accepted.length
  seqs : c.client.accepted.map (·.seq.toNat) =
    (List.range c.client.accepted.length).map (fun k => (k + 1) % 2 ^ 64)
  badCsum : c.client.badCsum = 0
  seqGaps : c.client.seqGaps = 0

/-- The sends of the orders that the server accepted on a connection. -/
def Connection.acceptedSends (c : Connection) : List Sent :=
  c.stream.sent.take c.client.accepted.length

theorem Numbered.seqs {ms : List WireOrder} (h : Numbered ms) :
    ms.map (·.seq.toNat) = (List.range ms.length).map (fun k => (k + 1) % 2 ^ 64) := by
  refine List.ext_getElem (by simp) (fun k hk _ => ?_)
  rw [List.length_map] at hk
  obtain ⟨slot, ts, hm⟩ := h k ms[k] (List.getElem?_eq_getElem hk)
  rw [List.getElem_map, hm, List.getElem_map, List.getElem_range, wireOrder_seq,
    UInt64.toNat_ofNat']

theorem Connection.Ok.inOrder {c : Connection} (hc : c.Ok) : c.InOrder := by
  have htook := hc.took
  obtain ⟨part, hst⟩ := hc.stream
  have hnum := (hst.numbered.of_prefix (List.take_prefix (c.delivered / wireOrderSize) _)).seqs
  rw [← htook.accepted] at hnum
  exact ⟨htook.accepted, by rw [htook.orderCount, htook.accepted], hnum, htook.badCsum,
    htook.seqGaps⟩

theorem Connection.InOrder.acceptedSends_msg {c : Connection} (h : c.InOrder) :
    c.client.accepted = c.acceptedSends.map Sent.msg := by
  have hpre : c.client.accepted <+: c.stream.sent.map Sent.msg := by
    rw [h.accepted]
    exact List.take_prefix _ _
  rw [Connection.acceptedSends, List.map_take]
  exact List.prefix_iff_eq_take.mp hpre

theorem acceptedSends_sublist (cs : List Connection) :
    (cs.flatMap Connection.acceptedSends).Sublist (cs.flatMap (·.stream.sent)) := by
  induction cs with
  | nil => exact List.Sublist.refl _
  | cons c cs ih => exact (List.take_sublist _ _).append ih

/-- At most once and in order, for every run with any number of reconnects: each connection is
in order, and over all connections together the turns of the accepted orders form a
subsequence of the turns in which orders were taken from the ring. -/
theorem orders_accepted_at_most_once {s : State} {as : List Action}
    (hr : Runs Step State.start as s) :
    (∀ c ∈ s.connections, c.InOrder ∧ c.client.accepted = c.acceptedSends.map Sent.msg) ∧
    ((s.connections.flatMap Connection.acceptedSends).map Sent.turn).Sublist
      (List.range s.taken.length) ∧
    ∀ e ∈ s.connections.flatMap Connection.acceptedSends, e.For s.taken := by
  have h := runs_inv hr
  have hsub : (s.connections.flatMap Connection.acceptedSends).Sublist s.sent :=
    acceptedSends_sublist s.connections
  refine ⟨?_, ?_, fun e he => h.orders e (hsub.subset he)⟩
  · intro c hc
    have hin := (h.connections c hc).inOrder
    exact ⟨hin, hin.acceptedSends_msg⟩
  · rw [← h.turns]
    exact (hsub.map Sent.turn).trans (List.sublist_append_left _ _)

def buySlot : Order := (Submission.mk 13 66 32000 100 5).order 1
def cancelSlot : Order := (Submission.mk 13 66 32000 0 6).order 2

/-- The second order is cut off after ten bytes and sent again on a new connection. -/
def reconnectActions : List Action :=
  [.take buySlot 5, .send 36, .recv 20, .take cancelSlot 9, .send 10, .recv 26, .breakOff 0,
    .reconnect, .eagain, .send 16, .hangUp, .recv 16, .send 20, .recv 20]

theorem reconnectActions_end : ∃ s ∈ reconnectActions.foldlM step State.start,
    s.past.length = 1 ∧ s.connections.map (·.client.accepted.length) = [1, 1] := by
  decide +kernel

theorem orders_accepted_at_most_once_reconnect :
    ∃ s, Runs Step State.start reconnectActions s ∧ s.past.length = 1 ∧
      s.connections.map (·.client.accepted.length) = [1, 1] ∧ (∀ c ∈ s.connections, c.InOrder) ∧
      ((s.connections.flatMap Connection.acceptedSends).map Sent.turn).Sublist
        (List.range s.taken.length) := by
  obtain ⟨s, hs, hpast, hacc⟩ := reconnectActions_end
  have hr : Runs Step State.start reconnectActions s := Runs.of_foldlM hs
  have h := orders_accepted_at_most_once hr
  exact ⟨s, hr, hpast, hacc, fun c hc => (h.1 c hc).1, h.2.1⟩

section Wrap

/-- The first connection is up, and `n` orders were sent and delivered on it. -/
def Drained (s : State) (n : ℕ) : Prop :=
  s.sender = .idle ∧ s.past = [] ∧ s.serving = 0 ∧ s.conn.broken = false ∧
    s.conn.delivered = s.conn.stream.written.length ∧ s.conn.stream.sent.length = n

theorem drained_round {s : State} {n : ℕ} (h : Drained s n) :
    ∃ as t, Runs Step s as t ∧ Drained t (n + 1) := by
  obtain ⟨hidle, hpast, hserving, hup, hdel, hn⟩ := h
  let msg := wireOrder buySlot s.nextSeq 0
  have htake : Step s (.take buySlot 0) { s with
      sender := .sending msg wireOrderSize
      taken := s.taken ++ [buySlot] } := by
    simp only [Step, step, senderStep, hidle, Option.some_or, msg]
  let c := s.conn.write msg.bytes [⟨s.taken.length, msg⟩]
  have hbytes : msg.bytes.take 36 = msg.bytes :=
    List.take_of_length_le (Nat.le_of_eq msg.bytes_length)
  have hsent := (Runs.single htake).snoc (a := .send wireOrderSize) (u := { s with
      sender := .idle
      taken := s.taken ++ [buySlot]
      nextSeq := s.nextSeq + 1
      conn := c }) (by
    simp [Step, step, senderStep, sendBytes, hbytes, c, wireOrderSize])
  have hrecv := hsent.snoc (a := .recv wireOrderSize) (u := { s with
      sender := .idle
      taken := s.taken ++ [buySlot]
      nextSeq := s.nextSeq + 1
      conn := c.recv wireOrderSize }) (by
    simp [Step, step, senderStep, serverStep, State.connections, State.setConnection, hpast,
      hserving, hup, hdel, c, Connection.write, wireOrderSize, bufSize])
  refine ⟨_, _, hrecv, rfl, hpast, hserving, hup, ?_, ?_⟩
  · simp [Connection.recv, c, Connection.write, hdel]
  · simp [Connection.recv, c, Connection.write, hn]

theorem drained_reachable (n : ℕ) : ∃ as s, Runs Step State.start as s ∧ Drained s n := by
  induction n with
  | zero => exact ⟨[], State.start, .nil, rfl, rfl, rfl, rfl, rfl, rfl⟩
  | succ n ih =>
    obtain ⟨as, s, hr, hs⟩ := ih
    obtain ⟨bs, t, hr', ht⟩ := drained_round hs
    exact ⟨as ++ bs, t, hr.trans hr', ht⟩

theorem Drained.accepted_length {s : State} {n : ℕ} (h : Drained s n) (hinv : Inv s) :
    s.conn.client.accepted.length = n := by
  obtain ⟨hidle, _, _, _, hdel, hn⟩ := h
  have hw := hinv.writing
  simp only [State.Writing, hidle] at hw
  have hok : s.conn.Ok := hinv.connections s.conn (by simp [State.connections])
  have hframes : ∀ y ∈ s.conn.stream.sent.map (·.msg.bytes), y.length = wireOrderSize := by
    simp
  have hlen := length_flatten_of_frames hframes
  rw [hok.inOrder.accepted, hdel, hw.written, List.append_nil, hlen, List.length_map, hn,
    Nat.mul_div_cancel_left n (by decide)]
  simp [hn]

/-- The sequence number is a 64-bit counter: after `2 ^ 64` orders on one connection the
accepted ones no longer count up from one. -/
theorem seq_wraps :
    ∃ as s, Runs Step State.start as s ∧ ∃ c ∈ s.connections,
      c.client.accepted.map (·.seq.toNat) ≠ (List.range c.client.accepted.length).map (· + 1) := by
  obtain ⟨as, s, hr, hd⟩ := drained_reachable (2 ^ 64)
  have hinv := runs_inv hr
  have hmem : s.conn ∈ s.connections := by simp [State.connections]
  have hlen := hd.accepted_length hinv
  have hseqs := (hinv.connections s.conn hmem).inOrder.seqs
  refine ⟨as, s, hr, s.conn, hmem, ?_⟩
  rw [hseqs, hlen]
  intro he
  have hlast := congrArg (·[2 ^ 64 - 1]?) he
  simp only [List.getElem?_map] at hlast
  rw [List.getElem?_range (by omega)] at hlast
  have hz : (2 ^ 64 - 1 + 1) % 2 ^ 64 = 2 ^ 64 - 1 + 1 := Option.some.inj hlast
  omega

end Wrap

end TradingPipeline.OrderSession
