import TradingPipeline.Receiver.State
import TradingPipeline.Lib.BoundedLoop
import TradingPipeline.Lib.Scan

/-! # Sequencing of one packet

`handle_payload` with the functions it calls. A result `none` means that the model
has no answer: a copy ran past the end of the reorder pool, or a drain did not end
within the turns that a sound pool can need.
-/
namespace TradingPipeline.Receiver
open Lib Mold

def retransmitIntervalNs : ℕ := 5000000

section Pool
variable (s : State)

/-- `reorder_alloc_slot`: the first free slot. -/
@[irreducible] def State.reorderAllocSlot : Option ℕ :=
  (List.range reorderMax).find? fun i => (s.reorderPool i).used = 0

/-- A used slot is pending while its packet is not behind the expected sequence number. -/
def State.pending (i : ℕ) : Bool :=
  (s.reorderPool i).used ≠ 0 ∧ s.gapExpectedSeq ≤ (s.reorderPool i).startSeq

@[irreducible] def State.reorderFind (seq : ℕ) : Option ℕ :=
  (List.range reorderMax).find? fun i => s.pending i && (s.reorderPool i).startSeq == seq

/-- `reorder_find_min`: the first of the pending slots with the smallest start. -/
@[irreducible] def State.reorderFindMin : Option ℕ :=
  firstMin s.pending (fun i => (s.reorderPool i).startSeq) (List.range reorderMax)

@[irreducible] def State.reorderCount : ℕ := (List.range reorderMax).countP s.pending

end Pool

def State.sendRetransmitRequest (s : State) (startSeq count now : ℕ) : State :=
  if s.gapRewinderFd < 0 ∨ s.gapSessionSet = false then s
  else if count = 0 then s
  else if wrapSub (2 ^ 64) now s.gapLastRequestNs < retransmitIntervalNs then s
  else s.sendRequest ⟨s.gapSession, startSeq, count⟩ now

/-- The count of a request for `missing` messages, cut to 16 bits. -/
def requestCount (missing : ℕ) : ℕ := if 0xFFFF < missing then 0xFFFF else missing

/-- `publish_ref`. The dispatcher may pass entries before `next_read` is loaded. -/
def State.publishRef (s : State) (ptr : RefPtr) (packet : List UInt8) : State × Bool :=
  if parserToEngineSize ≤ wrapSub (2 ^ 32) s.parserEngine.nextWrite s.yield.parserEngine.nextRead
  then (s.yield.noteRingFull, false)
  else (s.yield.push ptr packet, true)

/-- One turn of the loop in `drain_pending`. -/
def State.drainTurn (s : State) : State ⊕ State :=
  match s.reorderFind s.gapExpectedSeq with
  | none => .inr s
  | some i =>
    match s.publishRef (.slot i) (s.slotPayload i) with
    | (s, false) => .inr s
    | (s, true) => .inl (s.advance (s.reorderPool i).msgCount).noteFilled

/-- Every turn of the loop but the last takes one slot out of the pending ones. -/
def drainTurns : ℕ := reorderMax + 1

def State.drainPending (s : State) : Option State := boundedLoop State.drainTurn drainTurns s

/-- The fast path: the packet is published where it lies in the UMEM, `off` bytes behind
the start of the frame's data. -/
def State.publishFrame (s : State) (payload : List UInt8) (addr now off : ℕ) :
    Option (State × ℕ) :=
  let ref : PacketRef := ⟨.umem addr (off + headerSize), addr, now, payload.length - headerSize⟩
  match (s.writeRef addr ref).publishRef (.umem addr) payload with
  | (s, false) => some (s.dropOne, addr)
  | (s, true) =>
    match ((s.pin addr).advance (messageCount payload)).drainPending with
    | none => none
    | some s => some (s, uint64Max)

/-- The in-order packet without a frame: copy it into a slot and publish the copy. -/
def State.publishCopy (s : State) (payload : List UInt8) (addr now : ℕ) : Option (State × ℕ) :=
  match s.reorderFind (sequenceNumber payload) with
  | some _ => some (s, addr)
  | none =>
    match s.reorderAllocSlot with
    | none => some (s.noteAllocFailure.dropOne, addr)
    | some i =>
      match s.fillSlot i payload now with
      | none => none
      | some s =>
        match s.publishRef (.slot i) (s.slotPayload i) with
        | (s, false) => some ((s.freeSlot i).dropOne, addr)
        | (s, true) =>
          match (s.advance (messageCount payload)).drainPending with
          | none => none
          | some s => some (s, addr)

/-- The reorder pool is full: go on from the first pending packet, if there is one. -/
def State.skipAhead (s : State) : Option State :=
  match s.reorderFindMin with
  | none => some s.dropOne
  | some i =>
    if s.gapExpectedSeq < (s.reorderPool i).startSeq then
      (s.skipTo (s.reorderPool i).startSeq).drainPending
    else some s.dropOne

/-- The packet from the future: buffer it and ask the rewinder for the gap. -/
def State.bufferFuture (s : State) (payload : List UInt8) (addr now : ℕ) : Option (State × ℕ) :=
  match s.reorderFind (sequenceNumber payload) with
  | some _ => some (s, addr)
  | none =>
    match s.reorderAllocSlot with
    | none =>
      match s.noteAllocFailure.skipAhead with
      | none => none
      | some s => some (s, addr)
    | some i =>
      match s.fillSlot i payload now with
      | none => none
      | some s =>
        let missing := sequenceNumber payload - s.gapExpectedSeq
        some (s.sendRetransmitRequest s.gapExpectedSeq (requestCount missing) now, addr)

/-- The state in which an accepted packet is sequenced. -/
def State.opened (s : State) (payload : List UInt8) : State :=
  (s.logDelivery payload).openSession payload

/-- `handle_payload`: the state after it and the address to recycle, `UINT64_MAX` if the
packet is pinned. `base` is the offset of the payload behind `umem_frame_base`, if
that is not null. -/
def State.handlePayload (s : State) (payload : List UInt8) (afxdpAddr now : ℕ)
    (base : Option ℕ) : Option (State × ℕ) :=
  if payload.length < headerSize then some (s.logDelivery payload, afxdpAddr)
  else if messageCount payload = 0 then some (s.logDelivery payload, afxdpAddr)
  else
    let s := s.opened payload
    if sequenceNumber payload < s.gapExpectedSeq then some (s, afxdpAddr)
    else if sequenceNumber payload = s.gapExpectedSeq then
      match base with
      | some off =>
        if afxdpAddr ≠ uint64Max then s.publishFrame payload afxdpAddr now off
        else s.publishCopy payload afxdpAddr now
      | none => s.publishCopy payload afxdpAddr now
    else s.bufferFuture payload afxdpAddr now

end TradingPipeline.Receiver
