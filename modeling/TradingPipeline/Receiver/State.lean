import TradingPipeline.Mold.Header
import TradingPipeline.Lib.RingWindow

/-! # Memory and state of the receiver thread

The receiver publishes pointers to `packet_ref`s through `PARSER_ENGINE`. A
`packet_ref` lies either over the front of the UMEM frame that holds the packet or
inside a slot of the reorder pool, and points at message blocks in the same frame or
slot. The state records the memory behind these pointers, who holds each frame, and
the history of what was delivered, published and read.
-/
namespace TradingPipeline.Receiver
open Lib Mold

def reorderMax : ℕ := 512
def reorderAddrFlag : ℕ := 2 ^ 63
def reorderAddrIdxMask : ℕ := reorderMax - 1
def parserToEngineSize : ℕ := 512 * 1024
def parserEngineMask : ℕ := parserToEngineSize - 1
def afxdpNumFrames : ℕ := 4096
def afxdpFrameSize : ℕ := 4096
def uint64Max : ℕ := 2 ^ 64 - 1

/-- `sizeof(reorder_slot::bytes)`. -/
def slotBytes : ℕ := 1500

/-- `sizeof(reorder_slot)`: 45 bytes of fields, the copy, and 7 bytes of padding. -/
def slotSize : ℕ := 1552

/-- Where `packet_ref::data` points. `wild` is a pointer whose bytes were overwritten. -/
inductive DataPtr
  | umem (addr off : ℕ)
  | slot (i off : ℕ)
  | wild
  deriving DecidableEq, Repr

structure PacketRef where
  data : DataPtr
  umemAddr : ℕ
  ts : ℕ
  len : ℕ
  deriving DecidableEq, Repr

structure ReorderSlot where
  ref : PacketRef
  startSeq : ℕ
  msgCount : ℕ
  payloadLen : ℕ
  used : ℕ
  bytes : List UInt8
  deriving DecidableEq, Repr

/-- A `packet_ref *`: over the packet at a UMEM address, or inside a reorder slot. -/
inductive RefPtr
  | null
  | umem (addr : ℕ)
  | slot (i : ℕ)
  deriving DecidableEq, Repr

/-- The packet in a UMEM frame, and the `packet_ref` laid over its front since the
packet arrived. -/
structure Frame where
  bytes : List UInt8
  overlay : Option PacketRef
  deriving DecidableEq, Repr

/-- `parser_to_engine`: two 32-bit cursors and the published pointers. -/
structure ParserToEngine where
  nextWrite : ℕ
  nextRead : ℕ
  data : ℕ → RefPtr

/-- A step of the sequence: a packet was published, or a range was given up. -/
inductive Segment
  | published (packet : List UInt8)
  | skipped (start stop : ℕ)
  deriving DecidableEq, Repr

structure State where
  reorderPool : ℕ → ReorderSlot
  gapSession : List UInt8
  gapSessionSet : Bool
  gapExpectedSeq : ℕ
  gapLastRequestNs : ℕ
  gapRewinderFd : ℤ
  gapDroppedPackets : ℕ
  gapRetransRequests : ℕ
  gapRetransFilled : ℕ
  parserEngine : ParserToEngine
  umem : ℕ → Frame
  recycleRead : ℕ
  /-- `umem_frame_addr[0 .. umem_frame_free)`, top of the stack first. -/
  free : List ℕ
  /-- The frames in the fill ring or in the hands of the kernel. -/
  kernel : List ℕ
  /-- The packets of the current burst that were not looked at yet. -/
  burst : List ℕ
  /-- `drop_addrs`. -/
  drops : List ℕ
  /-- Addresses in local variables: the packet at hand, or those about to be recycled. -/
  held : List ℕ
  stopped : Bool
  /-- How many entries the dispatcher consumes before each next load of `next_read`. -/
  pace : List ℕ
  delivered : List (List UInt8)
  log : List Segment
  dispatched : List (Option (List UInt8))
  requests : List MoldUdp64Header
  singleDrops : ℕ
  allocFailures : ℕ
  ringFull : ℕ
  freeFailures : ℕ

def frameOf (addr : ℕ) : ℕ := addr / afxdpFrameSize

def emptyRef : PacketRef := ⟨.wild, 0, 0, 0⟩

/-- The statics as they are zeroed at program start, and a UMEM all of whose frames are free. -/
def init (rewinderFd : ℤ) : State where
  reorderPool _ := ⟨emptyRef, 0, 0, 0, 0, List.replicate slotBytes 0⟩
  gapSession := List.replicate 10 0
  gapSessionSet := false
  gapExpectedSeq := 0
  gapLastRequestNs := 0
  gapRewinderFd := rewinderFd
  gapDroppedPackets := 0
  gapRetransRequests := 0
  gapRetransFilled := 0
  parserEngine := ⟨0, 0, fun _ => .null⟩
  umem _ := ⟨[], none⟩
  recycleRead := 0
  free := (List.range afxdpNumFrames).reverse.map (· * afxdpFrameSize)
  kernel := []
  burst := []
  drops := []
  held := []
  stopped := false
  pace := []
  delivered := []
  log := []
  dispatched := []
  requests := []
  singleDrops := 0
  allocFailures := 0
  ringFull := 0
  freeFailures := 0

section Reading
variable (s : State)

/-- The `packet_ref` behind a published pointer. -/
def State.refAt : RefPtr → Option PacketRef
  | .null => none
  | .umem addr => (s.umem (frameOf addr)).overlay
  | .slot i => some (s.reorderPool i).ref

/-- The bytes `ref->data[0 .. ref->len)`. -/
def State.deref (ref : PacketRef) : Option (List UInt8) :=
  match ref.data with
  | .umem addr off => some (((s.umem (frameOf addr)).bytes.drop off).take ref.len)
  | .slot i off =>
    if off + ref.len ≤ slotBytes then some (((s.reorderPool i).bytes.drop off).take ref.len)
    else none
  | .wild => none

/-- What the dispatcher finds behind a published pointer. -/
def State.contents (e : RefPtr) : Option (List UInt8) := (s.refAt e).bind s.deref

/-- `PARSER_ENGINE.data[c & PARSER_ENGINE_MASK]`. -/
def ParserToEngine.entry (r : ParserToEngine) (c : ℕ) : RefPtr := r.data (c &&& parserEngineMask)

/-- The entries not yet passed by `next_read`, oldest first. -/
def State.unread : List RefPtr :=
  between (2 ^ 32) parserToEngineSize s.parserEngine.data s.parserEngine.nextRead
    s.parserEngine.nextWrite

/-- The entries not yet passed by `recycle_read`, oldest first. -/
def State.entries : List RefPtr :=
  between (2 ^ 32) parserToEngineSize s.parserEngine.data s.recycleRead s.parserEngine.nextWrite

def State.slotPayload (i : ℕ) : List UInt8 :=
  (s.reorderPool i).bytes.take (s.reorderPool i).payloadLen

end Reading

section Updates
variable (s : State)

/-- One turn of the dispatcher's loop: read the oldest entry and pass it. -/
def State.consumeOne : State :=
  if s.parserEngine.nextRead = s.parserEngine.nextWrite then s
  else { s with
    parserEngine := { s.parserEngine with nextRead := (s.parserEngine.nextRead + 1) % 2 ^ 32 }
    dispatched := s.dispatched ++ [s.contents (s.parserEngine.entry s.parserEngine.nextRead)] }

def State.consumeMany (s : State) : ℕ → State
  | 0 => s
  | n + 1 => s.consumeOne.consumeMany n

/-- The dispatcher runs until the receiver's next load of `next_read`. -/
def State.yield : State :=
  match s.pace with
  | [] => s
  | n :: pace => ({ s with pace := pace } : State).consumeMany n

/-- Store a pointer and advance `next_write`. -/
def State.push (ptr : RefPtr) (packet : List UInt8) : State :=
  { s with
    parserEngine := { s.parserEngine with
      nextWrite := (s.parserEngine.nextWrite + 1) % 2 ^ 32
      data := Function.update s.parserEngine.data
        (s.parserEngine.nextWrite &&& parserEngineMask) ptr }
    log := s.log ++ [.published packet] }

/-- `gap_expected_seq += n`. -/
def State.advance (n : ℕ) : State :=
  { s with gapExpectedSeq := (s.gapExpectedSeq + n) % 2 ^ 64 }

def State.logDelivery (payload : List UInt8) : State :=
  { s with delivered := s.delivered ++ [payload] }

/-- The first accepted packet sets the session and the expected sequence number. -/
def State.openSession (payload : List UInt8) : State :=
  if s.gapSessionSet then s
  else { s with
    gapSession := session payload
    gapSessionSet := true
    gapExpectedSeq := sequenceNumber payload }

/-- Lay a `packet_ref` over the front of a frame; its 32 bytes of packet are lost. -/
def State.writeRef (addr : ℕ) (ref : PacketRef) : State :=
  let f := s.umem (frameOf addr)
  { s with
    umem := Function.update s.umem (frameOf addr)
      ⟨List.replicate 32 0 ++ f.bytes.drop 32, some ref⟩ }

/-- The packet at hand now belongs to its entry. -/
def State.pin (addr : ℕ) : State := { s with held := s.held.erase addr }

def State.dropOne : State :=
  { s with
    gapDroppedPackets := (s.gapDroppedPackets + 1) % 2 ^ 64
    singleDrops := s.singleDrops + 1 }

def State.noteAllocFailure : State := { s with allocFailures := s.allocFailures + 1 }

def State.noteRingFull : State := { s with ringFull := s.ringFull + 1 }

def State.noteFilled : State :=
  { s with gapRetransFilled := (s.gapRetransFilled + 1) % 2 ^ 64 }

/-- Give up `[gap_expected_seq, start)`. -/
def State.skipTo (start : ℕ) : State :=
  { s with
    gapDroppedPackets := (s.gapDroppedPackets + (start - s.gapExpectedSeq)) % 2 ^ 64
    gapExpectedSeq := start
    log := s.log ++ [.skipped s.gapExpectedSeq start] }

def State.setSlot (i : ℕ) (slot : ReorderSlot) : State :=
  { s with reorderPool := Function.update s.reorderPool i slot }

/-- `reorder_pool[i].used = 0`. -/
def State.freeSlot (i : ℕ) : State := s.setSlot i { s.reorderPool i with used := 0 }

def State.sendRequest (req : MoldUdp64Header) (now : ℕ) : State :=
  { s with
    gapLastRequestNs := now
    gapRetransRequests := (s.gapRetransRequests + 1) % 2 ^ 64
    requests := s.requests ++ [req] }

end Updates

/-- A slot whose memory was overwritten from its first byte on, field by field. -/
def ReorderSlot.clobber (slot : ReorderSlot) (bs : List UInt8) : ReorderSlot where
  ref :=
    { data := if bs = [] then slot.ref.data else .wild
      umemAddr := patchLE 8 slot.ref.umemAddr (bs.drop 8)
      ts := patchLE 8 slot.ref.ts (bs.drop 16)
      len := patchLE 4 slot.ref.len (bs.drop 24) }
  startSeq := patchLE 8 slot.startSeq (bs.drop 32)
  msgCount := patchLE 2 slot.msgCount (bs.drop 40)
  payloadLen := patchLE 2 slot.payloadLen (bs.drop 42)
  used := patchLE 1 slot.used (bs.drop 44)
  bytes := ((bs.drop 45) ++ slot.bytes.drop (bs.length - 45)).take slotBytes

/-- What a copy writes behind the slot it was meant for, into the `n` slots that
follow. Beyond the last slot lies memory that the model does not have. -/
def spill : ℕ → (ℕ → ReorderSlot) → List UInt8 → Option (ℕ → ReorderSlot)
  | _, pool, [] => some pool
  | 0, _, _ :: _ => none
  | n + 1, pool, b :: bs =>
    let i := reorderMax - (n + 1)
    spill n (Function.update pool i ((pool i).clobber (b :: bs))) ((b :: bs).drop slotSize)

def buildReorderRef (slot : ReorderSlot) (i now : ℕ) : ReorderSlot :=
  { slot with
    ref :=
      { data := .slot i headerSize
        umemAddr := reorderAddrFlag ||| i
        ts := now
        len := wrapSub (2 ^ 32) slot.payloadLen headerSize }
    used := 1 }

/-- The slot that `handle_payload` fills, before its `packet_ref` is built. `memcpy`
copies the whole payload: the part that fits goes into `bytes`. -/
def copiedSlot (slot : ReorderSlot) (payload : List UInt8) : ReorderSlot :=
  { slot with
    startSeq := sequenceNumber payload
    msgCount := messageCount payload
    payloadLen := payload.length % 2 ^ 16
    bytes := (payload ++ slot.bytes.drop payload.length).take slotBytes }

/-- Fill slot `i` with a copy of the payload. The 7 bytes of padding absorb the first
bytes of a copy that is too long; the rest lands in the next slots. -/
def State.fillSlot (s : State) (i : ℕ) (payload : List UInt8) (now : ℕ) : Option State :=
  let slot := copiedSlot (s.reorderPool i) payload
  match spill (reorderMax - (i + 1)) s.reorderPool (payload.drop (slotBytes + 7)) with
  | none => none
  | some pool => some ({ s with reorderPool := pool }.setSlot i (buildReorderRef slot i now))

end TradingPipeline.Receiver
