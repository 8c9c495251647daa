import TradingPipeline.Receiver.Extract
import TradingPipeline.Receiver.Handle
import TradingPipeline.Lib.Runs

/-! # The receive loop, the frame stack and the dispatcher

The parts of `udp_receiver_thread` are actions of a transition system, next to those
of the dispatcher and of the kernel. Any order of the actions is a run, those in which
the loop takes them among them. How much room the fill ring has and which descriptors
arrive is left open.
-/
namespace TradingPipeline.Receiver
open Lib Mold

def rxBurstSize : ℕ := 128
def rewinderBufferSize : ℕ := 1600

/-- `xsk_free_umem_frame` for the addresses held, until one is refused. -/
def State.freeFrames (s : State) : List ℕ → State × Bool
  | [] => (s, true)
  | addr :: rest =>
    if afxdpNumFrames ≤ s.free.length then
      ({ s with freeFailures := s.freeFailures + 1 }, false)
    else ({ s with free := addr :: s.free, held := rest } : State).freeFrames rest

/-- `afxdp_refill_fq` with room for `room` frames in the fill ring. -/
def State.afxdpRefillFq (s : State) (room : ℕ) : State :=
  { s with
    free := s.free.drop room
    kernel := s.kernel ++ (s.free.take room).map frameOf }

/-- `afxdp_recycle` of the addresses held; `false` if it fails. -/
def State.afxdpRecycle (s : State) (room : ℕ) : State × Bool :=
  match s.freeFrames s.held with
  | (s, false) => (s, false)
  | (s, true) => (s.afxdpRefillFq room, true)

def State.hold (s : State) (addr : ℕ) : State := { s with held := s.held ++ [addr] }

def State.passEntry (s : State) : State :=
  { s with recycleRead := (s.recycleRead + 1) % 2 ^ 32 }

/-- The loop of `recycle_consumed_frames` over `n` consumed entries. `rooms` is the room
in the fill ring at each call of `afxdp_recycle`. A null or dangling entry has no meaning. -/
def State.recycleLoop (s : State) (rooms : List ℕ) : ℕ → Option (State × Bool)
  | 0 => some (if s.held = [] then (s, true) else s.afxdpRecycle (rooms.headD 0))
  | n + 1 =>
    match s.refAt (s.parserEngine.entry s.recycleRead) with
    | none => none
    | some ref =>
      if ref.umemAddr &&& reorderAddrFlag ≠ 0 then
        (s.passEntry.freeSlot (ref.umemAddr &&& reorderAddrIdxMask)).recycleLoop rooms n
      else
        let s := s.passEntry.hold ref.umemAddr
        if s.held.length = rxBurstSize then
          match s.afxdpRecycle (rooms.headD 0) with
          | (s, false) => some (s, false)
          | (s, true) => s.recycleLoop rooms.tail n
        else s.recycleLoop rooms n

def State.recycleConsumedFrames (s : State) (rooms : List ℕ) : Option (State × Bool) :=
  s.recycleLoop rooms (wrapSub (2 ^ 32) s.parserEngine.nextRead s.recycleRead)

/-- The kernel hands over the packet at `addr`, in a frame it was given. -/
def State.takeDescriptor (s : State) (addr : ℕ) : Option State :=
  if frameOf addr ∈ s.kernel then
    some { s with kernel := s.kernel.erase (frameOf addr), burst := s.burst ++ [addr] }
  else none

def State.afxdpRecvBurst (s : State) (room : ℕ) (addrs : List ℕ) : Option State :=
  if addrs.length ≤ rxBurstSize then addrs.foldlM State.takeDescriptor (s.afxdpRefillFq room)
  else none

def State.dropPacket (s : State) (addr : ℕ) : State := { s with drops := s.drops ++ [addr] }

/-- The packet at hand is to be recycled. -/
def State.dropHeld (s : State) (addr : ℕ) : State :=
  { s with held := [], drops := s.drops ++ [addr] }

/-- One turn of the loop over the burst; nothing is looked at after the end of the session. -/
def State.burstPacket (s : State) (now : ℕ) : Option State :=
  if s.stopped then some s
  else
    match s.burst with
    | [] => none
    | addr :: rest =>
      let frame := (s.umem (frameOf addr)).bytes
      let s := { s with burst := rest }
      match extractFeedPayload frame with
      | none => some (s.dropPacket addr)
      | some off =>
        if (frame.drop off).length < headerSize then some (s.dropPacket addr)
        else if messageCount (frame.drop off) = 0xFFFF then
          some { s.dropPacket addr with stopped := true }
        else
          match { s with held := [addr] }.handlePayload (frame.drop off) addr now (some off) with
          | none => none
          | some (s, recycleAddr) =>
            if recycleAddr ≠ uint64Max then some (s.dropHeld recycleAddr) else some s

/-- Nothing arrived: keep nudging the rewinder while a gap is open. -/
def State.nudgeRewinder (s : State) (now : ℕ) : State :=
  if 0 < s.reorderCount ∧ s.gapSessionSet then
    match s.reorderFindMin with
    | none => s
    | some i =>
      if s.gapExpectedSeq < (s.reorderPool i).startSeq then
        s.sendRetransmitRequest s.gapExpectedSeq
          (requestCount ((s.reorderPool i).startSeq - s.gapExpectedSeq)) now
      else s
  else s

inductive Action
  /-- The dispatcher consumes an entry. -/
  | dispatch
  /-- The kernel writes a packet into a frame it holds. -/
  | dma (frame : ℕ) (packet : List UInt8)
  | refill (room : ℕ)
  | recycle (rooms : List ℕ)
  | recvBurst (room : ℕ) (addrs : List ℕ)
  /-- One datagram read by `poll_rewinder`. -/
  | reply (datagram : List UInt8) (now : ℕ) (pace : List ℕ)
  | nudge (now : ℕ)
  | packet (now : ℕ) (pace : List ℕ)
  /-- `afxdp_recycle` of the dropped packets of a burst. -/
  | recycleDrops (room : ℕ)
  deriving DecidableEq, Repr

def State.act (s : State) : Action → Option State
  | .dispatch => some s.consumeOne
  | .dma frame packet =>
    if frame ∈ s.kernel ∧ packet.length ≤ afxdpFrameSize then
      some { s with umem := Function.update s.umem frame ⟨packet, none⟩ }
    else none
  | .refill room => some (s.afxdpRefillFq room)
  | .recycle rooms =>
    match s.recycleConsumedFrames rooms with
    | none => none
    | some (s, ok) => some { s with stopped := s.stopped || !ok }
  | .recvBurst room addrs =>
    if s.burst = [] ∧ s.drops = [] then s.afxdpRecvBurst room addrs else none
  | .reply datagram now pace =>
    if 0 ≤ s.gapRewinderFd ∧ 0 < datagram.length ∧ datagram.length ≤ rewinderBufferSize then
      ({ s with pace := pace }.handlePayload datagram uint64Max now none).map Prod.fst
    else none
  | .nudge now => some (s.nudgeRewinder now)
  | .packet now pace => { s with pace := pace }.burstPacket now
  | .recycleDrops room =>
    if s.drops = [] then some s
    else
      let r := { s with drops := [], held := s.drops }.afxdpRecycle room
      some { r.1 with stopped := r.1.stopped || !r.2 }

def Step (s : State) (a : Action) (t : State) : Prop := s.act a = some t

end TradingPipeline.Receiver
