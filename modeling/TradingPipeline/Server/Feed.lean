import TradingPipeline.Lib.BoundedLoop
import TradingPipeline.Mold.Packets
import TradingPipeline.Server.Rewinder

/-! # The feed

`bulk_feed` reads the file through a buffer, `timestamp_feed` maps it. Both cut it into
messages, pack them into packets, hand every packet to the retransmit cache and send it,
and end the session with a packet of its own. `bulk_feed` does so at once, `timestamp_feed`
sleeps before every packet until its time has come.
-/
namespace TradingPipeline.Feed
open Lib Mold

/-- A file. Its size is an `off_t`. -/
structure ItchFile where
  bytes : List UInt8
  size_lt : bytes.length < 2 ^ 63

def itchBundledFileSize : ℕ := 12952050754
def itchBundledOpenOffset : ℕ := 440787451

def initialFileOffset (fileSize : ℕ) : ℕ :=
  if fileSize = itchBundledFileSize then itchBundledOpenOffset else 0

/-- The calls of `rewinder_cache_packet` and the datagrams sent, oldest first. -/
structure Output where
  cached : List Rewinder.Sent
  sent : List (List UInt8)
  deriving DecidableEq, Repr

/-- A packet while it is filled: the payload, whose length is `payload_used`, and
`msg_count`. -/
structure Filling where
  payload : List UInt8
  msgCount : ℕ
  deriving DecidableEq, Repr

namespace Filling

def empty : Filling := ⟨[], 0⟩

def append (p : Filling) (msg : List UInt8) : Filling where
  payload := p.payload ++ (writeBE 2 msg.length ++ msg)
  msgCount := (p.msgCount + 1) % 2 ^ 16

/-- The bytes of the packet once its header is written. -/
def packet (p : Filling) (session : Vector UInt8 10) (seq : ℕ) : List UInt8 :=
  (MoldUdp64Header.mk session.toList seq p.msgCount).encode ++ p.payload

def overflows (p : Filling) (msg : List UInt8) : Bool :=
  maxMsgPayload < p.payload.length + 2 + msg.length

end Filling

/-- The packet is cached and sent `copies` times. -/
def Output.send (out : Output) (session : Vector UInt8 10) (seq : ℕ) (p : Filling) (copies : ℕ) :
    Output where
  cached := out.cached ++ [⟨session.toList, seq, p.msgCount, p.packet session seq⟩]
  sent := out.sent ++ List.replicate copies (p.packet session seq)

def endOfSession (session : Vector UInt8 10) (seq : ℕ) : List UInt8 :=
  (MoldUdp64Header.mk session.toList seq 0xFFFF).encode

def Output.endSession (out : Output) (session : Vector UInt8 10) (seq : ℕ) : Output :=
  { out with sent := out.sent ++ [endOfSession session seq] }

section Bulk

/-- The arguments of `bulk_feed` beside the file. -/
structure BulkConfig where
  session : Vector UInt8 10
  dropEvery : ℕ
  dupEvery : ℕ

/-- How often the packet with the number `seq` goes out. -/
def BulkConfig.copies (cfg : BulkConfig) (seq : ℕ) : ℕ :=
  if cfg.dropEvery = 0 ∨ seq % cfg.dropEvery ≠ 0 then
    if 0 < cfg.dupEvery ∧ seq % cfg.dupEvery = 0 then 2 else 1
  else 0

/-- The variables of `bulk_feed`: what is left of the file, the `leftover` bytes of
`itch_buf`, the next sequence number, and the number of reads so far. -/
structure Bulk where
  unread : List UInt8
  buf : List UInt8
  seq : ℕ
  reads : ℕ
  out : Output
  deriving DecidableEq, Repr

/-- The innermost loop: a packet with the messages that fit, and the rest of the buffer. -/
def fillPacket (buf : List UInt8) : Filling × List UInt8 :=
  scanBlocks (fun p msg => if p.overflows msg then none else some (p.append msg)) buf.length
    Filling.empty buf

/-- The packets made of one buffer. -/
def sendPackets (cfg : BulkConfig) : ℕ → Bulk → Bulk
  | 0, s => s
  | fuel + 1, s =>
    if s.buf.length < 2 then s
    else
      let r := fillPacket s.buf
      if r.1.msgCount = 0 then s
      else
        sendPackets cfg fuel { s with
          buf := r.2
          seq := (s.seq + r.1.msgCount) % 2 ^ 64
          out := s.out.send cfg.session s.seq r.1 (cfg.copies s.seq) }

/-- `sizeof(itch_buf)`. -/
def itchBufSize : ℕ := 65536

/-- What `read` returns: at most what was asked for and what is left, and at least one byte
unless that is none. Within these bounds the number is the kernel's choice. -/
def readSize (choice space left : ℕ) : ℕ := min (max 1 choice) (min space left)

/-- One turn of the outer loop. `split k` is the kernel's choice at the `k`-th read. -/
def bulkTurn (cfg : BulkConfig) (split : ℕ → ℕ) (s : Bulk) : Bulk ⊕ Bulk :=
  let n := readSize (split s.reads) (itchBufSize - s.buf.length) s.unread.length
  if n = 0 then .inr s
  else
    let buf := s.buf ++ s.unread.take n
    .inl (sendPackets cfg buf.length { s with
      buf := buf
      unread := s.unread.drop n
      reads := s.reads + 1 })

def bulkFeed (cfg : BulkConfig) (split : ℕ → ℕ) (file : ItchFile) : Option Output :=
  let start : Bulk := ⟨file.bytes.drop (initialFileOffset file.bytes.length), [], 1, 0, ⟨[], []⟩⟩
  (boundedLoop (bulkTurn cfg split) (file.bytes.length + 1) start).map fun s =>
    s.out.endSession cfg.session s.seq

end Bulk

section Timestamp

/-- What decides when `timestamp_feed` sends: the outcome of `speed <= 0.0`, the conversion
`(uint64_t)((double)elapsed / speed)`, and for how many nanoseconds after `replay_start` the
process lives. A sleep that ends later does not return. -/
structure Pacing where
  invalidSpeed : Bool
  deltaNs : ℕ → ℕ
  lifetime : ℕ

/-- The variables of `timestamp_feed`, and whether it is in a sleep that does not return. -/
structure Replay where
  seq : ℕ
  filling : Filling
  currentPacketTs : ℕ
  firstPacketTs : ℕ
  replayStarted : Bool
  asleep : Bool
  out : Output
  deriving DecidableEq, Repr

def Replay.start : Replay := ⟨1, Filling.empty, 0, 0, false, false, ⟨[], []⟩⟩

def msgTimestamp (msg : List UInt8) : ℕ := readBE ((msg.drop 5).take 6)

/-- `current_packet_ts - first_packet_ts`, in 64 unsigned bits. -/
def elapsedNs (first current : ℕ) : ℕ := (current + (2 ^ 64 - first)) % 2 ^ 64

/-- The assignments for the first message of a packet. -/
def Replay.beginPacket (s : Replay) (itchTs : ℕ) : Replay :=
  if s.replayStarted then { s with currentPacketTs := itchTs }
  else { s with currentPacketTs := itchTs, firstPacketTs := itchTs, replayStarted := true }

/-- `flush_packet`, which sleeps first, and the assignments after it. -/
def Replay.flush (pacing : Pacing) (session : Vector UInt8 10) (s : Replay) : Replay :=
  if pacing.lifetime < pacing.deltaNs (elapsedNs s.firstPacketTs s.currentPacketTs) then
    { s with asleep := true }
  else
    { s with
      out := s.out.send session s.seq s.filling 1
      seq := (s.seq + s.filling.msgCount) % 2 ^ 64
      filling := Filling.empty }

/-- One turn of the loop with a complete message. -/
def Replay.turn (pacing : Pacing) (session : Vector UInt8 10) (s : Replay) (msg : List UInt8) :
    Replay :=
  if s.asleep || msg.length < 11 then s
  else
    let itchTs := msgTimestamp msg
    let wouldOverflow := s.filling.overflows msg
    let s := if s.filling.msgCount = 0 then s.beginPacket itchTs else s
    let s :=
      if 0 < s.filling.msgCount ∧ (itchTs ≠ s.currentPacketTs ∨ wouldOverflow) then
        { s.flush pacing session with currentPacketTs := itchTs }
      else s
    if s.asleep then s else { s with filling := s.filling.append msg }

/-- What is still in the packet goes out after the last message. -/
def Replay.finish (pacing : Pacing) (session : Vector UInt8 10) (s : Replay) : Replay :=
  if s.asleep then s
  else if 0 < s.filling.msgCount then s.flush pacing session else s

/-- `timestamp_feed`. A file without bytes cannot be mapped. -/
def timestampFeed (session : Vector UInt8 10) (pacing : Pacing) (file : ItchFile) : Output :=
  if pacing.invalidSpeed then ⟨[], []⟩
  else if file.bytes.length = 0 then ⟨[], []⟩
  else
    let data := file.bytes.drop (initialFileOffset file.bytes.length)
    let s := (scanBlocks (fun s msg => some (Replay.turn pacing session s msg)) data.length
      Replay.start data).1
    let s := s.finish pacing session
    if s.asleep then s.out else s.out.endSession session s.seq

end Timestamp

end TradingPipeline.Feed
