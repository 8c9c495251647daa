import TradingPipeline.Order.Session

/-! # Acknowledgements

`send_ack` writes one record of 24 bytes and does not look at how many of them were taken.
`drain_acks` cuts what it receives into records; the part of a record at the end of a read
stays in static storage until the next call, on whichever connection that is.
-/
namespace TradingPipeline.OrderSession
open Lib

structure WireAck where
  msgType : UInt8
  flag : UInt8
  pad0 : UInt16
  pad1 : UInt32
  seq : UInt64
  recvTs : UInt64
  deriving DecidableEq, Repr

def wireMsgAck : UInt8 := 65

def wireAckSize : ℕ := 24

def ackBufBytes : ℕ := 16 * wireAckSize

/-- The values `WIRE_ACK_OK`, `WIRE_ACK_BAD_CSUM` and `WIRE_ACK_SEQ_GAP`. -/
def AckFlag.code : AckFlag → UInt8
  | .ok => 0
  | .badCsum => 1
  | .seqGap => 2

namespace WireAck

def bytes (a : WireAck) : List UInt8 :=
  writeLE 1 a.msgType.toNat ++ (writeLE 1 a.flag.toNat ++ (writeLE 2 a.pad0.toNat ++
    (writeLE 4 a.pad1.toNat ++ (writeLE 8 a.seq.toNat ++ writeLE 8 a.recvTs.toNat))))

def ofBytes (buf : List UInt8) : WireAck where
  msgType := .ofNat (readLE (buf.take 1))
  flag := .ofNat (readLE ((buf.drop 1).take 1))
  pad0 := .ofNat (readLE ((buf.drop 2).take 2))
  pad1 := .ofNat (readLE ((buf.drop 4).take 4))
  seq := .ofNat (readLE ((buf.drop 8).take 8))
  recvTs := .ofNat (readLE ((buf.drop 16).take 8))

@[simp] theorem bytes_length (a : WireAck) : a.bytes.length = wireAckSize := by
  simp [bytes, wireAckSize]

theorem bytes_take (a : WireAck) : a.bytes.take wireAckSize = a.bytes :=
  List.take_of_length_le (Nat.le_of_eq a.bytes_length)

theorem ofBytes_bytes (a : WireAck) : ofBytes a.bytes = a := by
  have hlast : (writeLE 8 a.recvTs.toNat).take 8 = writeLE 8 a.recvTs.toNat := rfl
  simp [ofBytes, bytes, drop_writeLE_append, hlast, readLE_writeLE_uint8,
    readLE_writeLE_uint16, readLE_writeLE_uint32, readLE_writeLE_uint64]

end WireAck

/-- A call of `send_ack` and the time it read from the clock. -/
structure Ack where
  seq : UInt64
  flag : AckFlag
  recvTs : UInt64
  deriving DecidableEq, Repr

/-- The record that `send_ack` hands to `send`. -/
def Ack.wire (a : Ack) : WireAck := ⟨wireMsgAck, a.flag.code, 0, 0, a.seq, a.recvTs⟩

/-- The counters of `order_sender_thread` that `drain_acks` works on, and the records that it
has looked at. -/
structure AckCounts where
  ackedSeq : UInt64
  badCsumCount : UInt64
  seqGapCount : UInt64
  records : List WireAck
  deriving DecidableEq, Repr

/-- One turn of the loop of `drain_acks`. -/
def AckCounts.handleRecord (c : AckCounts) (frame : List UInt8) : AckCounts :=
  let a := WireAck.ofBytes frame
  if a.msgType = wireMsgAck then
    { ackedSeq := if c.ackedSeq < a.seq then a.seq else c.ackedSeq
      badCsumCount :=
        if a.flag = AckFlag.badCsum.code then c.badCsumCount + 1 else c.badCsumCount
      seqGapCount :=
        if a.flag = AckFlag.badCsum.code then c.seqGapCount
        else if a.flag = AckFlag.seqGap.code then c.seqGapCount + 1
        else c.seqGapCount
      records := c.records ++ [a] }
  else { c with records := c.records ++ [a] }

/-- The flags and sequence numbers of the acknowledgements that were taken as such. -/
def AckCounts.decoded (c : AckCounts) : List (UInt8 × UInt64) :=
  (c.records.filter (·.msgType = wireMsgAck)).map fun a => (a.flag, a.seq)

/-- The counters, and the first `carry` bytes of the static `carry_buf`. -/
structure Drain where
  counts : AckCounts
  carry : List UInt8
  deriving DecidableEq, Repr

namespace Drain

def start : Drain := ⟨⟨0, 0, 0, []⟩, []⟩

/-- `drain_acks`, where `recv` returned `chunk`; an empty one stands for a result `n <= 0`. -/
def drainAcks (d : Drain) (chunk : List UInt8) : Drain :=
  if chunk = [] then d
  else
    let buf := d.carry ++ chunk
    let r := readFrames wireAckSize AckCounts.handleRecord buf.length d.counts buf
    ⟨r.1, r.2⟩

/-- What a reconnect does to the variables of `drain_acks`. -/
def reconnect (d : Drain) : Drain := { d with counts := { d.counts with ackedSeq := 0 } }

/-- A call that got some bytes: `recv` returns no more than the buffer has room for. -/
def Received (d : Drain) (chunk : List UInt8) (d' : Drain) : Prop :=
  chunk ≠ [] ∧ chunk.length ≤ ackBufBytes - d.carry.length ∧ d' = d.drainAcks chunk

/-- From the counters `c` on, exactly the bytes `bs` were received. -/
def Has (c : AckCounts) (bs : List UInt8) (d : Drain) : Prop :=
  HasRead wireAckSize AckCounts.handleRecord c bs (d.counts, d.carry)

variable {c : AckCounts} {bs : List UInt8} {d : Drain}

theorem Has.drainAcks (h : Has c bs d) (chunk : List UInt8) :
    Has c (bs ++ chunk) (d.drainAcks chunk) := by
  unfold Drain.drainAcks
  split
  · next hnil => rwa [hnil, List.append_nil]
  · exact h.read (by decide) le_rfl

theorem Has.carry_lt (h : Has c bs d) : d.carry.length < wireAckSize := HasRead.length_lt h

theorem has_start : Has start.counts [] start := HasRead.start (by decide)

theorem Has.chunks (h : Has c bs d) (chunks : List (List UInt8)) :
    Has c (bs ++ chunks.flatten) (chunks.foldl Drain.drainAcks d) := by
  induction chunks generalizing bs d with
  | nil => simpa using h
  | cons chunk chunks ih =>
    have hrest := ih (h.drainAcks chunk)
    rwa [List.append_assoc] at hrest

theorem runs_received {chunks : List (List UInt8)} {d' : Drain}
    (hr : Runs Received d chunks d') : d' = chunks.foldl Drain.drainAcks d := by
  induction hr with
  | nil => rfl
  | snoc _ hstep ih => rw [List.foldl_append, ← ih, List.foldl_cons, List.foldl_nil, hstep.2.2]

theorem Has.runs (h : Has c bs d) {chunks : List (List UInt8)} {d' : Drain}
    (hr : Runs Received d chunks d') : Has c (bs ++ chunks.flatten) d' :=
  runs_received hr ▸ h.chunks chunks

theorem Has.receives (h : Has c bs d) (more : List UInt8) :
    ∃ chunks d', chunks.flatten = more ∧ Runs Received d chunks d' := by
  induction more using List.reverseRecOn with
  | nil => exact ⟨[], d, rfl, .nil⟩
  | append_singleton more b ih =>
    obtain ⟨chunks, d', hflat, hr⟩ := ih
    have hlt := (h.runs hr).carry_lt
    have hroom : [b].length ≤ ackBufBytes - d'.carry.length := by
      simp only [wireAckSize, ackBufBytes, List.length_singleton] at hlt ⊢
      omega
    refine ⟨chunks ++ [[b]], _, ?_, hr.snoc ⟨by simp, hroom, rfl⟩⟩
    rw [List.flatten_append, hflat, List.flatten_singleton]

end Drain

section Records

theorem AckCounts.handleRecord_records (c : AckCounts) (frame : List UInt8) :
    (c.handleRecord frame).records = c.records ++ [WireAck.ofBytes frame] := by
  unfold handleRecord
  dsimp only
  split <;> rfl

theorem Drain.Has.records {c : AckCounts} {bs : List UInt8} {d : Drain} (h : Drain.Has c bs d) :
    d.counts.records = c.records ++ (division wireAckSize bs).map WireAck.ofBytes := by
  rw [HasRead.eq_division (by decide) h]
  exact foldl_log AckCounts.handleRecord_records c _

end Records

end TradingPipeline.OrderSession
