import TradingPipeline.Lib.Bytes

/-! # MoldUDP64 packets

A downstream packet is a 20-byte header, the session, the sequence number of its
first message and the number of messages, followed by length-prefixed messages.
Sequence number and count are big-endian. A retransmission request is a header alone.
-/
namespace TradingPipeline.Mold
open Lib

/-- `mold_udp64_header`, in host byte order. -/
structure MoldUdp64Header where
  session : List UInt8
  sequenceNumber : ℕ
  messageCount : ℕ
  deriving DecidableEq, Repr

/-- `sizeof(mold_udp64_header)`. -/
def headerSize : ℕ := 20

def packetSize : ℕ := 1500 - 28 - headerSize

def MoldUdp64Header.decode (packet : List UInt8) : MoldUdp64Header where
  session := packet.take 10
  sequenceNumber := readBE ((packet.drop 10).take 8)
  messageCount := readBE ((packet.drop 18).take 2)

def MoldUdp64Header.encode (h : MoldUdp64Header) : List UInt8 :=
  h.session ++ writeBE 8 h.sequenceNumber ++ writeBE 2 h.messageCount

def blocks (packet : List UInt8) : List UInt8 := packet.drop headerSize

section Fields
variable (packet : List UInt8)

def session : List UInt8 := (MoldUdp64Header.decode packet).session
def sequenceNumber : ℕ := (MoldUdp64Header.decode packet).sequenceNumber
def messageCount : ℕ := (MoldUdp64Header.decode packet).messageCount

/-- One past the sequence number of the packet's last message. -/
def endSequence : ℕ := sequenceNumber packet + messageCount packet

theorem sequenceNumber_lt : sequenceNumber packet < 2 ^ 64 := by
  refine lt_of_lt_of_le (readBE_lt _) ?_
  refine le_trans (Nat.pow_le_pow_right (by decide) (List.length_take_le 8 _)) (by decide)

end Fields

theorem decode_take (packet : List UInt8) :
    MoldUdp64Header.decode (packet.take headerSize) = MoldUdp64Header.decode packet := by
  simp only [MoldUdp64Header.decode, headerSize, List.drop_take, List.take_take]
  rfl

theorem decode_encode {h : MoldUdp64Header} (hs : h.session.length = 10)
    (hn : h.sequenceNumber < 2 ^ 64) (hc : h.messageCount < 2 ^ 16) (rest : List UInt8) :
    MoldUdp64Header.decode (h.encode ++ rest) = h := by
  have hlen : (writeBE 8 h.sequenceNumber).length = 8 := writeBE_length 8 _
  have hlen' : (writeBE 2 h.messageCount).length = 2 := writeBE_length 2 _
  have hseq : readBE (writeBE 8 h.sequenceNumber) = h.sequenceNumber :=
    readBE_writeBE (by simpa using hn)
  have hcnt : readBE (writeBE 2 h.messageCount) = h.messageCount :=
    readBE_writeBE (by simpa using hc)
  have hdrop : (h.encode ++ rest).drop 10 = writeBE 8 h.sequenceNumber ++
    (writeBE 2 h.messageCount ++ rest) := by
    simp [MoldUdp64Header.encode, List.append_assoc, hs]
  have hdrop' : (h.encode ++ rest).drop 18 = writeBE 2 h.messageCount ++ rest := by
    have h18 : (h.encode ++ rest).drop 18 = ((h.encode ++ rest).drop 10).drop 8 := by
      rw [List.drop_drop]
    rw [h18, hdrop, List.drop_left' hlen]
  have htake : (h.encode ++ rest).take 10 = h.session := by
    simp only [MoldUdp64Header.encode, List.append_assoc]
    exact List.take_left' hs
  unfold MoldUdp64Header.decode
  rw [hdrop, hdrop', htake, List.take_left' hlen, List.take_left' hlen', hseq, hcnt]

end TradingPipeline.Mold
