import TradingPipeline.Afxdp.Checksum
import TradingPipeline.Lib.Memory

/-! # The frames of the transmit path

`build_template` lays out the headers once. A send copies them, patches the two lengths and
the IP checksum, and computes the UDP checksum. Headers are bytes in memory, so that the order
of bytes in a half-word is that of the machine.
-/
namespace TradingPipeline.Afxdp
open Lib

def frameSize : ℕ := 4096
def ethHdrLen : ℕ := 14
def ipHdrLen : ℕ := 20
def udpHdrLen : ℕ := 8
def hdrTotal : ℕ := ethHdrLen + ipHdrLen + udpHdrLen
def maxPayload : ℕ := frameSize - hdrTotal

/-- The members of `afxdp_tx_config` that the frames depend on. -/
structure Config where
  srcIpBe : UInt32
  dstIpBe : UInt32
  srcPort : UInt16
  dstPort : UInt16
  srcMac : Vector UInt8 6
  dstMac : Vector UInt8 6

/-- The members of `struct iphdr` and `struct udphdr`. `ihl` and `version` share a byte. -/
inductive HeaderField
  | ihlVersion | tos | totLen | id | fragOff | ttl | protocol | check | saddr | daddr
  | source | dest | len | udpCheck
  deriving DecidableEq, Repr

namespace HeaderField

def size : HeaderField → ℕ
  | .ihlVersion | .tos | .ttl | .protocol => 1
  | .totLen | .id | .fragOff | .check | .source | .dest | .len | .udpCheck => 2
  | .saddr | .daddr => 4

def offset : HeaderField → ℕ
  | .ihlVersion => 14
  | .tos => 15
  | .totLen => 16
  | .id => 18
  | .fragOff => 20
  | .ttl => 22
  | .protocol => 23
  | .check => 24
  | .saddr => 26
  | .daddr => 30
  | .source => 34
  | .dest => 36
  | .len => 38
  | .udpCheck => 40

def get (f : HeaderField) (frame : Memory) : ℕ := frame.uint f.size f.offset

def set (f : HeaderField) (v : ℕ) (frame : Memory) : Memory :=
  frame.store f.offset (writeLE f.size v)

end HeaderField

/-- The conversion of a half-word to network order. -/
def htons (x : ℕ) : ℕ := readBE (writeLE 2 x)

def ipprotoUdp : ℕ := 17

/-- The first part of `build_template`: the Ethernet and IP headers, without a checksum. -/
def ipTemplate (cfg : Config) (payloadLen : ℕ) (frame : Memory) : Memory :=
  let frame := frame.store 0 (List.replicate hdrTotal 0)
  let frame := frame.store 0 cfg.dstMac.toList
  let frame := frame.store 6 cfg.srcMac.toList
  let frame := frame.store 12 [0x08]
  let frame := frame.store 13 [0x00]
  let frame := HeaderField.ihlVersion.set (ipHdrLen / 4 + 16 * 4) frame
  let frame := HeaderField.tos.set 0 frame
  let frame := HeaderField.totLen.set (htons (ipHdrLen + udpHdrLen + payloadLen)) frame
  let frame := HeaderField.id.set 0 frame
  let frame := HeaderField.fragOff.set 0 frame
  let frame := HeaderField.ttl.set 64 frame
  let frame := HeaderField.protocol.set ipprotoUdp frame
  let frame := HeaderField.check.set 0 frame
  let frame := HeaderField.saddr.set cfg.srcIpBe.toNat frame
  HeaderField.daddr.set cfg.dstIpBe.toNat frame

/-- `build_template`, for the frame at the address 0. -/
def buildTemplate (avx2 : Bool) (cfg : Config) (payloadLen : ℕ) (frame : Memory) : Memory :=
  let frame := ipTemplate cfg payloadLen frame
  let frame := HeaderField.check.set (ipChecksum avx2 (frame.load ethHdrLen ipHdrLen)).toNat frame
  let frame := HeaderField.source.set (htons cfg.srcPort.toNat) frame
  let frame := HeaderField.dest.set (htons cfg.dstPort.toNat) frame
  let frame := HeaderField.len.set (htons (udpHdrLen + payloadLen)) frame
  HeaderField.udpCheck.set 0 frame

/-- The sum over the pseudo-header that seeds the UDP checksum. -/
def pseudoSum (cfg : Config) (newUdpLen : ℕ) : UInt32 :=
  let pseudo : UInt32 := 0
  let pseudo := pseudo +
    ((cfg.srcIpBe &&& (0xFFFF : UInt32)) + (cfg.srcIpBe >>> 16 &&& (0xFFFF : UInt32)))
  let pseudo := pseudo +
    ((cfg.dstIpBe &&& (0xFFFF : UInt32)) + (cfg.dstIpBe >>> 16 &&& (0xFFFF : UInt32)))
  let pseudo := pseudo + UInt32.ofNat (htons ipprotoUdp)
  pseudo + UInt32.ofNat newUdpLen

/-- The first part of what `afxdp_tx_send` writes: the patched headers and the payload. -/
def patchFrame (templateFrame frame : Memory) (payload : List UInt8) : Memory :=
  let frame := frame.store 0 (templateFrame.load 0 hdrTotal)
  let oldIpTot := HeaderField.totLen.get frame
  let newIpTot := htons (ipHdrLen + udpHdrLen + payload.length)
  let newUdpLen := htons (udpHdrLen + payload.length)
  let frame := HeaderField.totLen.set newIpTot frame
  let frame := HeaderField.len.set newUdpLen frame
  let frame := HeaderField.check.set (csumReplace2 (UInt16.ofNat (HeaderField.check.get frame))
    (UInt16.ofNat oldIpTot) (UInt16.ofNat newIpTot)).toNat frame
  let frame := frame.store hdrTotal payload
  HeaderField.udpCheck.set 0 frame

/-- What `afxdp_tx_send` writes into its frame. -/
def fillFrame (avx2 : Bool) (cfg : Config) (templateFrame frame : Memory) (payload : List UInt8) :
    Memory :=
  let frame := patchFrame templateFrame frame payload
  let newUdpLen := htons (udpHdrLen + payload.length)
  let pseudo := cksumPartialSimd avx2
    (frame.load (ethHdrLen + ipHdrLen) (udpHdrLen + payload.length)) (pseudoSum cfg newUdpLen)
  let frame := HeaderField.udpCheck.set (~~~cksumFold16 pseudo).toNat frame
  if HeaderField.udpCheck.get frame = 0 then HeaderField.udpCheck.set 0xFFFF frame else frame

section Headers
variable (cfg : Config) (n : ℕ)

def ethernetHeader : List UInt8 := cfg.dstMac.toList ++ cfg.srcMac.toList ++ [0x08, 0x00]

/-- The IPv4 header of a datagram with `n` bytes of payload. `check` is as the machine reads it. -/
def ipHeader (check : UInt16) : List UInt8 :=
  [0x45, 0] ++ writeBE 2 (28 + n) ++ [0, 0, 0, 0, 64, 17] ++ writeLE 2 check.toNat ++
    writeLE 4 cfg.srcIpBe.toNat ++ writeLE 4 cfg.dstIpBe.toNat

def udpHeader (check : UInt16) : List UInt8 :=
  writeBE 2 cfg.srcPort.toNat ++ writeBE 2 cfg.dstPort.toNat ++ writeBE 2 (8 + n) ++
    writeLE 2 check.toNat

def pseudoHeader : List UInt8 :=
  writeLE 4 cfg.srcIpBe.toNat ++ writeLE 4 cfg.dstIpBe.toNat ++ [0, 17] ++ writeBE 2 (8 + n)

end Headers

end TradingPipeline.Afxdp
