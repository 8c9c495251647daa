import TradingPipeline.Mold.Header
import Mathlib.Tactic.SplitIfs

/-! # From a raw frame to the feed payload

`extract_feed_payload` strips the Ethernet, VLAN, IP and UDP headers of a frame and
yields the offset at which the MoldUDP64 packet starts. The packet runs to the end
of the frame.
-/
namespace TradingPipeline.Receiver

def feedPort : ℕ := 5000
def ethP8021Q : ℕ := 0x8100
def ethP8021AD : ℕ := 0x88A8
def ethPIp : ℕ := 0x0800
def ethPIpv6 : ℕ := 0x86DD
def ipprotoUdp : ℕ := 17

def byteAt (frame : List UInt8) (i : ℕ) : ℕ := (frame.getD i 0).toNat

def be16At (frame : List UInt8) (i : ℕ) : ℕ := byteAt frame i * 256 + byteAt frame (i + 1)

def isVlan (proto : ℕ) : Bool := proto == ethP8021Q || proto == ethP8021AD

/-- The loop over stacked VLAN tags; the list is the frame behind `offset`. -/
def stripVlanTags (proto offset : ℕ) : List UInt8 → Option (ℕ × ℕ)
  | _ :: _ :: hi :: lo :: rest =>
    if isVlan proto then stripVlanTags (hi.toNat * 256 + lo.toNat) (offset + 4) rest
    else some (proto, offset)
  | _ => if isVlan proto then none else some (proto, offset)

/-- The length of the IPv4 header at `offset`, from its `ihl` field. -/
def ipv4HeaderLength (frame : List UInt8) (offset : ℕ) : ℕ := byteAt frame offset % 16 * 4

def ipv4Payload (frame : List UInt8) (offset : ℕ) : Option ℕ :=
  if frame.length < offset + 20 then none
  else if ipv4HeaderLength frame offset < 20 ∨
      frame.length < offset + ipv4HeaderLength frame offset + 8 then none
  else if byteAt frame (offset + 9) ≠ ipprotoUdp then none
  else if be16At frame (offset + ipv4HeaderLength frame offset + 2) ≠ feedPort then none
  else some (offset + ipv4HeaderLength frame offset + 8)

def ipv6Payload (frame : List UInt8) (offset : ℕ) : Option ℕ :=
  if frame.length < offset + 40 + 8 then none
  else if byteAt frame (offset + 6) ≠ ipprotoUdp then none
  else if be16At frame (offset + 40 + 2) ≠ feedPort then none
  else some (offset + 40 + 8)

/-- `extract_feed_payload`: the offset of the payload, or `none` for the result `-1`. -/
def extractFeedPayload (frame : List UInt8) : Option ℕ :=
  if 14 ≤ frame.length then
    match stripVlanTags (be16At frame 12) 14 (frame.drop 14) with
    | none => none
    | some (proto, offset) =>
      if proto = ethPIp then ipv4Payload frame offset
      else if proto = ethPIpv6 then ipv6Payload frame offset
      else none
  -- without room for an Ethernet header the frame is tried as a bare IP packet
  else if 20 ≤ frame.length ∧ byteAt frame 0 / 16 = 4 then ipv4Payload frame 0
  else if 40 ≤ frame.length ∧ byteAt frame 0 / 16 = 6 then ipv6Payload frame 0
  else none

theorem stripVlanTags_offset_le {proto offset : ℕ} {rest : List UInt8} {r : ℕ × ℕ}
    (h : stripVlanTags proto offset rest = some r) : offset ≤ r.2 := by
  fun_induction stripVlanTags proto offset rest with
  | case1 proto offset _ _ hi lo rest hv ih =>
    have := ih h
    omega
  | case2 => cases h; exact le_refl _
  | case3 => cases h
  | case4 => cases h; exact le_refl _

theorem ipv4Payload_bounds {frame : List UInt8} {offset off : ℕ}
    (h : ipv4Payload frame offset = some off) : offset + 28 ≤ off ∧ off ≤ frame.length := by
  unfold ipv4Payload at h
  split_ifs at h
  cases h
  omega

theorem ipv6Payload_bounds {frame : List UInt8} {offset off : ℕ}
    (h : ipv6Payload frame offset = some off) : offset + 28 ≤ off ∧ off ≤ frame.length := by
  unfold ipv6Payload at h
  split_ifs at h
  cases h
  omega

/-- The payload lies behind at least 42 header bytes, so the 32 bytes of a `packet_ref`
written over the front of the frame leave it alone. -/
theorem extractFeedPayload_bounds {frame : List UInt8} {off : ℕ}
    (h : extractFeedPayload frame = some off) : 42 ≤ off ∧ off ≤ frame.length := by
  unfold extractFeedPayload at h
  split_ifs at h with h14 h4 h6
  · cases hv : stripVlanTags (be16At frame 12) 14 (frame.drop 14) with
    | none => simp [hv] at h
    | some r =>
      have hoff := stripVlanTags_offset_le hv
      simp only [hv] at h
      split_ifs at h with hip hip6
      · have := ipv4Payload_bounds h
        omega
      · have := ipv6Payload_bounds h
        omega
  · omega
  · omega

end TradingPipeline.Receiver
