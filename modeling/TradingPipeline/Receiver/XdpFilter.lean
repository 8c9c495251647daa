import TradingPipeline.Receiver.Extract

/-! # The XDP filter and the parser behind it

`is_udp_feed` decides in the kernel which frames go to the AF_XDP socket. It looks at no more
than two VLAN tags, where `extract_feed_payload` strips any number of them.
-/
namespace TradingPipeline.Receiver

/-- The unrolled loop over VLAN tags, with the number of turns that are left. -/
def skipVlanTags (frame : List UInt8) : ℕ → ℕ → ℕ → Option (ℕ × ℕ)
  | 0, proto, next => some (proto, next)
  | i + 1, proto, next =>
    if isVlan proto then
      if frame.length < next + 4 then none
      else skipVlanTags frame i (be16At frame (next + 2)) (next + 4)
    else some (proto, next)

def ipv4UdpHeader (frame : List UInt8) (next : ℕ) : Option ℕ :=
  if frame.length < next + 20 then none
  else if byteAt frame (next + 9) ≠ ipprotoUdp then none
  else if ipv4HeaderLength frame next < 20 then none
  else if frame.length < next + ipv4HeaderLength frame next then none
  else if frame.length < next + ipv4HeaderLength frame next + 8 then none
  else some (next + ipv4HeaderLength frame next)

def ipv6UdpHeader (frame : List UInt8) (next : ℕ) : Option ℕ :=
  if frame.length < next + 40 then none
  else if byteAt frame (next + 6) ≠ ipprotoUdp then none
  else if frame.length < next + 40 + 8 then none
  else some (next + 40)

/-- Where the UDP header stands whose destination port `is_udp_feed` compares. -/
def filterUdpHeader (frame : List UInt8) : Option ℕ :=
  if frame.length < 14 then none
  else
    match skipVlanTags frame 2 (be16At frame 12) 14 with
    | none => none
    | some (proto, next) =>
      if isVlan proto then none
      else if proto = ethPIp then ipv4UdpHeader frame next
      else if proto = ethPIpv6 then ipv6UdpHeader frame next
      else none

def isUdpFeed (frame : List UInt8) : Bool :=
  match filterUdpHeader frame with
  | some udp => be16At frame (udp + 2) == feedPort
  | none => false

/-- `*payload`, as an offset, and `*payload_len` after a successful `extract_feed_payload`. -/
def feedPayload (frame : List UInt8) : Option (ℕ × ℕ) :=
  (extractFeedPayload frame).map fun off => (off, frame.length - off)

/-- The number of complete VLAN tags in front of the first EtherType that is not one. -/
def countVlanTags (proto : ℕ) : List UInt8 → ℕ
  | _ :: _ :: hi :: lo :: rest =>
    if isVlan proto then countVlanTags (hi.toNat * 256 + lo.toNat) rest + 1 else 0
  | _ => 0

def vlanTags (frame : List UInt8) : ℕ := countVlanTags (be16At frame 12) (frame.drop 14)

section Tags
variable {frame : List UInt8} {proto off : ℕ} {r : ℕ × ℕ}

theorem drop_four (h : off + 4 ≤ frame.length) :
    ∃ a b hi lo, frame.drop off = a :: b :: hi :: lo :: frame.drop (off + 4) ∧
      be16At frame (off + 2) = hi.toNat * 256 + lo.toNat := by
  refine ⟨frame[off], frame[off + 1], frame[off + 2], frame[off + 3], ?_, ?_⟩
  · rw [List.drop_eq_getElem_cons (by omega), List.drop_eq_getElem_cons (by omega),
      List.drop_eq_getElem_cons (by omega), List.drop_eq_getElem_cons (by omega)]
  · simp [be16At, byteAt, List.getD_eq_getElem?_getD, show off + 2 < frame.length by omega,
      show off + 3 < frame.length by omega]

theorem stripVlanTags_of_not_vlan (h : isVlan proto = false) (rest : List UInt8) :
    stripVlanTags proto off rest = some (proto, off) := by
  unfold stripVlanTags
  split <;> simp [h]

theorem stripVlanTags_of_vlan (h : isVlan proto = true) :
    stripVlanTags proto off (frame.drop off) =
      if frame.length < off + 4 then none
      else stripVlanTags (be16At frame (off + 2)) (off + 4) (frame.drop (off + 4)) := by
  split
  · next hlt =>
    have hlen : (frame.drop off).length < 4 := by
      rw [List.length_drop]
      omega
    unfold stripVlanTags
    split
    · next heq =>
      rw [heq] at hlen
      simp only [List.length_cons] at hlen
      omega
    · exact if_pos h
  · next hge =>
    obtain ⟨a, b, hi, lo, hdrop, hproto⟩ := drop_four (Nat.le_of_not_lt hge)
    rw [hdrop, stripVlanTags, if_pos h, hproto]

theorem countVlanTags_of_vlan (h : isVlan proto = true) (hlen : off + 4 ≤ frame.length) :
    countVlanTags proto (frame.drop off) =
      countVlanTags (be16At frame (off + 2)) (frame.drop (off + 4)) + 1 := by
  obtain ⟨a, b, hi, lo, hdrop, hproto⟩ := drop_four hlen
  rw [hdrop, countVlanTags, if_pos h, hproto]

theorem stripVlanTags_of_skip {i : ℕ} (h : skipVlanTags frame i proto off = some r)
    (hr : isVlan r.1 = false) : stripVlanTags proto off (frame.drop off) = some r := by
  induction i generalizing proto off with
  | zero =>
    cases h
    exact stripVlanTags_of_not_vlan hr _
  | succ i ih =>
    unfold skipVlanTags at h
    split at h
    · next hv =>
      split at h
      · cases h
      · next hge => rw [stripVlanTags_of_vlan hv, if_neg hge, ih h]
    · next hv =>
      cases h
      exact stripVlanTags_of_not_vlan hr _

theorem skip_of_stripVlanTags {i : ℕ} (h : stripVlanTags proto off (frame.drop off) = some r)
    (hi : countVlanTags proto (frame.drop off) ≤ i) :
    skipVlanTags frame i proto off = some r ∧ isVlan r.1 = false := by
  induction i generalizing proto off with
  | zero =>
    cases hv : isVlan proto with
    | false =>
      rw [stripVlanTags_of_not_vlan hv] at h
      cases h
      exact ⟨rfl, hv⟩
    | true =>
      rw [stripVlanTags_of_vlan hv] at h
      split at h
      · cases h
      · next hge =>
        rw [countVlanTags_of_vlan hv (Nat.le_of_not_lt hge)] at hi
        omega
  | succ i ih =>
    cases hv : isVlan proto with
    | false =>
      rw [stripVlanTags_of_not_vlan hv] at h
      cases h
      exact ⟨by simp [skipVlanTags, hv], hv⟩
    | true =>
      rw [stripVlanTags_of_vlan hv] at h
      split at h
      · cases h
      · next hge =>
        rw [countVlanTags_of_vlan hv (Nat.le_of_not_lt hge)] at hi
        obtain ⟨hskip, hr⟩ := ih h (by omega)
        exact ⟨by rw [skipVlanTags, if_pos hv, if_neg hge, hskip], hr⟩

end Tags

section Headers
variable {frame : List UInt8} {off q : ℕ}

theorem ipv4Payload_eq_some_iff :
    ipv4Payload frame off = some q ↔
      ∃ udp, ipv4UdpHeader frame off = some udp ∧ be16At frame (udp + 2) = feedPort ∧
        q = udp + 8 := by
  unfold ipv4Payload ipv4UdpHeader
  split_ifs <;> simp <;> omega

theorem ipv6Payload_eq_some_iff :
    ipv6Payload frame off = some q ↔
      ∃ udp, ipv6UdpHeader frame off = some udp ∧ be16At frame (udp + 2) = feedPort ∧
        q = udp + 8 := by
  unfold ipv6Payload ipv6UdpHeader
  split_ifs <;> simp <;> omega

end Headers

section Agreement
variable {frame : List UInt8}

theorem isUdpFeed_eq_true_iff :
    isUdpFeed frame = true ↔
      ∃ udp, filterUdpHeader frame = some udp ∧ be16At frame (udp + 2) = feedPort := by
  unfold isUdpFeed
  cases filterUdpHeader frame with
  | none => simp
  | some udp => simp

/-- What the filter takes, the parser takes with the same UDP header. -/
theorem extractFeedPayload_of_filter {udp : ℕ} (h : filterUdpHeader frame = some udp)
    (hport : be16At frame (udp + 2) = feedPort) : extractFeedPayload frame = some (udp + 8) := by
  unfold filterUdpHeader at h
  split at h
  · cases h
  · next h14 =>
    cases hskip : skipVlanTags frame 2 (be16At frame 12) 14 with
    | none => simp [hskip] at h
    | some r =>
      simp only [hskip] at h
      split at h
      · cases h
      · next hv =>
        have hstrip := stripVlanTags_of_skip hskip (Bool.eq_false_of_not_eq_true hv)
        simp only [extractFeedPayload, if_pos (Nat.le_of_not_lt h14), hstrip]
        split at h
        · next hip => rw [if_pos hip, ipv4Payload_eq_some_iff.mpr ⟨udp, h, hport, rfl⟩]
        · next hip =>
          split at h
          · next hip6 => rw [if_neg hip, if_pos hip6,
              ipv6Payload_eq_some_iff.mpr ⟨udp, h, hport, rfl⟩]
          · cases h

theorem filter_of_extractFeedPayload {off : ℕ} (htags : vlanTags frame ≤ 2)
    (h : extractFeedPayload frame = some off) :
    ∃ udp, filterUdpHeader frame = some udp ∧ be16At frame (udp + 2) = feedPort := by
  unfold extractFeedPayload at h
  split at h
  · next h14 =>
    cases hstrip : stripVlanTags (be16At frame 12) 14 (frame.drop 14) with
    | none => simp [hstrip] at h
    | some r =>
      obtain ⟨hskip, hv⟩ := skip_of_stripVlanTags hstrip htags
      simp only [hstrip] at h
      simp only [filterUdpHeader, if_neg (Nat.not_lt.mpr h14), hskip, hv, Bool.false_eq_true,
        if_false]
      split at h
      · next hip =>
        obtain ⟨udp, hudp, hport, -⟩ := ipv4Payload_eq_some_iff.mp h
        exact ⟨udp, by rw [if_pos hip, hudp], hport⟩
      · next hip =>
        split at h
        · next hip6 =>
          obtain ⟨udp, hudp, hport, -⟩ := ipv6Payload_eq_some_iff.mp h
          exact ⟨udp, by rw [if_neg hip, if_pos hip6, hudp], hport⟩
        · cases h
  -- a frame with room for an IP header has room for an Ethernet header
  · next h14 =>
    split at h
    · omega
    · split at h
      · omega
      · cases h

end Agreement

/-- Every frame that the filter redirects is accepted by the parser, with the payload between the
UDP header that the filter looked at and the end of the frame. On frames with at most two
stacked VLAN tags the two accept the same. -/
theorem filter_agrees_with_extract :
    (∀ frame, isUdpFeed frame = true →
      ∃ udp, filterUdpHeader frame = some udp ∧ be16At frame (udp + 2) = feedPort ∧
        udp + 8 ≤ frame.length ∧
        feedPayload frame = some (udp + 8, frame.length - (udp + 8))) ∧
    ∀ frame, vlanTags frame ≤ 2 →
      (isUdpFeed frame = true ↔ (extractFeedPayload frame).isSome = true) := by
  refine ⟨fun frame h => ?_, fun frame htags => ⟨fun h => ?_, fun h => ?_⟩⟩
  · obtain ⟨udp, hudp, hport⟩ := isUdpFeed_eq_true_iff.mp h
    have hextract := extractFeedPayload_of_filter hudp hport
    have hbounds := extractFeedPayload_bounds hextract
    exact ⟨udp, hudp, hport, hbounds.2, by rw [feedPayload, hextract]; rfl⟩
  · obtain ⟨udp, hudp, hport⟩ := isUdpFeed_eq_true_iff.mp h
    rw [extractFeedPayload_of_filter hudp hport]
    rfl
  · obtain ⟨off, hoff⟩ := Option.isSome_iff_exists.mp h
    exact isUdpFeed_eq_true_iff.mpr (filter_of_extractFeedPayload htags hoff)

/-- A feed packet behind the given VLAN tags, with one byte of payload. -/
def taggedFrame (tags : ℕ) : List UInt8 :=
  List.replicate 12 0 ++ (List.replicate tags [0x81, 0x00, 0, 5]).flatten ++ [0x08, 0x00] ++
    [0x45, 0, 0, 0, 0, 0, 0, 0, 64, 17] ++ List.replicate 10 0 ++
    [0xC0, 0x00, 0x13, 0x88, 0, 9, 0, 0] ++ [77]

theorem filter_agrees_with_extract_tagged :
    isUdpFeed (taggedFrame 2) = true ∧ feedPayload (taggedFrame 2) = some (50, 1) ∧
      (extractFeedPayload (taggedFrame 2)).isSome = true := by
  have hfeed : isUdpFeed (taggedFrame 2) = true := by decide +kernel
  have htags : vlanTags (taggedFrame 2) ≤ 2 := by decide +kernel
  obtain ⟨udp, hudp, -, -, hpayload⟩ := filter_agrees_with_extract.1 _ hfeed
  have hpos : filterUdpHeader (taggedFrame 2) = some 42 := by decide +kernel
  obtain rfl : udp = 42 := Option.some.inj (hudp.symm.trans hpos)
  refine ⟨hfeed, ?_, (filter_agrees_with_extract.2 _ htags).mp hfeed⟩
  rw [hpayload]
  rfl

/-- With a third tag the parser still finds the feed packet, which the filter leaves to the
kernel. -/
example : isUdpFeed (taggedFrame 3) = false ∧ extractFeedPayload (taggedFrame 3) = some 54 := by
  decide +kernel

end TradingPipeline.Receiver
