import TradingPipeline.Afxdp.Frame

/-! # The frames that are sent are valid

The headers are described field by field. The checksums are then facts about sums of words:
the incremental update replaces one summand, and the UDP checksum completes its sum to zero.
-/
namespace TradingPipeline.Afxdp
open Lib

section Fields
variable {f g : HeaderField} {m : Memory} {a v : ℕ} {bs : List UInt8}

theorem HeaderField.disjoint (h : f ≠ g) :
    f.offset + f.size ≤ g.offset ∨ g.offset + g.size ≤ f.offset := by
  revert h
  cases f <;> cases g <;> decide

theorem HeaderField.offset_ge (f : HeaderField) : 14 ≤ f.offset := by
  cases f <;> decide

theorem HeaderField.end_le (f : HeaderField) : f.offset + f.size ≤ 42 := by
  cases f <;> decide

theorem HeaderField.get_set (f g : HeaderField) (v : ℕ) (m : Memory) :
    f.get (g.set v m) = if f = g then v % 256 ^ f.size else f.get m := by
  by_cases h : f = g
  · rw [if_pos h, ← h]
    exact m.uint_store_mod f.offset f.size v
  · rw [if_neg h]
    refine Memory.uint_store_of_disjoint ?_
    rw [writeLE_length]
    exact HeaderField.disjoint h

theorem HeaderField.get_store (f : HeaderField) (h : a + bs.length ≤ 14 ∨ 42 ≤ a) :
    f.get (m.store a bs) = f.get m := by
  have hge := f.offset_ge
  have hle := f.end_le
  exact Memory.uint_store_of_disjoint (by omega)

theorem HeaderField.load_set (f : HeaderField) {n : ℕ} (h : a + n ≤ 14 ∨ 42 ≤ a) :
    (f.set v m).load a n = m.load a n := by
  have hge := f.offset_ge
  have hle := f.end_le
  exact Memory.load_store_of_disjoint (by rw [writeLE_length]; omega)

theorem HeaderField.get_copy (f : HeaderField) (t m : Memory) :
    f.get (m.store 0 (t.load 0 42)) = f.get t := by
  have hcopy := m.load_store_load t 0 0 f.end_le
  rw [Nat.zero_add] at hcopy
  exact congrArg readLE hcopy

end Fields

theorem htons_lt (x : ℕ) : htons x < 65536 := by
  have h := readBE_lt (writeLE 2 x)
  rwa [writeLE_length] at h

@[simp] theorem htons_mod (x : ℕ) : htons x % 65536 = htons x := Nat.mod_eq_of_lt (htons_lt x)

theorem writeLE_htons (x : ℕ) : writeLE 2 (htons x) = writeBE 2 x := by
  have hreverse : (writeLE 2 x).reverse = writeBE 2 x := rfl
  have hread := writeLE_readLE (writeLE 2 x).reverse
  rwa [readLE_reverse, List.length_reverse, writeLE_length, hreverse] at hread

/-- The values of the members in the headers of a datagram with `n` bytes of payload. -/
def headerValue (cfg : Config) (n : ℕ) (check udpCheck : UInt16) : HeaderField → ℕ
  | .ihlVersion => 0x45
  | .tos | .id | .fragOff => 0
  | .totLen => htons (28 + n)
  | .ttl => 64
  | .protocol => 17
  | .check => check.toNat
  | .saddr => cfg.srcIpBe.toNat
  | .daddr => cfg.dstIpBe.toNat
  | .source => htons cfg.srcPort.toNat
  | .dest => htons cfg.dstPort.toNat
  | .len => htons (8 + n)
  | .udpCheck => udpCheck.toNat

def ipFields : List HeaderField :=
  [.ihlVersion, .tos, .totLen, .id, .fragOff, .ttl, .protocol, .check, .saddr, .daddr]

def udpFields : List HeaderField := [.source, .dest, .len, .udpCheck]

section Layout
variable {cfg : Config} {n : ℕ} {check udpCheck : UInt16} {m : Memory}

theorem flatMap_load {l : List HeaderField}
    (h : ∀ f ∈ l, f.get m = headerValue cfg n check udpCheck f) :
    (l.flatMap fun f => m.load f.offset f.size) =
      l.flatMap fun f => writeLE f.size (headerValue cfg n check udpCheck f) := by
  refine List.flatMap_congr fun f hf => ?_
  rw [← h f hf]
  exact (m.writeLE_uint f.size f.offset).symm

theorem load_ipHeader (h : ∀ f ∈ ipFields, f.get m = headerValue cfg n check udpCheck f) :
    m.load 14 20 = ipHeader cfg n check := by
  have hsplit : m.load 14 20 = ipFields.flatMap fun f => m.load f.offset f.size := rfl
  rw [hsplit, flatMap_load h]
  simp only [ipFields, List.flatMap_cons, List.flatMap_nil, HeaderField.size, headerValue,
    writeLE_htons]
  rfl

theorem load_udpHeader (h : ∀ f ∈ udpFields, f.get m = headerValue cfg n check udpCheck f) :
    m.load 34 8 = udpHeader cfg n udpCheck := by
  have hsplit : m.load 34 8 = udpFields.flatMap fun f => m.load f.offset f.size := rfl
  rw [hsplit, flatMap_load h]
  simp only [udpFields, List.flatMap_cons, List.flatMap_nil, HeaderField.size, headerValue,
    writeLE_htons]
  rfl

end Layout

@[simp] theorem ethernetHeader_length (cfg : Config) : (ethernetHeader cfg).length = 14 := by
  simp [ethernetHeader]

@[simp] theorem ipHeader_length (cfg : Config) (n : ℕ) (check : UInt16) :
    (ipHeader cfg n check).length = 20 := by
  simp [ipHeader]

@[simp] theorem udpHeader_length (cfg : Config) (n : ℕ) (check : UInt16) :
    (udpHeader cfg n check).length = 8 := by
  simp [udpHeader]

@[simp] theorem pseudoHeader_length (cfg : Config) (n : ℕ) : (pseudoHeader cfg n).length = 12 := by
  simp [pseudoHeader]

section Template
variable (avx2 : Bool) (cfg : Config) (n : ℕ) (m : Memory)

theorem get_ipTemplate {f : HeaderField} (hf : f ∈ ipFields) :
    f.get (ipTemplate cfg n m) = headerValue cfg n 0 0 f := by
  cases f
  all_goals first
    | exact absurd hf (by decide)
    | simp [ipTemplate, HeaderField.get_set, HeaderField.size, ipHdrLen, udpHdrLen, ipprotoUdp,
        headerValue]

theorem get_buildTemplate (f : HeaderField) : f.get (buildTemplate avx2 cfg n m) =
    headerValue cfg n (ipChecksum avx2 (ipHeader cfg n 0)) 0 f := by
  have hget : ∀ f ∈ ipFields, f.get (ipTemplate cfg n m) = headerValue cfg n 0 0 f :=
    fun f hf => get_ipTemplate cfg n m hf
  have hip : (ipTemplate cfg n m).load ethHdrLen ipHdrLen = ipHeader cfg n 0 := load_ipHeader hget
  unfold buildTemplate
  dsimp only
  rw [hip]
  cases f
  all_goals simp [HeaderField.get_set, HeaderField.size, udpHdrLen, headerValue]
  -- the members of the IP header but the checksum are left
  all_goals exact hget _ (by decide)

theorem load_ethernetHeader : (buildTemplate avx2 cfg n m).load 0 14 = ethernetHeader cfg := by
  have hdst : cfg.dstMac.toList.length = 6 := by simp
  have hsrc : cfg.srcMac.toList.length = 6 := by simp
  have hstores (m : Memory) : (((m.store 0 cfg.dstMac.toList).store 6 cfg.srcMac.toList).store 12
      [0x08]).store 13 [0x00] = m.store 0 (ethernetHeader cfg) := by
    have hsplit : ethernetHeader cfg =
        cfg.dstMac.toList ++ cfg.srcMac.toList ++ [0x08] ++ [0x00] := by simp [ethernetHeader]
    rw [hsplit, Memory.store_append, Memory.store_append, Memory.store_append]
    simp [hdst, hsrc]
  simp only [buildTemplate, ipTemplate, hstores,
    HeaderField.load_set _ (a := 0) (n := 14) (.inl le_rfl)]
  have hload := Memory.load_store_same (m.store 0 (List.replicate hdrTotal 0)) 0
    (ethernetHeader cfg)
  rwa [ethernetHeader_length] at hload

end Template

section Patch
variable (cfg : Config) (t m : Memory) (payload : List UInt8)

theorem hdrTotal_eq : hdrTotal = 42 := rfl

theorem get_patchFrame {n : ℕ} {check : UInt16} (ht : ∀ f, f.get t = headerValue cfg n check 0 f)
    (f : HeaderField) : f.get (patchFrame t m payload) = headerValue cfg payload.length
      (csumReplace2 check (UInt16.ofNat (htons (28 + n)))
        (UInt16.ofNat (htons (28 + payload.length)))) 0 f := by
  cases f
  all_goals
    simp [patchFrame, HeaderField.get_set, HeaderField.get_store, HeaderField.get_copy, hdrTotal_eq,
      HeaderField.size, ht, ipHdrLen, udpHdrLen, headerValue]

theorem load_patchFrame_ethernet : (patchFrame t m payload).load 0 14 = t.load 0 14 := by
  have hpayload (m : Memory) : (m.store hdrTotal payload).load 0 14 = m.load 0 14 :=
    Memory.load_store_of_disjoint (.inl (by decide))
  simp only [patchFrame, hpayload, HeaderField.load_set _ (a := 0) (n := 14) (.inl le_rfl)]
  exact Memory.load_store_load m t 0 0 (b := 0) (k := 14) (by decide)

theorem load_patchFrame_payload : (patchFrame t m payload).load 42 payload.length = payload := by
  unfold patchFrame
  dsimp only
  rw [HeaderField.load_set _ (.inr le_rfl)]
  exact Memory.load_store_same _ 42 payload

end Patch

section Sums
variable (cfg : Config) (n : ℕ)

theorem wordSumLE_writeLE_two (v : ℕ) : wordSumLE (writeLE 2 v) = v % 65536 := by
  have hread := readLE_writeLE_mod 2 v
  have hwords : wordSumLE (writeLE 2 v) = readLE (writeLE 2 v) := rfl
  rwa [hwords]

theorem wordSumLE_writeBE_two (v : ℕ) : wordSumLE (writeBE 2 v) = htons v := by
  rw [← writeLE_htons, wordSumLE_writeLE_two, htons_mod]

/-- The words of the IP header that neither the length nor the checksum takes part in. -/
def ipBase : ℕ := wordSumLE [0x45, 0] + wordSumLE [0, 0, 0, 0, 64, 17] +
  (wordSumLE (writeLE 4 cfg.srcIpBe.toNat) + wordSumLE (writeLE 4 cfg.dstIpBe.toNat))

theorem ipBase_pos : 0 < ipBase cfg := by
  have hfirst : wordSumLE [0x45, 0] = 69 := rfl
  unfold ipBase
  omega

theorem wordSumLE_check (check : UInt16) : wordSumLE (writeLE 2 check.toNat) = check.toNat := by
  rw [wordSumLE_writeLE_two, Nat.mod_eq_of_lt check.toNat_lt]

theorem wordSumLE_ipHeader (check : UInt16) : wordSumLE (ipHeader cfg n check) =
    ipBase cfg + htons (28 + n) + check.toNat := by
  unfold ipHeader ipBase
  repeat rw [wordSumLE_append (by simp)]
  rw [wordSumLE_writeBE_two, wordSumLE_check]
  omega

theorem wordSumLE_ipHeader_lt (check : UInt16) : wordSumLE (ipHeader cfg n check) < 2 ^ 32 := by
  have hle := wordSumLE_le (ipHeader cfg n check)
  rw [ipHeader_length] at hle
  omega

theorem wordSumLE_pseudoHeader : wordSumLE (pseudoHeader cfg n) =
    wordSumLE (writeLE 4 cfg.srcIpBe.toNat) + wordSumLE (writeLE 4 cfg.dstIpBe.toNat) +
      htons ipprotoUdp + htons (8 + n) := by
  have hproto : wordSumLE [0, 17] = htons ipprotoUdp := rfl
  unfold pseudoHeader
  repeat rw [wordSumLE_append (by simp)]
  rw [wordSumLE_writeBE_two, hproto]

theorem addHalves_eq (x : UInt32) :
    (x &&& (0xFFFF : UInt32)) + (x >>> 16 &&& (0xFFFF : UInt32)) =
      UInt32.ofNat (wordSumLE (writeLE 4 x.toNat)) := by
  have hx := x.toNat_lt
  have hread : UInt32.ofNat (readLE (writeLE 4 x.toNat)) = x := by
    rw [readLE_writeLE hx, UInt32.ofNat_toNat]
  have hhi : x >>> 16 &&& (0xFFFF : UInt32) = x >>> 16 := by
    apply UInt32.toNat_inj.mp
    rw [toNat_lo, toNat_hi]
    omega
  rw [hhi, ← lane_eq _ (writeLE_length 4 _), hread]

theorem pseudoSum_eq :
    pseudoSum cfg (htons (8 + n)) = UInt32.ofNat (wordSumLE (pseudoHeader cfg n)) := by
  simp only [pseudoSum, addHalves_eq, UInt32.zero_add, wordSumLE_pseudoHeader, UInt32.ofNat_add]

/-- The words that the UDP checksum is about, with `check` in its place. -/
def udpSum (check : UInt16) (payload : List UInt8) : ℕ :=
  wordSumLE (pseudoHeader cfg payload.length ++ (udpHeader cfg payload.length check ++ payload))

variable (check : UInt16) (payload : List UInt8)

theorem udpSum_split : udpSum cfg check payload = wordSumLE (pseudoHeader cfg payload.length) +
    wordSumLE (udpHeader cfg payload.length check ++ payload) :=
  wordSumLE_append (by simp)

theorem udpSum_check : udpSum cfg check payload = udpSum cfg 0 payload + check.toNat := by
  have hheader (check : UInt16) : wordSumLE (udpHeader cfg payload.length check ++ payload) =
      wordSumLE (writeBE 2 cfg.srcPort.toNat) + wordSumLE (writeBE 2 cfg.dstPort.toNat) +
        wordSumLE (writeBE 2 (8 + payload.length)) + check.toNat + wordSumLE payload := by
    unfold udpHeader
    repeat rw [wordSumLE_append (by simp)]
    rw [wordSumLE_check]
  have hzero : (0 : UInt16).toNat = 0 := rfl
  rw [udpSum_split, udpSum_split, hheader check, hheader 0, hzero]
  omega

theorem udpSum_pos : 0 < udpSum cfg check payload := by
  have hproto : htons ipprotoUdp = 4352 := rfl
  rw [udpSum_split, wordSumLE_pseudoHeader, hproto]
  omega

theorem udpSum_lt (h : payload.length ≤ maxPayload) : udpSum cfg check payload < 2 ^ 32 := by
  have hle := wordSumLE_le
    (pseudoHeader cfg payload.length ++ (udpHeader cfg payload.length check ++ payload))
  have hmax : maxPayload = 4054 := rfl
  rw [List.length_append, List.length_append, pseudoHeader_length, udpHeader_length] at hle
  unfold udpSum
  omega

end Sums

/-- The bytes of a datagram with the given payload, with both checksums right: the one of the IP
header is the one computed from scratch, and a receiver's sums over the IP header and over
pseudo-header, UDP header and payload are all ones. -/
def ValidFrame (avx2 : Bool) (cfg : Config) (payload bytes : List UInt8) : Prop :=
  ∃ check udpCheck : UInt16,
    bytes = ethernetHeader cfg ++ (ipHeader cfg payload.length check ++
      (udpHeader cfg payload.length udpCheck ++ payload)) ∧
    check = ipChecksum avx2 (ipHeader cfg payload.length 0) ∧
    endAround 65536 (wordSumBE (ipHeader cfg payload.length check)) = 0xFFFF ∧
    udpCheck ≠ 0 ∧
    endAround 65536 (wordSumBE (pseudoHeader cfg payload.length ++
      (udpHeader cfg payload.length udpCheck ++ payload))) = 0xFFFF

section Checks
variable (avx2 : Bool) (cfg : Config)

theorem toNat_ipChecksum_ipHeader (n : ℕ) : (ipChecksum avx2 (ipHeader cfg n 0)).toNat =
    65535 - endAround 65536 (ipBase cfg + htons (28 + n)) := by
  rw [toNat_ipChecksum avx2 (wordSumLE_ipHeader_lt cfg n 0), wordSumLE_ipHeader]
  rfl

/-- The incremental update is the checksum of the patched header. -/
theorem csumReplace2_ipHeader (old new : ℕ) :
    csumReplace2 (ipChecksum avx2 (ipHeader cfg old 0)) (UInt16.ofNat (htons (28 + old)))
      (UInt16.ofNat (htons (28 + new))) = ipChecksum avx2 (ipHeader cfg new 0) := by
  have hlt := endAround_lt (b := 65536) (by decide) (ipBase cfg + htons (28 + old))
  have hfold : 65535 - (65535 - endAround 65536 (ipBase cfg + htons (28 + old))) =
      endAround 65536 (ipBase cfg + htons (28 + old)) := by omega
  have hreplace := endAround_replace (b := 65536) (by decide) (ipBase_pos cfg)
    (htons_lt (28 + old)) (htons (28 + new))
  apply UInt16.toNat_inj.mp
  rw [toNat_csumReplace2, toNat_ipChecksum_ipHeader, toNat_ipChecksum_ipHeader, hfold,
    UInt16.toNat_ofNat', UInt16.toNat_ofNat', htons_mod, htons_mod, hreplace]

theorem ipHeader_sum (n : ℕ) :
    endAround 65536 (wordSumBE (ipHeader cfg n (ipChecksum avx2 (ipHeader cfg n 0)))) =
      0xFFFF := by
  have hbase := ipBase_pos cfg
  apply endAround_wordSumBE
  · rw [wordSumLE_ipHeader]
    omega
  · rw [wordSumLE_ipHeader, toNat_ipChecksum_ipHeader]
    exact dvd_add_complement (b := 65536) (by decide) _

theorem udp_sum {check : UInt16} {payload : List UInt8}
    (h : 65535 ∣ udpSum cfg 0 payload + check.toNat) :
    endAround 65536 (wordSumBE (pseudoHeader cfg payload.length ++
      (udpHeader cfg payload.length check ++ payload))) = 0xFFFF := by
  rw [← udpSum_check] at h
  exact endAround_wordSumBE (udpSum_pos cfg check payload) h

end Checks

/-- A frame in memory, with its headers and its payload. -/
structure Holds (cfg : Config) (check udpCheck : UInt16) (payload : List UInt8) (frame : Memory) :
    Prop where
  ethernet : frame.load 0 14 = ethernetHeader cfg
  fields : ∀ f, f.get frame = headerValue cfg payload.length check udpCheck f
  payload : frame.load 42 payload.length = payload

section Send
variable {avx2 : Bool} {cfg : Config} {check udpCheck : UInt16} {payload : List UInt8}
  {frame : Memory}

theorem Holds.load_udp (h : Holds cfg check udpCheck payload frame) :
    frame.load 34 (8 + payload.length) = udpHeader cfg payload.length udpCheck ++ payload := by
  rw [Memory.load_add, load_udpHeader fun f _ => h.fields f, h.payload]

theorem Holds.load (h : Holds cfg check udpCheck payload frame) :
    frame.load 0 (hdrTotal + payload.length) = ethernetHeader cfg ++
      (ipHeader cfg payload.length check ++
        (udpHeader cfg payload.length udpCheck ++ payload)) := by
  have hlength : hdrTotal + payload.length = 14 + (20 + (8 + payload.length)) := by
    rw [hdrTotal_eq]
    omega
  rw [hlength, Memory.load_add, Memory.load_add, h.ethernet, load_ipHeader fun f _ => h.fields f,
    h.load_udp]

theorem Holds.set_udpCheck (h : Holds cfg check udpCheck payload frame) (v : UInt16) :
    Holds cfg check v payload (HeaderField.udpCheck.set v.toNat frame) where
  ethernet := (HeaderField.load_set _ (.inl le_rfl)).trans h.ethernet
  fields f := by
    rw [HeaderField.get_set, h.fields]
    cases f <;> simp [headerValue, HeaderField.size]
  payload := (HeaderField.load_set _ (.inr le_rfl)).trans h.payload

theorem patchFrame_holds (avx2 : Bool) (cfg : Config) (n : ℕ) (m₀ m : Memory)
    (payload : List UInt8) : Holds cfg (ipChecksum avx2 (ipHeader cfg payload.length 0)) 0 payload
      (patchFrame (buildTemplate avx2 cfg n m₀) m payload) where
  ethernet := (load_patchFrame_ethernet _ m payload).trans (load_ethernetHeader avx2 cfg n m₀)
  fields f := by
    rw [get_patchFrame cfg _ m payload (get_buildTemplate avx2 cfg n m₀), csumReplace2_ipHeader]
  payload := load_patchFrame_payload _ m payload

/-- The UDP checksum completes the sum, and is not the zero that stands for none. -/
theorem fillFrame_holds (avx2 : Bool) (cfg : Config) (n : ℕ) (m₀ m : Memory)
    (hn : payload.length ≤ maxPayload) :
    ∃ v : UInt16, v ≠ 0 ∧ 65535 ∣ udpSum cfg 0 payload + v.toNat ∧
      Holds cfg (ipChecksum avx2 (ipHeader cfg payload.length 0)) v payload
        (fillFrame avx2 cfg (buildTemplate avx2 cfg n m₀) m payload) := by
  have hpatch := patchFrame_holds avx2 cfg n m₀ m payload
  have hload : (patchFrame (buildTemplate avx2 cfg n m₀) m payload).load (ethHdrLen + ipHdrLen)
      (udpHdrLen + payload.length) = udpHeader cfg payload.length 0 ++ payload := hpatch.load_udp
  have hsum : cksumPartialSimd avx2 ((patchFrame (buildTemplate avx2 cfg n m₀) m payload).load
      (ethHdrLen + ipHdrLen) (udpHdrLen + payload.length))
      (pseudoSum cfg (htons (udpHdrLen + payload.length))) =
        UInt32.ofNat (udpSum cfg 0 payload) := by
    rw [hload, cksumPartialSimd_eq, udpHdrLen, pseudoSum_eq, ← UInt32.ofNat_add, ← udpSum_split]
  unfold fillFrame
  dsimp only
  rw [hsum]
  generalize hc : ~~~cksumFold16 (UInt32.ofNat (udpSum cfg 0 payload)) = c
  have hdvd : 65535 ∣ udpSum cfg 0 payload + c.toNat := by
    rw [← hc, toNat_complement, toNat_cksumFold16, UInt32.toNat_ofNat',
      Nat.mod_eq_of_lt (udpSum_lt cfg 0 payload hn)]
    exact dvd_add_complement (b := 65536) (by decide) _
  have hholds := hpatch.set_udpCheck c
  have hget : HeaderField.udpCheck.get (HeaderField.udpCheck.set c.toNat
      (patchFrame (buildTemplate avx2 cfg n m₀) m payload)) = c.toNat := hholds.fields .udpCheck
  rw [hget]
  split
  · next hzero =>
    rw [hzero, Nat.add_zero] at hdvd
    exact ⟨0xFFFF, by decide, hdvd.add dvd_rfl, hholds.set_udpCheck 0xFFFF⟩
  · next hne =>
    exact ⟨c, fun h => hne (by rw [h]; rfl), hdvd, hholds⟩

theorem fillFrame_valid (avx2 : Bool) (cfg : Config) (n : ℕ) (m₀ m : Memory)
    (hn : payload.length ≤ maxPayload) : ValidFrame avx2 cfg payload
      ((fillFrame avx2 cfg (buildTemplate avx2 cfg n m₀) m payload).load 0
        (hdrTotal + payload.length)) := by
  obtain ⟨v, hne, hdvd, hholds⟩ := fillFrame_holds avx2 cfg n m₀ m hn
  exact ⟨_, v, hholds.load, rfl, ipHeader_sum avx2 cfg payload.length, hne, udp_sum cfg hdvd⟩

theorem fillFrame_congr {t t' : Memory} (h : t.load 0 hdrTotal = t'.load 0 hdrTotal) (m : Memory)
    (payload : List UInt8) : fillFrame avx2 cfg t m payload = fillFrame avx2 cfg t' m payload := by
  unfold fillFrame patchFrame
  rw [h]

end Send

end TradingPipeline.Afxdp
