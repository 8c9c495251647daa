import TradingPipeline.Afxdp.Checksum
import TradingPipeline.Order.SequenceDiscipline

/-! # The checksum of the order message

`wire_checksum` adds the carry back in at each word, the transmit path once at the end. Both
leave the one digit that the sum of the words has modulo 65535. A change of one byte moves
that sum by less than 65535, so `handle_client` refuses the frame.
-/
namespace TradingPipeline.OrderSession
open Lib OrderRing

section WireChecksum

theorem toNat_addWord {sum word : UInt32} (hsum : sum.toNat < 65536) (hword : word.toNat < 65536) :
    (addWord sum word).toNat = endAround 65536 (sum.toNat + word.toNat) := by
  have hadd : (sum + word).toNat = sum.toNat + word.toNat := by
    rw [UInt32.toNat_add, Nat.mod_eq_of_lt (by omega)]
  have hcmp : (0xFFFF : UInt32) < sum + word ↔ 65535 < sum.toNat + word.toNat := by
    rw [UInt32.lt_iff_toNat_lt, hadd]
    rfl
  unfold addWord
  by_cases h : (0xFFFF : UInt32) < sum + word
  · have hlarge := hcmp.mp h
    have hone : (1 : UInt32).toNat = 1 := rfl
    -- one carry at most, and none after it
    have hdiv : (sum.toNat + word.toNat) / 65536 = 1 := by omega
    have hmod : (sum.toNat + word.toNat) % 65536 + 1 < 65536 := by omega
    rw [if_pos h, UInt32.toNat_add, Afxdp.toNat_lo, hadd, hone, endAround,
      if_pos ⟨by decide, hlarge⟩, hdiv, endAround_of_lt hmod]
    exact Nat.mod_eq_of_lt (hmod.trans (by decide))
  · have hsmall := mt hcmp.mpr h
    rw [if_neg h, hadd, endAround_of_lt (by omega)]

theorem toNat_checksumLoop {sum : UInt32} (hsum : sum.toNat < 65536) (buf : List UInt8) :
    (checksumLoop sum buf).toNat = endAround 65536 (sum.toNat + wordSumLE buf) := by
  fun_induction checksumLoop sum buf with
  | case1 sum lo hi buf ih =>
    have hlo := lo.toNat_lt
    have hhi := hi.toNat_lt
    have hword := Afxdp.toNat_word lo hi
    have hsmall : (lo.toUInt32 ||| (hi.toUInt32 <<< 8)).toNat < 65536 := by omega
    have hstep := toNat_addWord hsum hsmall
    have hlt : (addWord sum (lo.toUInt32 ||| (hi.toUInt32 <<< 8))).toNat < 65536 := by
      rw [hstep]
      exact endAround_lt (by decide) _
    rw [ih hlt, hstep, endAround_endAround_add (by decide), hword, wordSumLE, Nat.add_assoc]
  | case2 sum last =>
    have hlast : last.toUInt32.toNat < 65536 := by
      rw [UInt8.toNat_toUInt32]
      exact last.toNat_lt.trans (by decide)
    rw [toNat_addWord hsum hlast, UInt8.toNat_toUInt32, wordSumLE]
  | case3 sum => rw [wordSumLE, Nat.add_zero, endAround_of_lt hsum]

theorem toNat_wireChecksum (buf : List UInt8) :
    (wireChecksum buf).toNat = 65535 - endAround 65536 (wordSumLE buf) := by
  have hloop : (checksumLoop 0 buf).toNat = endAround 65536 (wordSumLE buf) := by
    have hzero : (0 : UInt32).toNat < 65536 := by decide
    have h := toNat_checksumLoop hzero buf
    rwa [UInt32.toNat_zero, Nat.zero_add] at h
  have hlt := endAround_lt (b := 65536) (by decide) (wordSumLE buf)
  rw [wireChecksum, UInt32.toNat_toUInt16, Afxdp.toNat_lo, UInt32.toNat_not, hloop]
  change (4294967295 - _) % 65536 % 65536 = _
  omega

/-- One turn of the loop of `cksum_fold16`. -/
def foldTurn (sum : UInt32) : UInt32 := (sum &&& (0xFFFF : UInt32)) + sum >>> 16

theorem cksumFold16_turns (sum : UInt32) : ∃ n ≤ 2, (foldTurn^[n] sum) >>> 16 = 0 ∧
    Afxdp.cksumFold16 sum = (foldTurn^[n] sum).toUInt16 := by
  have hend : ∀ x : UInt32, x >>> 16 = 0 → Afxdp.cksumFold16 x = x.toUInt16 := by
    intro x hx
    rw [Afxdp.cksumFold16, if_neg (not_not.mpr hx)]
  have hturn : ∀ x : UInt32, x >>> 16 ≠ 0 →
    Afxdp.cksumFold16 x = Afxdp.cksumFold16 (foldTurn x) := by
    intro x hx
    rw [Afxdp.cksumFold16, if_pos hx, foldTurn]
  by_cases h0 : sum >>> 16 = 0
  · exact ⟨0, by decide, h0, hend sum h0⟩
  · by_cases h1 : foldTurn sum >>> 16 = 0
    · exact ⟨1, by decide, h1, (hturn sum h0).trans (hend _ h1)⟩
    · have h2 : foldTurn (foldTurn sum) >>> 16 = 0 := by
        by_contra hne
        have hlarge := (Afxdp.hi_ne_zero_iff _).mp hne
        have hsum := sum.toNat_lt
        rw [foldTurn, Afxdp.toNat_fold, foldTurn, Afxdp.toNat_fold] at hlarge
        omega
      refine ⟨2, le_rfl, h2, ?_⟩
      rw [hturn sum h0, hturn _ h1, hend _ h2]
      rfl

/-- All ways to compute a checksum agree, and the loop that folds the carries ends. -/
theorem checksums_agree (avx2 : Bool) (buf : List UInt8) :
    (∀ seed, Afxdp.cksumPartialSimd true buf seed = Afxdp.cksumPartialSimd false buf seed) ∧
    (buf.length ≤ 131072 →
      wireChecksum buf = ~~~Afxdp.cksumFold16 (Afxdp.cksumPartialSimd avx2 buf 0)) ∧
    (∀ sum, ∃ n ≤ 2, (foldTurn^[n] sum) >>> 16 = 0 ∧
      Afxdp.cksumFold16 sum = (foldTurn^[n] sum).toUInt16) := by
  refine ⟨?_, ?_, cksumFold16_turns⟩
  · intro seed
    rw [Afxdp.cksumPartialSimd_eq, Afxdp.cksumPartialSimd_eq]
  · intro hlength
    -- 65536 words of 16 bits add up in 32 bits
    have hsum := wordSumLE_le buf
    apply UInt16.toNat_inj.mp
    exact (toNat_wireChecksum buf).trans (Afxdp.toNat_ipChecksum avx2 (by omega)).symm

end WireChecksum

section Corruption

def WireOrder.covered (o : WireOrder) : List UInt8 :=
  writeLE 1 o.msgType.toNat ++ (writeLE 1 o.side.toNat ++ (writeLE 2 o.symbolId.toNat ++
    (writeLE 4 o.qty.toNat ++ (writeLE 4 o.price.toNat ++ (writeLE 4 o.pad0.toNat ++
      (writeLE 8 o.seq.toNat ++ writeLE 8 o.ts.toNat))))))

theorem WireOrder.bytes_eq (o : WireOrder) :
    o.bytes = o.covered ++ (writeLE 2 o.checksum.toNat ++ writeLE 2 o.pad1.toNat) := by
  simp only [WireOrder.bytes, WireOrder.covered, List.append_assoc]

theorem WireOrder.covered_length (o : WireOrder) : o.covered.length = 32 := by
  simp [WireOrder.covered]

theorem WireOrder.wantCsum_eq (o : WireOrder) : o.wantCsum = wireChecksum o.covered := by
  rw [WireOrder.wantCsum, WireOrder.bytes_eq]
  exact congrArg wireChecksum (List.take_left' o.covered_length)

theorem covered_ofBytes {frame : List UInt8} (h : frame.length = wireOrderSize) :
    (WireOrder.ofBytes frame).covered = frame.take 32 := by
  have hfield : ∀ k w, k + w ≤ 36 →
      writeLE w (readLE ((frame.drop k).take w) % 256 ^ w) = (frame.drop k).take w := by
    intro k w hle
    apply writeLE_readLE_mod
    rw [List.length_take, List.length_drop, h, wireOrderSize]
    omega
  have hsplit : frame.take 32 = (frame.drop 0).take 1 ++ ((frame.drop 1).take 1 ++
      ((frame.drop 2).take 2 ++ ((frame.drop 4).take 4 ++ ((frame.drop 8).take 4 ++
        ((frame.drop 12).take 4 ++ ((frame.drop 16).take 8 ++ (frame.drop 24).take 8)))))) := by
    change frame.take (1 + (1 + (2 + (4 + (4 + (4 + (8 + 8))))))) = _
    rw [List.take_add, List.take_add, List.take_add, List.take_add, List.take_add, List.take_add,
      List.take_add]
    simp only [List.drop_drop, Nat.reduceAdd, List.drop_zero]
  rw [hsplit]
  refine congrArg₂ _ (hfield 0 1 (by decide)) (congrArg₂ _ (hfield 1 1 (by decide))
    (congrArg₂ _ (hfield 2 2 (by decide)) (congrArg₂ _ (hfield 4 4 (by decide))
      (congrArg₂ _ (hfield 8 4 (by decide)) (congrArg₂ _ (hfield 12 4 (by decide))
        (congrArg₂ _ (hfield 16 8 (by decide)) (hfield 24 8 (by decide))))))))

theorem intact_iff {frame : List UInt8} (h : frame.length = wireOrderSize) :
    Intact frame ↔
      readLE ((frame.drop 32).take 2) = 65535 - endAround 65536 (wordSumLE (frame.take 32)) := by
  have hlen : ((frame.drop 32).take 2).length = 2 := by
    rw [List.length_take, List.length_drop, h, wireOrderSize]
    rfl
  have hlt := readLE_lt ((frame.drop 32).take 2)
  rw [hlen] at hlt
  have hfield : (WireOrder.ofBytes frame).checksum.toNat = readLE ((frame.drop 32).take 2) :=
    Nat.mod_eq_of_lt hlt
  rw [Intact, WireOrder.wantCsum_eq, covered_ofBytes h, ← UInt16.toNat_inj, hfield,
    toNat_wireChecksum]

theorem not_intact_set {frame : List UInt8} (h : frame.length = wireOrderSize)
    (hintact : Intact frame) {i : ℕ} (hi : i < 34) {b : UInt8} (hne : frame[i]? ≠ some b) :
    ¬ Intact (frame.set i b) := by
  have hlt : i < frame.length := h ▸ hi.trans (by decide)
  have hbyte : frame[i] ≠ b := by
    intro heq
    exact hne (heq ▸ List.getElem?_eq_getElem hlt)
  rw [intact_iff h] at hintact
  rw [intact_iff (by rw [List.length_set, h]), List.take_set, List.drop_set]
  by_cases hcovered : i < 32
  · -- the stored checksum stays, the sum has another digit
    have hcov : i < (frame.take 32).length := by
      rw [List.length_take]
      exact lt_min hcovered hlt
    have hother := endAround_wordSumLE_set_ne hcov (b := b) (by rwa [List.getElem_take])
    have hnew := endAround_lt (b := 65536) (by decide) (wordSumLE ((frame.take 32).set i b))
    have hold := endAround_lt (b := 65536) (by decide) (wordSumLE (frame.take 32))
    rw [if_pos hcovered, hintact]
    omega
  · -- the sum stays, another checksum is stored
    have hsame : (frame.take 32).set i b = frame.take 32 := by
      apply List.set_eq_of_length_le
      rw [List.length_take]
      omega
    rw [if_neg hcovered, hsame, ← hintact, List.take_set]
    apply readLE_set_ne
    · rw [List.length_take, List.length_drop, h, wireOrderSize]
      omega
    · rwa [List.getElem?_take_of_lt (by omega), List.getElem?_drop,
        Nat.add_sub_cancel' (not_lt.mp hcovered)]

/-- A frame as `order_sender_thread` encodes it passes the test, and with one of its first 34
bytes changed it does not. -/
theorem single_byte_detected (slot : Order) (nextSeq sendNs : UInt64) :
    Intact (wireOrder slot nextSeq sendNs).bytes ∧
    ∀ i < 34, ∀ b : UInt8, (wireOrder slot nextSeq sendNs).bytes[i]? ≠ some b →
      ¬ Intact ((wireOrder slot nextSeq sendNs).bytes.set i b) := by
  have hintact : Intact (wireOrder slot nextSeq sendNs).bytes := by
    rw [Intact, WireOrder.ofBytes_bytes]
    rfl
  refine ⟨hintact, ?_⟩
  intro i hi b hne
  exact not_intact_set (wireOrder slot nextSeq sendNs).bytes_length hintact hi hne

end Corruption

end TradingPipeline.OrderSession
