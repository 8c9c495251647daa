import TradingPipeline.Receiver.Progress
import Mathlib.Algebra.Order.BigOperators.Group.List

/-! # Safety of the sequencing

Over every run on packets that fit their slots, what reaches `PARSER_ENGINE` is in order
and without overlap, carries the blocks of delivered packets, and together with the
skipped ranges accounts for every sequence number since the first packet.
-/
namespace TradingPipeline.Receiver
open Lib Mold

section Account
variable {s : State}

theorem published_pairwise (hs : Inv s) :
    s.published.Pairwise fun p q => endSequence p ≤ sequenceNumber q := by
  by_cases hset : s.gapSessionSet = true
  · obtain ⟨_, _, htiles⟩ := hs.sequenced.tiles hset
    refine List.Pairwise.filterMap _ ?_ htiles.pairwise
    intro seg seg' hle p hp q hq
    cases seg with
    | skipped => cases hp
    | published p' =>
      cases seg' with
      | skipped => cases hq
      | published q' =>
        cases hp
        cases hq
        exact hle
  · have hlog := (hs.sequenced.unset (Bool.eq_false_iff.mpr hset)).2.1
    rw [State.published, hlog]
    exact List.Pairwise.nil

theorem gapSessionSet_of_first (hs : Inv s) {first : List UInt8}
    (hfirst : firstAccepted s.delivered = some first) :
    s.gapSessionSet = true := by
  by_contra hne
  have hnone := (hs.sequenced.unset (Bool.eq_false_iff.mpr hne)).1
  have hacc := List.find?_some hfirst
  exact hnone first (List.mem_of_find?_eq_some hfirst) (of_decide_eq_true hacc)

theorem Accepted.lt_end {p : List UInt8} (h : Accepted p) : sequenceNumber p < endSequence p := by
  have := h.2
  unfold endSequence
  omega

theorem skippedTotal_le (hs : Inv s) (hset : s.gapSessionSet = true) :
    s.skippedTotal ≤ s.gapExpectedSeq := by
  obtain ⟨_, _, htiles⟩ := hs.sequenced.tiles hset
  have htotal := htiles.total
  have hle : s.skippedTotal ≤ (s.log.map fun seg => seg.hi - seg.lo).sum := by
    refine List.sum_le_sum (fun seg _ => ?_)
    cases seg with
    | published p => exact Nat.zero_le _
    | skipped start stop => exact le_rfl
  omega

/-- The drop counter cannot wrap within the run. -/
def CounterFits (s : State) : Prop :=
  ∀ p ∈ s.delivered, Accepted p → endSequence p + s.delivered.length < 2 ^ 64

theorem dropped_eq (hs : Inv s) (hset : s.gapSessionSet = true) (hcount : CounterFits s) :
    s.gapDroppedPackets = s.skippedTotal + s.singleDrops := by
  obtain ⟨p, hp, ha, hreach⟩ := hs.sequenced.reach hset
  have hlt := hcount p hp ha
  have hskip := skippedTotal_le hs hset
  have hsingles := hs.sequenced.singles
  rw [hs.sequenced.dropped, Nat.mod_eq_of_lt (by omega)]

theorem skippedTotal_le_dropped (hs : Inv s) (hcount : CounterFits s) :
    s.skippedTotal ≤ s.gapDroppedPackets := by
  by_cases hset : s.gapSessionSet = true
  · rw [dropped_eq hs hset hcount]
    exact Nat.le_add_right _ _
  · have hlog := (hs.sequenced.unset (Bool.eq_false_iff.mpr hset)).2.1
    rw [State.skippedTotal, hlog]
    exact Nat.zero_le _

theorem Step.expected_le {a : Action} {t : State} (h : Step s a t) (hs : Inv s)
    (hh : s.held = []) (had : Admissible t) : s.gapExpectedSeq ≤ t.gapExpectedSeq := by
  by_cases hset : s.gapSessionSet = true
  · exact ((h.forward hs hh had).1 hset).2.2
  · rw [(hs.sequenced.unset (Bool.eq_false_iff.mpr hset)).2.2]
    exact Nat.zero_le _

end Account

/-- What sequencing promises about a state. -/
structure InSequence (s : State) : Prop where
  increasing : s.published.Pairwise fun p q => sequenceNumber p < sequenceNumber q
  disjoint : s.published.Pairwise fun p q => endSequence p ≤ sequenceNumber q
  delivered : ∀ p ∈ s.published, p ∈ s.delivered ∧ Accepted p
  /-- What the dispatcher has read and what it will find behind the unread entries. -/
  carried : s.dispatched ++ s.unread.map s.contents = s.published.map fun p => some (blocks p)
  covered : ∀ first, firstAccepted s.delivered = some first →
    ∀ n, sequenceNumber first ≤ n → n < s.gapExpectedSeq →
      ∃! seg, seg ∈ s.log ∧ seg.lo ≤ n ∧ n < seg.hi
  skipped : CounterFits s → s.skippedTotal ≤ s.gapDroppedPackets

theorem Inv.inSequence {s : State} (hs : Inv s) : InSequence s where
  increasing := by
    refine (List.Pairwise.and_mem.mp (published_pairwise hs)).imp ?_
    rintro p q ⟨hp, _, hle⟩
    exact lt_of_lt_of_le (hs.sequenced.published p hp).2.lt_end hle
  disjoint := published_pairwise hs
  delivered := hs.sequenced.published
  carried := hs.readable
  covered first hfirst n hlo hhi := by
    by_cases hset : s.gapSessionSet = true
    · obtain ⟨p, hp, htiles⟩ := hs.sequenced.tiles hset
      rw [hfirst] at hp
      cases hp
      obtain ⟨seg, hseg, hcov⟩ := htiles.exists_cover hlo hhi
      exact ⟨seg, ⟨hseg, hcov⟩, fun seg' h => htiles.cover_unique h.1 hseg h.2 hcov⟩
    · rw [(hs.sequenced.unset (Bool.eq_false_iff.mpr hset)).2.2] at hhi
      omega
  skipped := skippedTotal_le_dropped hs

/-- Every run over packets that fit keeps the stream in sequence, and no further delivery
that fits gets stuck or moves the expected sequence number back. -/
theorem sequencing_safe {fd : ℤ} {as : List Action} {s : State} (hr : Runs Step (init fd) as s)
    (had : Admissible s) :
    InSequence s ∧
    (∀ a t, Step s a t → Admissible t → s.gapExpectedSeq ≤ t.gapExpectedSeq) ∧
    (∀ datagram now pace, 0 ≤ s.gapRewinderFd → 0 < datagram.length →
      datagram.length ≤ rewinderBufferSize → (Accepted datagram → Fits datagram) →
      ∃ t, Step s (.reply datagram now pace) t) ∧
    (∀ now pace, s.burst ≠ [] → NextFits s → ∃ t, Step s (.packet now pace) t) ∧
    (∀ rooms, ∃ t, Step s (.recycle rooms) t) := by
  obtain ⟨hs, hh⟩ := runs_inv hr had
  refine ⟨hs.inSequence, fun a t h hadt => h.expected_le hs hh hadt, ?_, ?_, ?_⟩
  · exact fun datagram now pace hfd hpos hle hfit =>
      reply_returns hs had hfd ⟨hpos, hle⟩ hfit now pace
  · exact fun now pace hne hfit => packet_returns hs hh had hne hfit now pace
  · exact fun rooms => recycle_returns hs had rooms

/-- A packet of one session with `n` bytes of message blocks. -/
def samplePacket (seq count n : ℕ) (b : UInt8) : List UInt8 :=
  MoldUdp64Header.encode ⟨List.replicate 10 7, seq, count⟩ ++ List.replicate n b

/-- A packet of the feed as it arrives in a UMEM frame. -/
def sampleFrame (packet : List UInt8) : List UInt8 :=
  List.replicate 12 0 ++ [8, 0, 69] ++ List.replicate 8 0 ++ [17] ++ List.replicate 12 0 ++
    [19, 136] ++ List.replicate 4 0 ++ packet

def gapFilledRun : List Action :=
  [.reply (samplePacket 1 1 2 1) 1 [], .reply (samplePacket 3 2 4 3) 1 [],
    .reply (samplePacket 2 1 2 2) 1 [], .dispatch, .dispatch]

theorem gapFilledRun_result :
    (gapFilledRun.foldlM State.act (init 3)).map (fun s => (s.delivered, s.dispatched)) =
      some ([samplePacket 1 1 2 1, samplePacket 3 2 4 3, samplePacket 2 1 2 2],
        [some [1, 1], some [2, 2]]) := by
  decide +kernel

theorem samplePackets_fit :
    ∀ p ∈ [samplePacket 1 1 2 1, samplePacket 3 2 4 3, samplePacket 2 1 2 2],
    Accepted p → Fits p := by
  simp only [Fits]
  decide +kernel

theorem gapFilledRun_reaches : ∃ s, Runs Step (init 3) gapFilledRun s ∧ Admissible s ∧
    s.delivered = [samplePacket 1 1 2 1, samplePacket 3 2 4 3, samplePacket 2 1 2 2] ∧
    s.dispatched = [some [1, 1], some [2, 2]] := by
  obtain ⟨s, hs, hobs⟩ := Option.map_eq_some_iff.mp gapFilledRun_result
  obtain ⟨hdelivered, hdispatched⟩ := Prod.mk.inj hobs
  refine ⟨s, Runs.of_foldlM hs, ?_, hdelivered, hdispatched⟩
  rw [Admissible, hdelivered]
  exact samplePackets_fit

theorem sequencing_safe_gapFilledRun : ∃ s, Runs Step (init 3) gapFilledRun s ∧ Admissible s ∧
    s.dispatched = [some [1, 1], some [2, 2]] ∧ InSequence s ∧ ∃ t, Step s (.recycle []) t := by
  obtain ⟨s, hr, had, _, hdispatched⟩ := gapFilledRun_reaches
  have hsafe := sequencing_safe hr had
  exact ⟨s, hr, had, hdispatched, hsafe.1, hsafe.2.2.2.2 []⟩

/-- A reply of 1600 bytes runs over its slot into the next one, which the dispatcher
has yet to read: it finds a wild pointer instead of the blocks of the second packet. -/
theorem oversized_reply_corrupts : ∃ as s, Runs Step (init 3) as s ∧
    s.delivered.map (fun p => (sequenceNumber p, messageCount p, p.length)) =
      [(1, 1, 22), (2, 1, 22), (3, 1, 1600)] ∧
    (s.published.map blocks).take 2 = [[1, 1], [2, 2]] ∧
    s.dispatched = [some [1, 1], none] ∧ ¬InSequence s := by
  have hrun : ([.reply (samplePacket 1 1 2 1) 1 [], .reply (samplePacket 2 1 2 2) 1 [], .dispatch,
      .recycle [], .reply (samplePacket 3 1 1580 0) 1 [], .dispatch].foldlM State.act (init 3)).map
      (fun s => (s.delivered.map (fun p => (sequenceNumber p, messageCount p, p.length)),
        (s.published.map blocks).take 2, s.dispatched)) =
      some ([(1, 1, 22), (2, 1, 22), (3, 1, 1600)], [[1, 1], [2, 2]], [some [1, 1], none]) := by
    decide +kernel
  obtain ⟨s, hs, hobs⟩ := Option.map_eq_some_iff.mp hrun
  simp only [Prod.mk.injEq] at hobs
  obtain ⟨hdel, hpub, hdisp⟩ := hobs
  refine ⟨_, s, Runs.of_foldlM hs, hdel, hpub, hdisp, ?_⟩
  intro hseq
  have hnone : none ∈ s.published.map fun p => some (blocks p) := by
    rw [← hseq.carried, hdisp]
    simp
  simp at hnone

end TradingPipeline.Receiver
