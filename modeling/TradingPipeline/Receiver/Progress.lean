import TradingPipeline.Receiver.Reachable
import Mathlib.Data.Finset.Card
import Mathlib.Data.Finset.Range

/-! # Calls return

Each turn of `drain_pending` makes one pending slot in-flight, so the drain ends within
the bound of the model, and so does every call of `handle_payload` on a packet that
fits. Recycling finds a `packet_ref` behind every entry. Hence no action of the receiver
gets stuck: what is left open is what the kernel and the rewinder send.
-/
namespace TradingPipeline.Receiver
open Lib Mold Relation

section Drain
variable {s t : State} {i : ℕ}

def State.pendingSlots (s : State) : Finset ℕ :=
  (Finset.range reorderMax).filter fun i => s.pending i

theorem mem_pendingSlots : i ∈ s.pendingSlots ↔ i < reorderMax ∧ s.pending i := by
  rw [State.pendingSlots, Finset.mem_filter, Finset.mem_range]

theorem pendingSlots_card_le (s : State) : s.pendingSlots.card ≤ reorderMax :=
  le_trans (Finset.card_filter_le _ _) (Nat.le_of_eq (Finset.card_range _))

theorem drained_delivered (s : State) (i : ℕ) : (s.drained i).delivered = s.delivered :=
  yield_delivered s

theorem drained_reorderPool (s : State) (i : ℕ) : (s.drained i).reorderPool = s.reorderPool :=
  yield_reorderPool s

theorem drained_gapExpectedSeq (s : State) (i : ℕ) : (s.drained i).gapExpectedSeq =
    (s.gapExpectedSeq + (s.reorderPool i).msgCount) % 2 ^ 64 := by
  simp only [State.drained, State.noteFilled, State.advance, State.push, yield_gapExpectedSeq]

theorem drained_poolInv (hs : PoolInv s) (had : Admissible s)
    (hfind : s.reorderFind s.gapExpectedSeq = some i) : PoolInv (s.drained i) := by
  obtain ⟨hi, hp, hseq⟩ := reorderFind_some hfind
  refine hs.shrink (fun k _ _ => by rw [drained_reorderPool]) ?_ ?_ ?_
  · rw [drained_gapExpectedSeq]
    exact Nat.le_of_lt (hs.next_lt had hi hp hseq)
  · rw [drained_delivered]
    exact List.Subset.refl _
  · intro h
    have hset : (s.drained i).gapSessionSet = s.gapSessionSet := yield_gapSessionSet s
    rwa [hset] at h

/-- The slot that was drained is no longer pending, and no other slot became pending. -/
theorem drained_card_lt (hs : PoolInv s) (had : Admissible s)
    (hfind : s.reorderFind s.gapExpectedSeq = some i) :
    (s.drained i).pendingSlots.card < s.pendingSlots.card := by
  obtain ⟨hi, hp, hseq⟩ := reorderFind_some hfind
  have hlt := hs.next_lt had hi hp hseq
  rw [← drained_gapExpectedSeq] at hlt
  refine Finset.card_lt_card ((Finset.ssubset_iff_of_subset ?_).mpr ⟨i, ?_, ?_⟩)
  · intro k hk
    obtain ⟨hkm, hpk⟩ := mem_pendingSlots.mp hk
    obtain ⟨hu, hle⟩ := pending_iff.mp hpk
    rw [drained_reorderPool] at hu hle
    exact mem_pendingSlots.mpr ⟨hkm, pending_iff.mpr ⟨hu, by omega⟩⟩
  · exact mem_pendingSlots.mpr ⟨hi, hp⟩
  · intro hk
    obtain ⟨_, hpk⟩ := mem_pendingSlots.mp hk
    obtain ⟨_, hle⟩ := pending_iff.mp hpk
    rw [drained_reorderPool] at hle
    omega

theorem drainPending_returns (hs : PoolInv s) (had : Admissible s) :
    ∃ t, s.drainPending = some t := by
  refine boundedLoop_isSome (P := fun s => PoolInv s ∧ Admissible s)
    (μ := fun s => s.pendingSlots.card) ?_ ⟨hs, had⟩ (Nat.lt_succ_of_le (pendingSlots_card_le s))
  rintro u v ⟨hu, hadu⟩ hturn
  cases hf : u.reorderFind u.gapExpectedSeq with
  | none =>
    rw [drainTurn_stop hf] at hturn
    cases hturn
  | some i =>
    by_cases hfull : u.yield.Full
    · rw [drainTurn_full hf hfull] at hturn
      cases hturn
    · rw [drainTurn_room hf hfull] at hturn
      cases hturn
      refine ⟨⟨drained_poolInv hu hadu hf, ?_⟩, drained_card_lt hu hadu hf⟩
      rwa [Admissible, drained_delivered]

end Drain

section Returns
variable {s u : State} {payload : List UInt8} {addr now : ℕ} {base : Option ℕ}

/-- The drain that ends a call of `handle_payload` returns. -/
theorem drain_returns (hs : Inv s) (had : Admissible (s.logDelivery payload))
    (hmoves : ReflTransGen Moves s u) (hdel : u.delivered = s.delivered ++ [payload]) :
    ∃ t, u.drainPending = some t := by
  have hadu : Admissible u := had.before (by rw [hdel]; exact List.Subset.refl _)
  exact drainPending_returns (moves_inv hmoves hs hadu).pool hadu

theorem publishFrame_returns {off : ℕ} (hs : Inv s) (had : Admissible (s.logDelivery payload))
    (hframe : FrameHolds s payload addr base) (ha : Accepted payload)
    (hseq : sequenceNumber payload = (s.opened payload).gapExpectedSeq)
    (hm : addr ≠ uint64Max) (hb : base = some off) :
    ∃ r, (s.opened payload).publishFrame payload addr now off = some r := by
  unfold State.publishFrame
  by_cases hf : ((s.opened payload).writeRef addr (frameRef payload addr now off)).yield.Full
  · have hpub := publishRef_full hf (.umem addr) payload
    simp only [frameRef] at hpub
    simp only [hpub]
    exact ⟨_, rfl⟩
  · have hpub := publishRef_room hf (.umem addr) payload
    obtain ⟨t, ht⟩ := drain_returns hs had (framePublished_moves hframe ha hseq hm hb rfl hf)
      ((yield_delivered _).trans (opened_delivered s payload))
    simp only [frameRef] at hpub ht
    simp only [hpub, ht]
    exact ⟨_, rfl⟩

theorem fillSlot_returns (had : Admissible (s.logDelivery payload)) (ha : Accepted payload)
    (i now : ℕ) : ∃ v, (s.opened payload).fillSlot i payload now = some v := by
  have hfit := (had payload (List.mem_append_right _ (List.mem_singleton_self _)) ha).1
  exact ⟨_, fillSlot_of_fits hfit⟩

theorem publishCopy_returns (hs : Inv s) (had : Admissible (s.logDelivery payload))
    (ha : Accepted payload) (hseq : sequenceNumber payload = (s.opened payload).gapExpectedSeq) :
    ∃ r, (s.opened payload).publishCopy payload addr now = some r := by
  unfold State.publishCopy
  cases hn : (s.opened payload).reorderFind (sequenceNumber payload) with
  | some _ => exact ⟨_, rfl⟩
  | none =>
    cases hslot : (s.opened payload).reorderAllocSlot with
    | none => exact ⟨_, rfl⟩
    | some i =>
      obtain ⟨v, hv⟩ := fillSlot_returns had ha i now
      simp only [hv]
      by_cases hf : v.yield.Full
      · simp only [publishRef_full hf]
        exact ⟨_, rfl⟩
      · have hdel : v.delivered = s.delivered ++ [payload] := by
          obtain ⟨pool, rfl, _⟩ := fillSlot_frame hv
          exact opened_delivered s payload
        obtain ⟨t, ht⟩ := drain_returns hs had (copyPublished_moves ha hseq hn hslot hv hf)
          ((yield_delivered v).trans hdel)
        simp only [publishRef_room hf, ht]
        exact ⟨_, rfl⟩

theorem bufferFuture_returns (hs : Inv s) (had : Admissible (s.logDelivery payload))
    (ha : Accepted payload) : ∃ r, (s.opened payload).bufferFuture payload addr now = some r := by
  unfold State.bufferFuture
  cases hn : (s.opened payload).reorderFind (sequenceNumber payload) with
  | some _ => exact ⟨_, rfl⟩
  | none =>
    cases (s.opened payload).reorderAllocSlot with
    | some i =>
      obtain ⟨v, hv⟩ := fillSlot_returns had ha i now
      simp only [hv]
      exact ⟨_, rfl⟩
    | none =>
      simp only [State.skipAhead]
      cases hmin : (s.opened payload).noteAllocFailure.reorderFindMin with
      | none => exact ⟨_, rfl⟩
      | some i =>
        obtain ⟨hi, hp, _⟩ := reorderFindMin_some hmin
        simp only []
        split_ifs with hlt
        · have hmoves := (opened_moves (s := s) ha).tail .noteAllocFailure
          obtain ⟨t, ht⟩ := drain_returns hs had (hmoves.tail (.skipTo hi hp hlt (Nat.succ_pos _)))
            (opened_delivered s payload)
          simp only [ht]
          exact ⟨_, rfl⟩
        · exact ⟨_, rfl⟩

/-- `handle_payload` returns on every packet that fits. -/
theorem handlePayload_returns (hs : Inv s) (had : Admissible (s.logDelivery payload))
    (hframe : FrameHolds s payload addr base) :
    ∃ r, s.handlePayload payload addr now base = some r := by
  unfold State.handlePayload
  by_cases hlen : payload.length < headerSize
  · rw [if_pos hlen]
    exact ⟨_, rfl⟩
  rw [if_neg hlen]
  by_cases hcount : messageCount payload = 0
  · rw [if_pos hcount]
    exact ⟨_, rfl⟩
  rw [if_neg hcount]
  have ha : Accepted payload := ⟨Nat.le_of_not_lt hlen, hcount⟩
  simp only []
  by_cases hlate : sequenceNumber payload < (s.opened payload).gapExpectedSeq
  · rw [if_pos hlate]
    exact ⟨_, rfl⟩
  rw [if_neg hlate]
  by_cases hseq : sequenceNumber payload = (s.opened payload).gapExpectedSeq
  · rw [if_pos hseq]
    cases base with
    | none => exact publishCopy_returns hs had ha hseq
    | some off =>
      by_cases hm : addr ≠ uint64Max
      · simp only [if_pos hm]
        exact publishFrame_returns hs had hframe ha hseq hm rfl
      · simp only [if_neg hm]
        exact publishCopy_returns hs had ha hseq
  · rw [if_neg hseq]
    exact bufferFuture_returns hs had ha

end Returns

section Actions
variable {s : State}

theorem recycleLoop_returns {rooms : List ℕ} {n : ℕ} (hs : Inv s) (had : Admissible s)
    (hn : n = wrapSub (2 ^ 32) s.parserEngine.nextRead s.recycleRead) :
    ∃ r, s.recycleLoop rooms n = some r := by
  induction n generalizing s rooms with
  | zero => exact ⟨_, rfl⟩
  | succ n ih =>
    obtain ⟨hne, hpass⟩ := wrapSub_eq_succ hs.cursors.read_lt hs.cursors.recycle_lt hn
    have hmem : s.parserEngine.entry s.recycleRead ∈ s.entries := by
      rw [passEntry_entries hs.cursors hne.symm]
      exact List.mem_cons_self
    obtain ⟨ref, href, _⟩ := hs.owned.refs _ hmem
    unfold State.recycleLoop
    simp only [href]
    by_cases hflag : ref.umemAddr &&& reorderAddrFlag ≠ 0
    · rw [if_pos hflag]
      have hmove : Moves s (s.passEntry.freeSlot (ref.umemAddr &&& reorderAddrIdxMask)) :=
        .passSlot hne.symm href hflag
      exact ih (hmove.inv hs had) had hpass
    · rw [if_neg hflag]
      have hmove : Moves s (s.passEntry.hold ref.umemAddr) :=
        .passFrame hne.symm href (not_not.mp hflag)
      by_cases hfull : (s.passEntry.hold ref.umemAddr).held.length = rxBurstSize
      · rw [if_pos hfull]
        cases hrec : (s.passEntry.hold ref.umemAddr).afxdpRecycle (rooms.headD 0) with
        | mk u ok =>
          cases ok with
          | false => exact ⟨_, rfl⟩
          | true =>
            have hu := afxdpRecycle_recycles hrec
            have hadu : Admissible u := by
              rw [Admissible, hu.undelivered.delivered]
              exact had
            have hinv := moves_inv (.head hmove hu.moves) hs hadu
            exact ih hinv hadu (by rw [hu.ring, hu.cursor]; exact hpass)
      · rw [if_neg hfull]
        exact ih (hmove.inv hs had) had hpass

theorem recycle_returns (hs : Inv s) (had : Admissible s) (rooms : List ℕ) :
    ∃ t, Step s (.recycle rooms) t := by
  obtain ⟨⟨u, ok⟩, hu⟩ := @recycleLoop_returns s rooms _ hs had rfl
  refine ⟨{ u with stopped := u.stopped || !ok }, ?_⟩
  simp only [Step, State.act, State.recycleConsumedFrames, hu]

theorem Admissible.deliver (had : Admissible s) {payload : List UInt8}
    (hfit : Accepted payload → Fits payload) : Admissible (s.logDelivery payload) := by
  intro p hp ha
  rcases List.mem_append.mp hp with hp | hp
  · exact had p hp ha
  · rw [List.mem_singleton.mp hp] at ha ⊢
    exact hfit ha

theorem reply_returns (hs : Inv s) (had : Admissible s) {datagram : List UInt8}
    (hfd : 0 ≤ s.gapRewinderFd)
    (hlen : 0 < datagram.length ∧ datagram.length ≤ rewinderBufferSize)
    (hfit : Accepted datagram → Fits datagram) (now : ℕ) (pace : List ℕ) :
    ∃ t, Step s (.reply datagram now pace) t := by
  have hpace : Inv { s with pace := pace } := Moves.setPace.inv hs had
  obtain ⟨⟨t, ret⟩, ht⟩ : ∃ r, ({ s with pace := pace } : State).handlePayload datagram uint64Max
      now none = some r :=
    handlePayload_returns hpace (had.deliver hfit) (fun off hoff => by cases hoff)
  refine ⟨t, ?_⟩
  simp only [Step, State.act, if_pos (And.intro hfd hlen), ht, Option.map_some]

/-- The payload of the next packet of the burst, if it is accepted, fits. -/
def NextFits (s : State) : Prop :=
  ∀ addr rest off, s.burst = addr :: rest →
    extractFeedPayload (s.umem (frameOf addr)).bytes = some off →
    Accepted ((s.umem (frameOf addr)).bytes.drop off) →
      Fits ((s.umem (frameOf addr)).bytes.drop off)

theorem packet_returns (hs : Inv s) (hh : s.held = []) (had : Admissible s) (hne : s.burst ≠ [])
    (hfit : NextFits s) (now : ℕ) (pace : List ℕ) : ∃ t, Step s (.packet now pace) t := by
  obtain ⟨addr, rest, hburst⟩ := List.exists_cons_of_ne_nil hne
  unfold Step State.act State.burstPacket
  simp only [hburst]
  split_ifs
  · exact ⟨_, rfl⟩
  · cases hex : extractFeedPayload (s.umem (frameOf addr)).bytes with
    | none => exact ⟨_, rfl⟩
    | some off =>
      have hmoves : ReflTransGen Moves s { s with burst := rest, held := [addr], pace := pace } :=
        (ReflTransGen.single (.takePacket hburst hh)).tail .setPace
      have hframe : FrameHolds { s with burst := rest, held := [addr], pace := pace }
          ((s.umem (frameOf addr)).bytes.drop off) addr (some off) := by
        intro off' hoff _
        cases hoff
        exact ⟨List.mem_singleton_self addr, (extractFeedPayload_bounds hex).1, rfl⟩
      obtain ⟨⟨t, ret⟩, ht⟩ : ∃ r, ({ s with burst := rest, held := [addr], pace := pace } :
          State).handlePayload ((s.umem (frameOf addr)).bytes.drop off) addr now
            (some off) = some r :=
        handlePayload_returns (moves_inv hmoves hs had)
          (had.deliver (hfit addr rest off hburst hex)) hframe
      simp only [ht]
      split_ifs <;> exact ⟨_, rfl⟩

end Actions

end TradingPipeline.Receiver
