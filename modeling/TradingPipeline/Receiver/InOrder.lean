import TradingPipeline.Receiver.Recovery
import Mathlib.Data.List.Find

/-! # The two paths of an in-order packet

A packet that is next is published from its UMEM frame or, if it came from the rewinder,
from a copy in a reorder slot. Both paths leave the same packets pending, so the drain
that follows publishes the same packets, as long as a slot is free for the copy.
-/
namespace TradingPipeline.Receiver
open Lib Mold Relation

/-- Two states in which a drain sees the same. -/
structure Agree (s t : State) : Prop where
  expected : t.gapExpectedSeq = s.gapExpectedSeq
  log : t.log = s.log
  dropped : t.gapDroppedPackets = s.gapDroppedPackets
  session : t.gapSession = s.gapSession
  pending : ∀ i < reorderMax, t.pending i = s.pending i
  slots : ∀ i < reorderMax, s.pending i → t.reorderPool i = s.reorderPool i

section Drain
variable {s t u v : State} {i : ℕ}

theorem Agree.reorderFind (h : Agree s t) (seq : ℕ) : t.reorderFind seq = s.reorderFind seq := by
  unfold State.reorderFind
  refine List.find?_congr (fun i hi => ?_)
  have hlt := List.mem_range.mp hi
  rw [h.pending i hlt]
  cases hp : s.pending i with
  | false => rfl
  | true => rw [h.slots i hlt hp]

theorem drained_log (s : State) (i : ℕ) :
    (s.drained i).log = s.log ++ [.published (s.slotPayload i)] := by
  simp only [State.drained, State.noteFilled, State.advance, State.push, yield_log]

theorem drained_pending_iff (s : State) (i k : ℕ) : (s.drained i).pending k ↔
    (s.reorderPool k).used ≠ 0 ∧ (s.drained i).gapExpectedSeq ≤ (s.reorderPool k).startSeq := by
  rw [pending_iff, drained_reorderPool]

theorem drained_frame (s : State) (i : ℕ) :
    (s.drained i).gapDroppedPackets = s.gapDroppedPackets ∧
      (s.drained i).gapSession = s.gapSession := by
  obtain ⟨r, d, p, h⟩ := yield_frame s
  unfold State.drained
  rw [h]
  exact ⟨rfl, rfl⟩

theorem Agree.drained (h : Agree s t) (hs : PoolInv s) (had : Admissible s)
    (hfind : s.reorderFind s.gapExpectedSeq = some i) : Agree (s.drained i) (t.drained i) := by
  obtain ⟨hi, hp, hseq⟩ := reorderFind_some hfind
  have hslot := h.slots i hi hp
  have hexp : (t.drained i).gapExpectedSeq = (s.drained i).gapExpectedSeq := by
    rw [drained_gapExpectedSeq, drained_gapExpectedSeq, h.expected, hslot]
  have hgrow : s.gapExpectedSeq ≤ (s.drained i).gapExpectedSeq := by
    rw [drained_gapExpectedSeq]
    exact Nat.le_of_lt (hs.next_lt had hi hp hseq)
  -- a slot pending after the drain was pending before it, in either state
  have hsame : ∀ k < reorderMax, (s.drained i).pending k ∨ (t.drained i).pending k →
      t.reorderPool k = s.reorderPool k := by
    intro k hk hpk
    refine h.slots k hk ?_
    rcases hpk with hpk | hpk
    · obtain ⟨hu, hle⟩ := (drained_pending_iff s i k).mp hpk
      exact pending_iff.mpr ⟨hu, le_trans hgrow hle⟩
    · obtain ⟨hu, hle⟩ := (drained_pending_iff t i k).mp hpk
      rw [hexp] at hle
      rw [← h.pending k hk, pending_iff, h.expected]
      exact ⟨hu, le_trans hgrow hle⟩
  refine ⟨hexp, ?_, ?_, ?_, ?_, ?_⟩
  · rw [drained_log, drained_log, h.log, State.slotPayload, State.slotPayload, hslot]
  · rw [(drained_frame t i).1, (drained_frame s i).1, h.dropped]
  · rw [(drained_frame t i).2, (drained_frame s i).2, h.session]
  · intro k hk
    rw [Bool.eq_iff_iff]
    constructor
    · intro hpk
      have heq := hsame k hk (.inr hpk)
      rwa [drained_pending_iff, heq, hexp, ← drained_pending_iff] at hpk
    · intro hpk
      have heq := hsame k hk (.inl hpk)
      rwa [drained_pending_iff, ← heq, ← hexp, ← drained_pending_iff] at hpk
  · intro k hk hpk
    rw [drained_reorderPool, drained_reorderPool]
    exact hsame k hk (.inl hpk)

theorem Drains.agree (h : Drains s u) (h' : Drains t v) (hag : Agree s t) (hs : PoolInv s)
    (had : Admissible s) (hu : u.ringFull = 0) (hv : v.ringFull = 0) : Agree u v := by
  induction h generalizing t with
  | @stop s hfind =>
    have hfind' := (hag.reorderFind s.gapExpectedSeq).trans hfind
    rw [← hag.expected] at hfind'
    cases h' with
    | stop => exact hag
    | full hf => exact absurd (hfind'.symm.trans hf) (by simp)
    | publish hf => exact absurd (hfind'.symm.trans hf) (by simp)
  | full => exact absurd hu (Nat.succ_ne_zero _)
  | @publish s i u hfind hr _ ih =>
    have hfind' := (hag.reorderFind s.gapExpectedSeq).trans hfind
    rw [← hag.expected] at hfind'
    cases h' with
    | stop hf => exact absurd (hf.symm.trans hfind') (by simp)
    | full => exact absurd hv (Nat.succ_ne_zero _)
    | publish hf _ hd =>
      cases hfind'.symm.trans hf
      refine ih hd (hag.drained hs had hfind) (drained_poolInv hs had hfind) ?_ hu
      rwa [Admissible, drained_delivered]

/-- A drain publishes the packets that are contiguous, one after the other. -/
theorem Drains.chain (h : Drains s t) (hs : PoolInv s) (had : Admissible s)
    (hr : t.ringFull = 0) : ∃ chain, t.log = s.log ++ chain.map .published ∧
      Tiles sequenceNumber endSequence s.gapExpectedSeq chain t.gapExpectedSeq ∧
      t.gapDroppedPackets = s.gapDroppedPackets := by
  induction h with
  | stop => exact ⟨[], by simp, rfl, rfl⟩
  | full => exact absurd hr (Nat.succ_ne_zero _)
  | @publish s i t hfind _ _ ih =>
    obtain ⟨hi, hp, hseq⟩ := reorderFind_some hfind
    obtain ⟨p, hmem, ha, hh⟩ := hs.copies i hi (pending_iff.mp hp).1
    have hstart : sequenceNumber p = s.gapExpectedSeq := by rw [← hh.startSeq, hseq]
    have hexp : (s.drained i).gapExpectedSeq = endSequence p := by
      rw [drained_gapExpectedSeq, Nat.mod_eq_of_lt (hs.next_fits had hi hp hseq), hh.msgCount,
        ← hstart, endSequence]
    obtain ⟨chain, hlog, htiles, hdrop⟩ := ih (drained_poolInv hs had hfind)
      (by rwa [Admissible, drained_delivered]) hr
    refine ⟨p :: chain, ?_, ⟨hstart, ha.lt_end, hexp ▸ htiles⟩, ?_⟩
    · rw [hlog, drained_log, hh.slotPayload, List.map_cons, List.append_assoc]
      rfl
    · rw [hdrop, (drained_frame s i).1]

end Drain

/-- The packet was published, then everything it made contiguous, and no drop was counted. -/
structure Continues (s : State) (payload : List UInt8) (t : State) : Prop where
  published : ∃ chain, t.log = s.log ++ (payload :: chain).map .published ∧
    Tiles sequenceNumber endSequence (sequenceNumber payload) (payload :: chain) t.gapExpectedSeq
  settled : Settled t
  dropped : t.gapDroppedPackets = s.gapDroppedPackets

/-- What is observable of a call: the stream, where it stands, the session and the drops. -/
structure SameOutcome (s t : State) : Prop where
  log : t.log = s.log
  expected : t.gapExpectedSeq = s.gapExpectedSeq
  session : t.gapSession = s.gapSession
  dropped : t.gapDroppedPackets = s.gapDroppedPackets

theorem Agree.sameOutcome {s t : State} (h : Agree s t) : SameOutcome s t :=
  ⟨h.log, h.expected, h.session, h.dropped⟩

/-- The drain that follows the packet starts behind it, with the old pool but for slots
that are not pending. -/
structure Behind (s : State) (payload : List UInt8) (mid : State) : Prop where
  expected : mid.gapExpectedSeq = endSequence payload
  log : mid.log = s.log ++ [.published payload]
  dropped : mid.gapDroppedPackets = s.gapDroppedPackets
  session : mid.gapSession = s.gapSession
  pool : ∀ k, mid.reorderPool k = s.reorderPool k ∨
    ((s.reorderPool k).used = 0 ∧ (mid.reorderPool k).startSeq = sequenceNumber payload)

section Paths
variable {s t mid mid' : State} {payload : List UInt8} {addr now off ret : ℕ}

theorem opened_of_set (h : s.gapSessionSet = true) :
    s.opened payload = { s with delivered := s.delivered ++ [payload] } := by
  unfold State.opened State.openSession
  rw [if_pos (show (s.logDelivery payload).gapSessionSet = true from h)]
  rfl

theorem behind_push {u : State} (hfit : Fits payload)
    (hseq : sequenceNumber payload = u.gapExpectedSeq) (hlog : u.log = s.log)
    (hdrop : u.gapDroppedPackets = s.gapDroppedPackets) (hsess : u.gapSession = s.gapSession)
    (hpool : ∀ k, u.reorderPool k = s.reorderPool k ∨
      ((s.reorderPool k).used = 0 ∧ (u.reorderPool k).startSeq = sequenceNumber payload))
    (ptr : RefPtr) : Behind s payload ((u.push ptr payload).advance (messageCount payload)) where
  expected := by
    have hlt := hfit.2
    rw [endSequence, hseq] at hlt ⊢
    exact Nat.mod_eq_of_lt hlt
  log := congrArg (· ++ [Segment.published payload]) hlog
  dropped := hdrop
  session := hsess
  pool := hpool

theorem Behind.not_pending (h : Behind s payload mid) (ha : Accepted payload) {k : ℕ}
    (hk : mid.reorderPool k ≠ s.reorderPool k) : mid.pending k = false := by
  rcases h.pool k with heq | ⟨_, hstart⟩
  · exact absurd heq hk
  · by_contra hp
    rw [Bool.not_eq_false, pending_iff, hstart, h.expected] at hp
    have := ha.lt_end
    omega

theorem Behind.agree (h : Behind s payload mid) (h' : Behind s payload mid')
    (ha : Accepted payload) (hold : ∀ k, mid.reorderPool k = s.reorderPool k) :
    Agree mid mid' := by
  have hpend : ∀ k, mid'.reorderPool k ≠ s.reorderPool k →
      mid'.pending k = false ∧ mid.pending k = false := by
    intro k hk
    refine ⟨h'.not_pending ha hk, ?_⟩
    rcases h'.pool k with heq | ⟨hu, _⟩
    · exact absurd heq hk
    · by_contra hp
      rw [Bool.not_eq_false, pending_iff, hold k] at hp
      exact hp.1 hu
  refine ⟨h'.expected.trans h.expected.symm, h'.log.trans h.log.symm,
    h'.dropped.trans h.dropped.symm, h'.session.trans h.session.symm, ?_, ?_⟩
  · intro k _
    by_cases hk : mid'.reorderPool k = s.reorderPool k
    · rw [State.pending, State.pending, hk, hold k, h'.expected, h.expected]
    · rw [(hpend k hk).1, (hpend k hk).2]
  · intro k _ hp
    by_cases hk : mid'.reorderPool k = s.reorderPool k
    · rw [hk, hold k]
    · rw [(hpend k hk).2] at hp
      cases hp

theorem Behind.continues (h : Behind s payload mid) (ha : Accepted payload)
    (hd : Drains mid t) (hp : PoolInv mid) (had : Admissible mid) (hr : t.ringFull = 0) :
    Continues s payload t := by
  obtain ⟨chain, hlog, htiles, hdrop⟩ := hd.chain hp had hr
  refine ⟨⟨chain, ?_, rfl, ha.lt_end, h.expected ▸ htiles⟩, hd.settled hr, hdrop.trans h.dropped⟩
  rw [hlog, h.log, List.map_cons, List.append_assoc]
  rfl

theorem reorderFind_inOrder (hs : Inv s) (hst : Settled s) (hset : s.gapSessionSet = true)
    (hseq : sequenceNumber payload = s.gapExpectedSeq) :
    (s.opened payload).reorderFind (sequenceNumber payload) = none := by
  cases hf : (s.opened payload).reorderFind (sequenceNumber payload) with
  | none => rfl
  | some i =>
    obtain ⟨hi, hp, hstart⟩ := reorderFind_some hf
    have hlt := hst.opened hs.pool i hi hp
    rw [hstart, opened_of_set hset, hseq] at hlt
    exact absurd hlt (lt_irrefl _)

theorem handlePayload_sound {base : Option ℕ} (hs : Inv s)
    (hadd : Admissible (s.logDelivery payload)) (hframe : FrameHolds s payload addr base)
    (now : ℕ) : ∃ t ret, s.handlePayload payload addr now base = some (t, ret) ∧
      Handles s payload addr now base t ret ∧ Admissible t ∧ t.ringFull = 0 := by
  obtain ⟨⟨t, ret⟩, ht⟩ : ∃ r, s.handlePayload payload addr now base = some r :=
    handlePayload_returns hs hadd hframe
  have hpath := handlePayload_handles ht
  have hadt : Admissible t := by
    rw [Admissible, hpath.delivered]
    exact hadd
  exact ⟨t, ret, ht, hpath, hadt,
    (moves_inv (hpath.moves hframe hs.sequenced.singles) hs hadt).ringFull⟩

theorem opened_gapExpectedSeq (hset : s.gapSessionSet = true)
    (hseq : sequenceNumber payload = s.gapExpectedSeq) :
    (s.opened payload).gapExpectedSeq = sequenceNumber payload := by
  rw [opened_of_set hset, hseq]

/-- What becomes of a reply with the packet that is next: there is no slot for its copy, or the copy
is published and the drain follows. -/
theorem inOrder_reply_cases (hs : Inv s) (hst : Settled s) (hset : s.gapSessionSet = true)
    (ha : Accepted payload) (hseq : sequenceNumber payload = s.gapExpectedSeq)
    (h : Handles s payload uint64Max now none t ret) (hring : t.ringFull = 0) :
    ret = uint64Max ∧ (((s.opened payload).reorderAllocSlot = none ∧
        t = (s.opened payload).noteAllocFailure.dropOne) ∨
      ∃ i v, (s.opened payload).reorderAllocSlot = some i ∧
        (s.opened payload).fillSlot i payload now = some v ∧ ¬v.yield.Full ∧
        Drains ((v.yield.push (.slot i) (v.slotPayload i)).advance (messageCount payload)) t) := by
  have hexp := opened_gapExpectedSeq hset hseq
  have hnone := reorderFind_inOrder hs hst hset hseq
  cases h with
  | ignored hna => exact absurd ha hna
  | late _ hlt => exact absurd hlt (by omega)
  | frameFull _ _ _ hb => cases hb
  | framePublished _ _ _ hb => cases hb
  | duplicate _ _ hf => exact absurd (hnone.symm.trans hf) (by simp)
  | copyNoSlot _ _ _ _ hslot => exact ⟨rfl, .inl ⟨hslot, rfl⟩⟩
  | copyFull => exact absurd hring (Nat.succ_ne_zero _)
  | copyPublished _ _ _ _ hslot hv hr hd => exact ⟨rfl, .inr ⟨_, _, hslot, hv, hr, hd⟩⟩
  | futureNoSlot _ hlt => exact absurd hlt (by omega)
  | futureBuffered _ hlt => exact absurd hlt (by omega)

variable (hs : Inv s) (hst : Settled s) (hset : s.gapSessionSet = true) (ha : Accepted payload)
  (hfit : Fits payload) (hseq : sequenceNumber payload = s.gapExpectedSeq)
include hs hst hset ha hfit hseq

theorem frame_path (h : Handles s payload addr now (some off) t ret) (hm : addr ≠ uint64Max)
    (hring : t.ringFull = 0) : ret = uint64Max ∧ ∃ mid, Drains mid t ∧ Behind s payload mid ∧
      (∀ k, mid.reorderPool k = s.reorderPool k) ∧
      (FrameHolds s payload addr (some off) → ReflTransGen Moves s mid) := by
  have hopen := @opened_of_set s payload hset
  have hexp := opened_gapExpectedSeq hset hseq
  have hnone := reorderFind_inOrder hs hst hset hseq
  cases h with
  | ignored hna => exact absurd ha hna
  | late _ hlt => exact absurd hlt (by omega)
  | frameFull => exact absurd hring (Nat.succ_ne_zero _)
  | @framePublished off' u t _ hseq' _ hb hu hr hd =>
    refine ⟨rfl, _, hd, ?_, fun k => ?_, fun hframe =>
      framePublished_moves hframe ha hseq' hm hb hu hr⟩
    · obtain ⟨r, d, p, hy⟩ := yield_frame
        ((s.opened payload).writeRef addr (frameRef payload addr now off'))
      have hsame : u.log = s.log ∧ u.gapDroppedPackets = s.gapDroppedPackets ∧
          u.gapSession = s.gapSession ∧ u.gapExpectedSeq = s.gapExpectedSeq ∧
          u.reorderPool = s.reorderPool := by
        rw [hu, hy, hopen]
        exact ⟨rfl, rfl, rfl, rfl, rfl⟩
      obtain ⟨hlog, hdrop, hsess, hexp', hpool⟩ := hsame
      exact behind_push (u := u.pin addr) hfit (hseq.trans hexp'.symm) hlog hdrop hsess
        (fun k => .inl (congrFun hpool k)) _
    · rw [hu]
      simp [State.advance, State.pin, State.push, State.writeRef]
  | duplicate _ _ hf => exact absurd (hnone.symm.trans hf) (by simp)
  | copyNoSlot _ _ hp => exact absurd ⟨hm, rfl⟩ hp
  | copyFull _ _ hp => exact absurd ⟨hm, rfl⟩ hp
  | copyPublished _ _ hp => exact absurd ⟨hm, rfl⟩ hp
  | futureNoSlot _ hlt => exact absurd hlt (by omega)
  | futureBuffered _ hlt => exact absurd hlt (by omega)

theorem reply_path (h : Handles s payload uint64Max now none t ret) (hring : t.ringFull = 0) :
    ret = uint64Max ∧
    ((s.reorderAllocSlot = none ∧ t = (s.opened payload).noteAllocFailure.dropOne) ∨
      ((∃ i < reorderMax, (s.reorderPool i).used = 0) ∧
        ∃ mid, Drains mid t ∧ Behind s payload mid ∧ ReflTransGen Moves s mid)) := by
  obtain ⟨rfl, ⟨hslot, rfl⟩ | ⟨i, v, hslot, hv, hr, hd⟩⟩ :=
    inOrder_reply_cases hs hst hset ha hseq h hring
  · have halloc : (s.opened payload).reorderAllocSlot = s.reorderAllocSlot := by
      unfold State.reorderAllocSlot
      rw [opened_reorderPool]
    exact ⟨rfl, .inl ⟨halloc ▸ hslot, rfl⟩⟩
  obtain ⟨hi, hu⟩ := reorderAllocSlot_some hslot
  have hmoves := copyPublished_moves ha (opened_gapExpectedSeq hset hseq).symm
    (reorderFind_inOrder hs hst hset hseq) hslot hv hr
  rw [opened_reorderPool] at hu
  refine ⟨rfl, .inr ⟨⟨i, hi, hu⟩, _, hd, ?_, hmoves⟩⟩
  rw [fillSlot_of_fits hfit.1] at hv
  cases hv
  generalize hv : (s.opened payload).setSlot i (buildReorderRef (copiedSlot
    ((s.opened payload).reorderPool i) payload) i now) = v
  have hslot' : v.reorderPool i = buildReorderRef (copiedSlot ((s.opened payload).reorderPool i)
      payload) i now := by
    rw [← hv]
    exact Function.update_self _ _ _
  have hpay : v.slotPayload i = payload := by
    refine Holds.slotPayload (s := v) ?_
    rw [hslot']
    exact holds_buildReorderRef _ ha hfit.1
  obtain ⟨r, d, p, hy⟩ := yield_frame v
  have hsame : v.yield.log = s.log ∧ v.yield.gapDroppedPackets = s.gapDroppedPackets ∧
      v.yield.gapSession = s.gapSession ∧ v.yield.gapExpectedSeq = s.gapExpectedSeq := by
    rw [hy, ← hv, opened_of_set hset]
    exact ⟨rfl, rfl, rfl, rfl⟩
  obtain ⟨hlog, hdrop, hsess, hexp'⟩ := hsame
  rw [hpay]
  refine behind_push hfit (hseq.trans hexp'.symm) hlog hdrop hsess (fun k => ?_) _
  rw [yield_reorderPool]
  by_cases hk : k = i
  · subst hk
    exact .inr ⟨hu, by rw [hslot']; rfl⟩
  · rw [← hv]
    refine .inl ((Function.update_of_ne hk _ _).trans ?_)
    rw [opened_reorderPool]

theorem reply_continues (h : Handles s payload uint64Max now none t ret) (hadt : Admissible t)
    (hring : t.ringFull = 0) :
    ret = uint64Max ∧
    (Continues s payload t → ∃ i < reorderMax, (s.reorderPool i).used = 0) ∧
    ((∃ i < reorderMax, (s.reorderPool i).used = 0) →
      ∃ mid, Drains mid t ∧ Behind s payload mid ∧ Continues s payload t) := by
  obtain ⟨rfl, hreply⟩ := reply_path hs hst hset ha hfit hseq h hring
  rcases hreply with ⟨hnone, rfl⟩ | ⟨hfree, mid, hd, hbehind, hmoves⟩
  · refine ⟨rfl, fun hcont => ?_, ?_⟩
    · -- a reply that is dropped adds nothing to the log
      obtain ⟨chain, hlog, _⟩ := hcont.published
      rw [opened_of_set hset] at hlog
      have hlen := congrArg List.length hlog
      simp [State.noteAllocFailure, State.dropOne] at hlen
    · rintro ⟨i, hi, hfree⟩
      exact absurd hfree (reorderAllocSlot_none hnone i hi)
  · have hadm := hadt.before (moves_delivered hd.moves)
    have hpool := (moves_inv hmoves hs hadm).pool
    exact ⟨rfl, fun _ => hfree, fun _ => ⟨mid, hd, hbehind,
      hbehind.continues ha hd hpool hadm hring⟩⟩

end Paths

/-- In every state reached over packets that fit, a reply with the packet that is next publishes it
with everything it makes contiguous, and without a drop, if and only if a reorder slot is free. As
a frame it always does, and the two have the same outcome if and only if a slot is free. -/
theorem inOrder_paths_agree {fd : ℤ} {as : List Action} {s : State} {payload : List UInt8}
    (hr : Runs Step (init fd) as s) (had : Admissible s)
    (hset : s.gapSessionSet = true) (ha : Accepted payload) (hfit : Fits payload)
    (hseq : sequenceNumber payload = s.gapExpectedSeq) (now : ℕ) (pace pace' : List ℕ) :
    ∃ t', (s.atHand s.burst [] pace').handlePayload payload uint64Max now none =
        some (t', uint64Max) ∧
      (Continues s payload t' ↔ ∃ i < reorderMax, (s.reorderPool i).used = 0) ∧
      ∀ addr off rest, s.burst = addr :: rest →
        extractFeedPayload (s.umem (frameOf addr)).bytes = some off →
        (s.umem (frameOf addr)).bytes.drop off = payload →
        ∃ t, (s.atHand rest [addr] pace).handlePayload payload addr now (some off) =
            some (t, uint64Max) ∧
          Continues s payload t ∧
          (Continues s payload t' ∧ SameOutcome t t' ↔
            ∃ i < reorderMax, (s.reorderPool i).used = 0) := by
  obtain ⟨hs, hh⟩ := runs_inv hr had
  have hst := (runs_tracked hr had).1
  have hadd : Admissible (s.logDelivery payload) := had.deliver (fun _ => hfit)
  -- the reply
  have hu' : Inv (s.atHand s.burst [] pace') := by
    rw [← hh]
    exact Moves.setPace.inv hs had
  have hframe' : FrameHolds (s.atHand s.burst [] pace') payload uint64Max none :=
    fun off hoff => by cases hoff
  obtain ⟨t', ret', ht', hpath', hadt', hring'⟩ := handlePayload_sound hu' hadd hframe' now
  obtain ⟨rfl, hneeds, hgoes⟩ := reply_continues hu' hst hset ha hfit hseq hpath' hadt' hring'
  refine ⟨t', ht', ⟨fun h => hneeds { h with }, fun hfree => ?_⟩,
    fun addr off rest hburst hex hbytes => ?_⟩
  · obtain ⟨mid', -, -, hcont⟩ := hgoes hfree
    exact { hcont with }
  -- the frame
  have hm : addr ≠ uint64Max := (hs.boundary hh).burst addr (by rw [hburst]; simp)
  have hu : Inv (s.atHand rest [addr] pace) :=
    moves_inv ((ReflTransGen.single (.takePacket hburst hh)).tail .setPace) hs had
  have hframe : FrameHolds (s.atHand rest [addr] pace) payload addr (some off) := by
    intro off' hoff _
    cases hoff
    exact ⟨List.mem_singleton_self addr, (extractFeedPayload_bounds hex).1, hbytes⟩
  obtain ⟨t, ret, ht, hpath, hadt, hring⟩ := handlePayload_sound hu hadd hframe now
  obtain ⟨rfl, mid, hd, hbehind, hold, hmoves⟩ :=
    frame_path hu hst hset ha hfit hseq hpath hm hring
  have hadm := hadt.before (moves_delivered hd.moves)
  have hpool := (moves_inv (hmoves hframe) hu hadm).pool
  refine ⟨t, ht, { hbehind.continues ha hd hpool hadm hring with }, fun h => hneeds { h.1 with },
    fun hfree => ?_⟩
  obtain ⟨mid', hd', hbehind', hcont⟩ := hgoes hfree
  have hbehind'' : Behind (s.atHand rest [addr] pace) payload mid' := { hbehind' with }
  have hag := hd.agree hd' (hbehind.agree hbehind'' ha hold) hpool hadm hring hring'
  exact ⟨{ hcont with }, hag.sameOutcome⟩

section Sample
variable {seq : ℕ}

theorem decode_samplePacket (h : seq < 2 ^ 64) : MoldUdp64Header.decode (samplePacket seq 1 2 2) =
    ⟨List.replicate 10 7, seq, 1⟩ := decode_encode (by simp) h (Nat.one_lt_two_pow (by decide)) _

theorem samplePacket_length : (samplePacket seq 1 2 2).length = 22 := by
  simp [samplePacket, MoldUdp64Header.encode]

theorem samplePacket_spec (h : seq + 1 < 2 ^ 64) : Accepted (samplePacket seq 1 2 2) ∧
    Fits (samplePacket seq 1 2 2) ∧ sequenceNumber (samplePacket seq 1 2 2) = seq := by
  have hdec := decode_samplePacket (Nat.lt_of_succ_lt h)
  have hseq : sequenceNumber (samplePacket seq 1 2 2) = seq := by rw [sequenceNumber, hdec]
  have hcount : messageCount (samplePacket seq 1 2 2) = 1 := by rw [messageCount, hdec]
  refine ⟨⟨?_, ?_⟩, ⟨?_, ?_⟩, hseq⟩
  · rw [samplePacket_length]
    decide
  · rw [hcount]
    decide
  · rw [samplePacket_length]
    decide
  · rw [endSequence, hseq, hcount]
    exact h

end Sample

/-- The second packet of a session waits in the burst. -/
def frameNextRun : List Action :=
  [.reply (samplePacket 1 1 2 2) 1 [], .refill 1, .dma 4095 (sampleFrame (samplePacket 2 1 2 2)),
    .recvBurst 0 [4095 * 4096]]

theorem inOrder_paths_agree_frameNextRun : ∃ s t t', Runs Step (init 3) frameNextRun s ∧
    (s.atHand [] [4095 * 4096] []).handlePayload (samplePacket 2 1 2 2) (4095 * 4096) 1 (some 42) =
      some (t, uint64Max) ∧
    (s.atHand s.burst [] []).handlePayload (samplePacket 2 1 2 2) uint64Max 1 none =
      some (t', uint64Max) ∧
    Continues s (samplePacket 2 1 2 2) t ∧ SameOutcome t t' := by
  have hrun : (frameNextRun.foldlM State.act (init 3)).map (fun s =>
      (s.delivered, (s.umem 4095).bytes, s.burst, [s.gapExpectedSeq, (s.reorderPool 1).used],
        s.gapSessionSet)) =
      some ([samplePacket 1 1 2 2], sampleFrame (samplePacket 2 1 2 2), [4095 * 4096], [2, 0],
        true) := by
    decide +kernel
  obtain ⟨s, hs, hobs⟩ := Option.map_eq_some_iff.mp hrun
  simp only [Prod.mk.injEq, List.cons.injEq, and_true] at hobs
  obtain ⟨hdel, hbytes, hburst, ⟨hexp, hfree⟩, hset⟩ := hobs
  have hr : Runs Step (init 3) frameNextRun s := Runs.of_foldlM hs
  have had : Admissible s := by
    rw [Admissible, hdel]
    simp only [Fits]
    decide +kernel
  obtain ⟨ha, hfit, hseq⟩ := @samplePacket_spec 2 (by decide)
  have hframe : frameOf (4095 * 4096) = 4095 := by decide
  have hex : extractFeedPayload (s.umem (frameOf (4095 * 4096))).bytes = some 42 := by
    rw [hframe, hbytes]
    decide +kernel
  have hpay : (s.umem (frameOf (4095 * 4096))).bytes.drop 42 = samplePacket 2 1 2 2 := by
    rw [hframe, hbytes]
    decide +kernel
  obtain ⟨t', ht', -, hframed⟩ := inOrder_paths_agree hr had hset ha hfit
    (hseq.trans hexp.symm) 1 [] []
  obtain ⟨t, ht, hcont, hiff⟩ := hframed _ _ _ hburst hex hpay
  exact ⟨s, t, t', hr, ht, ht', hcont, (hiff.mpr ⟨1, by decide, hfree⟩).2⟩

theorem handlePayload_buffers {s : State} {payload : List UInt8} {addr now i : ℕ}
    {base : Option ℕ} (hset : s.gapSessionSet = true) (ha : Accepted payload) (hfit : Fits payload)
    (hlt : s.gapExpectedSeq < sequenceNumber payload)
    (hfind : s.reorderFind (sequenceNumber payload) = none) (halloc : s.reorderAllocSlot = some i) :
    ∃ t, s.handlePayload payload addr now base = some (t, addr) ∧ ∃ last n reqs, t = { s with
      delivered := s.delivered ++ [payload]
      reorderPool := Function.update s.reorderPool i
        (buildReorderRef (copiedSlot (s.reorderPool i) payload) i now)
      gapLastRequestNs := last
      gapRetransRequests := n
      requests := reqs } := by
  have hopen := @opened_of_set s payload hset
  have hexp : (s.opened payload).gapExpectedSeq = s.gapExpectedSeq := by rw [hopen]
  have hfind' : (s.opened payload).reorderFind (sequenceNumber payload) = none := by
    rw [hopen, ← hfind]
    unfold State.reorderFind
    rfl
  have halloc' : (s.opened payload).reorderAllocSlot = some i := by
    rw [hopen, ← halloc]
    unfold State.reorderAllocSlot
    rfl
  unfold State.handlePayload
  rw [if_neg (Nat.not_lt_of_le ha.1), if_neg ha.2]
  simp only [hexp]
  rw [if_neg (by omega), if_neg (by omega), State.bufferFuture, hfind']
  simp only [halloc', fillSlot_of_fits hfit.1]
  rw [hopen]
  obtain ⟨last, n, reqs, hreq⟩ := sendRetransmitRequest_frame
    (({ s with delivered := s.delivered ++ [payload] } : State).setSlot i
      (buildReorderRef (copiedSlot (s.reorderPool i) payload) i now)) s.gapExpectedSeq
    (requestCount (sequenceNumber payload - s.gapExpectedSeq)) now
  exact ⟨_, rfl, last, n, reqs, hreq⟩

section Filling

/-- The first packet came and `k` packets behind a gap of one wait in slots `1` to `k`. -/
structure PoolFilled (k : ℕ) (s : State) : Prop where
  fd : s.gapRewinderFd = 3
  set : s.gapSessionSet = true
  session : s.gapSession = List.replicate 10 7
  expected : s.gapExpectedSeq = 2
  dropped : s.gapDroppedPackets = 0
  used : ∀ i < reorderMax, (s.reorderPool i).used = 0 ↔ k < i
  starts : ∀ i < reorderMax, i ≤ k → (s.reorderPool i).startSeq = if i = 0 then 1 else i + 2
  admissible : Admissible s

def fillingRun (k : ℕ) : List Action :=
  .reply (samplePacket 1 1 2 2) 1 [] ::
    (List.range k).map fun j => .reply (samplePacket (j + 3) 1 2 2) 1 []

theorem poolFilled_first : ∃ s, Runs Step (init 3) (fillingRun 0) s ∧ PoolFilled 0 s := by
  have hrun : ((init 3).act (.reply (samplePacket 1 1 2 2) 1 [])).map (fun s =>
      (s.gapRewinderFd, s.gapSessionSet && (List.range reorderMax).all (fun i =>
        decide ((s.reorderPool i).used = 0) == decide (0 < i)), s.gapSession :: s.delivered,
        [s.gapExpectedSeq, s.gapDroppedPackets, (s.reorderPool 0).startSeq])) =
      some (3, true, [List.replicate 10 7, samplePacket 1 1 2 2], [2, 0, 1]) := by
    decide +kernel
  obtain ⟨s, hs, hobs⟩ := Option.map_eq_some_iff.mp hrun
  simp only [Prod.mk.injEq, Bool.and_eq_true, List.all_eq_true, List.mem_range, beq_iff_eq,
    decide_eq_decide, List.cons.injEq, and_true] at hobs
  obtain ⟨hfd, ⟨hset, hused⟩, ⟨hsess, hdel⟩, hexp, hdrop, hstart⟩ := hobs
  refine ⟨s, Runs.single hs, hfd, hset, hsess, hexp, hdrop, hused, ?_, ?_⟩
  · intro i _ hi
    rw [Nat.le_zero.mp hi, hstart]
    rfl
  · intro p hp _
    rw [hdel, List.mem_singleton] at hp
    rw [hp]
    exact (samplePacket_spec (by decide)).2.1

theorem PoolFilled.next {k : ℕ} {s : State} (h : PoolFilled k s) (hk : k + 1 < reorderMax) :
    ∃ t, Step s (.reply (samplePacket (k + 3) 1 2 2) 1 []) t ∧ PoolFilled (k + 1) t := by
  have hbound : k + 3 + 1 < 2 ^ 64 := by
    simp only [reorderMax] at hk
    omega
  obtain ⟨ha, hfit, hseq⟩ := samplePacket_spec hbound
  have hlen : (samplePacket (k + 3) 1 2 2).length = 22 := samplePacket_length
  generalize samplePacket (k + 3) 1 2 2 = p at ha hfit hseq hlen
  have hfind : ({ s with pace := [] } : State).reorderFind (sequenceNumber p) = none := by
    unfold State.reorderFind
    refine List.find?_eq_none.mpr (fun i hi hp => ?_)
    rw [Bool.and_eq_true, beq_iff_eq, pending_iff, hseq] at hp
    obtain ⟨⟨hu, _⟩, hstart⟩ := hp
    have hi' := List.mem_range.mp hi
    have hle : i ≤ k := by
      by_contra hlt
      exact hu ((h.used i hi').mpr (Nat.lt_of_not_le hlt))
    have hs := h.starts i hi' hle
    rw [hstart] at hs
    split at hs <;> omega
  have halloc : ({ s with pace := [] } : State).reorderAllocSlot = some (k + 1) := by
    unfold State.reorderAllocSlot
    refine List.find?_range_eq_some.mpr ⟨?_, List.mem_range.mpr hk, fun j hj => ?_⟩
    · exact decide_eq_true ((h.used (k + 1) hk).mpr (Nat.lt_succ_self k))
    · have hne : (s.reorderPool j).used ≠ 0 := fun hu => by
        have := (h.used j (by omega)).mp hu
        omega
      simpa using hne
  have hlt : ({ s with pace := [] } : State).gapExpectedSeq < sequenceNumber p := by
    rw [hseq]
    exact lt_of_eq_of_lt h.expected (by omega)
  obtain ⟨t, hret, last, n, reqs, ht⟩ := @handlePayload_buffers { s with pace := [] } p uint64Max 1
    _ none h.set ha hfit hlt hfind halloc
  have hstep : Step s (.reply p 1 []) t := by
    simp only [Step, State.act]
    rw [if_pos ⟨by rw [h.fd]; decide, by rw [hlen]; decide, by rw [hlen]; decide⟩, hret]
    rfl
  subst ht
  refine ⟨_, hstep, h.fd, h.set, h.session, h.expected, h.dropped, ?_, ?_, ?_⟩
  · intro i hi
    by_cases hik : i = k + 1
    · subst hik
      simp [buildReorderRef]
    · simp only [Function.update_of_ne hik]
      rw [h.used i hi]
      omega
  · intro i hi hle
    by_cases hik : i = k + 1
    · subst hik
      simp [buildReorderRef, copiedSlot, hseq]
    · simp only [Function.update_of_ne hik]
      exact h.starts i hi (by omega)
  · exact h.admissible.deliver (fun _ => hfit)

theorem poolFilled_reachable {k : ℕ} (hk : k < reorderMax) :
    ∃ s, Runs Step (init 3) (fillingRun k) s ∧ PoolFilled k s := by
  induction k with
  | zero => exact poolFilled_first
  | succ k ih =>
    obtain ⟨s, hr, hs⟩ := ih (Nat.lt_of_succ_lt hk)
    obtain ⟨t, hstep, ht⟩ := hs.next hk
    refine ⟨t, ?_, ht⟩
    have hrun : fillingRun (k + 1) = fillingRun k ++
      [.reply (samplePacket (k + 3) 1 2 2) 1 []] := by
      simp [fillingRun, List.range_succ]
    rw [hrun]
    exact hr.snoc hstep

end Filling

/-- With one packet in flight and 511 waiting behind a gap, the reply that would fill the
gap is dropped: there is room in the ring, but no slot for the copy. -/
theorem full_pool_drops_reply : ∃ as s t, Runs Step (init 3) as s ∧ ¬s.Full ∧
    s.gapSessionSet = true ∧ session (samplePacket 2 1 2 2) = s.gapSession ∧
    sequenceNumber (samplePacket 2 1 2 2) = s.gapExpectedSeq ∧
    Step s (.reply (samplePacket 2 1 2 2) 1 []) t ∧ t.log = s.log ∧
    t.gapExpectedSeq = s.gapExpectedSeq ∧ t.gapDroppedPackets = s.gapDroppedPackets + 1 := by
  obtain ⟨s, hr, hs⟩ := poolFilled_reachable (k := 511) (by decide)
  obtain ⟨ha, hfit, hseq⟩ := @samplePacket_spec 2 (by decide)
  have hsess : session (samplePacket 2 1 2 2) = s.gapSession := by
    rw [hs.session, session, decode_samplePacket (by decide)]
  have hlen : (samplePacket 2 1 2 2).length = 22 := samplePacket_length
  generalize samplePacket 2 1 2 2 = p at ha hfit hseq hsess hlen
  have hexp : sequenceNumber p = s.gapExpectedSeq := hseq.trans hs.expected.symm
  obtain ⟨hinv, hh⟩ := runs_inv hr hs.admissible
  have hst := (runs_tracked hr hs.admissible).1
  have hu : Inv { s with pace := [] } := Moves.setPace.inv hinv hs.admissible
  have hadd : Admissible (s.logDelivery p) := hs.admissible.deliver (fun _ => hfit)
  have hframe : FrameHolds { s with pace := [] } p uint64Max none := fun off hoff => by cases hoff
  obtain ⟨⟨t, ret⟩, ht⟩ : ∃ r, ({ s with pace := [] } : State).handlePayload p uint64Max 1 none =
    some r := handlePayload_returns hu hadd hframe
  have hpath := handlePayload_handles ht
  have hadt : Admissible t := by
    rw [Admissible, hpath.delivered]
    exact hadd
  have hring := (moves_inv (hpath.moves hframe hu.sequenced.singles) hu hadt).ringFull
  obtain ⟨rfl, ⟨_, rfl⟩ | ⟨⟨i, hi, hfree⟩, _⟩⟩ :=
    reply_path hu hst hs.set ha hfit hexp hpath hring
  · have hopen : ({ s with pace := [] } : State).opened p =
        { s with pace := [], delivered := s.delivered ++ [p] } := opened_of_set hs.set
    have hstep : Step s (.reply p 1 [])
        (({ s with pace := [] } : State).opened p).noteAllocFailure.dropOne := by
      simp only [Step, State.act]
      rw [if_pos ⟨by rw [hs.fd]; decide, by rw [hlen]; decide, by rw [hlen]; decide⟩, ht]
      rfl
    rw [hopen] at hstep
    refine ⟨_, s, _, hr, hinv.owned.not_full hinv.cursors, hs.set, hsess, hexp, hstep, rfl, rfl, ?_⟩
    simp [State.dropOne, State.noteAllocFailure, hs.dropped]
  · exact absurd ((hs.used i hi).mp hfree) (by simp only [reorderMax] at hi; omega)

end TradingPipeline.Receiver
