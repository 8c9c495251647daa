import TradingPipeline.Receiver.Sequencing

/-! # Recovery of gaps

Between two actions no pending packet is next. As long as no slot allocation failed,
nothing is skipped, and every accepted packet is behind the expected sequence number or
pending in a slot. So when all packets of a stretch have been delivered, in whatever
order, all of them have been published, in order.
-/
namespace TradingPipeline.Receiver
open Lib Mold Relation

/-- No pending packet is next. -/
def Settled (s : State) : Prop :=
  ∀ i < reorderMax, s.pending i → s.gapExpectedSeq < (s.reorderPool i).startSeq

/-- A packet that starts at `seq` was dealt with, or it waits in a slot. -/
def Known (s : State) (seq : ℕ) : Prop :=
  seq < s.gapExpectedSeq ∨ ∃ i < reorderMax, s.pending i ∧ (s.reorderPool i).startSeq = seq

/-- As long as no allocation failed, nothing was skipped or forgotten. -/
structure Tracked (s : State) : Prop where
  log : s.allocFailures = 0 → ∀ seg ∈ s.log, seg.packet?.isSome
  known : s.allocFailures = 0 → ∀ p ∈ s.delivered, Accepted p → Known s (sequenceNumber p)

section Known
variable {s t u : State} {seq : ℕ}

theorem Known.gapSessionSet (h : Known s seq) (hs : Inv s) : s.gapSessionSet = true := by
  by_contra hne
  have hunset := Bool.eq_false_iff.mpr hne
  rcases h with hlt | ⟨i, hi, hp, _⟩
  · rw [(hs.sequenced.unset hunset).2.2] at hlt
    exact Nat.not_lt_zero _ hlt
  · exact (pending_iff.mp hp).1 (hs.pool.unset hunset i hi)

theorem Known.grow (h : Known s seq)
    (hpool : ∀ i < reorderMax, s.pending i → t.reorderPool i = s.reorderPool i)
    (he : s.gapExpectedSeq ≤ t.gapExpectedSeq) : Known t seq := by
  rcases h with hlt | ⟨i, hi, hp, hseq⟩
  · exact .inl (lt_of_lt_of_le hlt he)
  · have heq := hpool i hi hp
    by_cases hlt : seq < t.gapExpectedSeq
    · exact .inl hlt
    · refine .inr ⟨i, hi, pending_iff.mpr ?_, by rw [heq]; exact hseq⟩
      rw [heq, hseq]
      exact ⟨(pending_iff.mp hp).1, Nat.le_of_not_lt hlt⟩

theorem Moves.pending_kept (h : Moves s t) (hs : Inv s) (had : Admissible s) {k : ℕ}
    (hp : s.pending k) : t.reorderPool k = s.reorderPool k := by
  cases h with
  | opened => rw [opened_reorderPool]
  | consume =>
    obtain ⟨r, d, he⟩ := consumeOne_frame s
    rw [he]
  | @fillSlot i payload now t hi hu ha hd _ _ _ ht =>
    rw [fillSlot_of_fits (had payload hd ha).1] at ht
    cases ht
    have hki : k ≠ i := by
      rintro rfl
      exact (pending_iff.mp hp).1 hu
    exact Function.update_of_ne hki _ _
  | unfillSlot _ _ hf =>
    rw [hs.ringFull] at hf
    exact absurd hf (lt_irrefl 0)
  | @passSlot ref hne href hf =>
    have hhead : s.parserEngine.entry s.recycleRead ∈ s.entries := by
      rw [passEntry_entries hs.cursors hne]
      exact List.mem_cons_self
    rcases hs.owned.entry_cases hhead href with ⟨i, hslot, _, hidx⟩ | ⟨_, _, h0, _⟩
    · rw [hslot] at hhead
      rw [hidx]
      exact Function.update_of_ne (hs.owned.slot_ne (.inr hp) hhead).symm _ _
    · exact absurd h0 hf
  | _ => rfl

theorem Moves.known (h : Moves s t) (hs : Inv s) (had : Admissible s) (hk : Known s seq) :
    Known t seq :=
  hk.grow (fun _ _ hp => h.pending_kept hs had hp)
    (h.forward hs.pool had (hk.gapSessionSet hs)).2.2

theorem moves_known (h : ReflTransGen Moves s t) (hs : Inv s) (had : Admissible t)
    (hk : Known s seq) : Known t seq := by
  induction h with
  | refl => exact hk
  | tail hpre hm ih =>
    have hadu := had.before hm.delivered_subset
    exact hm.known (moves_inv hpre hs hadu) hadu (ih hadu)

theorem Moves.allocFailures_le (h : Moves s t) : s.allocFailures ≤ t.allocFailures := by
  cases h with
  | opened =>
    obtain ⟨_, _, he⟩ := opened_frame s _
    rw [he]
  | consume =>
    obtain ⟨r, d, he⟩ := consumeOne_frame s
    rw [he]
  | noteAllocFailure => exact Nat.le_succ _
  | fillSlot _ _ _ _ _ _ _ ht =>
    obtain ⟨pool, rfl, _⟩ := fillSlot_frame ht
    exact le_rfl
  | _ => exact le_rfl

theorem moves_allocFailures (h : ReflTransGen Moves s t) : s.allocFailures ≤ t.allocFailures := by
  induction h with
  | refl => exact le_rfl
  | tail _ hm ih => exact le_trans ih hm.allocFailures_le

/-- Only a skip-ahead skips, and it comes after a failed allocation. -/
theorem Moves.unskipped (h : Moves s t) (hlog : ∀ seg ∈ s.log, seg.packet?.isSome)
    (hf : s.allocFailures = 0) : ∀ seg ∈ t.log, seg.packet?.isSome := by
  have hpush : ∀ packet, ∀ seg ∈ s.log ++ [Segment.published packet], seg.packet?.isSome := by
    intro packet seg hseg
    rcases List.mem_append.mp hseg with hseg | hseg
    · exact hlog seg hseg
    · rw [List.mem_singleton.mp hseg]
      rfl
  cases h with
  | opened =>
    obtain ⟨_, _, he⟩ := opened_frame s _
    rw [he]
    exact hlog
  | consume =>
    obtain ⟨r, d, he⟩ := consumeOne_frame s
    rw [he]
    exact hlog
  | publishFrame => exact hpush _
  | publishSlot => exact hpush _
  | fillSlot _ _ _ _ _ _ _ ht =>
    obtain ⟨pool, rfl, _⟩ := fillSlot_frame ht
    exact hlog
  | skipTo _ _ _ hpos =>
    rw [hf] at hpos
    exact absurd hpos (lt_irrefl 0)
  | _ => exact hlog

theorem moves_unskipped (h : ReflTransGen Moves s t) (hlog : ∀ seg ∈ s.log, seg.packet?.isSome)
    (hf : t.allocFailures = 0) : ∀ seg ∈ t.log, seg.packet?.isSome := by
  induction h with
  | refl => exact hlog
  | tail _ hm ih =>
    have hzero := Nat.eq_zero_of_le_zero (hf ▸ hm.allocFailures_le)
    exact hm.unskipped (ih hzero) hzero

end Known

section Settled
variable {s t : State} {payload : List UInt8} {addr now ret : ℕ} {base : Option ℕ}

theorem settled_of_reorderFind (h : s.reorderFind s.gapExpectedSeq = none) : Settled s := by
  intro i hi hp
  have hne := reorderFind_none h i hi hp
  have hle := (pending_iff.mp hp).2
  omega

theorem Drains.settled (h : Drains s t) (hr : t.ringFull = 0) : Settled t := by
  induction h with
  | stop h => exact settled_of_reorderFind h
  | full => exact absurd hr (Nat.succ_ne_zero _)
  | publish _ _ _ ih => exact ih hr

theorem Settled.opened (h : Settled s) (hs : PoolInv s) : Settled (s.opened payload) := by
  intro i hi hp
  by_cases hset : s.gapSessionSet = true
  · unfold State.opened State.openSession at hp ⊢
    rw [if_pos (show (s.logDelivery payload).gapSessionSet = true from hset)] at hp ⊢
    exact h i hi hp
  · have hu := (pending_iff.mp hp).1
    rw [opened_reorderPool] at hu
    exact absurd (hs.unset (Bool.eq_false_iff.mpr hset) i hi) hu

theorem Handles.settled (h : Handles s payload addr now base t ret) (hs : PoolInv s)
    (had : Admissible t) (hset : Settled s) (hr : t.ringFull = 0) : Settled t := by
  have hopen : Settled (s.opened payload) := hset.opened hs
  have hdel := h.delivered
  cases h with
  | ignored => exact hset
  | late => exact hopen
  | frameFull => exact absurd hr (Nat.succ_ne_zero _)
  | framePublished _ _ _ _ _ _ hd => exact hd.settled hr
  | duplicate => exact hopen
  | copyNoSlot => exact hopen
  | copyFull => exact absurd hr (Nat.succ_ne_zero _)
  | copyPublished _ _ _ _ _ _ _ hd => exact hd.settled hr
  | futureNoSlot _ _ _ _ hk =>
    cases hk with
    | dropped => exact hopen
    | ahead _ _ hd => exact hd.settled hr
  | @futureBuffered i v ha hlt _ _ hv =>
    have hfit := (had payload (by rw [hdel]; simp) ha).1
    rw [fillSlot_of_fits hfit] at hv
    cases hv
    intro k hk hp
    rw [pending_iff] at hp
    simp only [sendRetransmitRequest_reorderPool, sendRetransmitRequest_gapExpectedSeq] at hp ⊢
    by_cases hki : k = i
    · subst hki
      simpa [State.setSlot, buildReorderRef, copiedSlot] using hlt
    · simp only [State.setSlot, Function.update_of_ne hki] at hp ⊢
      exact hopen k hk (pending_iff.mpr hp)

theorem Undelivered.settled (h : Undelivered s t) (hset : Settled s) : Settled t := by
  intro i hi hp
  obtain ⟨hu, hle⟩ := pending_iff.mp hp
  have hpool := h.pool i hu
  rw [hpool, h.gapExpectedSeq] at hle ⊢
  rw [hpool] at hu
  exact hset i hi (pending_iff.mpr ⟨hu, hle⟩)

theorem Step.settled {a : Action} (h : Step s a t) (hs : Inv s) (hh : s.held = [])
    (had : Admissible t) (hset : Settled s) : Settled t := by
  have hring := (h.inv hs hh had).1.ringFull
  rcases h.calls with ⟨_, _, hpaths, ht⟩ | hu
  · have hpool : ∀ burst held pace, PoolInv (s.atHand burst held pace) :=
      fun _ _ _ => { hs.pool with }
    rcases ht with rfl | rfl
    · exact hpaths.settled (hpool _ _ _) had hset hring
    · exact hpaths.settled (hpool _ _ _) had hset hring
  · exact hu.settled hset

end Settled

section Tracked
variable {s t : State} {payload : List UInt8} {addr now ret : ℕ} {base : Option ℕ}

theorem lt_advance {n : ℕ} (ha : Accepted payload) (hfit : Fits payload)
    (hseq : sequenceNumber payload = n) :
    sequenceNumber payload < (n + messageCount payload) % 2 ^ 64 := by
  have hlt := hfit.2
  have hpos := ha.lt_end
  rw [endSequence] at hlt hpos
  rw [← hseq, Nat.mod_eq_of_lt hlt]
  exact hpos

/-- A packet that was handled without a failed allocation is known. -/
theorem Handles.known (h : Handles s payload addr now base t ret) (hs : Inv s)
    (hframe : FrameHolds s payload addr base) (had : Admissible t) (ha : Accepted payload)
    (hf : t.allocFailures = 0) (hring : t.ringFull = 0) : Known t (sequenceNumber payload) := by
  have hfit : Fits payload := had payload (by rw [h.delivered]; simp) ha
  cases h with
  | ignored hna => exact absurd ha hna
  | late _ hlt => exact .inl hlt
  | frameFull => exact absurd hring (Nat.succ_ne_zero _)
  | @framePublished off u t _ hseq hm hb hu hr hd =>
    have hmoves := framePublished_moves hframe ha hseq hm hb hu hr
    refine moves_known hd.moves (moves_inv hmoves hs (had.before (moves_delivered hd.moves))) had ?_
    have hexp : u.gapExpectedSeq = sequenceNumber payload := by
      rw [hu, yield_gapExpectedSeq, hseq]
      rfl
    exact .inl (lt_advance ha hfit hexp.symm)
  | duplicate _ _ hfind =>
    obtain ⟨hi, hp, hseq⟩ := reorderFind_some hfind
    exact .inr ⟨_, hi, hp, hseq⟩
  | copyNoSlot => exact absurd hf (Nat.succ_ne_zero _)
  | copyFull => exact absurd hring (Nat.succ_ne_zero _)
  | @copyPublished i v t _ hseq _ hn hslot hv hr hd =>
    have hmoves := copyPublished_moves ha hseq hn hslot hv hr
    refine moves_known hd.moves (moves_inv hmoves hs (had.before (moves_delivered hd.moves))) had ?_
    have hexp : v.yield.gapExpectedSeq = sequenceNumber payload := by
      rw [yield_gapExpectedSeq, (fillSlot_pending hv (Nat.le_of_eq hseq.symm)).2.2.2, hseq]
    exact .inl (lt_advance ha hfit hexp.symm)
  | futureNoSlot _ _ _ _ hk =>
    cases hk with
    | dropped => exact absurd hf (Nat.succ_ne_zero _)
    | ahead _ _ hd =>
      have hle := moves_allocFailures hd.moves
      rw [hf] at hle
      exact absurd hle (Nat.not_succ_le_zero _)
  | @futureBuffered i v _ hlt hn hslot hv =>
    obtain ⟨hi, _⟩ := reorderAllocSlot_some hslot
    obtain ⟨hp, hstart, _, _⟩ := fillSlot_pending hv (Nat.le_of_lt hlt)
    refine .inr ⟨i, hi, ?_, ?_⟩
    · simpa [State.pending] using hp
    · simpa using hstart

theorem Step.tracked {a : Action} (h : Step s a t) (hs : Inv s) (hh : s.held = [])
    (had : Admissible t) (htr : Tracked s) : Tracked t := by
  have hmoves := (h.moves (hs.boundary hh)).1
  have hzero : t.allocFailures = 0 → s.allocFailures = 0 := fun hf =>
    Nat.eq_zero_of_le_zero (hf ▸ moves_allocFailures hmoves)
  have hold : t.allocFailures = 0 → ∀ p ∈ s.delivered, Accepted p → Known t (sequenceNumber p) :=
    fun hf p hp ha => moves_known hmoves hs had (htr.known (hzero hf) p hp ha)
  refine ⟨fun hf => moves_unskipped hmoves (htr.log (hzero hf)) hf, fun hf p hp ha => ?_⟩
  have hring := (h.inv hs hh had).1.ringFull
  cases h.calls with
  | inr hu =>
    rw [hu.delivered] at hp
    exact hold hf p hp ha
  | inl hc =>
    cases hc with
    | @call burst held pace payload addr now base ret v hsetup hframe hpaths ht =>
      have hcall : Inv (s.atHand burst held pace) :=
        moves_inv (hsetup hh) hs (had.before h.delivered_subset)
      have hdel : t.delivered = s.delivered ++ [payload] := by
        rcases ht with rfl | rfl <;> exact hpaths.delivered
      rw [hdel] at hp
      rcases List.mem_append.mp hp with hp | hp
      · exact hold hf p hp ha
      · rw [List.mem_singleton.mp hp] at ha ⊢
        rcases ht with rfl | rfl <;> exact hpaths.known hcall hframe had ha hf hring

/-- Over every run on packets that fit, nothing that waits is next, and nothing is
forgotten while slots last. -/
theorem runs_tracked {fd : ℤ} {as : List Action} (hr : Runs Step (init fd) as s)
    (had : Admissible s) : Settled s ∧ Tracked s := by
  induction hr with
  | nil =>
    refine ⟨fun i _ hp => absurd rfl (pending_iff.mp hp).1, fun _ seg hseg => ?_, fun _ p hp => ?_⟩
    · exact absurd hseg List.not_mem_nil
    · exact absurd hp List.not_mem_nil
  | snoc hpre hstep ih =>
    have had' := had.before hstep.delivered_subset
    obtain ⟨hs, hh⟩ := runs_inv hpre had'
    obtain ⟨hset, htr⟩ := ih had'
    exact ⟨hstep.settled hs hh had hset, hstep.tracked hs hh had htr⟩

end Tracked

/-- The deliveries of a run were those of the stretch `ps`, its first packet first, each at
least once, and no slot allocation failed. Payloads without messages may come in between. -/
structure Delivers (ps : List (List UInt8)) (s : State) : Prop where
  first : firstAccepted s.delivered = ps.head?
  only : ∀ p ∈ s.delivered, Accepted p → p ∈ ps
  all : ∀ p ∈ ps, p ∈ s.delivered
  slots : s.allocFailures = 0

section Complete
variable {s : State} {ps : List (List UInt8)} {first : List UInt8} {last : ℕ}

theorem published_tiles {a b : ℕ} {log : List Segment}
    (h : Tiles Segment.lo Segment.hi a log b) (hlog : ∀ seg ∈ log, seg.packet?.isSome) :
    Tiles sequenceNumber endSequence a (log.filterMap Segment.packet?) b := by
  induction log generalizing a with
  | nil => exact h
  | cons seg log ih =>
    cases seg with
    | skipped start stop => exact absurd (hlog _ List.mem_cons_self) (by simp [Segment.packet?])
    | published p =>
      exact ⟨h.1, h.2.1, ih h.2.2 (fun seg hseg => hlog seg (List.mem_cons_of_mem _ hseg))⟩

/-- What was published of a stretch is its first part, and the rest starts at the expected
sequence number. -/
theorem published_split (hs : Inv s) (htr : Tracked s) (hd : Delivers (first :: ps) s)
    (htiles : Tiles sequenceNumber endSequence (sequenceNumber first) (first :: ps) last) :
    ∃ rest, first :: ps = s.published ++ rest ∧
      Tiles sequenceNumber endSequence s.gapExpectedSeq rest last := by
  have hfirst : firstAccepted s.delivered = some first := hd.first
  have hset := gapSessionSet_of_first hs hfirst
  obtain ⟨p, hp, hlog⟩ := hs.sequenced.tiles hset
  rw [hfirst] at hp
  cases hp
  refine (published_tiles hlog (htr.log hd.slots)).split_of_subset htiles ?_
  intro q hq
  obtain ⟨hdel, hacc⟩ := hs.sequenced.published q hq
  exact hd.only q hdel hacc

theorem recovered (hs : Inv s) (hset : Settled s) (htr : Tracked s)
    (hd : Delivers (first :: ps) s) (hacc : ∀ p ∈ first :: ps, Accepted p)
    (htiles : Tiles sequenceNumber endSequence (sequenceNumber first) (first :: ps) last) :
    s.gapExpectedSeq = last ∧ s.published = first :: ps ∧
      ∀ i < reorderMax, s.pending i = false := by
  obtain ⟨rest, hsplit, hrest⟩ := published_split hs htr hd htiles
  cases rest with
  | cons p rest =>
    -- the next packet of the stretch is known, but neither behind nor waiting
    have hmem : p ∈ first :: ps := by
      rw [hsplit]
      simp
    rcases htr.known hd.slots p (hd.all p hmem) (hacc p hmem) with hlt | ⟨i, hi, hp, hseq⟩
    · have := hrest.1
      omega
    · have := hset i hi hp
      have := hrest.1
      omega
  | nil =>
    have hexp : s.gapExpectedSeq = last := hrest
    refine ⟨hexp, by rw [hsplit, List.append_nil], fun i hi => ?_⟩
    by_contra hp
    rw [Bool.not_eq_false] at hp
    obtain ⟨hu, hle⟩ := pending_iff.mp hp
    obtain ⟨p, hdel, ha, hh⟩ := hs.pool.copies i hi hu
    have hbound := htiles.bounds (hd.only p hdel ha)
    rw [hh.startSeq] at hle
    omega

end Complete

/-- Whatever the order and the sources of the deliveries, a stretch of consecutive packets
is published completely and in order, so two such runs publish the same messages. -/
theorem recovery_confluent {fd : ℤ} {as : List Action} {s : State} {first : List UInt8}
    {ps : List (List UInt8)} {last : ℕ} (hr : Runs Step (init fd) as s)
    (hd : Delivers (first :: ps) s)
    (htiles : Tiles sequenceNumber endSequence (sequenceNumber first) (first :: ps) last)
    (hfit : ∀ p ∈ first :: ps, Accepted p ∧ Fits p) :
    (s.gapExpectedSeq = last ∧ s.published = first :: ps ∧
      ∀ i < reorderMax, s.pending i = false) ∧
    ∀ fd' as' t, Runs Step (init fd') as' t → Delivers (first :: ps) t →
      t.published.map blocks = s.published.map blocks := by
  have hone : ∀ {fd : ℤ} {as : List Action} {s : State}, Runs Step (init fd) as s →
      Delivers (first :: ps) s → s.gapExpectedSeq = last ∧ s.published = first :: ps ∧
        ∀ i < reorderMax, s.pending i = false := by
    intro fd as s hr hd
    have had : Admissible s := fun p hp ha => (hfit p (hd.only p hp ha)).2
    obtain ⟨hset, htr⟩ := runs_tracked hr had
    exact recovered (runs_inv hr had).1 hset htr hd (fun p hp => (hfit p hp).1) htiles
  refine ⟨hone hr hd, fun fd' as' t hr' hd' => ?_⟩
  rw [(hone hr hd).2.1, (hone hr' hd').2.1]

/-- The sample run delivers three packets, the second one last. -/
theorem recovery_confluent_gapFilledRun : ∃ s, Runs Step (init 3) gapFilledRun s ∧
    s.gapExpectedSeq = 5 ∧
    s.published = [samplePacket 1 1 2 1, samplePacket 2 1 2 2, samplePacket 3 2 4 3] := by
  have hrun : (gapFilledRun.foldlM State.act (init 3)).map
      (fun s => (s.delivered, s.allocFailures)) =
      some ([samplePacket 1 1 2 1, samplePacket 3 2 4 3, samplePacket 2 1 2 2], 0) := by
    decide +kernel
  obtain ⟨s, hs, hobs⟩ := Option.map_eq_some_iff.mp hrun
  rw [Prod.mk.injEq] at hobs
  have hr : Runs Step (init 3) gapFilledRun s := Runs.of_foldlM hs
  have hd : Delivers [samplePacket 1 1 2 1, samplePacket 2 1 2 2, samplePacket 3 2 4 3] s := by
    refine ⟨?_, ?_, ?_, hobs.2⟩ <;> rw [hobs.1] <;> decide +kernel
  have htiles : Tiles sequenceNumber endSequence (sequenceNumber (samplePacket 1 1 2 1))
      [samplePacket 1 1 2 1, samplePacket 2 1 2 2, samplePacket 3 2 4 3] 5 := by
    simp only [Tiles]
    decide +kernel
  have hall := recovery_confluent hr hd htiles (by simp only [Fits]; decide +kernel)
  exact ⟨s, hr, hall.1.1, hall.1.2.1⟩

/-- Three consecutive packets, the second one of 1600 bytes and last: its copy overwrites
the slot in which the third waits, which is then never published. -/
theorem oversized_reply_loses : ∃ as s, Runs Step (init 3) as s ∧
    Delivers [samplePacket 1 1 2 1, samplePacket 2 1 1580 0, samplePacket 3 1 2 2] s ∧
    s.ringFull = 0 ∧ s.gapExpectedSeq = 3 ∧ s.published.length = 2 := by
  have hrun : ([.reply (samplePacket 1 1 2 1) 1 [], .reply (samplePacket 3 1 2 2) 1 [], .dispatch,
      .recycle [], .reply (samplePacket 2 1 1580 0) 1 []].foldlM State.act (init 3)).map
      (fun s => (s.delivered, s.allocFailures, s.ringFull, s.gapExpectedSeq, s.published.length)) =
      some ([samplePacket 1 1 2 1, samplePacket 3 1 2 2, samplePacket 2 1 1580 0], 0, 0, 3, 2) := by
    decide +kernel
  obtain ⟨s, hs, hobs⟩ := Option.map_eq_some_iff.mp hrun
  simp only [Prod.mk.injEq] at hobs
  obtain ⟨hdel, halloc, hrest⟩ := hobs
  refine ⟨_, s, Runs.of_foldlM hs, ⟨?_, ?_, ?_, halloc⟩, hrest⟩ <;> rw [hdel] <;> decide +kernel

end TradingPipeline.Receiver
