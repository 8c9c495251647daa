import TradingPipeline.Receiver.InOrder

/-! # How a gap is filled

While a gap is open the receiver asks for the first missing packet, at most once in five
milliseconds. The reply is copied into a reorder slot, so one slot has to be free for it. It is
free again once the dispatcher has read the copy and the entry is recycled.
-/
namespace TradingPipeline.Receiver
open Lib Mold Relation

/-- Some slot is free, or it will be as soon as its packet was read. -/
def Room (s : State) : Prop :=
  ∃ i < reorderMax, (s.reorderPool i).used = 0 ∨ RefPtr.slot i ∈ s.entries

section Recycling
variable {s t : State} {i : ℕ}

/-- The state after the dispatcher has read every entry. -/
def State.caughtUp (s : State) (d : List (Option (List UInt8))) : State :=
  { s with
    parserEngine := { s.parserEngine with nextRead := s.parserEngine.nextWrite }
    dispatched := d }

theorem dispatch_all (hc : Cursors s) :
    ∃ n d, Runs Step s (List.replicate n .dispatch) (s.caughtUp d) := by
  induction hlen : s.unread.length generalizing s with
  | zero =>
    have hempty : s.parserEngine.nextRead = s.parserEngine.nextWrite := by
      have hzero : wrapSub (2 ^ 32) s.parserEngine.nextWrite s.parserEngine.nextRead = 0 := by
        rw [← hlen]
        exact (between_length _ _ _).symm
      exact ((wrapSub_eq_zero hc.read_lt).mp hzero).symm
    refine ⟨0, s.dispatched, ?_⟩
    have hsame : s.caughtUp s.dispatched = s := by
      unfold State.caughtUp
      rw [← hempty]
    rw [hsame]
    exact .nil
  | succ m ih =>
    have hne : s.parserEngine.nextRead ≠ s.parserEngine.nextWrite := by
      intro heq
      have hnil : s.unread = [] := by
        rw [State.unread, heq]
        exact between_self _ _
      rw [hnil] at hlen
      cases hlen
    have hpop := congrArg List.length (consumeOne_unread hc hne)
    rw [List.length_cons, hlen] at hpop
    obtain ⟨n, d, hrest⟩ := ih (consumeOne_cursors hc hne) (Nat.succ.inj hpop).symm
    have hsame : s.consumeOne.caughtUp d = s.caughtUp d := by
      obtain ⟨r, d', he⟩ := consumeOne_frame s
      rw [he]
      rfl
    rw [hsame] at hrest
    have hfirst : Runs Step s [.dispatch] s.consumeOne := Runs.single rfl
    exact ⟨n + 1, d, hfirst.trans hrest⟩

theorem Undelivered.used_zero (h : Undelivered s t) (hu : (s.reorderPool i).used = 0) :
    (t.reorderPool i).used = 0 := by
  by_contra hne
  rw [h.pool i hne] at hne
  exact hne hu

theorem recycleLoop_frees {rooms : List ℕ} {n : ℕ} (hs : Inv s) (had : Admissible s)
    (hi : RefPtr.slot i ∈ s.entries) (hread : s.parserEngine.nextRead = s.parserEngine.nextWrite)
    (hn : n = wrapSub (2 ^ 32) s.parserEngine.nextRead s.recycleRead)
    (h : s.recycleLoop rooms n = some (t, true)) : (t.reorderPool i).used = 0 := by
  induction n generalizing s rooms with
  | zero =>
    have hlen := entries_length s
    rw [← hread, ← hn] at hlen
    rw [List.length_eq_zero_iff.mp hlen] at hi
    cases hi
  | succ n ih =>
    obtain ⟨hne, hpass⟩ := wrapSub_eq_succ hs.cursors.read_lt hs.cursors.recycle_lt hn
    have hentries := passEntry_entries hs.cursors hne.symm
    have hhead : s.parserEngine.entry s.recycleRead ∈ s.entries := by
      rw [hentries]
      exact List.mem_cons_self
    obtain ⟨ref, href, _⟩ := hs.owned.refs _ hhead
    rw [hentries, List.mem_cons] at hi
    unfold State.recycleLoop at h
    simp only [href] at h
    rcases hs.owned.entry_cases hhead href with ⟨j, hslot, hflag, hidx⟩ | ⟨addr, hframe, hflag, _⟩
    · rw [if_pos hflag] at h
      have hmove := Moves.passSlot hne.symm href hflag
      rw [hidx] at h hmove
      by_cases hij : i = j
      · -- the oldest entry is that of the slot
        subst hij
        refine (recycleLoop_undelivered h).used_zero ?_
        simp [State.freeSlot, State.setSlot]
      · have hlater : RefPtr.slot i ∈ s.passEntry.entries := by
          refine hi.resolve_left fun he => hij ?_
          rw [hslot] at he
          exact RefPtr.slot.inj he
        exact ih (hmove.inv hs had) had hlater hread hpass h
    · rw [if_neg (not_not.mpr hflag)] at h
      have hmove := Moves.passFrame hne.symm href hflag
      have hlater : RefPtr.slot i ∈ s.passEntry.entries := by
        refine hi.resolve_left fun he => ?_
        rw [hframe] at he
        cases he
      by_cases hfull : (s.passEntry.hold ref.umemAddr).held.length = rxBurstSize
      · rw [if_pos hfull] at h
        cases hrec : (s.passEntry.hold ref.umemAddr).afxdpRecycle (rooms.headD 0) with
        | mk u ok =>
          rw [hrec] at h
          cases ok with
          | false => cases h
          | true =>
            have hu := afxdpRecycle_recycles hrec
            have hadu : Admissible u := by
              rw [Admissible, hu.undelivered.delivered]
              exact had
            have hinv := moves_inv (.head hmove hu.moves) hs hadu
            have hsame : u.entries = s.passEntry.entries := by
              rw [State.entries, hu.ring, hu.cursor]
              rfl
            exact ih hinv hadu (hsame ▸ hlater) (by rw [hu.ring]; exact hread)
              (by rw [hu.ring, hu.cursor]; exact hpass) h
      · rw [if_neg hfull] at h
        exact ih (hmove.inv hs had) had hlater hread hpass h

theorem recycle_frees (hs : Inv s) (had : Admissible s) (hroom : Room s)
    (hread : s.parserEngine.nextRead = s.parserEngine.nextWrite) :
    ∃ t, Step s (.recycle []) t ∧ Undelivered s t ∧ t.stopped = s.stopped ∧
      ∃ i < reorderMax, (t.reorderPool i).used = 0 := by
  obtain ⟨⟨u, ok⟩, hu⟩ := @recycleLoop_returns s [] _ hs had rfl
  have hstep : Step s (.recycle []) { u with stopped := u.stopped || !ok } := by
    simp only [Step, State.act, State.recycleConsumedFrames, hu]
  have hkept := recycleLoop_undelivered hu
  have hok : ok = true := by
    obtain ⟨hm, _, hfailed⟩ := recycleLoop_moves hs.cursors.read_lt hs.cursors.recycle_lt rfl hu
    have hadu : Admissible u := by
      rw [Admissible, hkept.delivered]
      exact had
    by_contra hne
    have hpos := hfailed (Bool.not_eq_true _ ▸ hne)
    rw [(moves_inv hm hs hadu).freeFailures] at hpos
    exact absurd hpos (lt_irrefl 0)
  subst hok
  have hstopped := recycleLoop_stopped hu
  refine ⟨_, hstep, { hkept with }, by simpa using hstopped, ?_⟩
  obtain ⟨i, hi, hfree | hentry⟩ := hroom
  · exact ⟨i, hi, hkept.used_zero hfree⟩
  · have hfreed := recycleLoop_frees hs had hentry hread rfl hu
    exact ⟨i, hi, hfreed⟩

end Recycling

section Asking
variable {s : State} {i : ℕ}

theorem reorderCount_pos (hi : i < reorderMax) (hp : s.pending i) : 0 < s.reorderCount := by
  unfold State.reorderCount
  exact List.countP_pos_iff.mpr ⟨i, List.mem_range.mpr hi, hp⟩

theorem reorderFindMin_of_pending (hi : i < reorderMax) (hp : s.pending i) :
    ∃ j < reorderMax, s.pending j ∧ s.reorderFindMin = some j := by
  cases hmin : s.reorderFindMin with
  | some j =>
    obtain ⟨hj, hpj, _⟩ := reorderFindMin_some hmin
    exact ⟨j, hj, hpj, rfl⟩
  | none =>
    unfold State.reorderFindMin at hmin
    have hmem : i ∈ List.range reorderMax := List.mem_range.mpr hi
    generalize List.range reorderMax = slots at hmin hmem
    have hbest := @firstMin_isBest _ s.pending (fun i => (s.reorderPool i).startSeq) slots
    rw [hmin] at hbest
    exact absurd hp (hbest i hmem)

theorem nudge_requests (hset : s.gapSessionSet = true) (hfd : 0 ≤ s.gapRewinderFd)
    (hsettled : Settled s) (hi : i < reorderMax) (hp : s.pending i) :
    ∃ cnt, 0 < cnt ∧ cnt < 2 ^ 16 ∧
      s.nudgeRewinder (s.gapLastRequestNs + retransmitIntervalNs) =
        s.sendRequest ⟨s.gapSession, s.gapExpectedSeq, cnt⟩
          (s.gapLastRequestNs + retransmitIntervalNs) := by
  obtain ⟨j, hj, hpj, hmin⟩ := reorderFindMin_of_pending hi hp
  have hlt := hsettled j hj hpj
  have hcnt : 0 < requestCount ((s.reorderPool j).startSeq - s.gapExpectedSeq) ∧
      requestCount ((s.reorderPool j).startSeq - s.gapExpectedSeq) < 2 ^ 16 := by
    unfold requestCount
    split <;> omega
  have hclock : wrapSub (2 ^ 64) (s.gapLastRequestNs + retransmitIntervalNs) s.gapLastRequestNs =
      retransmitIntervalNs := by
    rw [wrapSub, if_pos (Nat.le_add_right _ _), Nat.add_sub_cancel_left]
  refine ⟨_, hcnt.1, hcnt.2, ?_⟩
  unfold State.nudgeRewinder
  rw [if_pos ⟨reorderCount_pos hi hp, hset⟩, hmin]
  simp only [if_pos hlt]
  unfold State.sendRetransmitRequest
  rw [if_neg, if_neg (Nat.ne_of_gt hcnt.1), hclock, if_neg (lt_irrefl _)]
  rintro (hneg | hunset)
  · omega
  · rw [hset] at hunset
    cases hunset

theorem Moves.gapRewinderFd {t : State} (h : Moves s t) : t.gapRewinderFd = s.gapRewinderFd := by
  cases h with
  | opened =>
    obtain ⟨_, _, he⟩ := opened_frame s _
    rw [he]
  | consume =>
    obtain ⟨r, d, he⟩ := consumeOne_frame s
    rw [he]
  | fillSlot _ _ _ _ _ _ _ ht =>
    obtain ⟨pool, rfl, _⟩ := fillSlot_frame ht
    rfl
  | _ => rfl

theorem runs_gapRewinderFd {fd : ℤ} {as : List Action} (hr : Runs Step (init fd) as s)
    (had : Admissible s) : s.gapRewinderFd = fd := by
  induction hr with
  | nil => rfl
  | @snoc as a s t hpre hstep ih =>
    have had' := had.before hstep.delivered_subset
    obtain ⟨hs, hh⟩ := runs_inv hpre had'
    have hkept : t.gapRewinderFd = s.gapRewinderFd := by
      have hmoves := (hstep.moves (hs.boundary hh)).1
      clear hstep hpre ih
      induction hmoves with
      | refl => rfl
      | tail _ hm ih => exact hm.gapRewinderFd.trans (ih (had.before hm.delivered_subset))
    exact hkept.trans (ih had')

end Asking

section Filling
variable {s t : State}

theorem Drains.keeps (h : Drains s t) :
    t.allocFailures = s.allocFailures ∧ t.stopped = s.stopped := by
  have hyield : ∀ u : State, u.yield.allocFailures = u.allocFailures ∧
      u.yield.stopped = u.stopped := by
    intro u
    obtain ⟨r, d, p, he⟩ := yield_frame u
    rw [he]
    exact ⟨rfl, rfl⟩
  induction h with
  | stop => exact ⟨rfl, rfl⟩
  | full => exact hyield _
  | publish _ _ _ ih => exact ⟨ih.1.trans (hyield _).1, ih.2.trans (hyield _).2⟩

theorem yield_entries (s : State) : s.yield.entries = s.entries := by
  obtain ⟨r, d, p, he⟩ := yield_frame s
  rw [he]
  rfl

theorem Drains.entries (h : Drains s t) (hs : Inv s) (had : Admissible s) :
    ∀ e ∈ s.entries, e ∈ t.entries := by
  induction h with
  | stop => exact fun e he => he
  | full =>
    intro e he
    rw [← yield_entries] at he
    exact he
  | @publish s i t hfind hr _ ih =>
    have hmoves := drained_moves hfind hr
    have had' : Admissible (s.drained i) := by rwa [Admissible, drained_delivered]
    have hyield : Inv s.yield := moves_inv (yield_moves s) hs (by rwa [Admissible, yield_delivered])
    have hpush : (s.drained i).entries = s.entries ++ [.slot i] := by
      rw [← yield_entries s]
      exact push_entries hyield.cursors hyield.owned.room (.slot i) (s.slotPayload i)
    intro e he
    refine ih (moves_inv hmoves hs had') had' e ?_
    rw [hpush]
    exact List.mem_append_left _ he

theorem slotPublished_effect {payload : List UInt8} {now i : ℕ} {v : State} (hs : Inv s)
    (hset : s.gapSessionSet = true) (ha : Accepted payload) (hfit : Fits payload)
    (hseq : sequenceNumber payload = s.gapExpectedSeq)
    (hnone : (s.opened payload).reorderFind (sequenceNumber payload) = none)
    (hslot : (s.opened payload).reorderAllocSlot = some i)
    (hv : (s.opened payload).fillSlot i payload now = some v) (had : Admissible v) :
    s.gapExpectedSeq <
      ((v.yield.push (.slot i) (v.slotPayload i)).advance (messageCount payload)).gapExpectedSeq ∧
    v.yield.gapSessionSet = true ∧
    v.yield.allocFailures = s.allocFailures ∧ v.yield.stopped = s.stopped ∧
    .slot i ∈ (v.yield.push (.slot i) (v.slotPayload i)).entries := by
  have hopen := @opened_of_set s payload hset
  have hle : (s.opened payload).gapExpectedSeq ≤ sequenceNumber payload := by
    rw [hopen]
    exact Nat.le_of_eq hseq.symm
  have hyield : Inv v.yield := by
    refine moves_inv ((fillSlot_moves ha hle hnone hslot hv).trans (yield_moves v)) hs ?_
    rwa [Admissible, yield_delivered]
  obtain ⟨r, d, p, hy⟩ := yield_frame v
  obtain ⟨pool, hfilled, _⟩ := fillSlot_frame hv
  have hkept : v.yield.gapExpectedSeq = s.gapExpectedSeq ∧ v.yield.gapSessionSet = true ∧
      v.yield.allocFailures = s.allocFailures ∧ v.yield.stopped = s.stopped := by
    rw [hy, hfilled, hopen]
    exact ⟨rfl, hset, rfl, rfl⟩
  refine ⟨?_, hkept.2.1, hkept.2.2.1, hkept.2.2.2, ?_⟩
  · have hlt := lt_advance ha hfit (hseq.trans hkept.1.symm)
    rw [hseq] at hlt
    exact hlt
  · rw [push_entries hyield.cursors hyield.owned.room]
    exact List.mem_append_right _ List.mem_cons_self

/-- The reply with the packet that is next is published if a slot is free, and there is room
for another one afterwards. -/
theorem reply_fills (hs : Inv s) (hh : s.held = []) (had : Admissible s) (hst : Settled s)
    (hset : s.gapSessionSet = true) (hfd : 0 ≤ s.gapRewinderFd)
    (hfree : ∃ i < reorderMax, (s.reorderPool i).used = 0) {payload : List UInt8}
    (ha : Accepted payload) (hfit : Fits payload)
    (hseq : sequenceNumber payload = s.gapExpectedSeq) (now : ℕ) :
    ∃ t, Step s (.reply payload now []) t ∧ s.gapExpectedSeq < t.gapExpectedSeq ∧
      t.allocFailures = s.allocFailures ∧ t.stopped = s.stopped ∧ Room t ∧
      t.delivered = s.delivered ++ [payload] := by
  have hlen : 0 < payload.length ∧ payload.length ≤ rewinderBufferSize := by
    have hlo := ha.1
    have hhi := hfit.1
    simp only [headerSize, slotBytes, rewinderBufferSize] at hlo hhi ⊢
    omega
  obtain ⟨t, hstep⟩ := reply_returns hs had hfd hlen (fun _ => hfit) now []
  have hact := hstep
  simp only [Step, State.act, if_pos (And.intro hfd hlen)] at hact
  obtain ⟨⟨t, ret⟩, hhandle, rfl⟩ := Option.map_eq_some_iff.mp hact
  have hpath := handlePayload_handles hhandle
  have hdel := hpath.delivered
  have hadt : Admissible t := by
    rw [Admissible, hdel]
    exact had.deliver fun _ => hfit
  have hset' : ({ s with pace := [] } : State).gapSessionSet = true := hset
  have hpace : Inv { s with pace := [] } := Moves.setPace.inv hs had
  have hnone := reorderFind_inOrder hpace hst hset' hseq
  have hring := (hstep.inv hs hh hadt).1.ringFull
  obtain ⟨rfl, ⟨hslot, -⟩ | ⟨i, v, hslot, hv, hr, hd⟩⟩ :=
    inOrder_reply_cases hpace hst hset' ha hseq hpath hring
  · obtain ⟨i, hi, hu⟩ := hfree
    have hused := reorderAllocSlot_none hslot i hi
    rw [opened_reorderPool] at hused
    exact absurd hu hused
  have hmoves := copyPublished_moves ha (opened_gapExpectedSeq hset' hseq).symm hnone hslot hv hr
  have hadmid : Admissible
      ((v.yield.push (.slot i) (v.slotPayload i)).advance (messageCount payload)) := by
    rw [Admissible, ← hd.delivered]
    exact hadt
  have hadv : Admissible v := by
    rw [Admissible, ← yield_delivered]
    exact hadmid
  obtain ⟨hexp, hmidset, hfailures, hstopped, hentry⟩ :=
    slotPublished_effect hpace hset' ha hfit hseq hnone hslot hv hadv
  have hinv := moves_inv hmoves hpace hadmid
  have hforward := (moves_forward hd.moves hinv hadt).1 hmidset
  exact ⟨t, hstep, lt_of_lt_of_le hexp hforward.2.2, hd.keeps.1.trans hfailures,
    hd.keeps.2.trans hstopped,
    ⟨i, (reorderAllocSlot_some hslot).1, .inr (hd.entries hinv hadmid _ hentry)⟩, hdel⟩

end Filling

end TradingPipeline.Receiver
