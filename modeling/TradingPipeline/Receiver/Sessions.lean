import TradingPipeline.Receiver.Sequencing
import TradingPipeline.Server.Rewinder

/-! # Sessions

The receiver takes the session from the first accepted packet and names it in its
requests. No path compares it with the session of a packet, and the rewinder does not read
the session of a request: both go by sequence numbers alone.
-/
namespace TradingPipeline.Receiver
open Lib Mold Relation

/-- What the receiver records about the session. -/
structure SessionNamed (s : State) : Prop where
  unset : s.gapSessionSet = false → (∀ p ∈ s.delivered, ¬Accepted p) ∧ s.requests = []
  first : s.gapSessionSet = true →
    ∃ p, firstAccepted s.delivered = some p ∧ s.gapSession = session p
  requests : ∀ r ∈ s.requests, r.session = s.gapSession

section Runs
variable {s t : State}

theorem SessionNamed.opened (h : SessionNamed s) {payload : List UInt8} (ha : Accepted payload) :
    SessionNamed (s.opened payload) := by
  by_cases hset : s.gapSessionSet = true
  · have hopen : s.opened payload = s.logDelivery payload := if_pos hset
    obtain ⟨p, hp, hsess⟩ := h.first hset
    rw [hopen]
    refine ⟨fun hunset => ?_, fun _ => ⟨p, firstAccepted_append hp, hsess⟩, h.requests⟩
    have hunset' : s.gapSessionSet = false := hunset
    rw [hset] at hunset'
    cases hunset'
  · obtain ⟨hnone, hreq⟩ := h.unset (Bool.eq_false_iff.mpr hset)
    have hopen : s.opened payload = { s.logDelivery payload with
        gapSession := session payload
        gapSessionSet := true
        gapExpectedSeq := sequenceNumber payload } := if_neg hset
    rw [hopen]
    refine ⟨fun hunset => Bool.noConfusion hunset, fun _ => ?_, ?_⟩
    · exact ⟨payload, firstAccepted_first hnone ha, rfl⟩
    · intro r hr
      have hr' : r ∈ s.requests := hr
      rw [hreq] at hr'
      cases hr'

theorem Moves.sessionNamed (hm : Moves s t) (h : SessionNamed s) : SessionNamed t := by
  cases hm with
  | opened ha => exact h.opened ha
  | @ignored payload hn =>
    refine ⟨fun hunset => ?_, fun hset => ?_, h.requests⟩
    · obtain ⟨hnone, hreq⟩ := h.unset hunset
      refine ⟨fun p hp => ?_, hreq⟩
      rcases List.mem_append.mp hp with hp | hp
      · exact hnone p hp
      · rwa [List.mem_singleton.mp hp]
    · obtain ⟨p, hp, hsess⟩ := h.first hset
      exact ⟨p, firstAccepted_append hp, hsess⟩
  | consume =>
    obtain ⟨r, d, he⟩ := consumeOne_frame s
    rw [he]
    exact { h with }
  | fillSlot _ _ _ _ _ _ _ ht =>
    obtain ⟨pool, rfl, _⟩ := fillSlot_frame ht
    exact { h with }
  | sendRequest hset =>
    refine ⟨fun hunset => ?_, h.first, fun r hr => ?_⟩
    · have hunset' : s.gapSessionSet = false := hunset
      rw [hset] at hunset'
      cases hunset'
    · rcases List.mem_append.mp hr with hr | hr
      · exact h.requests r hr
      · rw [List.mem_singleton.mp hr]
        rfl
  | _ => exact { h with }

theorem moves_sessionNamed (hm : ReflTransGen Moves s t) (h : SessionNamed s) : SessionNamed t := by
  induction hm with
  | refl => exact h
  | tail _ hm ih => exact hm.sessionNamed ih

theorem runs_sessionNamed {fd : ℤ} {as : List Action} (hr : Runs Step (init fd) as s)
    (had : Admissible s) : SessionNamed s := by
  induction hr with
  | nil =>
    refine ⟨fun _ => ⟨fun p hp => absurd hp List.not_mem_nil, rfl⟩, fun h => Bool.noConfusion h,
      fun r hr => absurd hr List.not_mem_nil⟩
  | snoc hpre hstep ih =>
    have had' := had.before hstep.delivered_subset
    obtain ⟨hs, hh⟩ := runs_inv hpre had'
    exact moves_sessionNamed (hstep.moves (hs.boundary hh)).1 (ih had')

end Runs

section Replies
open Rewinder

theorem cacheAfter_slot (calls : List Sent) (i : ℕ) :
    ((cacheAfter calls).slots i).startSeq = 0 ∨ ((cacheAfter calls).slots i).sent ∈ calls := by
  induction calls using List.reverseRecOn with
  | nil => exact .inl rfl
  | append_singleton calls p ih =>
    have hold : ((cacheAfter calls).slots i).startSeq = 0 ∨
        ((cacheAfter calls).slots i).sent ∈ calls ++ [p] :=
      ih.imp_right (List.mem_append_left _)
    rw [cacheAfter, List.foldl_append, List.foldl_cons, List.foldl_nil, ← cacheAfter,
      Cache.cachePacket]
    split
    · exact hold
    · by_cases hi : i = (cacheAfter calls).writeCursor &&& rewinderCacheMask
      · refine .inr ?_
        simp only [hi, Function.update_self, overwrite_sent, List.mem_append, List.mem_singleton,
          or_true]
      · simp only [Function.update_of_ne hi]
        exact hold

theorem findPacket_sent {calls : List Sent} {seq : ℕ} {slot : CachedPacket}
    (h : (cacheAfter calls).findPacket seq = some slot) : slot.sent ∈ calls := by
  have hhit : slot.hit seq = true := @List.find?_some _ (fun x : CachedPacket => x.hit seq) slot _ h
  obtain ⟨i, _, rfl⟩ := List.mem_map.mp (List.mem_of_find?_eq_some h)
  refine (cacheAfter_slot calls _).resolve_left ?_
  exact (of_decide_eq_true hhit).1

theorem replay_sent (calls : List Sent) (n seq cnt : ℕ) :
    ∀ slot ∈ (cacheAfter calls).replay n seq cnt, slot.sent ∈ calls := by
  induction n generalizing seq cnt with
  | zero => exact fun slot hslot => absurd hslot List.not_mem_nil
  | succ n ih =>
    intro slot hslot
    rw [Cache.replay] at hslot
    split at hslot
    · cases hslot
    · split at hslot
      · cases hslot
      · rename_i p hfind
        have hp := findPacket_sent hfind
        simp only [] at hslot
        split at hslot
        · rwa [List.mem_singleton.mp hslot]
        · rcases List.mem_cons.mp hslot with rfl | hslot
          · exact hp
          · exact ih _ _ slot hslot

theorem handleRequest_sent (calls : List Sent) (request : List UInt8) :
    ∀ reply ∈ (cacheAfter calls).handleRequest request, ∃ p ∈ calls, p.packet = reply := by
  intro reply hreply
  rw [Cache.handleRequest] at hreply
  split at hreply
  · cases hreply
  · obtain ⟨slot, hslot, rfl⟩ := List.mem_map.mp hreply
    exact ⟨slot.sent, replay_sent calls _ _ _ slot hslot, rfl⟩

theorem handleRequest_congr (c : Cache) {request request' : List UInt8}
    (hlen : headerSize ≤ request.length) (hlen' : headerSize ≤ request'.length)
    (hseq : sequenceNumber request = sequenceNumber request')
    (hcnt : messageCount request = messageCount request') :
    c.handleRequest request = c.handleRequest request' := by
  have hfields : ∀ r : List UInt8, sequenceNumber (r.take headerSize) = sequenceNumber r ∧
      messageCount (r.take headerSize) = messageCount r := fun r => by
    simp only [sequenceNumber, messageCount, decode_take, and_self]
  have hreq : (request.take headerSize).length = headerSize := List.length_take_of_le hlen
  have hreq' : (request'.take headerSize).length = headerSize := List.length_take_of_le hlen'
  rw [Cache.handleRequest, Cache.handleRequest, if_neg (not_not.mpr hreq),
    if_neg (not_not.mpr hreq'), (hfields request).1, (hfields request).2, (hfields request').1,
    (hfields request').2, hseq, hcnt]

/-- Packets are sequenced by number, whatever their sessions. The session of the first
accepted packet is kept and named in every request, and a run over packets of one session
publishes packets of that session. The rewinder replies with cached packets, chosen by
number. -/
theorem sessions_by_number {fd : ℤ} {as : List Action} {s : State}
    (hr : Runs Step (init fd) as s) (had : Admissible s) :
    (∀ first, firstAccepted s.delivered = some first → s.gapSession = session first) ∧
    (∀ r ∈ s.requests, r.session = s.gapSession) ∧
    (∀ a t, Step s a t → Admissible t → s.gapSessionSet = true → t.gapSession = s.gapSession) ∧
    InSequence s ∧
    (∀ id, (∀ p ∈ s.delivered, Accepted p → session p = id) → ∀ p ∈ s.published, session p = id) ∧
    ∀ calls request,
      (∀ reply ∈ (cacheAfter calls).handleRequest request, ∃ p ∈ calls, p.packet = reply) ∧
      ∀ request', headerSize ≤ request.length → headerSize ≤ request'.length →
        sequenceNumber request = sequenceNumber request' →
        messageCount request = messageCount request' →
        (cacheAfter calls).handleRequest request = (cacheAfter calls).handleRequest request' := by
  obtain ⟨hs, hh⟩ := runs_inv hr had
  have hnamed := runs_sessionNamed hr had
  refine ⟨?_, hnamed.requests, fun a t h hadt hset => ((h.forward hs hh hadt).1 hset).2.1,
    hs.inSequence, ?_, ?_⟩
  · intro first hfirst
    by_cases hset : s.gapSessionSet = true
    · obtain ⟨p, hp, hsess⟩ := hnamed.first hset
      rw [hfirst] at hp
      cases hp
      exact hsess
    · have hnone := (hnamed.unset (Bool.eq_false_iff.mpr hset)).1
      have haccepted :=
        of_decide_eq_true (@List.find?_some _ (fun p => decide (Accepted p)) _ _ hfirst)
      exact absurd haccepted (hnone first (List.mem_of_find?_eq_some hfirst))
  · intro id hid p hp
    obtain ⟨hd, ha⟩ := hs.sequenced.published p hp
    exact hid p hd ha
  · intro calls request
    exact ⟨handleRequest_sent calls request,
      fun request' hlen hlen' hseq hcnt => handleRequest_congr _ hlen hlen' hseq hcnt⟩

/-- The packets behind the first one are of another session, and the second one comes last. -/
def otherSessionPacket (seq : ℕ) : List UInt8 :=
  (MoldUdp64Header.mk (List.replicate 10 8) seq 1).encode ++ [9, 9]

def twoSessionRun : List Action :=
  [.reply (samplePacket 1 1 2 1) 6000000 [], .reply (otherSessionPacket 3) 6000000 [],
    .reply (otherSessionPacket 2) 6000000 []]

theorem twoSessionRun_end : ∃ s ∈ twoSessionRun.foldlM State.act (init 3),
    s.delivered = [samplePacket 1 1 2 1, otherSessionPacket 3, otherSessionPacket 2] ∧
      s.requests = [⟨List.replicate 10 7, 2, 1⟩] ∧
      s.published.map session =
        [List.replicate 10 7, List.replicate 10 8, List.replicate 10 8] := by
  decide +kernel

theorem twoSessionRun_fits :
    ∀ p ∈ [samplePacket 1 1 2 1, otherSessionPacket 3, otherSessionPacket 2],
      Accepted p → Fits p := by
  simp only [Fits]
  decide +kernel

/-- The gap is asked for in the name of the first session, and filled by the other one. Requests in
the name of either are answered alike. -/
theorem sessions_by_number_twoSessionRun : ∃ s, Runs Step (init 3) twoSessionRun s ∧
    Admissible s ∧ s.gapSession = List.replicate 10 7 ∧
    s.requests = [⟨List.replicate 10 7, 2, 1⟩] ∧ (∀ r ∈ s.requests, r.session = s.gapSession) ∧
    s.published.map session = [List.replicate 10 7, List.replicate 10 8, List.replicate 10 8] ∧
    InSequence s ∧
    (cacheAfter (sampleCalls (List.replicate 10 65))).handleRequest
        (MoldUdp64Header.mk (List.replicate 10 65) 1 1).encode =
      (cacheAfter (sampleCalls (List.replicate 10 65))).handleRequest
        (MoldUdp64Header.mk (List.replicate 10 66) 1 1).encode := by
  obtain ⟨s, hs, hdelivered, hrequests, hpublished⟩ := twoSessionRun_end
  have hr : Runs Step (init 3) twoSessionRun s := Runs.of_foldlM hs
  have had : Admissible s := by
    rw [Admissible, hdelivered]
    exact twoSessionRun_fits
  obtain ⟨hnamed, hrequested, -, hsequence, -, hreplies⟩ := sessions_by_number hr had
  have hfirst : firstAccepted s.delivered = some (samplePacket 1 1 2 1) := by
    rw [hdelivered]
    decide +kernel
  refine ⟨s, hr, had, ?_, hrequests, hrequested, hpublished, hsequence, ?_⟩
  · rw [hnamed _ hfirst]
    decide +kernel
  · exact (hreplies _ _).2 _ (by decide) (by decide) (by decide +kernel) (by decide +kernel)

/-- A packet of another session takes its place in the stream if its number is the expected
one, and a request that names another session is served from the cache. -/
theorem other_session_published :
    (∃ s, Runs Step (init 3) [.reply (samplePacket 1 1 2 1) 1 [],
        .reply (otherSessionPacket 2) 1 []] s ∧
      s.gapSession = List.replicate 10 7 ∧ s.gapExpectedSeq = 3 ∧
      s.published.map session = [List.replicate 10 7, List.replicate 10 8]) ∧
    ((cacheAfter (sampleCalls (List.replicate 10 65))).handleRequest
        (MoldUdp64Header.mk (List.replicate 10 66) 1 1).encode).map session =
      [List.replicate 10 65] := by
  refine ⟨?_, by decide +kernel⟩
  have hrun : ([.reply (samplePacket 1 1 2 1) 1 [], .reply (otherSessionPacket 2) 1 []].foldlM
        State.act (init 3)).map
      (fun s => (s.gapSession, s.gapExpectedSeq, s.published.map session)) =
      some (List.replicate 10 7, 3, [List.replicate 10 7, List.replicate 10 8]) := by
    decide +kernel
  obtain ⟨s, hs, hobs⟩ := Option.map_eq_some_iff.mp hrun
  simp only [Prod.mk.injEq] at hobs
  exact ⟨s, Runs.of_foldlM hs, hobs.1, hobs.2.1, hobs.2.2⟩

end Replies

end TradingPipeline.Receiver
