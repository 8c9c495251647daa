import TradingPipeline.Mold.Packets
import TradingPipeline.Receiver.Sequencing

/-! # The end of a session

The receiver stops at the first end-of-session packet that it takes from a burst, wherever it is
in the recovery of a gap. `gap_dropped_packets` counts a range that was skipped by its length and
a packet that was refused by one, whatever it holds, and nothing is added for what is missing at
the end.
-/
namespace TradingPipeline.Receiver
open Lib Mold Relation

/-- The receiver, and the packets that `gap_dropped_packets` has counted one by one. -/
structure Tally where
  state : State
  counted : List (List UInt8)

/-- The packet whose refusal an action counted. -/
def countedBy (s t : State) : List (List UInt8) :=
  if s.singleDrops < t.singleDrops then t.delivered.drop s.delivered.length else []

namespace Tally

def start (fd : ℤ) : Tally := ⟨init fd, []⟩

def act (s : Tally) (a : Action) : Option Tally :=
  (s.state.act a).map fun t => ⟨t, s.counted ++ countedBy s.state t⟩

def Step (s : Tally) (a : Action) (t : Tally) : Prop := s.act a = some t

/-- The sequence number was published, or `gap_dropped_packets` includes it: it lies in a range
that was skipped, or it is the only number of a packet that was refused. -/
inductive Accounts (s : Tally) (n : ℕ) : Prop
  | published {p : List UInt8} (hp : p ∈ s.state.published) (hlo : sequenceNumber p ≤ n)
      (hhi : n < endSequence p)
  | skipped {start stop : ℕ} (h : .skipped start stop ∈ s.state.log) (hlo : start ≤ n)
      (hhi : n < stop)
  | refused {p : List UInt8} (hp : p ∈ s.counted) (hone : messageCount p = 1)
      (hn : n = sequenceNumber p)

end Tally

/-- The data packets of a session, one after the other up to the number in its end-of-session
packet. The server sends none that is longer than a slot. -/
structure IsSession (ps : List (List UInt8)) (stop : ℕ) : Prop where
  tiles : ∃ start, Tiles sequenceNumber endSequence start ps stop
  data : ∀ p ∈ ps, Accepted p ∧ p.length ≤ slotBytes

/-- The next packet of the burst is an end-of-session packet with number `stop`. -/
def EndsAt (s : State) (stop : ℕ) : Prop :=
  s.stopped = false ∧ ∃ addr rest off, s.burst = addr :: rest ∧
    extractFeedPayload (s.umem (frameOf addr)).bytes = some off ∧
    headerSize ≤ ((s.umem (frameOf addr)).bytes.drop off).length ∧
    messageCount ((s.umem (frameOf addr)).bytes.drop off) = 0xFFFF ∧
    sequenceNumber ((s.umem (frameOf addr)).bytes.drop off) = stop

section Counting
variable {s t : State}

theorem Moves.singleDrops_le (h : Moves s t) : s.singleDrops ≤ t.singleDrops := by
  cases h with
  | opened =>
    obtain ⟨_, _, he⟩ := opened_frame s _
    rw [he]
  | consume =>
    obtain ⟨r, d, he⟩ := consumeOne_frame s
    rw [he]
  | dropOne => exact Nat.le_succ _
  | fillSlot _ _ _ _ _ _ _ ht =>
    obtain ⟨pool, rfl, _⟩ := fillSlot_frame ht
    exact le_rfl
  | _ => exact le_rfl

theorem moves_singleDrops (h : ReflTransGen Moves s t) : s.singleDrops ≤ t.singleDrops := by
  induction h with
  | refl => exact le_rfl
  | tail _ hm ih => exact le_trans ih hm.singleDrops_le

theorem Step.delivered_length {a : Action} (h : Step s a t) :
    t.delivered.length ≤ s.delivered.length + 1 := by
  cases h.calls with
  | inr hu => rw [hu.delivered]; exact Nat.le_succ _
  | inl hc =>
    cases hc with
    | @call burst held pace payload addr now base ret v _ _ hpaths ht =>
      have hdel : t.delivered = s.delivered ++ [payload] := by
        rcases ht with rfl | rfl <;> exact hpaths.delivered
      rw [hdel, List.length_append, List.length_singleton]

theorem countedBy_length_le {a : Action} (h : Step s a t) (hle : s.singleDrops ≤ t.singleDrops) :
    s.singleDrops + (countedBy s t).length ≤ t.singleDrops := by
  have hlen := h.delivered_length
  unfold countedBy
  split
  · rw [List.length_drop]
    omega
  · rw [List.length_nil]
    omega

end Counting

section Runs
variable {fd : ℤ} {as : List Action} {s t : Tally}

theorem Tally.Step.step {a : Action} (h : Tally.Step s a t) :
    Receiver.Step s.state a t.state ∧ t.counted = s.counted ++ countedBy s.state t.state := by
  obtain ⟨u, hu, rfl⟩ := Option.map_eq_some_iff.mp h
  exact ⟨hu, rfl⟩

theorem Tally.runs_state (hr : Runs Tally.Step (.start fd) as s) :
    Runs Receiver.Step (init fd) as s.state := by
  induction hr with
  | nil => exact .nil
  | snoc _ hstep ih => exact ih.snoc hstep.step.1

theorem Tally.runs_counted (hr : Runs Tally.Step (.start fd) as s) (had : Admissible s.state) :
    s.counted.length ≤ s.state.singleDrops := by
  induction hr with
  | nil => exact le_rfl
  | @snoc as a s t hr hstep ih =>
    obtain ⟨hs, hcounted⟩ := hstep.step
    have had' := had.before hs.delivered_subset
    obtain ⟨hinv, hh⟩ := runs_inv (Tally.runs_state hr) had'
    have hmono := moves_singleDrops (hs.moves (hinv.boundary hh)).1
    have hnew := countedBy_length_le hs hmono
    have hold := ih had'
    rw [hcounted, List.length_append]
    omega

end Runs

section Marker
variable {s t : State} {stop : ℕ}

theorem EndsAt.stop_lt (h : EndsAt s stop) : stop < 2 ^ 64 := by
  obtain ⟨_, addr, rest, off, _, _, _, _, rfl⟩ := h
  exact sequenceNumber_lt _

theorem EndsAt.step (h : EndsAt s stop) {now : ℕ} {pace : List ℕ}
    (hs : Step s (.packet now pace) t) :
    t.stopped = true ∧ t.log = s.log ∧ t.delivered = s.delivered ∧
      t.gapExpectedSeq = s.gapExpectedSeq ∧ t.singleDrops = s.singleDrops := by
  obtain ⟨hrun, addr, rest, off, hburst, hoff, hlen, hcnt, -⟩ := h
  unfold Step State.act State.burstPacket at hs
  simp only [hrun, hburst, hoff, hcnt, Bool.false_eq_true, if_false, if_neg (Nat.not_lt_of_le hlen),
    if_true, Option.some.injEq] at hs
  rw [← hs]
  exact ⟨rfl, rfl, rfl, rfl, rfl⟩

end Marker

section Account
variable {s t : State} {first : List UInt8}

theorem log_covers_iff (hs : Inv s) (hfirst : firstAccepted s.delivered = some first) {n : ℕ}
    (hlo : sequenceNumber first ≤ n) :
    (∃ seg ∈ s.log, seg.lo ≤ n ∧ n < seg.hi) ↔ n < s.gapExpectedSeq := by
  obtain ⟨p, hp, htiles⟩ := hs.sequenced.tiles (gapSessionSet_of_first hs hfirst)
  rw [hfirst] at hp
  cases hp
  refine ⟨?_, htiles.exists_cover hlo⟩
  rintro ⟨seg, hseg, -, hhi⟩
  exact lt_of_lt_of_le hhi (htiles.bounds hseg).2.2

theorem Tally.accounts_iff {s : Tally} {n : ℕ} : s.Accounts n ↔
    (∃ seg ∈ s.state.log, seg.lo ≤ n ∧ n < seg.hi) ∨
      ∃ p ∈ s.counted, messageCount p = 1 ∧ n = sequenceNumber p := by
  constructor
  · intro h
    cases h with
    | @published p hp hlo hhi =>
      obtain ⟨seg, hseg, hpacket⟩ := List.mem_filterMap.mp hp
      cases seg with
      | published q =>
        cases hpacket
        exact .inl ⟨_, hseg, hlo, hhi⟩
      | skipped => cases hpacket
    | skipped h hlo hhi => exact .inl ⟨_, h, hlo, hhi⟩
    | refused hp hone hn => exact .inr ⟨_, hp, hone, hn⟩
  · rintro (⟨seg, hseg, hlo, hhi⟩ | ⟨p, hp, hone, hn⟩)
    · cases seg with
      | published p => exact .published (List.mem_filterMap.mpr ⟨_, hseg, rfl⟩) hlo hhi
      | skipped start stop => exact .skipped hseg hlo hhi
    · exact .refused hp hone hn

theorem IsSession.admissible {ps : List (List UInt8)} {stop : ℕ} (h : IsSession ps stop)
    (hstop : stop < 2 ^ 64) (honly : ∀ p ∈ s.delivered, Accepted p → p ∈ ps) : Admissible s := by
  intro p hp ha
  obtain ⟨start, htiles⟩ := h.tiles
  have hmem := honly p hp ha
  exact ⟨(h.data p hmem).2, lt_of_le_of_lt (htiles.bounds hmem).2.2 hstop⟩

end Account

/-- When the receiver stops at the end of a session that it has caught up with, all numbers since
the first accepted packet are published or counted as dropped. If no packet was refused, this is
the only way: what is missing then is not counted, and neither are the packets that still wait in
slots. -/
theorem session_accounted {fd : ℤ} {as : List Action} {s t : Tally} {ps : List (List UInt8)}
    {stop now : ℕ} {pace : List ℕ} {first : List UInt8} (hr : Runs Tally.Step (.start fd) as s)
    (hsession : IsSession ps stop) (honly : ∀ p ∈ s.state.delivered, Accepted p → p ∈ ps)
    (hend : EndsAt s.state stop) (hstep : Tally.Step s (.packet now pace) t)
    (hfirst : firstAccepted t.state.delivered = some first) :
    t.state.stopped = true ∧
    (CounterFits t.state → t.state.skippedTotal + t.counted.length ≤ t.state.gapDroppedPackets) ∧
    (stop ≤ s.state.gapExpectedSeq → ∀ n, sequenceNumber first ≤ n → n < stop → t.Accounts n) ∧
    (s.state.singleDrops = 0 → (∀ n, sequenceNumber first ≤ n → n < stop → t.Accounts n) →
      stop ≤ s.state.gapExpectedSeq) := by
  obtain ⟨hs, hcounted⟩ := hstep.step
  obtain ⟨hstopped, -, hdelivered, hexpected, hsingles⟩ := hend.step hs
  have had : Admissible t.state :=
    hsession.admissible hend.stop_lt (by rw [hdelivered]; exact honly)
  have hrun := hr.snoc hstep
  have hinv := (runs_inv (Tally.runs_state hrun) had).1
  have hset := gapSessionSet_of_first hinv hfirst
  have hrefused := Tally.runs_counted hrun had
  refine ⟨hstopped, ?_, ?_, ?_⟩
  · intro hcount
    rw [dropped_eq hinv hset hcount]
    exact Nat.add_le_add_left hrefused _
  · intro hcaught n hlo hhi
    refine Tally.accounts_iff.mpr (.inl ((log_covers_iff hinv hfirst hlo).mpr ?_))
    rw [hexpected]
    exact lt_of_lt_of_le hhi hcaught
  · intro hnone hall
    by_contra hopen
    -- the expected number itself is in no segment of the log
    obtain ⟨p, hp, htiles⟩ := hinv.sequenced.tiles hset
    rw [hfirst] at hp
    cases hp
    have hge : sequenceNumber first ≤ s.state.gapExpectedSeq := hexpected ▸ htiles.le
    rcases Tally.accounts_iff.mp (hall _ hge (Nat.lt_of_not_le hopen)) with hlog | ⟨q, hq, -⟩
    · have hlt := (log_covers_iff hinv hfirst hge).mp hlog
      rw [hexpected] at hlt
      exact lt_irrefl _ hlt
    · rw [hsingles, hnone] at hrefused
      rw [List.eq_nil_of_length_eq_zero (Nat.le_zero.mp hrefused)] at hq
      exact absurd hq List.not_mem_nil

/-- Three packets of one message each, and the end of their session. -/
def threePackets : List (List UInt8) :=
  [samplePacket 1 1 2 1, samplePacket 2 1 2 2, samplePacket 3 1 2 3]

def endPacket : List UInt8 := samplePacket 4 0xFFFF 0 0

theorem threePackets_session : IsSession threePackets 4 := by
  refine ⟨⟨1, ?_⟩, ?_⟩
  · simp only [threePackets, Tiles]
    decide +kernel
  · decide +kernel

theorem endsAt_endPacket {s : State} {addr : ℕ} {rest : List ℕ} (hrun : s.stopped = false)
    (hburst : s.burst = addr :: rest)
    (hbytes : (s.umem (frameOf addr)).bytes = sampleFrame endPacket) :
    EndsAt s 4 := by
  have hmark : extractFeedPayload (sampleFrame endPacket) = some 42 ∧
      headerSize ≤ ((sampleFrame endPacket).drop 42).length ∧
      messageCount ((sampleFrame endPacket).drop 42) = 0xFFFF ∧
      sequenceNumber ((sampleFrame endPacket).drop 42) = 4 := by
    decide +kernel
  refine ⟨hrun, addr, rest, 42, hburst, ?_⟩
  rw [hbytes]
  exact hmark

/-- The second packet comes from the rewinder, before the end of the session is seen. -/
def recoveredRun : List Action :=
  [.reply (samplePacket 1 1 2 1) 1 [], .reply (samplePacket 3 1 2 3) 1 [],
    .reply (samplePacket 2 1 2 2) 1 [], .refill 1, .dma 4095 (sampleFrame endPacket),
    .recvBurst 0 [4095 * 4096]]

theorem recoveredRun_end : ∃ s ∈ recoveredRun.foldlM Tally.act (.start 3),
    s.state.stopped = false ∧ s.state.burst = [4095 * 4096] ∧
    (s.state.umem 4095).bytes = sampleFrame endPacket ∧ s.state.gapExpectedSeq = 4 ∧
    (∀ p ∈ s.state.delivered, p ∈ threePackets) ∧
    ∃ t ∈ s.act (.packet 1 []), firstAccepted t.state.delivered = some (samplePacket 1 1 2 1) := by
  decide +kernel

theorem session_accounted_recoveredRun :
    IsSession threePackets 4 ∧ ∃ s t, Runs Tally.Step (.start 3) recoveredRun s ∧
      EndsAt s.state 4 ∧ Tally.Step s (.packet 1 []) t ∧ t.state.stopped = true ∧
      ∀ n, 1 ≤ n → n < 4 → t.Accounts n := by
  obtain ⟨s, hs, hrun, hburst, hbytes, hexpected, honly, t, ht, hfirst⟩ := recoveredRun_end
  have hr : Runs Tally.Step (.start 3) recoveredRun s := Runs.of_foldlM hs
  have hend : EndsAt s.state 4 := endsAt_endPacket hrun hburst hbytes
  obtain ⟨hstopped, -, hall, -⟩ := session_accounted hr threePackets_session
    (fun p hp _ => honly p hp) hend ht hfirst
  exact ⟨threePackets_session, s, t, hr, hend, ht, hstopped, hall hexpected.ge⟩

/-- The packets before and after a gap come in one burst with the end of the session. -/
def openGapRun : List Action :=
  [.recycle [], .recvBurst 3 [], .nudge 0, .dma 4095 (sampleFrame (samplePacket 1 1 2 1)),
    .dma 4094 (sampleFrame (samplePacket 3 1 2 3)), .dma 4093 (sampleFrame endPacket),
    .recycle [], .recvBurst 0 [4095 * 4096, 4094 * 4096, 4093 * 4096], .packet 1 [], .packet 1 []]

theorem openGapRun_end : ∃ s ∈ openGapRun.foldlM Tally.act (.start 3),
    s.state.stopped = false ∧ s.state.burst = [4093 * 4096] ∧
    (s.state.umem 4093).bytes = sampleFrame endPacket ∧
    s.state.delivered = [samplePacket 1 1 2 1, samplePacket 3 1 2 3] ∧
    ∃ t ∈ s.act (.packet 1 []), t.state.stopped = true ∧ t.state.gapDroppedPackets = 0 ∧
      t.state.log = [.published (samplePacket 1 1 2 1)] ∧ t.counted = [] := by
  decide +kernel

/-- The second packet never came and the third waits in a slot: neither is published, and the
drop counter is zero. -/
theorem open_gap_unaccounted :
    IsSession threePackets 4 ∧ ∃ s t, Runs Tally.Step (.start 3) openGapRun s ∧
      s.state.delivered = [samplePacket 1 1 2 1, samplePacket 3 1 2 3] ∧ EndsAt s.state 4 ∧
      Tally.Step s (.packet 1 []) t ∧ t.state.stopped = true ∧ t.state.gapDroppedPackets = 0 ∧
      ¬t.Accounts 2 ∧ ¬t.Accounts 3 := by
  obtain ⟨s, hs, hrun, hburst, hbytes, hdelivered, t, ht, hstopped, hdropped, hlog, hcounted⟩ :=
    openGapRun_end
  refine ⟨threePackets_session, s, t, Runs.of_foldlM hs, hdelivered,
    endsAt_endPacket hrun hburst hbytes, ht, hstopped, hdropped, ?_, ?_⟩ <;>
  · rw [Tally.accounts_iff, hlog, hcounted]
    decide +kernel

end TradingPipeline.Receiver
