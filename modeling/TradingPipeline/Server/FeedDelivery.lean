import TradingPipeline.Server.Feed

/-! # The feed delivers the messages of its file

Both modes cut the file into the same messages and differ only in how they group them into
packets. Every group fits a packet and the groups follow one another, so the block loop of
the dispatcher gets the messages back, in order and under the same sequence numbers.
-/
namespace TradingPipeline.Feed
open Lib Mold

section Packing

/-- The packet that holds exactly the messages `g`. -/
def Filling.of (g : List (List UInt8)) : Filling := ⟨g.flatMap block, g.length⟩

variable {g ms : List (List UInt8)} {msg : List UInt8}

theorem Filling.overflows_of : (Filling.of g).overflows msg = true ↔
    maxMsgPayload < ((g ++ [msg]).flatMap block).length := by
  rw [Filling.overflows, decide_eq_true_iff, List.flatMap_append, List.length_append,
    List.flatMap_singleton, block_length, Filling.of, Nat.add_assoc]

theorem Filling.append_of (h : ((g ++ [msg]).flatMap block).length ≤ maxMsgPayload) :
    (Filling.of g).append msg = Filling.of (g ++ [msg]) := by
  have hlen := length_le_blocks (g ++ [msg])
  have hlt : g.length + 1 < 2 ^ 16 := by
    rw [List.length_append, List.length_singleton] at hlen
    simp only [maxMsgPayload, packetSize, headerSize] at h
    omega
  rw [Filling.append, Filling.of, Filling.of, Nat.mod_eq_of_lt hlt, List.flatMap_append,
    List.flatMap_singleton, List.length_append, List.length_singleton]
  rfl

/-- The call of `rewinder_cache_packet` for a packet. -/
def cacheCall (session : Vector UInt8 10) (p : List UInt8) : Rewinder.Sent :=
  ⟨session.toList, sequenceNumber p, messageCount p, p⟩

/-- The packets made so far hold the messages `ms`, and `seq` is the next number. -/
def Emitted (session : Vector UInt8 10) (copies : ℕ → ℕ) (seq : ℕ) (out : Output)
    (ms : List (List UInt8)) : Prop :=
  ∃ gs : List (List (List UInt8)), gs.flatten = ms ∧ (∀ g ∈ gs, PacketGroup g) ∧
    seq = ms.length + 1 ∧
    out.cached = (packets session 1 gs).map (cacheCall session) ∧
    out.sent = (packets session 1 gs).flatMap
      (fun p => List.replicate (copies (sequenceNumber p)) p)

variable {session : Vector UInt8 10} {copies : ℕ → ℕ} {seq : ℕ} {out : Output}

theorem emitted_nil : Emitted session copies 1 ⟨[], []⟩ [] :=
  ⟨[], rfl, fun _ hg => absurd hg List.not_mem_nil, rfl, rfl, rfl⟩

theorem Emitted.send (h : Emitted session copies seq out ms) (hg : PacketGroup g)
    (hlt : (ms ++ g).length + 1 < 2 ^ 64) :
    Emitted session copies ((seq + g.length) % 2 ^ 64)
      (out.send session seq (Filling.of g) (copies seq)) (ms ++ g) := by
  obtain ⟨gs, rfl, hgs, rfl, hcached, hsent⟩ := h
  rw [List.length_append] at hlt
  have hseq : gs.flatten.length + 1 < 2 ^ 64 := by omega
  have hreads := dataPacket_reads session hg hseq
  have hpackets : packets session 1 (gs ++ [g]) =
      packets session 1 gs ++ [dataPacket session (gs.flatten.length + 1) g] := by
    rw [packets_snoc, Nat.add_comm]
  refine ⟨gs ++ [g], by simp, ?_, ?_, ?_, ?_⟩
  · intro x hx
    rcases List.mem_append.mp hx with hx | hx
    · exact hgs x hx
    · exact List.mem_singleton.mp hx ▸ hg
  · rw [List.length_append, Nat.mod_eq_of_lt (by omega)]
    omega
  · rw [hpackets, List.map_append, ← hcached, List.map_singleton, cacheCall, hreads.sequenceNumber,
      hreads.messageCount]
    rfl
  · rw [hpackets, List.flatMap_append, ← hsent, List.flatMap_singleton, hreads.sequenceNumber]
    rfl

end Packing

/-- What is sent carries the messages and ends with the end-of-session packet, whose
number is that of the message after the last. -/
def Delivers (sent : List (List UInt8)) (ms : List (List UInt8)) : Prop :=
  ∃ packets eos, sent = packets ++ [eos] ∧ Carries packets ms ∧
    sequenceNumber eos = ms.length + 1 ∧ messageCount eos = 0xFFFF ∧ blocks eos = []

theorem Emitted.delivers {session : Vector UInt8 10} {copies : ℕ → ℕ} {seq : ℕ} {out : Output}
    {ms : List (List UInt8)} (h : Emitted session copies seq out ms) (hcopies : ∀ k, copies k = 1)
    (hlt : ms.length + 1 < 2 ^ 64) : Delivers (out.endSession session seq).sent ms := by
  obtain ⟨gs, rfl, hgs, rfl, _, hsent⟩ := h
  have hdecode := decode_encode (h := ⟨session.toList, gs.flatten.length + 1, 0xFFFF⟩) (by simp) hlt
    (by simp) []
  rw [List.append_nil] at hdecode
  refine ⟨packets session 1 gs, endOfSession session (gs.flatten.length + 1), ?_,
    packets_carry hgs hlt, ?_, ?_, ?_⟩
  · simp only [Output.endSession, hsent, hcopies, List.replicate_one]
    rw [List.flatMap_singleton']
  · rw [sequenceNumber, endOfSession, hdecode]
  · rw [messageCount, endOfSession, hdecode]
  · exact List.drop_eq_nil_of_le (by simp [endOfSession, MoldUdp64Header.encode, headerSize])

def Fits (ms : List (List UInt8)) : Prop := ∀ m ∈ ms, 2 + m.length ≤ maxMsgPayload

theorem Fits.lt {ms : List (List UInt8)} (h : Fits ms) : ∀ m ∈ ms, m.length < 2 ^ 16 := by
  intro m hm
  have hle := h m hm
  simp only [maxMsgPayload, packetSize, headerSize] at hle
  omega

theorem Fits.group {ms : List (List UInt8)} (h : Fits ms) {m : List UInt8} (hm : m ∈ ms) :
    ([m].flatMap block).length ≤ maxMsgPayload := by
  rw [List.flatMap_singleton, block_length]
  exact h m hm

section Bulk
variable {cfg : BulkConfig} {g ms : List (List UInt8)} {part : List UInt8}

theorem fill_spec (hg : (g.flatMap block).length ≤ maxMsgPayload) (ms : List (List UInt8)) :
    ∃ g' rest, ms = g' ++ rest ∧ ((g ++ g').flatMap block).length ≤ maxMsgPayload ∧
      foldSome (fun (p : Filling) msg => if p.overflows msg then none else some (p.append msg))
        (Filling.of g) ms = (Filling.of (g ++ g'), rest) := by
  induction ms generalizing g with
  | nil => exact ⟨[], [], rfl, by rwa [List.append_nil], by rw [List.append_nil]; rfl⟩
  | cons m ms ih =>
    by_cases hover : (Filling.of g).overflows m = true
    · refine ⟨[], m :: ms, rfl, by rwa [List.append_nil], ?_⟩
      rw [List.append_nil, foldSome, if_pos hover]
    · have hfit : ((g ++ [m]).flatMap block).length ≤ maxMsgPayload :=
        Nat.le_of_not_lt (fun h => hover (Filling.overflows_of.mpr h))
      obtain ⟨g', rest, rfl, hle, hfold⟩ := ih hfit
      rw [List.append_assoc, List.singleton_append] at hle hfold
      refine ⟨m :: g', rest, rfl, hle, ?_⟩
      rw [foldSome, if_neg hover, Filling.append_of hfit]
      exact hfold

theorem fillPacket_spec (hms : Fits ms) (hne : ms ≠ []) (hpart : Incomplete part) :
    ∃ g rest, ms = g ++ rest ∧ PacketGroup g ∧
      fillPacket (ms.flatMap block ++ part) = (Filling.of g, rest.flatMap block ++ part) := by
  have hfuel := length_le_blocks_append ms part
  obtain ⟨m, ms, rfl⟩ := List.exists_cons_of_ne_nil hne
  have hm := hms.group List.mem_cons_self
  have hover : Filling.empty.overflows m = false := by
    rw [← Bool.not_eq_true]
    intro h
    have hgt : maxMsgPayload < ([m].flatMap block).length := Filling.overflows_of (g := []).mp h
    omega
  obtain ⟨g, rest, rfl, hle, hfold⟩ := fill_spec hm ms
  refine ⟨m :: g, rest, rfl, ⟨List.cons_ne_nil m g, hle⟩, ?_⟩
  rw [fillPacket, scanBlocks_blocks _ hms.lt hpart hfuel, foldSome, hover]
  simp only [Bool.false_eq_true, ↓reduceIte]
  have hfirst : Filling.empty.append m = Filling.of [m] := Filling.append_of (g := []) hm
  rw [hfirst, hfold]
  rfl

theorem sendPackets_spec (fuel : ℕ) {s : Bulk} {done : List (List UInt8)}
    (hbuf : s.buf = ms.flatMap block ++ part) (hms : Fits ms) (hpart : Incomplete part)
    (hfuel : ms.length ≤ fuel) (hlt : (done ++ ms).length + 1 < 2 ^ 64)
    (hem : Emitted cfg.session cfg.copies s.seq s.out done) :
    (sendPackets cfg fuel s).buf = part ∧ (sendPackets cfg fuel s).unread = s.unread ∧
      Emitted cfg.session cfg.copies (sendPackets cfg fuel s).seq (sendPackets cfg fuel s).out
        (done ++ ms) := by
  induction fuel generalizing s ms done with
  | zero =>
    have hnil : ms = [] := List.eq_nil_of_length_eq_zero (by omega)
    subst hnil
    rw [List.append_nil]
    exact ⟨hbuf, rfl, hem⟩
  | succ fuel ih =>
    by_cases hne : ms = []
    · subst hne
      have hstop : sendPackets cfg (fuel + 1) s = s := by
        have hscan : fillPacket s.buf = (Filling.empty, s.buf) := by
          rw [fillPacket, hbuf]
          exact scanBlocks_incomplete _ _ _ hpart
        rw [sendPackets, hscan]
        simp [Filling.empty]
      rw [hstop, List.append_nil]
      exact ⟨hbuf, rfl, hem⟩
    · obtain ⟨g, rest, rfl, hg, hfill⟩ := fillPacket_spec hms hne hpart
      have hlong : ¬s.buf.length < 2 := by
        have hlen := length_le_blocks (g ++ rest)
        obtain ⟨m, g', rfl⟩ := List.exists_cons_of_ne_nil hg.1
        rw [hbuf]
        simp only [List.cons_append, List.flatMap_cons, List.length_append, block_length]
        omega
      have hcount : (Filling.of g).msgCount ≠ 0 := by
        simpa [Filling.of] using hg.1
      rw [sendPackets, if_neg hlong, hbuf, hfill]
      simp only [if_neg hcount]
      have hpos : 0 < g.length := List.length_pos_iff.mpr hg.1
      have hnext := ih (s := { s with
          buf := rest.flatMap block ++ part
          seq := (s.seq + (Filling.of g).msgCount) % 2 ^ 64
          out := s.out.send cfg.session s.seq (Filling.of g) (cfg.copies s.seq) })
        rfl (fun m hm => hms m (List.mem_append_right g hm))
        (by rw [List.length_append] at hfuel; omega) (by rwa [List.append_assoc])
        (hem.send hg (by simp only [List.length_append] at hlt ⊢; omega))
      rwa [List.append_assoc] at hnext

/-- The loop invariant of `bulk_feed`: the messages `done` are out, and the buffer and what is
left of the file continue with the messages `rest`, none of which is complete in the buffer. -/
def Bulk.Ok (cfg : BulkConfig) (ms : List (List UInt8)) (tail : List UInt8) (s : Bulk) : Prop :=
  ∃ done rest, ms = done ++ rest ∧ s.buf ++ s.unread = rest.flatMap block ++ tail ∧
    Incomplete s.buf ∧ Emitted cfg.session cfg.copies s.seq s.out done

variable {tail : List UInt8} {s t : Bulk} {split : ℕ → ℕ}

theorem Bulk.Ok.turn (hs : s.Ok cfg ms tail) (hms : Fits ms) (htail : Incomplete tail)
    (hlt : ms.length + 1 < 2 ^ 64) (ht : bulkTurn cfg split s = .inl t) :
    t.Ok cfg ms tail ∧ t.unread.length < s.unread.length := by
  obtain ⟨done, rest, rfl, hstream, _, hem⟩ := hs
  have hrest : Fits rest := fun m hm => hms m (List.mem_append_right done hm)
  simp only [bulkTurn] at ht
  generalize hn : readSize (split s.reads) (itchBufSize - s.buf.length) s.unread.length = n at ht
  split at ht
  · cases ht
  · next hpos =>
    -- the read splits the stream somewhere, and the complete messages before that are sent
    have hcut : (s.buf ++ s.unread.take n) ++ s.unread.drop n = rest.flatMap block ++ tail := by
      rw [List.append_assoc, List.take_append_drop, hstream]
    obtain ⟨ms₁, ms₂, part, rfl, hfront, hback, hpart⟩ := blocks_split hrest.lt htail hcut
    have hfuel : ms₁.length ≤ (s.buf ++ s.unread.take n).length := by
      rw [hfront]
      exact length_le_blocks_append ms₁ part
    obtain ⟨hbuf, hunread, hem'⟩ :=
      sendPackets_spec (s.buf ++ s.unread.take n).length (s := { s with
        buf := s.buf ++ s.unread.take n
        unread := s.unread.drop n
        reads := s.reads + 1 }) hfront
          (fun m hm => hrest m (List.mem_append_left ms₂ hm)) hpart hfuel
      (by simp only [List.length_append] at hlt ⊢; omega) hem
    rw [Sum.inl.inj ht] at hbuf hunread hem'
    refine ⟨⟨done ++ ms₁, ms₂, (List.append_assoc _ _ _).symm, ?_, hbuf.symm ▸ hpart, hem'⟩, ?_⟩
    · rw [hbuf, hunread]
      exact hback
    · rw [hunread, List.length_drop]
      unfold readSize at hn
      omega

theorem Bulk.Ok.leave (hs : s.Ok cfg ms tail) (hms : Fits ms)
    (ht : bulkTurn cfg split s = .inr t) : Emitted cfg.session cfg.copies t.seq t.out ms := by
  obtain ⟨done, rest, rfl, hstream, hbuf, hem⟩ := hs
  simp only [bulkTurn] at ht
  split at ht
  · next hzero =>
    cases ht
    have hnil : rest = [] := by
      by_contra hne
      obtain ⟨m, rest, rfl⟩ := List.exists_cons_of_ne_nil hne
      have hm := hms m (List.mem_append_right done List.mem_cons_self)
      have hlt := hms.lt m (List.mem_append_right done List.mem_cons_self)
      rw [List.flatMap_cons, List.append_assoc] at hstream
      have hshort := hbuf.length_lt hlt hstream
      have hlen := congrArg List.length hstream
      simp only [List.length_append, block_length] at hlen
      simp only [readSize, itchBufSize, maxMsgPayload, packetSize, headerSize] at hzero hm
      omega
    rw [hnil, List.append_nil]
    exact hem
  · cases ht

/-- `bulk_feed` makes packets of the messages of its file, however the reads are split. -/
theorem bulkFeed_emits (cfg : BulkConfig) (split : ℕ → ℕ) {file : ItchFile}
    (hfile : file.bytes = ms.flatMap block ++ tail)
    (hms : Fits ms) (htail : Incomplete tail) (hlt : ms.length + 1 < 2 ^ 64)
    (hoff : initialFileOffset file.bytes.length = 0) :
    ∃ seq out, bulkFeed cfg split file = some (out.endSession cfg.session seq) ∧
      Emitted cfg.session cfg.copies seq out ms := by
  have hstart : Bulk.Ok cfg ms tail ⟨file.bytes.drop 0, [], 1, 0, ⟨[], []⟩⟩ :=
    ⟨[], ms, rfl, hfile, Or.inl Nat.two_pos, emitted_nil⟩
  have hturn : ∀ s t, Bulk.Ok cfg ms tail s → bulkTurn cfg split s = .inl t →
      Bulk.Ok cfg ms tail t ∧ t.unread.length < s.unread.length :=
    fun s t hs ht => hs.turn hms htail hlt ht
  obtain ⟨s, hloop, hem⟩ := boundedLoop_spec (μ := fun s : Bulk => s.unread.length) hturn
    (fun s r hs ht => hs.leave hms ht) hstart (Nat.lt_succ_self _)
  refine ⟨s.seq, s.out, ?_, hem⟩
  simp only [bulkFeed, hoff]
  rw [List.drop_zero] at hloop ⊢
  rw [hloop]
  rfl

end Bulk

section Timestamp
variable {pacing : Pacing} {session : Vector UInt8 10} {ms : List (List UInt8)} {tail : List UInt8}
  {s : Replay}

/-- The sleep before the packet of a message returns, if the first message has the time stamp
`first`. -/
def Pacing.Wakes (pacing : Pacing) (first : ℕ) (m : List UInt8) : Prop :=
  pacing.deltaNs (elapsedNs first (msgTimestamp m)) ≤ pacing.lifetime

/-- The loop invariant of `timestamp_feed` while it is awake: of the messages `done` the last
ones, `g`, are in the packet that is being filled and the others are out. The messages of a packet
have one time stamp. -/
structure Replay.Filled (pacing : Pacing) (session : Vector UInt8 10) (first : ℕ)
    (done out g : List (List UInt8)) (s : Replay) : Prop where
  split : done = out ++ g
  filling : s.filling = Filling.of g
  fits : (g.flatMap block).length ≤ maxMsgPayload
  emitted : Emitted session (fun _ => 1) s.seq s.out out
  woke : ∀ m ∈ out, pacing.Wakes first m
  stamp : ∀ m ∈ g, msgTimestamp m = s.currentPacketTs
  started : s.replayStarted = true → s.firstPacketTs = first
  begun : s.replayStarted = true ↔ done ≠ []

/-- The loop invariant of `timestamp_feed`. Once it sleeps for good there is a message whose time
does not come, and what was sent are the packets before it. -/
def Replay.Ok (pacing : Pacing) (session : Vector UInt8 10) (first : ℕ) (done : List (List UInt8))
    (s : Replay) : Prop :=
  (s.asleep = false ∧ ∃ out g, s.Filled pacing session first done out g) ∨
  (s.asleep = true ∧ (∃ m ∈ done, ¬pacing.Wakes first m) ∧
    ∃ seq out, out <+: done ∧ Emitted session (fun _ => 1) seq s.out out)

theorem Replay.Filled.nonempty {first : ℕ} {done out g : List (List UInt8)}
    (hs : s.Filled pacing session first done out g) (hcount : 0 < s.filling.msgCount) : g ≠ [] := by
  rintro rfl
  rw [hs.filling] at hcount
  exact lt_irrefl 0 hcount

theorem Replay.Filled.flush {first : ℕ} {done out g : List (List UInt8)}
    (hs : s.Filled pacing session first done out g) (hawake : s.asleep = false)
    (hcount : 0 < s.filling.msgCount) (hlt : done.length + 1 < 2 ^ 64) :
    ((s.flush pacing session).asleep = false ∧ (s.flush pacing session).filling = Filling.empty ∧
      (s.flush pacing session).replayStarted = s.replayStarted ∧
      (s.flush pacing session).firstPacketTs = s.firstPacketTs ∧
      Emitted session (fun _ => 1) (s.flush pacing session).seq (s.flush pacing session).out done ∧
      ∀ m ∈ done, pacing.Wakes first m) ∨
    ((s.flush pacing session).asleep = true ∧ (s.flush pacing session).out = s.out ∧
      ∃ m ∈ done, ¬pacing.Wakes first m) := by
  have hne := hs.nonempty hcount
  have hg : PacketGroup g := ⟨hne, hs.fits⟩
  have hdone : done ≠ [] := by
    rw [hs.split]
    exact List.append_ne_nil_of_right_ne_nil out hne
  have htime : ∀ m ∈ g, pacing.Wakes first m ↔
      ¬pacing.lifetime < pacing.deltaNs (elapsedNs s.firstPacketTs s.currentPacketTs) := by
    intro m hm
    rw [hs.started (hs.begun.mpr hdone), ← hs.stamp m hm, not_lt]
    rfl
  unfold Replay.flush
  split
  · next hlate =>
    obtain ⟨m, hm⟩ := List.exists_mem_of_ne_nil g hne
    refine .inr ⟨rfl, rfl, m, by rw [hs.split]; exact List.mem_append_right _ hm, ?_⟩
    rw [htime m hm, not_not]
    exact hlate
  · next hwakes =>
    refine .inl ⟨hawake, rfl, rfl, rfl, ?_, fun m hm => ?_⟩
    · have hem := hs.emitted.send hg (hs.split ▸ hlt)
      rw [← hs.split] at hem
      simp only [hs.filling]
      exact hem
    · rw [hs.split] at hm
      rcases List.mem_append.mp hm with hm | hm
      · exact hs.woke m hm
      · exact (htime m hm).mpr hwakes

theorem Replay.beginPacket_frame (s : Replay) (ts : ℕ) :
    (s.beginPacket ts).filling = s.filling ∧ (s.beginPacket ts).out = s.out ∧
      (s.beginPacket ts).asleep = s.asleep ∧ (s.beginPacket ts).seq = s.seq ∧
      (s.beginPacket ts).currentPacketTs = ts ∧ (s.beginPacket ts).replayStarted = true := by
  unfold Replay.beginPacket
  split
  · next hstarted => exact ⟨rfl, rfl, rfl, rfl, rfl, hstarted⟩
  · exact ⟨rfl, rfl, rfl, rfl, rfl, rfl⟩

section Turn
variable {first : ℕ} {done out g : List (List UInt8)} {m : List UInt8}

theorem Replay.Filled.turn_empty (hs : s.Filled pacing session first done out g)
    (hawake : s.asleep = false) (hzero : s.filling.msgCount = 0)
    (hfirst : done = [] → msgTimestamp m = first) (hlo : 11 ≤ m.length)
    (hhi : ([m].flatMap block).length ≤ maxMsgPayload) :
    (s.turn pacing session m).Ok pacing session first (done ++ [m]) := by
  have hg : g = [] := by
    rw [hs.filling] at hzero
    exact List.eq_nil_of_length_eq_zero hzero
  subst hg
  obtain ⟨hfill, hout, hstill, hseq, hts, hbegun⟩ := s.beginPacket_frame (msgTimestamp m)
  rw [hawake] at hstill
  have hbase : (s.beginPacket (msgTimestamp m)).firstPacketTs = first := by
    unfold Replay.beginPacket
    split
    · next hstarted => exact hs.started hstarted
    · next hnot => exact hfirst (by_contra fun hne => hnot (hs.begun.mpr hne))
  rw [Replay.turn, if_neg (by simp [hawake, Nat.not_lt.mpr hlo])]
  simp only [hfill, hzero, lt_irrefl, false_and, ↓reduceIte, hstill, Bool.false_eq_true]
  refine .inl ⟨rfl, done, [m], rfl, ?_, hhi, ?_, ?_, ?_, fun _ => hbase, ?_⟩
  · rw [hs.filling]
    exact Filling.append_of (g := []) hhi
  · have hem := hs.emitted
    rw [← hseq, ← hout, ← List.append_nil out, ← hs.split] at hem
    exact hem
  · rw [hs.split, List.append_nil]
    exact hs.woke
  · intro x hx
    rw [List.mem_singleton.mp hx]
    exact hts.symm
  · simp [hbegun]

theorem Replay.Filled.turn_nonempty (hs : s.Filled pacing session first done out g)
    (hawake : s.asleep = false) (hpos : 0 < s.filling.msgCount) (hlo : 11 ≤ m.length)
    (hhi : ([m].flatMap block).length ≤ maxMsgPayload) (hlt : done.length + 1 < 2 ^ 64) :
    (s.turn pacing session m).Ok pacing session first (done ++ [m]) := by
  have hdone : done ≠ [] := by
    rw [hs.split]
    exact List.append_ne_nil_of_right_ne_nil out (hs.nonempty hpos)
  rw [Replay.turn, if_neg (by simp [hawake, Nat.not_lt.mpr hlo])]
  simp only [if_neg (Nat.ne_of_gt hpos), hpos, true_and]
  split
  · -- the packet at hand goes out first
    rcases hs.flush hawake hpos hlt with ⟨hstill, hempty, hbegun, hbase, hem, hwoke⟩ |
      ⟨hasleep, hout, x, hx, hlate⟩
    · simp only [hstill, Bool.false_eq_true, ↓reduceIte]
      refine .inl ⟨rfl, done, [m], rfl, ?_, hhi, hem, hwoke, ?_, ?_, ?_⟩
      · rw [hempty]
        exact Filling.append_of (g := []) hhi
      · intro x hx
        rw [List.mem_singleton.mp hx]
      · intro h
        rw [hbase]
        exact hs.started (hbegun ▸ h)
      · simp [hbegun, hs.begun, hdone]
    · simp only [hasleep, ↓reduceIte]
      refine .inr ⟨rfl, ⟨x, List.mem_append_left _ hx, hlate⟩, s.seq, out, ?_, ?_⟩
      · rw [hs.split, List.append_assoc]
        exact List.prefix_append _ _
      · rw [hout]
        exact hs.emitted
  · next hstay =>
    simp only [hawake, Bool.false_eq_true, ↓reduceIte]
    rw [not_or, not_not] at hstay
    have hfit : ((g ++ [m]).flatMap block).length ≤ maxMsgPayload := by
      refine Nat.le_of_not_lt (fun h => hstay.2 ?_)
      rw [hs.filling]
      exact Filling.overflows_of.mpr h
    refine .inl ⟨rfl, out, g ++ [m], ?_, ?_, hfit, hs.emitted, hs.woke, ?_, hs.started, ?_⟩
    · rw [hs.split, List.append_assoc]
    · rw [hs.filling]
      exact Filling.append_of hfit
    · intro x hx
      rcases List.mem_append.mp hx with hx | hx
      · exact hs.stamp x hx
      · rw [List.mem_singleton.mp hx]
        exact hstay.1
    · simp [hs.begun, hdone]

end Turn

theorem Replay.Ok.turn {first : ℕ} {done : List (List UInt8)} (hs : s.Ok pacing session first done)
    {m : List UInt8} (hfirst : done = [] → msgTimestamp m = first)
    (hlo : 11 ≤ m.length) (hhi : ([m].flatMap block).length ≤ maxMsgPayload)
    (hlt : done.length + 1 < 2 ^ 64) :
    (s.turn pacing session m).Ok pacing session first (done ++ [m]) := by
  rcases hs with ⟨hawake, out, g, hfilled⟩ | ⟨hasleep, ⟨x, hx, hlate⟩, seq, out, hpre, hem⟩
  · rcases Nat.eq_zero_or_pos s.filling.msgCount with hzero | hpos
    · exact hfilled.turn_empty hawake hzero hfirst hlo hhi
    · exact hfilled.turn_nonempty hawake hpos hlo hhi hlt
  · have hsame : s.turn pacing session m = s := if_pos (by rw [hasleep]; rfl)
    rw [hsame]
    exact .inr ⟨hasleep, ⟨x, List.mem_append_left _ hx, hlate⟩, seq, out,
      hpre.trans (List.prefix_append _ _), hem⟩

theorem replay_ok (pacing : Pacing) (session : Vector UInt8 10) (first : ℕ)
    (hfirst : ∀ m ∈ ms.head?, msgTimestamp m = first)
    (hms : ∀ m ∈ ms, 11 ≤ m.length ∧ ([m].flatMap block).length ≤ maxMsgPayload)
    (hlt : ms.length + 1 < 2 ^ 64) :
    (ms.foldl (Replay.turn pacing session) Replay.start).Ok pacing session first ms := by
  induction ms using List.reverseRecOn with
  | nil =>
    exact .inl ⟨rfl, [], [], rfl, rfl, Nat.zero_le _, emitted_nil, by simp, by simp,
      fun h => absurd h Bool.false_ne_true, by simp [Replay.start]⟩
  | append_singleton ms m ih =>
    rw [List.length_append, List.length_singleton] at hlt
    have hprev := ih (fun x hx => hfirst x (by rw [List.head?_append, hx]; rfl))
      (fun x hx => hms x (List.mem_append_left _ hx)) (by omega)
    obtain ⟨hlo, hhi⟩ := hms m (List.mem_append_right _ List.mem_cons_self)
    rw [List.foldl_append]
    exact hprev.turn (fun hnil => hfirst m (by rw [hnil]; rfl)) hlo hhi (by omega)

theorem Replay.Ok.finish {first : ℕ} {done : List (List UInt8)}
    (hs : s.Ok pacing session first done)
    (hlt : done.length + 1 < 2 ^ 64) :
    ((s.finish pacing session).asleep = false ∧ (∀ m ∈ done, pacing.Wakes first m) ∧
      Emitted session (fun _ => 1) (s.finish pacing session).seq
        (s.finish pacing session).out done) ∨
    ((s.finish pacing session).asleep = true ∧ (∃ m ∈ done, ¬pacing.Wakes first m) ∧
      ∃ seq out, out <+: done ∧
        Emitted session (fun _ => 1) seq (s.finish pacing session).out out) := by
  rcases hs with ⟨hawake, out, g, hfilled⟩ | ⟨hasleep, hlate, hem⟩
  · rw [Replay.finish, if_neg (by rw [hawake]; exact Bool.false_ne_true)]
    split
    · next hpos =>
      rcases hfilled.flush hawake hpos hlt with ⟨hstill, -, -, -, hem, hwoke⟩ |
        ⟨hasleep, hout, hlate⟩
      · exact .inl ⟨hstill, hwoke, hem⟩
      · refine .inr ⟨hasleep, hlate, s.seq, out, ?_, by rw [hout]; exact hfilled.emitted⟩
        rw [hfilled.split]
        exact List.prefix_append _ _
    · next hzero =>
      have hg : g = [] := by
        rw [hfilled.filling] at hzero
        exact List.eq_nil_of_length_eq_zero (Nat.eq_zero_of_not_pos hzero)
      have hdone := hfilled.split
      rw [hg, List.append_nil] at hdone
      exact .inl ⟨hawake, hdone ▸ hfilled.woke, hdone ▸ hfilled.emitted⟩
  · rw [Replay.finish, if_pos hasleep]
    exact .inr ⟨hasleep, hlate, hem⟩

/-- `timestamp_feed` makes packets of the messages of its file and ends the session if all its
sleeps return. If one does not, it gets no further than packets. -/
theorem timestampFeed_emits (pacing : Pacing) (session : Vector UInt8 10) {file : ItchFile}
    (hfile : file.bytes = ms.flatMap block ++ tail)
    (hms : ∀ m ∈ ms, 11 ≤ m.length ∧ m.length ≤ 1430) (htail : Incomplete tail)
    (hlt : ms.length + 1 < 2 ^ 64) (hoff : initialFileOffset file.bytes.length = 0)
    (hne : file.bytes ≠ []) (hspeed : pacing.invalidSpeed = false) (first : ℕ)
    (hfirst : ∀ m ∈ ms.head?, msgTimestamp m = first) :
    ((∀ m ∈ ms, pacing.Wakes first m) ∧ ∃ seq out,
      timestampFeed session pacing file = out.endSession session seq ∧
      Emitted session (fun _ => 1) seq out ms) ∨
    ((∃ m ∈ ms, ¬pacing.Wakes first m) ∧ ∃ seq out, out <+: ms ∧
      Emitted session (fun _ => 1) seq (timestampFeed session pacing file) out) := by
  have hsize : file.bytes.length ≠ 0 := fun h => hne (List.eq_nil_of_length_eq_zero h)
  have hfits : ∀ m ∈ ms, 11 ≤ m.length ∧ ([m].flatMap block).length ≤ maxMsgPayload := by
    intro m hm
    obtain ⟨hlo, hhi⟩ := hms m hm
    refine ⟨hlo, ?_⟩
    rw [List.flatMap_singleton, block_length]
    simp only [maxMsgPayload, packetSize, headerSize]
    omega
  have hfuel : ms.length ≤ (file.bytes.drop 0).length := by
    rw [List.drop_zero, hfile]
    exact length_le_blocks_append ms tail
  have hscan := scanBlocks_blocks (fun s msg => some (Replay.turn pacing session s msg))
    (fun m hm => by have := (hms m hm).2; omega) htail hfuel Replay.start
  rw [foldSome_some] at hscan
  have hok := (replay_ok pacing session first hfirst hfits hlt).finish hlt
  simp only [timestampFeed, hspeed, Bool.false_eq_true, ↓reduceIte, if_neg hsize, hoff]
  rw [List.drop_zero, hfile] at hscan ⊢
  rw [hscan]
  rcases hok with ⟨hawake, hwoke, hem⟩ | ⟨hasleep, hlate, hem⟩
  · rw [if_neg (by rw [hawake]; exact Bool.false_ne_true)]
    exact .inl ⟨hwoke, _, _, rfl, hem⟩
  · rw [if_pos hasleep]
    exact .inr ⟨hlate, hem⟩

end Timestamp

theorem not_delivers_nil (ms : List (List UInt8)) : ¬Delivers [] ms := by
  rintro ⟨packets, eos, h, _⟩
  exact absurd h.symm (List.append_ne_nil_of_right_ne_nil packets (List.cons_ne_nil eos []))

theorem Emitted.not_delivers {session : Vector UInt8 10} {seq : ℕ} {out : Output}
    {sent ms : List (List UInt8)} (h : Emitted session (fun _ => 1) seq out sent)
    (hlt : sent.length + 1 < 2 ^ 64) : ¬Delivers out.sent ms := by
  rintro ⟨front, eos, hsplit, _, _, hcount, _⟩
  obtain ⟨gs, rfl, hgs, _, _, hsent⟩ := h
  have hmem : eos ∈ packets session 1 gs := by
    have hlast : eos ∈ out.sent := by simp [hsplit]
    rw [hsent] at hlast
    obtain ⟨p, hp, heq⟩ := List.mem_flatMap.mp hlast
    rwa [List.eq_of_mem_replicate heq]
  obtain ⟨g, hg, k, hk, rfl⟩ := packets_mem hmem
  have hlen := length_le_blocks g
  have hfits := (hgs g hg).2
  rw [(dataPacket_reads session (hgs g hg) (by omega)).messageCount] at hcount
  simp only [maxMsgPayload, packetSize, headerSize] at hfits
  omega

theorem timestampFeed_delivers_iff {file : ItchFile} {ms : List (List UInt8)} {tail : List UInt8}
    (hfile : file.bytes = ms.flatMap block ++ tail) (htail : Incomplete tail)
    (hms : ∀ m ∈ ms, 11 ≤ m.length ∧ m.length ≤ 1430) (hlt : ms.length + 1 < 2 ^ 64)
    (hoff : initialFileOffset file.bytes.length = 0) (session : Vector UInt8 10)
    (pacing : Pacing) :
    Delivers (timestampFeed session pacing file).sent ms ↔
      pacing.invalidSpeed = false ∧ file.bytes ≠ [] ∧
        ∀ m₀ ∈ ms.head?, ∀ m ∈ ms, pacing.Wakes (msgTimestamp m₀) m := by
  by_cases hspeed : pacing.invalidSpeed = true
  · simp [timestampFeed, hspeed, not_delivers_nil]
  rw [Bool.not_eq_true] at hspeed
  by_cases hne : file.bytes = []
  · simp [timestampFeed, hspeed, hne, not_delivers_nil]
  obtain ⟨first, hfirst⟩ : ∃ first, ∀ m ∈ ms.head?, msgTimestamp m = first := by
    cases ms with
    | nil => exact ⟨0, by simp⟩
    | cons m ms => exact ⟨msgTimestamp m, by simp⟩
  rcases timestampFeed_emits pacing session hfile hms htail hlt hoff hne hspeed first hfirst with
    ⟨hwoke, seq, out, hrun, hem⟩ | ⟨⟨m, hm, hlate⟩, seq, out, hpre, hem⟩
  · rw [hrun]
    refine iff_of_true (hem.delivers (fun _ => rfl) hlt) ⟨hspeed, hne, fun m₀ hm₀ m hm => ?_⟩
    rw [hfirst m₀ hm₀]
    exact hwoke m hm
  · have hsent := hpre.length_le
    refine iff_of_false (hem.not_delivers (by omega)) fun h => hlate ?_
    obtain ⟨m₀, hm₀⟩ := Option.ne_none_iff_exists'.mp
      (fun h => List.ne_nil_of_mem hm (List.head?_eq_none_iff.mp h))
    rw [← hfirst m₀ hm₀]
    exact h.2.2 m₀ hm₀ m hm

/-- For a file that is replayed from its first byte and whose complete messages have 11 to 1430
bytes: `bulk_feed` without drops and duplicates delivers them however the reads are split, and
`timestamp_feed` delivers them exactly if the speed is accepted, the file is not empty and the
process lives until the time of every message has come. -/
theorem feeds_deliver {file : ItchFile} {ms : List (List UInt8)} {tail : List UInt8}
    (hfile : file.bytes = ms.flatMap block ++ tail) (htail : Incomplete tail)
    (hms : ∀ m ∈ ms, 11 ≤ m.length ∧ m.length ≤ 1430)
    (hoff : initialFileOffset file.bytes.length = 0) (session : Vector UInt8 10) :
    (∀ split, ∃ out, bulkFeed ⟨session, 0, 0⟩ split file = some out ∧ Delivers out.sent ms) ∧
    ∀ pacing, Delivers (timestampFeed session pacing file).sent ms ↔
      pacing.invalidSpeed = false ∧ file.bytes ≠ [] ∧
        ∀ m₀ ∈ ms.head?, ∀ m ∈ ms,
          pacing.deltaNs (elapsedNs (msgTimestamp m₀) (msgTimestamp m)) ≤ pacing.lifetime := by
  have hlt : ms.length + 1 < 2 ^ 64 := by
    have hsize := file.size_lt
    have hlen := length_le_blocks ms
    rw [hfile, List.length_append] at hsize
    omega
  have hfits : Fits ms := by
    intro m hm
    have hhi := (hms m hm).2
    simp only [maxMsgPayload, packetSize, headerSize]
    omega
  constructor
  · intro split
    obtain ⟨seq, out, hrun, hem⟩ := bulkFeed_emits ⟨session, 0, 0⟩ split hfile hfits htail hlt hoff
    exact ⟨_, hrun, hem.delivers (fun k => by simp [BulkConfig.copies]) hlt⟩
  · exact timestampFeed_delivers_iff hfile htail hms hlt hoff session

def sampleSession : Vector UInt8 10 := Vector.replicate 10 55

/-- The original speed, in a process that is left running for a year. -/
def realTime : Pacing := ⟨false, id, 31536000 * 10 ^ 9⟩

/-- A message of `n` bytes with the time stamp `ts`. -/
def stamped (n ts : ℕ) : List UInt8 :=
  List.replicate 5 83 ++ writeBE 6 ts ++ List.replicate (n - 11) 65

/-- Two packets for two moments, and the beginning of a third message. -/
def sampleMessages : List (List UInt8) :=
  [stamped 12 1000000000, stamped 36 1000000000, stamped 36 3000000000]

def sampleFile : ItchFile where
  bytes := sampleMessages.flatMap block ++ [0, 40, 65]
  size_lt := by decide

theorem feeds_deliver_sampleFile :
    (∀ split, ∃ out, bulkFeed ⟨sampleSession, 0, 0⟩ split sampleFile = some out ∧
      Delivers out.sent sampleMessages) ∧
    (timestampFeed sampleSession realTime sampleFile).sent.map sequenceNumber = [1, 3, 4] ∧
    Delivers (timestampFeed sampleSession realTime sampleFile).sent sampleMessages := by
  have h := @feeds_deliver sampleFile sampleMessages [0, 40, 65] rfl (by decide) (by decide)
    (by decide) sampleSession
  exact ⟨h.1, by decide +kernel, (h.2 realTime).mpr ⟨rfl, by decide, by decide +kernel⟩⟩

def emptyFile : ItchFile := ⟨[], by decide⟩

/-- The second message is a second older than the first. -/
def agedMessages : List (List UInt8) := [stamped 12 3000000000, stamped 36 2000000000]

def agedFile : ItchFile where
  bytes := agedMessages.flatMap block
  size_lt := by decide

/-- Neither file has a message of a length that is not allowed, and both are replayed from their
first byte, but in timestamp mode neither session is ended: the empty file cannot be mapped, and
for the second packet of the other one the difference of the time stamps wraps, so that the feed
sleeps for centuries. -/
theorem emptyFile_not_ended :
    (emptyFile.bytes = ([] : List (List UInt8)).flatMap block ++ [] ∧ Incomplete [] ∧
      initialFileOffset emptyFile.bytes.length = 0 ∧
      (timestampFeed sampleSession realTime emptyFile).sent = [] ∧
      ¬Delivers (timestampFeed sampleSession realTime emptyFile).sent []) ∧
    agedFile.bytes = agedMessages.flatMap block ++ [] ∧
      (∀ m ∈ agedMessages, 11 ≤ m.length ∧ m.length ≤ 1430) ∧
      initialFileOffset agedFile.bytes.length = 0 ∧
      elapsedNs 3000000000 2000000000 = 2 ^ 64 - 10 ^ 9 ∧
      (timestampFeed sampleSession realTime agedFile).sent.map sequenceNumber = [1] ∧
      ¬Delivers (timestampFeed sampleSession realTime agedFile).sent agedMessages := by
  refine ⟨⟨rfl, by decide, by decide, rfl, not_delivers_nil []⟩, (List.append_nil _).symm,
    by decide, by decide, by decide, by decide +kernel, ?_⟩
  rintro ⟨front, eos, hsplit, _, hseq, _⟩
  have hsent : (timestampFeed sampleSession realTime agedFile).sent.map sequenceNumber = [1] := by
    decide +kernel
  rw [hsplit, List.map_append, List.map_singleton] at hsent
  have hlast := congrArg List.getLast? hsent
  rw [List.getLast?_concat, hseq] at hlast
  exact absurd hlast (by decide)

end TradingPipeline.Feed
