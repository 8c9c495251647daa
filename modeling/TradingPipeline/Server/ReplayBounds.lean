import TradingPipeline.Server.FeedDelivery

/-! # How far `timestamp_feed` fills its packet

The overflow test of `timestamp_feed` decides about the packet that is flushed; the message
then goes into the empty one unchecked. So the packet is overrun exactly by messages that
do not fit a packet alone.
-/
namespace TradingPipeline.Feed
open Lib Mold

/-- The complete messages of a file from the first one that is replayed. -/
def itchMessages (file : ItchFile) : List (List UInt8) :=
  messages (file.bytes.drop (initialFileOffset file.bytes.length))

/-- The variables of `timestamp_feed` after the messages `ms`. -/
def replayed (pacing : Pacing) (session : Vector UInt8 10) (ms : List (List UInt8)) : Replay :=
  ms.foldl (Replay.turn pacing session) Replay.start

theorem timestampFeed_eq {pacing : Pacing} (session : Vector UInt8 10) {file : ItchFile}
    (hspeed : pacing.invalidSpeed = false) (hne : file.bytes ≠ []) :
    timestampFeed session pacing file =
      (let s := (replayed pacing session (itchMessages file)).finish pacing session
      if s.asleep then s.out else s.out.endSession session s.seq) := by
  have hsize : file.bytes.length ≠ 0 := fun h => hne (List.eq_nil_of_length_eq_zero h)
  simp only [timestampFeed, hspeed, Bool.false_eq_true, ↓reduceIte, if_neg hsize,
    scanBlocks_messages]
  rfl

/-- The packet that is filled and those that were sent are within their bounds. -/
structure Replay.Bounded (s : Replay) : Prop where
  payload : s.filling.payload.length ≤ maxMsgPayload
  sent : ∀ p ∈ s.out.sent, p.length ≤ packetSize

section Turn
variable {pacing : Pacing} {session : Vector UInt8 10} {s : Replay} {m : List UInt8}

/-- A packet counts its messages, and so it is empty exactly if the count is zero. -/
structure Filling.Counted (p : Filling) : Prop where
  empty : p.msgCount = 0 → p.payload = []
  count : p.msgCount ≤ p.payload.length

theorem Filling.counted_empty : Filling.empty.Counted := ⟨fun _ => rfl, le_rfl⟩

theorem Filling.Counted.append {p : Filling} (h : p.Counted)
    (hle : p.payload.length ≤ maxMsgPayload) (m : List UInt8) : (p.append m).Counted := by
  have hcount := h.count
  simp only [maxMsgPayload, packetSize, headerSize] at hle
  have hnext : (p.append m).msgCount = p.msgCount + 1 := Nat.mod_eq_of_lt (by omega)
  refine ⟨fun hzero => by omega, ?_⟩
  rw [hnext, Filling.append, List.length_append, List.length_append, writeBE_length]
  omega

theorem Filling.append_length (p : Filling) (m : List UInt8) :
    (p.append m).payload.length = p.payload.length + 2 + m.length := by
  simp [Filling.append, Nat.add_assoc]

theorem Filling.packet_length (p : Filling) (session : Vector UInt8 10) (seq : ℕ) :
    (p.packet session seq).length = 20 + p.payload.length := by
  simp only [Filling.packet, MoldUdp64Header.encode, List.length_append, Vector.length_toList,
    writeBE_length]

theorem Replay.Bounded.flush (h : s.Bounded) :
    ∀ p ∈ (s.flush pacing session).out.sent, p.length ≤ packetSize := by
  unfold Replay.flush
  split
  · exact h.sent
  · intro p hp
    rcases List.mem_append.mp hp with hp | hp
    · exact h.sent p hp
    · have hlen := h.payload
      rw [List.eq_of_mem_replicate hp, Filling.packet_length]
      simp only [maxMsgPayload, packetSize, headerSize] at hlen ⊢
      omega

theorem Replay.flush_asleep (h : (s.flush pacing session).asleep = true) (hs : s.asleep = false) :
    s.flush pacing session = { s with asleep := true } := by
  unfold Replay.flush at h ⊢
  split
  · rfl
  · next hwakes =>
    rw [if_neg hwakes] at h
    exact absurd (hs.symm.trans h) Bool.false_ne_true

theorem Replay.flush_awake (h : (s.flush pacing session).asleep = false) :
    (s.flush pacing session).filling = Filling.empty := by
  unfold Replay.flush at h ⊢
  split
  · next hlate =>
    rw [if_pos hlate] at h
    exact absurd h.symm Bool.false_ne_true
  · rfl

/-- The packet into which a message of at least 11 bytes goes: the one at hand, or an empty one
after a flush. In a sleep that does not return it goes nowhere. -/
theorem Replay.turn_cases (pacing : Pacing) (session : Vector UInt8 10) (s : Replay)
    (hm : 11 ≤ m.length) :
    ((s.turn pacing session m).filling = s.filling ∧ (s.turn pacing session m).out = s.out ∧
      (s.turn pacing session m).asleep = true) ∨
    ((s.turn pacing session m).filling = s.filling.append m ∧
      (s.turn pacing session m).out = s.out ∧
      (s.filling.msgCount = 0 ∨ s.filling.overflows m = false)) ∨
    ((s.turn pacing session m).filling = Filling.empty.append m ∧
      (s.turn pacing session m).out = (s.flush pacing session).out) := by
  by_cases hasleep : s.asleep = true
  · left
    rw [Replay.turn, if_pos (by rw [hasleep]; rfl)]
    exact ⟨rfl, rfl, hasleep⟩
  rw [Bool.not_eq_true] at hasleep
  rw [Replay.turn, if_neg (by simp [hasleep, Nat.not_lt.mpr hm])]
  by_cases hzero : s.filling.msgCount = 0
  · obtain ⟨hfill, hout, hstill, -⟩ := s.beginPacket_frame (msgTimestamp m)
    right; left
    simp [hzero, hfill, hout, hstill, hasleep]
  · simp only [if_neg hzero]
    split
    · by_cases hlate : (s.flush pacing session).asleep = true
      · left
        have hflush := Replay.flush_asleep hlate hasleep
        simp [hflush]
      · rw [Bool.not_eq_true] at hlate
        right; right
        simp [hlate, Replay.flush_awake hlate]
    · next hstay =>
      right; left
      simp only [hasleep, Bool.false_eq_true, ↓reduceIte]
      refine ⟨trivial, trivial, .inr ?_⟩
      rw [← Bool.not_eq_true]
      exact fun hover => hstay ⟨Nat.pos_of_ne_zero hzero, .inr hover⟩

theorem Replay.Bounded.turn (h : s.Bounded) (hc : s.filling.Counted)
    (hm : 11 ≤ m.length → m.length ≤ 1430) :
    (s.turn pacing session m).Bounded ∧ (s.turn pacing session m).filling.Counted := by
  by_cases hlen : m.length < 11
  · rw [Replay.turn, if_pos (by simp [hlen])]
    exact ⟨h, hc⟩
  · have hhi := hm (by omega)
    have halone : (Filling.empty.append m).payload.length ≤ maxMsgPayload := by
      rw [Filling.append_length]
      simp only [Filling.empty, List.length_nil, maxMsgPayload, packetSize, headerSize]
      omega
    rcases Replay.turn_cases pacing session s (by omega : 11 ≤ m.length) with
      ⟨hfill, hout, -⟩ | ⟨hfill, hout, hroom⟩ | ⟨hfill, hout⟩
    · exact ⟨⟨hfill ▸ h.payload, hout ▸ h.sent⟩, hfill ▸ hc⟩
    · refine ⟨⟨?_, ?_⟩, hfill ▸ hc.append h.payload m⟩
      · rw [hfill]
        rcases hroom with hzero | hfits
        · rw [Filling.append_length, hc.empty hzero]
          rwa [Filling.append_length] at halone
        · rw [Filling.append_length]
          simpa [Filling.overflows] using hfits
      · rw [hout]
        exact h.sent
    · refine ⟨⟨?_, ?_⟩, hfill ▸ Filling.counted_empty.append (Nat.zero_le _) m⟩
      · rw [hfill]
        exact halone
      · rw [hout]
        exact h.flush

theorem Replay.turn_overrun (pacing : Pacing) (session : Vector UInt8 10) (s : Replay)
    (hm : 1430 < m.length) (hawake : (s.turn pacing session m).asleep = false) :
    maxMsgPayload < (s.turn pacing session m).filling.payload.length := by
  have hlen : ∀ p : Filling, maxMsgPayload < (p.append m).payload.length := by
    intro p
    rw [Filling.append_length]
    simp only [maxMsgPayload, packetSize, headerSize]
    omega
  rcases Replay.turn_cases pacing session s (by omega : 11 ≤ m.length) with
    ⟨-, -, hasleep⟩ | ⟨hfill, -, -⟩ | ⟨hfill, -⟩
  · exact absurd (hawake.symm.trans hasleep) Bool.false_ne_true
  · rw [hfill]
    exact hlen _
  · rw [hfill]
    exact hlen _

theorem Replay.turn_awake (hwakes : ∀ n, pacing.deltaNs n ≤ pacing.lifetime)
    (hs : s.asleep = false) : (s.turn pacing session m).asleep = false := by
  have hflush : (s.flush pacing session).asleep = false := by
    rw [Replay.flush, if_neg (Nat.not_lt.mpr (hwakes _))]
    exact hs
  unfold Replay.turn
  split
  · exact hs
  by_cases hzero : s.filling.msgCount = 0
  · obtain ⟨hfill, -, hstill, -⟩ := s.beginPacket_frame (msgTimestamp m)
    simp [hzero, hfill, hstill, hs]
  · simp only [if_neg hzero]
    split <;> simp [hs, hflush]

end Turn

section Files
variable {pacing : Pacing} {session : Vector UInt8 10} {ms : List (List UInt8)}

theorem replayed_snoc (pacing : Pacing) (session : Vector UInt8 10) (ms : List (List UInt8))
    (m : List UInt8) :
    replayed pacing session (ms ++ [m]) = (replayed pacing session ms).turn pacing session m := by
  rw [replayed, List.foldl_append]
  rfl

theorem replayed_bounded (h : ∀ m ∈ ms, 11 ≤ m.length → m.length ≤ 1430) :
    (replayed pacing session ms).Bounded ∧ (replayed pacing session ms).filling.Counted := by
  induction ms using List.reverseRecOn with
  | nil => exact ⟨⟨Nat.zero_le _, by simp [replayed, Replay.start]⟩, Filling.counted_empty⟩
  | append_singleton ms m ih =>
    obtain ⟨hbounded, hcounted⟩ := ih fun x hx => h x (List.mem_append_left _ hx)
    rw [replayed_snoc]
    exact hbounded.turn hcounted (h m (by simp))

theorem replayed_awake (hwakes : ∀ n, pacing.deltaNs n ≤ pacing.lifetime) :
    (replayed pacing session ms).asleep = false := by
  induction ms using List.reverseRecOn with
  | nil => rfl
  | append_singleton ms m ih =>
    rw [replayed_snoc]
    exact Replay.turn_awake hwakes ih

theorem Replay.Bounded.finish {s : Replay} (h : s.Bounded) :
    ∀ p ∈ (s.finish pacing session).out.sent, p.length ≤ packetSize := by
  unfold Replay.finish
  split
  · exact h.sent
  · split
    · exact h.flush
    · exact h.sent

theorem Replay.Bounded.timestampFeed {file : ItchFile}
    (h : (replayed pacing session (itchMessages file)).Bounded) :
    ∀ p ∈ (timestampFeed session pacing file).sent, p.length ≤ packetSize := by
  by_cases hspeed : pacing.invalidSpeed = true
  · simp [Feed.timestampFeed, hspeed]
  rw [Bool.not_eq_true] at hspeed
  by_cases hne : file.bytes = []
  · simp [Feed.timestampFeed, hspeed, hne]
  rw [timestampFeed_eq session hspeed hne]
  dsimp only
  split
  · exact h.finish
  · intro p hp
    rcases List.mem_append.mp hp with hp | hp
    · exact h.finish p hp
    · rw [List.mem_singleton.mp hp]
      simp [endOfSession, MoldUdp64Header.encode, packetSize, headerSize]

end Files

/-- `payload_used` is within its bound after every message, and so is every packet that is sent. -/
def StaysBounded (pacing : Pacing) (session : Vector UInt8 10) (file : ItchFile) : Prop :=
  (∀ front, front <+: itchMessages file →
    (replayed pacing session front).filling.payload.length ≤ maxMsgPayload) ∧
  ∀ p ∈ (timestampFeed session pacing file).sent, p.length ≤ packetSize

theorem staysBounded_of_short {pacing : Pacing} {session : Vector UInt8 10} {file : ItchFile}
    (h : ∀ m ∈ itchMessages file, 11 ≤ m.length → m.length ≤ 1430) :
    StaysBounded pacing session file := by
  refine ⟨fun front hfront => ?_, (replayed_bounded h).1.timestampFeed⟩
  exact (replayed_bounded fun m hm => h m (hfront.subset hm)).1.payload

/-- `timestamp_feed` keeps its packet and everything it sends within their bounds if no message that
it packs is longer than 1430 bytes. If all its sleeps return, so that it gets to every message,
this is the only way. -/
theorem replay_bounded_iff (pacing : Pacing) (session : Vector UInt8 10) (file : ItchFile) :
    ((∀ m ∈ itchMessages file, 11 ≤ m.length → m.length ≤ 1430) →
      StaysBounded pacing session file) ∧
    ((∀ n, pacing.deltaNs n ≤ pacing.lifetime) →
      (StaysBounded pacing session file ↔
        ∀ m ∈ itchMessages file, 11 ≤ m.length → m.length ≤ 1430)) := by
  refine ⟨staysBounded_of_short, fun hwakes => ⟨?_, staysBounded_of_short⟩⟩
  rintro ⟨hpayload, -⟩ m hm -
  obtain ⟨front, rest, hsplit⟩ := List.append_of_mem hm
  have hle := hpayload (front ++ [m]) ⟨rest, by rw [hsplit]; simp⟩
  rw [replayed_snoc] at hle
  by_contra hlong
  have hgt := Replay.turn_overrun pacing session (replayed pacing session front)
    (Nat.lt_of_not_le hlong) (Replay.turn_awake hwakes (replayed_awake hwakes))
  omega

/-- The original speed, in a process that outlives every sleep of 64 bits. -/
def patient : Pacing := ⟨false, fun n => n % 2 ^ 64, 2 ^ 64⟩

theorem patient_wakes (n : ℕ) : patient.deltaNs n ≤ patient.lifetime :=
  (Nat.mod_lt n (Nat.two_pow_pos 64)).le

theorem replay_bounded_iff_sampleFile :
    StaysBounded realTime sampleSession sampleFile ∧
    StaysBounded patient sampleSession sampleFile ∧
    ∀ m ∈ itchMessages sampleFile, 11 ≤ m.length → m.length ≤ 1430 := by
  have hshort := (replay_bounded_iff realTime sampleSession sampleFile).1 (by decide +kernel)
  have hiff := (replay_bounded_iff patient sampleSession sampleFile).2 patient_wakes
  have hpatient := hiff.mpr (by decide +kernel)
  exact ⟨hshort, hpatient, hiff.mp hpatient⟩

def longMessage : List UInt8 := List.replicate 1431 83

theorem longMessage_length : longMessage.length = 1431 := List.length_replicate

theorem block_longMessage_length : (block longMessage).length = 1433 := by
  rw [block_length, longMessage_length]

def longFile : ItchFile where
  bytes := block longMessage
  size_lt := by rw [block_longMessage_length]; decide

theorem itchMessages_longFile : itchMessages longFile = [longMessage] := by
  have hoff : initialFileOffset longFile.bytes.length = 0 := by
    rw [show longFile.bytes.length = 1433 from block_longMessage_length]
    rfl
  have hsize : ∀ m ∈ [longMessage], m.length < 2 ^ 16 := by
    intro m hm
    rw [List.mem_singleton.mp hm, longMessage_length]
    decide
  have hblock := messages_blocks hsize
  rw [List.flatMap_singleton] at hblock
  rw [itchMessages, hoff, List.drop_zero]
  exact hblock

/-- The message is copied one byte past the end of the packet, and a packet of 1453 bytes is
sent. -/
theorem longMessage_overruns :
    (replayed realTime sampleSession (itchMessages longFile)).filling.payload.length = 1433 ∧
      maxMsgPayload = 1432 ∧
      ∃ p ∈ (timestampFeed sampleSession realTime longFile).sent, p.length = 1453 := by
  have hne : longFile.bytes ≠ [] := by
    intro h
    have := block_longMessage_length
    rw [show block longMessage = [] from h] at this
    cases this
  let s : Replay := { Replay.start.beginPacket (msgTimestamp longMessage) with
    filling := Filling.empty.append longMessage }
  have hturn : replayed realTime sampleSession [longMessage] = s := by
    rw [show [longMessage] = [] ++ [longMessage] from rfl, replayed_snoc, Replay.turn,
      if_neg (by rw [longMessage_length]; decide)]
    rfl
  have hlen : s.filling.payload.length = 1433 := by
    rw [Filling.append_length, longMessage_length]
    rfl
  -- the first packet is due at once
  have hnow : elapsedNs (msgTimestamp longMessage) (msgTimestamp longMessage) = 0 := by
    decide +kernel
  have hflush : s.finish realTime sampleSession = { s with
      out := s.out.send sampleSession s.seq s.filling 1
      seq := (s.seq + s.filling.msgCount) % 2 ^ 64
      filling := Filling.empty } := by
    have hdue : ¬realTime.lifetime < realTime.deltaNs
      (elapsedNs s.firstPacketTs s.currentPacketTs) := by
      rw [show elapsedNs s.firstPacketTs s.currentPacketTs = 0 from hnow]
      decide
    rw [Replay.finish, if_neg (by decide), if_pos (by decide), Replay.flush, if_neg hdue]
  refine ⟨by rw [itchMessages_longFile, hturn, hlen], rfl, ?_⟩
  rw [timestampFeed_eq sampleSession rfl hne, itchMessages_longFile, hturn, hflush]
  refine ⟨s.filling.packet sampleSession s.seq,
    List.mem_append_left _ (List.mem_append_right _ (List.mem_singleton_self _)), ?_⟩
  rw [Filling.packet_length, hlen]

end TradingPipeline.Feed
