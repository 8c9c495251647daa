import TradingPipeline.Server.FeedDelivery

/-! # What a feed sends, in every mode

`feed_thread` replays its file in one of four modes. They differ in how the messages are grouped
into packets and in how often a packet is sent: not at all, once or twice. In all of them every
packet is cached before it is sent, and those that are not sent are cached as well.
-/
namespace TradingPipeline.Feed
open Lib Mold

/-- `feed_config_t::mode`. -/
inductive Mode
  | normal
  | lossy
  | chaotic
  | timestamp
  | unknown
  deriving DecidableEq, Repr

/-- The `switch` of `feed_thread`. -/
def feedThread (session : Vector UInt8 10) (pacing : Pacing) (split : ℕ → ℕ) (file : ItchFile) :
    Mode → Option Output
  | .normal => bulkFeed ⟨session, 0, 0⟩ split file
  | .lossy => bulkFeed ⟨session, 100, 0⟩ split file
  | .chaotic => bulkFeed ⟨session, 0, 10⟩ split file
  | .timestamp => some (timestampFeed session pacing file)
  | .unknown => some ⟨[], []⟩

/-- How often the packet goes out whose first message has the number `seq`. -/
def Mode.copies : Mode → ℕ → ℕ
  | .lossy, seq => if seq % 100 = 0 then 0 else 1
  | .chaotic, seq => if seq % 10 = 0 then 2 else 1
  | _, _ => 1

/-- The packets that a feed makes of its messages, and how often each is sent. -/
structure Plan where
  session : Vector UInt8 10
  copies : ℕ → ℕ
  groups : List (List (List UInt8))
  fit : ∀ g ∈ groups, PacketGroup g
  few : groups.flatten.length + 1 < 2 ^ 64

namespace Plan
variable (plan : Plan)

def messages : List (List UInt8) := plan.groups.flatten

def packets : List (List UInt8) := Mold.packets plan.session 1 plan.groups

def airs (p : List UInt8) : List (List UInt8) := List.replicate (plan.copies (sequenceNumber p)) p

def endPacket : List UInt8 := endOfSession plan.session (plan.messages.length + 1)

def output : Output where
  cached := plan.packets.map (cacheCall plan.session)
  sent := plan.packets.flatMap plan.airs ++ [plan.endPacket]

theorem carries : Carries plan.packets plan.messages := packets_carry plan.fit plan.few

theorem tiles : Tiles sequenceNumber endSequence 1 plan.packets (plan.messages.length + 1) :=
  plan.carries.contiguous

theorem endPacket_count : messageCount plan.endPacket = 0xFFFF := by
  have hdecode := decode_encode (h := ⟨plan.session.toList, plan.messages.length + 1, 0xFFFF⟩)
    (by simp) plan.few (by simp) []
  rw [List.append_nil] at hdecode
  rw [messageCount, endPacket, endOfSession, hdecode]

variable {plan} {p : List UInt8}

theorem mem_bounds (hp : p ∈ plan.packets) : 1 ≤ sequenceNumber p ∧
    sequenceNumber p < endSequence p ∧ endSequence p ≤ plan.messages.length + 1 :=
  plan.tiles.bounds hp

theorem mem_length (hp : p ∈ plan.packets) : headerSize ≤ p.length ∧ p.length ≤ packetSize := by
  refine ⟨?_, plan.carries.size p hp⟩
  obtain ⟨g, _, k, _, rfl⟩ := packets_mem hp
  rw [dataPacket_length]
  exact Nat.le_add_right _ _

theorem mem_count (hp : p ∈ plan.packets) : messageCount p ≠ 0 := by
  have hlt := (mem_bounds hp).2.1
  rw [endSequence] at hlt
  omega

theorem flatMap_messages : (plan.packets.flatMap fun p => Mold.messages (blocks p)) =
    plan.messages := by
  have hnumbered := congrArg (List.map Prod.fst) plan.carries.numbered
  rw [List.map_flatMap, List.zipIdx_map_fst] at hnumbered
  simpa only [numbered, List.zipIdx_map_fst] using hnumbered

theorem length_messages {l : List (List UInt8)} (hl : l ⊆ plan.packets) {a b : ℕ}
    (htiles : Tiles sequenceNumber endSequence a l b) :
    (l.flatMap fun q => Mold.messages (blocks q)).length = b - a := by
  have hcount : ∀ q ∈ l, (Mold.messages (blocks q)).length = endSequence q - sequenceNumber q := by
    intro q hq
    rw [← plan.carries.counts q (hl hq), endSequence, Nat.add_sub_cancel_left]
  rw [List.length_flatMap, List.map_congr_left hcount]
  have htotal := htiles.total
  omega

theorem messages_from {pre post : List (List UInt8)} (h : plan.packets = pre ++ p :: post) :
    ((p :: post).flatMap fun q => Mold.messages (blocks q)) =
      plan.messages.drop (sequenceNumber p - 1) := by
  have htiles := plan.tiles
  rw [h] at htiles
  obtain ⟨m, hpre, hpost⟩ := htiles.append_split
  have hm : m = sequenceNumber p := hpost.1.symm
  have hlen := length_messages (by rw [h]; exact List.subset_append_left _ _) hpre
  rw [hm] at hlen
  rw [← flatMap_messages, h, List.flatMap_append, ← hlen, List.drop_left]

end Plan

theorem Emitted.plan {session : Vector UInt8 10} {copies : ℕ → ℕ} {seq : ℕ} {out : Output}
    {ms : List (List UInt8)} (h : Emitted session copies seq out ms)
    (hfew : ms.length + 1 < 2 ^ 64) :
    ∃ plan : Plan, plan.session = session ∧ plan.copies = copies ∧ plan.messages = ms ∧
      out.endSession session seq = plan.output := by
  obtain ⟨gs, rfl, hgs, rfl, hcached, hsent⟩ := h
  refine ⟨⟨session, copies, gs, hgs, hfew⟩, rfl, rfl, rfl, ?_⟩
  rw [Output.endSession, hcached, hsent]
  rfl

section Modes
variable {file : ItchFile} {ms : List (List UInt8)} {tail : List UInt8}

theorem length_lt_of_file (hfile : file.bytes = ms.flatMap block ++ tail) :
    ms.length + 1 < 2 ^ 64 := by
  have hsize := file.size_lt
  have hlen := length_le_blocks ms
  rw [hfile, List.length_append] at hsize
  omega

theorem bulkFeed_plan (cfg : BulkConfig) (split : ℕ → ℕ)
    (hfile : file.bytes = ms.flatMap block ++ tail) (hms : Fits ms) (htail : Incomplete tail)
    (hoff : initialFileOffset file.bytes.length = 0) :
    ∃ plan : Plan, plan.messages = ms ∧ plan.copies = cfg.copies ∧
      bulkFeed cfg split file = some plan.output := by
  have hfew := length_lt_of_file hfile
  obtain ⟨seq, out, hrun, hem⟩ := bulkFeed_emits cfg split hfile hms htail hfew hoff
  obtain ⟨plan, _, hcopies, hmessages, hout⟩ := hem.plan hfew
  exact ⟨plan, hmessages, hcopies, by rw [hrun, hout]⟩

/-- The messages that every mode carries: they fit a packet, and `timestamp_feed` skips none. -/
def Replayable (ms : List (List UInt8)) : Prop := ∀ m ∈ ms, 11 ≤ m.length ∧ m.length ≤ 1430

theorem Replayable.fits (h : Replayable ms) : Fits ms := by
  intro m hm
  have hhi := (h m hm).2
  simp only [maxMsgPayload, packetSize, headerSize]
  omega

/-- `timestamp_feed` takes the speed, and all its sleeps return. -/
structure Pacing.ReachesEnd (pacing : Pacing) (ms : List (List UInt8)) : Prop where
  speed : pacing.invalidSpeed = false
  wakes : ∀ m₀ ∈ ms.head?, ∀ m ∈ ms, pacing.Wakes (msgTimestamp m₀) m

theorem timestampFeed_plan (session : Vector UInt8 10) {pacing : Pacing}
    (hpacing : pacing.ReachesEnd ms) (hfile : file.bytes = ms.flatMap block ++ tail)
    (hms : Replayable ms) (htail : Incomplete tail)
    (hoff : initialFileOffset file.bytes.length = 0) (hne : file.bytes ≠ []) :
    ∃ plan : Plan, plan.messages = ms ∧ plan.copies = (fun _ => 1) ∧
      timestampFeed session pacing file = plan.output := by
  have hfew := length_lt_of_file hfile
  obtain ⟨first, hfirst, hwakes⟩ : ∃ first, (∀ m ∈ ms.head?, msgTimestamp m = first) ∧
      ∀ m ∈ ms, pacing.Wakes first m := by
    cases ms with
    | nil => exact ⟨0, by simp⟩
    | cons m ms => exact ⟨msgTimestamp m, by simp, hpacing.wakes m rfl⟩
  rcases timestampFeed_emits pacing session hfile hms htail hfew hoff hne hpacing.speed first
    hfirst with ⟨_, seq, out, hrun, hem⟩ | ⟨⟨m, hm, hlate⟩, _⟩
  · obtain ⟨plan, _, hcopies, hmessages, hout⟩ := hem.plan hfew
    exact ⟨plan, hmessages, hcopies, by rw [hrun, hout]⟩
  · exact absurd (hwakes m hm) hlate

/-- In each of its modes the feed thread makes packets of the messages of its file. -/
theorem feedThread_plan (session : Vector UInt8 10) {pacing : Pacing} (split : ℕ → ℕ) {mode : Mode}
    (hmode : mode ≠ .unknown) (hpacing : mode = .timestamp → pacing.ReachesEnd ms)
    (hfile : file.bytes = ms.flatMap block ++ tail)
    (hms : Replayable ms) (htail : Incomplete tail)
    (hoff : initialFileOffset file.bytes.length = 0) (hne : file.bytes ≠ []) :
    ∃ plan : Plan, plan.messages = ms ∧ plan.copies = mode.copies ∧
      feedThread session pacing split file mode = some plan.output := by
  have hbulk : ∀ (cfg : BulkConfig) (copies : ℕ → ℕ), (∀ seq, cfg.copies seq = copies seq) →
      ∃ plan : Plan, plan.messages = ms ∧ plan.copies = copies ∧
        bulkFeed cfg split file = some plan.output := by
    intro cfg copies hcfg
    obtain ⟨plan, hmessages, hcopies, hrun⟩ := bulkFeed_plan cfg split hfile hms.fits htail hoff
    exact ⟨plan, hmessages, hcopies.trans (funext hcfg), hrun⟩
  cases mode with
  | normal => exact hbulk _ _ fun seq => by simp [BulkConfig.copies, Mode.copies]
  | lossy => exact hbulk _ _ fun seq => by simp [BulkConfig.copies, Mode.copies]
  | chaotic => exact hbulk _ _ fun seq => by simp [BulkConfig.copies, Mode.copies]
  | timestamp =>
    obtain ⟨plan, hmessages, hcopies, hout⟩ :=
      timestampFeed_plan session (hpacing rfl) hfile hms htail hoff hne
    exact ⟨plan, hmessages, hcopies, by rw [feedThread, hout]⟩
  | unknown => exact absurd rfl hmode

end Modes

end TradingPipeline.Feed
