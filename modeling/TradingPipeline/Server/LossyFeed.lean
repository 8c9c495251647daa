import TradingPipeline.Server.Plan

/-! # What is withheld can be asked for

`LOSSY_MODE` leaves out the packets whose first message has a number that is a multiple of 100,
which is not every hundredth packet, and `CHAOTIC_MODE` repeats those whose first number is a
multiple of 10. The retransmit cache has all of them.
-/
namespace TradingPipeline.Feed
open Lib Mold Rewinder

section Cache
variable {plan : Plan} {ps : List (List UInt8)} {p : List UInt8}

theorem Plan.mem_count_lt (hp : p ∈ plan.packets) : messageCount p < 2 ^ 16 := by
  obtain ⟨g, hg, k, hk, rfl⟩ := packets_mem hp
  have hgroup := plan.fit g hg
  have hfew := plan.few
  rw [(dataPacket_reads plan.session hgroup (by omega)).messageCount]
  exact hgroup.length_lt

theorem Plan.feeds (hps : ps <+: plan.packets) (hfew : ps.length < 2 ^ 32) :
    Feeds (ps.map (cacheCall plan.session)) where
  few := by rwa [List.length_map]
  tiles := by
    obtain ⟨rest, hrest⟩ := hps
    have htiles := plan.tiles
    rw [← hrest] at htiles
    obtain ⟨stop, hfront, _⟩ := htiles.append_split
    exact ⟨stop, tiles_map.mpr hfront⟩
  count_lt c hc := by
    obtain ⟨p, hp, rfl⟩ := List.mem_map.mp hc
    exact Plan.mem_count_lt (hps.subset hp)
  len_le c hc := by
    obtain ⟨p, hp, rfl⟩ := List.mem_map.mp hc
    exact le_trans (Plan.mem_length (hps.subset hp)).2 (by decide)

theorem recent_calls (session : Vector UInt8 10) (ps : List (List UInt8)) :
    recent (ps.map (cacheCall session)) = (newest 65536 ps).map (cacheCall session) := by
  rw [recent, newest, newest, List.map_drop, List.length_map]
  unfold rewinderCacheSlots
  rfl

/-- A request is answered with the packet that covers its number, and those that follow. -/
theorem Plan.handleRequest_eq (hps : ps <+: plan.packets) (hfew : ps.length < 2 ^ 32)
    {pre post : List (List UInt8)} (hrecent : newest 65536 ps = pre ++ p :: post)
    {request : List UInt8} (hlen : headerSize ≤ request.length) (hcnt : 0 < messageCount request)
    (hlo : sequenceNumber p ≤ sequenceNumber request)
    (hhi : sequenceNumber request < endSequence p) :
    (cacheAfter (ps.map (cacheCall plan.session))).handleRequest request =
      (served (sequenceNumber request + messageCount request) rewinderMaxReplay
        ((p :: post).map (cacheCall plan.session))).map Sent.packet := by
  have hreq : (request.take headerSize).length = headerSize := List.length_take_of_le hlen
  have hseq : sequenceNumber (request.take headerSize) = sequenceNumber request := by
    rw [sequenceNumber, sequenceNumber, decode_take]
  have hcount : messageCount (request.take headerSize) = messageCount request := by
    rw [messageCount, messageCount, decode_take]
  have hcalls : recent (ps.map (cacheCall plan.session)) =
      pre.map (cacheCall plan.session) ++ cacheCall plan.session p ::
        post.map (cacheCall plan.session) := by
    rw [recent_calls, hrecent, List.map_append, List.map_cons]
  have hreplay := (Plan.feeds hps hfew).replay_eq hcalls
    (show (cacheCall plan.session p).Covers (sequenceNumber request) from ⟨hlo, hhi⟩) hcnt
    rewinderMaxReplay
  rw [List.map_cons, ← hreplay, Cache.handleRequest, if_neg (not_not.mpr hreq), hseq, hcount,
    List.map_map]
  rfl

theorem Plan.handleRequest_head (hps : ps <+: plan.packets) (hfew : ps.length < 2 ^ 32)
    (hp : p ∈ newest 65536 ps) {request : List UInt8} (hlen : headerSize ≤ request.length)
    (hcnt : 0 < messageCount request) (hlo : sequenceNumber p ≤ sequenceNumber request)
    (hhi : sequenceNumber request < endSequence p) :
    ((cacheAfter (ps.map (cacheCall plan.session))).handleRequest request).head? = some p := by
  obtain ⟨pre, post, hrecent⟩ := List.append_of_mem hp
  rw [Plan.handleRequest_eq hps hfew hrecent hlen hcnt hlo hhi]
  rfl

theorem Plan.count_sent (hp : p ∈ plan.packets) :
    plan.output.sent.count p = plan.copies (sequenceNumber p) := by
  obtain ⟨pre, post, hsplit⟩ := List.append_of_mem hp
  have htiles := plan.tiles
  rw [hsplit] at htiles
  obtain ⟨hpre, hpost⟩ := htiles.not_mem_of_append
  have hothers : ∀ l : List (List UInt8), p ∉ l → (l.flatMap plan.airs).count p = 0 := by
    intro l hl
    refine List.count_eq_zero.mpr fun hmem => hl ?_
    obtain ⟨q, hq, hair⟩ := List.mem_flatMap.mp hmem
    rwa [List.eq_of_mem_replicate hair]
  have hend : [plan.endPacket].count p = 0 := by
    refine List.count_eq_zero.mpr fun hmem => ?_
    have hcount := plan.endPacket_count
    rw [← List.mem_singleton.mp hmem] at hcount
    obtain ⟨g, hg, k, hk, rfl⟩ := packets_mem hp
    have hgroup := plan.fit g hg
    have hfew := plan.few
    rw [(dataPacket_reads plan.session hgroup (by omega)).messageCount] at hcount
    have hlen := length_le_blocks g
    have hle := hgroup.2
    simp only [maxMsgPayload, packetSize, headerSize] at hle
    omega
  rw [Plan.output, List.count_append, hend, hsplit, List.flatMap_append, List.flatMap_cons,
    List.count_append, List.count_append, hothers pre hpre, hothers post hpost, Plan.airs,
    List.count_replicate_self]
  omega

end Cache

/-- In every mode, if the sleeps of `TIMESTAMP_MODE` return, the packets carry the messages of the
file, and a packet is sent none, one or two times by the number of its first message. At every
moment the 65536 packets made last can be had from the rewinder with the bytes they were made
with, those that were never sent among them. -/
theorem withheld_packets_recoverable {file : ItchFile} {ms : List (List UInt8)} {tail : List UInt8}
    (session : Vector UInt8 10) {pacing : Pacing} (split : ℕ → ℕ) {mode : Mode}
    (hmode : mode ≠ .unknown) (hpacing : mode = .timestamp → pacing.ReachesEnd ms)
    (hfile : file.bytes = ms.flatMap block ++ tail) (hms : Replayable ms) (htail : Incomplete tail)
    (hoff : initialFileOffset file.bytes.length = 0) (hne : file.bytes ≠ []) :
    ∃ out ps, feedThread session pacing split file mode = some out ∧ Carries ps ms ∧
      (∀ p ∈ ps, out.sent.count p = mode.copies (sequenceNumber p)) ∧
      ∀ k, (ps.take k).length < 2 ^ 32 → ∀ p ∈ newest 65536 (ps.take k), ∀ request : List UInt8,
        headerSize ≤ request.length → 0 < messageCount request →
        sequenceNumber p ≤ sequenceNumber request → sequenceNumber request < endSequence p →
        ((cacheAfter (out.cached.take k)).handleRequest request).head? = some p := by
  obtain ⟨plan, rfl, hcopies, hrun⟩ :=
    feedThread_plan session split hmode hpacing hfile hms htail hoff hne
  refine ⟨plan.output, plan.packets, hrun, plan.carries, ?_, ?_⟩
  · intro p hp
    rw [Plan.count_sent hp, hcopies]
  · intro k hfew p hp request hlen hcnt hlo hhi
    have hcalls : plan.output.cached.take k = (plan.packets.take k).map
      (cacheCall plan.session) := by
      rw [Plan.output, List.map_take]
    rw [hcalls]
    exact Plan.handleRequest_head (List.take_prefix k _) hfew hp hlen hcnt hlo hhi

/-- The hundredth message does not fit behind the others. -/
def lossyMessages : List (List UInt8) :=
  List.replicate 99 (stamped 11 1000000000) ++ [stamped 1430 2000000000]

def lossyFile : ItchFile where
  bytes := lossyMessages.flatMap block
  size_lt := by decide +kernel

theorem lossyFile_output :
    (feedThread sampleSession realTime (fun _ => 65536) lossyFile .lossy).map
      (fun out => (out.cached.map Sent.startSeq, out.sent.map sequenceNumber)) =
      some ([1, 100], [1, 101]) := by
  decide +kernel

theorem lossyMessages_replayable : Replayable lossyMessages := by
  unfold Replayable
  decide +kernel

/-- Of the lossy feed the second packet is cached, and only the first one and the end of the session
are sent. The paced feed of another file sends each of its packets once. -/
theorem withheld_packets_recoverable_lossyFile :
    (∃ out ps, feedThread sampleSession realTime (fun _ => 65536) lossyFile .lossy = some out ∧
      out.cached.map Sent.startSeq = [1, 100] ∧ out.sent.map sequenceNumber = [1, 101] ∧
      Carries ps lossyMessages ∧
      (∀ p ∈ ps, out.sent.count p = if sequenceNumber p % 100 = 0 then 0 else 1) ∧
      ∀ p ∈ newest 65536 (ps.take 2), ∀ request : List UInt8,
        headerSize ≤ request.length → 0 < messageCount request →
        sequenceNumber p ≤ sequenceNumber request → sequenceNumber request < endSequence p →
        ((cacheAfter (out.cached.take 2)).handleRequest request).head? = some p) ∧
    ∃ out ps, feedThread sampleSession realTime (fun _ => 65536) sampleFile .timestamp = some out ∧
      Carries ps sampleMessages ∧ ∀ p ∈ ps, out.sent.count p = 1 := by
  constructor
  · have hfile : lossyFile.bytes = lossyMessages.flatMap block ++ [] := (List.append_nil _).symm
    obtain ⟨out, ps, hrun, hcarries, hcount, hserved⟩ := @withheld_packets_recoverable lossyFile
      lossyMessages [] sampleSession realTime (fun _ => 65536) .lossy (by decide) nofun hfile
      lossyMessages_replayable (by decide) (by decide +kernel) (by decide +kernel)
    have hfew : (ps.take 2).length < 2 ^ 32 := by
      have hlen := List.length_take_le 2 ps
      omega
    have hout := lossyFile_output
    rw [hrun, Option.map_some, Option.some.injEq, Prod.mk.injEq] at hout
    exact ⟨out, ps, hrun, hout.1, hout.2, hcarries, hcount, hserved 2 hfew⟩
  · have hpacing : realTime.ReachesEnd sampleMessages :=
      ⟨rfl, by unfold Pacing.Wakes; decide +kernel⟩
    obtain ⟨out, ps, hrun, hcarries, hcount, -⟩ := @withheld_packets_recoverable sampleFile
      sampleMessages [0, 40, 65] sampleSession realTime (fun _ => 65536) .timestamp (by decide)
      (fun _ => hpacing) rfl (by unfold Replayable; decide) (by decide) (by decide) (by decide)
    exact ⟨out, ps, hrun, hcarries, hcount⟩

end TradingPipeline.Feed
