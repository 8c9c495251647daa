import Mathlib.Data.List.Basic
import TradingPipeline.Lib.LengthPrefix
import TradingPipeline.Lib.Tiling
import TradingPipeline.Mold.Header

/-! # Data packets and the messages in them

A stream of messages is carried by packets under contiguous sequence numbers, and the block
loop of the dispatcher recovers it.
-/
namespace TradingPipeline.Mold
open Lib

/-- The messages that the block loop of `consume` hands to their handlers, for one payload. -/
def messages (data : List UInt8) : List (List UInt8) :=
  (scanBlocks (fun ms m => some (ms ++ [m])) data.length [] data).1

def maxMsgPayload : ℕ := packetSize - headerSize

/-- The packet that holds the messages `ms`, the first one under the number `seq`. -/
def dataPacket (session : Vector UInt8 10) (seq : ℕ) (ms : List (List UInt8)) : List UInt8 :=
  (MoldUdp64Header.mk session.toList seq ms.length).encode ++ ms.flatMap block

/-- One packet for each group of messages, numbered from `seq` on. -/
def packets (session : Vector UInt8 10) : ℕ → List (List (List UInt8)) → List (List UInt8)
  | _, [] => []
  | seq, g :: gs => dataPacket session seq g :: packets session (seq + g.length) gs

/-- The messages of a packet with their sequence numbers. -/
def numbered (packet : List UInt8) : List (List UInt8 × ℕ) :=
  (messages (blocks packet)).zipIdx (sequenceNumber packet)

/-- The packets carry exactly the messages `ms`, the `k`-th one under the number `k`. -/
structure Carries (packets : List (List UInt8)) (ms : List (List UInt8)) : Prop where
  size : ∀ p ∈ packets, p.length ≤ packetSize
  contiguous : Tiles sequenceNumber endSequence 1 packets (ms.length + 1)
  counts : ∀ p ∈ packets, messageCount p = (messages (blocks p)).length
  whole : ∀ p ∈ packets, blocks p = (messages (blocks p)).flatMap block
  numbered : packets.flatMap numbered = ms.zipIdx 1

section Packets
variable {session : Vector UInt8 10} {seq : ℕ} {ms : List (List UInt8)}

theorem messages_append {tail : List UInt8} (hms : ∀ m ∈ ms, m.length < 2 ^ 16)
    (htail : Incomplete tail) : messages (ms.flatMap block ++ tail) = ms := by
  rw [messages, scanBlocks_blocks _ hms htail (length_le_blocks_append ms tail), foldSome_some,
    List.foldl_append_eq_append, List.nil_append]
  exact List.flatMap_singleton' ms

theorem scanBlocks_messages {σ : Type*} (f : σ → List UInt8 → σ) (s : σ) (data : List UInt8) :
    (scanBlocks (fun s m => some (f s m)) data.length s data).1 = (messages data).foldl f s := by
  obtain ⟨ms, tail, rfl, hms, htail⟩ := exists_blocks data
  rw [messages_append hms htail, scanBlocks_blocks _ hms htail (length_le_blocks_append ms tail),
    foldSome_some]

theorem messages_blocks (hms : ∀ m ∈ ms, m.length < 2 ^ 16) : messages (ms.flatMap block) = ms := by
  have hnil : Incomplete [] := Or.inl (by decide)
  have happend := messages_append hms hnil
  rwa [List.append_nil] at happend

theorem packets_snoc (gs : List (List (List UInt8))) (g : List (List UInt8)) :
    packets session seq (gs ++ [g]) =
      packets session seq gs ++ [dataPacket session (seq + gs.flatten.length) g] := by
  induction gs generalizing seq with
  | nil => rfl
  | cons h gs ih =>
    rw [List.cons_append, packets, ih, packets, List.cons_append, List.flatten_cons,
      List.length_append, Nat.add_assoc]

def PacketGroup (g : List (List UInt8)) : Prop := g ≠ [] ∧ (g.flatMap block).length ≤ maxMsgPayload

theorem PacketGroup.message_lt {g : List (List UInt8)} (hg : PacketGroup g) {m : List UInt8}
    (hm : m ∈ g) :
    m.length < 2 ^ 16 := by
  have hsub : (block m).length ≤ (g.flatMap block).length :=
    (List.sublist_flatten_of_mem (List.mem_map_of_mem hm)).length_le
  have hle := hg.2
  rw [block_length] at hsub
  simp only [maxMsgPayload, packetSize, headerSize] at hle
  omega

theorem PacketGroup.length_lt {g : List (List UInt8)} (hg : PacketGroup g) : g.length < 2 ^ 16 := by
  have hlen := length_le_blocks g
  have hle := hg.2
  simp only [maxMsgPayload, packetSize, headerSize] at hle
  omega

/-- What a receiver reads off a packet. -/
structure Reads (packet : List UInt8) (seq : ℕ) (g : List (List UInt8)) : Prop where
  sequenceNumber : sequenceNumber packet = seq
  messageCount : messageCount packet = g.length
  blocks : blocks packet = g.flatMap block

theorem dataPacket_reads (session : Vector UInt8 10) {g : List (List UInt8)} (hg : PacketGroup g)
    (hseq : seq < 2 ^ 64) : Reads (dataPacket session seq g) seq g := by
  have hdecode : MoldUdp64Header.decode
    (dataPacket session seq g) = ⟨session.toList, seq, g.length⟩ :=
    decode_encode (by simp) hseq hg.length_lt _
  refine ⟨?_, ?_, ?_⟩
  · rw [sequenceNumber, hdecode]
  · rw [messageCount, hdecode]
  · exact List.drop_left' (by simp [MoldUdp64Header.encode, headerSize])

theorem dataPacket_length (g : List (List UInt8)) :
    (dataPacket session seq g).length = headerSize + (g.flatMap block).length := by
  have hsession : session.toList.length = 10 := by simp
  simp only [dataPacket, MoldUdp64Header.encode, List.length_append, writeBE_length, hsession,
    headerSize]

theorem packets_mem {gs : List (List (List UInt8))} {p : List UInt8}
    (hp : p ∈ packets session seq gs) :
    ∃ g ∈ gs, ∃ k ≤ seq + gs.flatten.length, p = dataPacket session k g := by
  induction gs generalizing seq with
  | nil => cases hp
  | cons g gs ih =>
    rw [List.flatten_cons, List.length_append]
    rcases List.mem_cons.mp hp with rfl | hp
    · exact ⟨g, List.mem_cons_self, seq, by omega, rfl⟩
    · obtain ⟨h, hh, k, hk, rfl⟩ := ih hp
      exact ⟨h, List.mem_cons_of_mem g hh, k, by omega, rfl⟩

theorem packets_tile {gs : List (List (List UInt8))} (hgs : ∀ g ∈ gs, PacketGroup g)
    (hseq : seq + gs.flatten.length < 2 ^ 64) :
    Tiles sequenceNumber endSequence seq (packets session seq gs) (seq + gs.flatten.length) := by
  induction gs generalizing seq with
  | nil => exact rfl
  | cons g gs ih =>
    rw [List.flatten_cons, List.length_append] at hseq ⊢
    have hg := hgs g List.mem_cons_self
    have hlt : seq < 2 ^ 64 := by omega
    have hreads := dataPacket_reads session hg hlt
    have hpos : 0 < g.length := List.length_pos_iff.mpr hg.1
    have hend : endSequence (dataPacket session seq g) = seq + g.length := by
      rw [endSequence, hreads.sequenceNumber, hreads.messageCount]
    refine ⟨hreads.sequenceNumber, ?_, ?_⟩
    · rw [hend, hreads.sequenceNumber]
      omega
    · rw [hend, ← Nat.add_assoc]
      exact ih (fun h hh => hgs h (List.mem_cons_of_mem g hh)) (by omega)

theorem packets_numbered {gs : List (List (List UInt8))} (hgs : ∀ g ∈ gs, PacketGroup g)
    (hseq : seq + gs.flatten.length < 2 ^ 64) :
    (packets session seq gs).flatMap numbered = gs.flatten.zipIdx seq := by
  induction gs generalizing seq with
  | nil => rfl
  | cons g gs ih =>
    rw [List.flatten_cons, List.length_append] at hseq
    have hg := hgs g List.mem_cons_self
    have hlt : seq < 2 ^ 64 := by omega
    have hreads := dataPacket_reads session hg hlt
    have hrest : (packets session (seq + g.length) gs).flatMap numbered =
        gs.flatten.zipIdx (seq + g.length) :=
      ih (fun h hh => hgs h (List.mem_cons_of_mem g hh)) (by omega)
    have hfirst : numbered (dataPacket session seq g) = g.zipIdx seq := by
      rw [numbered, hreads.blocks, hreads.sequenceNumber,
        messages_blocks (fun m hm => hg.message_lt hm)]
    rw [packets, List.flatMap_cons, hfirst, hrest, List.flatten_cons, List.zipIdx_append]

theorem packets_carry {gs : List (List (List UInt8))} (hgs : ∀ g ∈ gs, PacketGroup g)
    (hlen : gs.flatten.length + 1 < 2 ^ 64) : Carries (packets session 1 gs) gs.flatten := by
  have hreads : ∀ p ∈ packets session 1 gs, ∃ g, messages (blocks p) = g ∧
      messageCount p = g.length ∧ blocks p = g.flatMap block ∧ p.length ≤ packetSize := by
    intro p hp
    obtain ⟨g, hg, k, hk, rfl⟩ := packets_mem hp
    have hgroup := hgs g hg
    have hlt : k < 2 ^ 64 := by omega
    have hr := dataPacket_reads session hgroup hlt
    refine ⟨g, ?_, hr.messageCount, hr.blocks, ?_⟩
    · rw [hr.blocks, messages_blocks (fun m hm => hgroup.message_lt hm)]
    · have hle := hgroup.2
      rw [dataPacket_length]
      simp only [maxMsgPayload, packetSize, headerSize] at hle ⊢
      omega
  refine ⟨?_, ?_, ?_, ?_, packets_numbered hgs (by omega)⟩
  · intro p hp
    obtain ⟨_, _, _, _, hle⟩ := hreads p hp
    exact hle
  · rw [Nat.add_comm]
    exact packets_tile hgs (by omega)
  · intro p hp
    obtain ⟨g, hm, hc, _, _⟩ := hreads p hp
    rw [hm, hc]
  · intro p hp
    obtain ⟨g, hm, _, hb, _⟩ := hreads p hp
    rw [hm, hb]

end Packets

end TradingPipeline.Mold
