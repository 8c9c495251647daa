import TradingPipeline.Engine.Consume
import TradingPipeline.Engine.PriceRange

/-! # The books of all shards under one stream

The stream of a session interleaves the messages of all stocks. Each book follows its own part
of the stream, whatever stands between. A receiver that joins late sees the end of the stream
only: its books hold a part of the orders, with the right prices and quantities.
-/
namespace TradingPipeline.Engine
open Lib Book Itch Mold

def shardEvents (shard : Shard) (es : List Event) : List Event :=
  es.filter fun e => shardForLocate e.stockLocate = some shard

section Streams
variable {api : OrderBookApi} {poolSize : ℕ} {live live' : List LiveOrder} {e : Event}
  {es fs : List Event}

/-- The time stamp plays no part in the book. -/
def Event.untimed (e : Event) : Event := { e with ts := 0 }

end Streams

section Interleaving
variable {api : OrderBookApi} {D : Type} [DoubleArith D] {laws : OrderBookLaws api} {poolSize : ℕ}
  {p : Params D} {g t : Dispatcher api D} {live : Shard → List LiveOrder} {e : Event}

end Interleaving

section LateJoin
variable {api : OrderBookApi} {poolSize : ℕ} {live live' : List LiveOrder} {e : Event}
  {es fs : List Event}

end LateJoin

section Messages

/-- The message is not empty, and as long as its type asks. -/
def Whole (m : List UInt8) : Prop :=
  ∃ t ∈ m.head?, ∀ k ∈ orderMessageOf (Char.ofNat t.toNat), k.length ≤ m.length

instance (m : List UInt8) : Decidable (Whole m) :=
  inferInstanceAs (Decidable (∃ t ∈ m.head?, ∀ k ∈ orderMessageOf (Char.ofNat t.toNat), _))

theorem blockEvent_untimed (ts : ℕ) (m : List UInt8) :
    (blockEvent ts m).map Event.untimed = blockEvent 0 m := by
  have hevent : ∀ (k : OrderMessage) (mem : Memory),
      (orderEvent k ts mem).untimed = orderEvent k 0 mem := fun _ _ => rfl
  unfold blockEvent
  split
  · rfl
  · split
    · rfl
    · split
      · rw [Option.map_some, hevent]
      · rfl

theorem consume_whole (pshufb : Bool) (stack : ℕ → Memory) (p : Payload)
    (hlen : p.len + 65537 < 2 ^ 32) (hwhole : ∀ m ∈ messages (p.data.load 0 p.len), Whole m) :
    p.consume pshufb stack =
      some ((messages (p.data.load 0 p.len)).filterMap (blockEvent p.ts)) := by
  obtain ⟨ms, tail, hdata, hms, htail⟩ := exists_blocks (p.data.load 0 p.len)
  rw [hdata, messages_append hms htail] at hwhole ⊢
  have hcount : ms.length < p.len + 1 := by
    have hle := length_le_blocks_append ms tail
    rw [← hdata, Memory.load_length] at hle
    omega
  rw [Payload.consume, boundedLoop_turn pshufb stack [] hlen hms htail (Nat.zero_le _) hdata hcount,
    List.nil_append]
  congr 1
  conv_rhs => rw [← blocksAt_map_snd 0 ms]
  rw [List.filterMap_map]
  refine List.filterMap_congr fun x hx => ?_
  obtain ⟨haddr, hload⟩ := load_of_mem_blocksAt (Nat.zero_le _) hdata hx
  have hmem : x.2 ∈ ms := by
    have hmap := List.mem_map_of_mem (f := (·.2)) hx
    rwa [blocksAt_map_snd] at hmap
  obtain ⟨t, ht, hlong⟩ := hwhole x.2 hmem
  have hne : x.2.length ≠ 0 := by
    intro hzero
    rw [List.length_eq_zero_iff.mp hzero] at ht
    cases ht
  have hfirst : p.data x.1 = t := by
    rw [← hload, Memory.head?_load _ _ hne] at ht
    exact Option.some.inj ht
  have hlong' : p.LongEnough x := by
    unfold Payload.LongEnough
    rw [hfirst]
    exact hlong
  exact ((blockEvent_eq pshufb stack (by omega) hload).trans (if_pos hlong')).symm

end Messages

end TradingPipeline.Engine
