import TradingPipeline.Receiver.Moves

/-! # The entries of `PARSER_ENGINE` as lists

The two windows of the ring, what the moves do to them, and when the memory behind an
entry is untouched.
-/
namespace TradingPipeline.Receiver
open Lib Mold

theorem parserToEngineSize_eq : parserToEngineSize = 2 ^ 19 := by decide

theorem parserToEngineSize_dvd : parserToEngineSize ∣ 2 ^ 32 := ⟨2 ^ 13, by decide⟩

theorem parserToEngineSize_lt : parserToEngineSize < 2 ^ 32 := by decide

theorem and_parserEngineMask (c : ℕ) : c &&& parserEngineMask = c % parserToEngineSize := by
  rw [parserEngineMask, parserToEngineSize_eq]
  exact Nat.and_two_pow_sub_one_eq_mod c 19

/-- The cursors are in range, and `next_read` lies between the other two. -/
structure Cursors (s : State) : Prop where
  write_lt : s.parserEngine.nextWrite < 2 ^ 32
  read_lt : s.parserEngine.nextRead < 2 ^ 32
  recycle_lt : s.recycleRead < 2 ^ 32
  order : wrapSub (2 ^ 32) s.parserEngine.nextRead s.recycleRead +
    wrapSub (2 ^ 32) s.parserEngine.nextWrite s.parserEngine.nextRead =
    wrapSub (2 ^ 32) s.parserEngine.nextWrite s.recycleRead

section Windows
variable {s : State}

theorem entries_length (s : State) :
    s.entries.length = wrapSub (2 ^ 32) s.parserEngine.nextWrite s.recycleRead :=
  between_length _ _ _

theorem Cursors.unread_le (hc : Cursors s) :
    wrapSub (2 ^ 32) s.parserEngine.nextWrite s.parserEngine.nextRead ≤ s.entries.length := by
  have := hc.order
  rw [entries_length]
  omega

theorem Cursors.unread_suffix (hc : Cursors s) : s.unread <:+ s.entries := by
  have hsplit := between_split (C := parserToEngineSize) hc.read_lt hc.recycle_lt
    s.parserEngine.data hc.order
  exact ⟨_, hsplit.symm⟩

theorem Cursors.mem_entries (hc : Cursors s) {e : RefPtr} (he : e ∈ s.unread) : e ∈ s.entries :=
  hc.unread_suffix.subset he

section Push
variable (hc : Cursors s) (hroom : s.entries.length < parserToEngineSize) (ptr : RefPtr)
  (packet : List UInt8)
include hc hroom

theorem push_entries : (s.push ptr packet).entries = s.entries ++ [ptr] := by
  rw [entries_length] at hroom
  have h := between_push parserToEngineSize_dvd parserToEngineSize_lt hc.write_lt hc.recycle_lt
    s.parserEngine.data hroom ptr
  rw [← and_parserEngineMask] at h
  exact h

theorem push_unread : (s.push ptr packet).unread = s.unread ++ [ptr] := by
  have hle := hc.unread_le
  have h := between_push parserToEngineSize_dvd parserToEngineSize_lt hc.write_lt hc.read_lt
    s.parserEngine.data (lt_of_le_of_lt hle hroom) ptr
  rw [← and_parserEngineMask] at h
  exact h

theorem push_cursors : Cursors (s.push ptr packet) := by
  have hle := hc.unread_le
  have hsize := parserToEngineSize_lt
  have horder := hc.order
  rw [entries_length] at hroom hle
  have hread := wrapSub_succ_left (M := 2 ^ 32) hc.write_lt hc.read_lt (by omega)
  have hrec := wrapSub_succ_left (M := 2 ^ 32) hc.write_lt hc.recycle_lt (by omega)
  refine ⟨Nat.mod_lt _ (by decide), hc.read_lt, hc.recycle_lt, ?_⟩
  simp only [State.push]
  omega

end Push

section Consume
variable (hc : Cursors s) (hne : s.parserEngine.nextRead ≠ s.parserEngine.nextWrite)
include hc hne

theorem consumeOne_unread :
    s.unread = s.parserEngine.entry s.parserEngine.nextRead :: s.consumeOne.unread := by
  have h := between_pop
    (C := parserToEngineSize) hc.write_lt hc.read_lt s.parserEngine.data hne.symm
  rw [← and_parserEngineMask] at h
  rw [State.consumeOne, if_neg hne]
  exact h

theorem consumeOne_cursors : Cursors s.consumeOne := by
  rw [State.consumeOne, if_neg hne]
  have horder := hc.order
  have hread := wrapSub_succ_right (M := 2 ^ 32) hc.write_lt hc.read_lt hne.symm
  have hlt : wrapSub (2 ^ 32) s.parserEngine.nextWrite s.recycleRead < 2 ^ 32 := by
    have hw := hc.write_lt
    have hr := hc.recycle_lt
    rcases wrapSub_cases s.parserEngine.nextWrite hr with ⟨_, h⟩ | ⟨_, h⟩ <;> omega
  have hrec := wrapSub_succ_left (M := 2 ^ 32) hc.read_lt hc.recycle_lt (by omega)
  refine ⟨hc.write_lt, Nat.mod_lt _ (by decide), hc.recycle_lt, ?_⟩
  simp only []
  omega

end Consume

section Pass
variable (hc : Cursors s) (hne : s.recycleRead ≠ s.parserEngine.nextRead)
include hc hne

theorem write_ne_recycle : s.parserEngine.nextWrite ≠ s.recycleRead := by
  intro he
  have horder := hc.order
  have hpos : wrapSub (2 ^ 32) s.parserEngine.nextRead s.recycleRead ≠ 0 :=
    fun h => hne ((wrapSub_eq_zero hc.recycle_lt).mp h).symm
  rw [he, wrapSub_self] at horder
  omega

theorem passEntry_entries :
    s.entries = s.parserEngine.entry s.recycleRead :: s.passEntry.entries := by
  have h := between_pop (C := parserToEngineSize) hc.write_lt hc.recycle_lt s.parserEngine.data
    (write_ne_recycle hc hne)
  rw [← and_parserEngineMask] at h
  exact h

theorem passEntry_cursors : Cursors s.passEntry := by
  have horder := hc.order
  have hread := wrapSub_succ_right (M := 2 ^ 32) hc.read_lt hc.recycle_lt hne.symm
  have hrec := wrapSub_succ_right (M := 2 ^ 32) hc.write_lt hc.recycle_lt (write_ne_recycle hc hne)
  refine ⟨hc.write_lt, hc.read_lt, Nat.mod_lt _ (by decide), ?_⟩
  simp only [State.passEntry]
  omega

end Pass

end Windows

/-- The memory a published pointer leads to is the same in both states. -/
def SameMemory (s t : State) : RefPtr → Prop
  | .null => True
  | .umem addr => t.umem (frameOf addr) = s.umem (frameOf addr)
  | .slot i => t.reorderPool i = s.reorderPool i

/-- A `packet_ref` points into the frame or slot it belongs to. -/
def PacketRef.Own (ref : PacketRef) : RefPtr → Prop
  | .null => False
  | .umem addr => (∃ off, ref.data = .umem addr off) ∧ ref.umemAddr = addr
  | .slot i => (∃ off, ref.data = .slot i off) ∧ ref.umemAddr = reorderAddrFlag ||| i

theorem SameMemory.refAt {s t : State} {e : RefPtr} (h : SameMemory s t e) :
    t.refAt e = s.refAt e := by
  cases e with
  | null => rfl
  | umem addr => exact congrArg Frame.overlay h
  | slot i => exact congrArg (fun slot => some (ReorderSlot.ref slot)) h

theorem SameMemory.contents {s t : State} {e : RefPtr} (h : SameMemory s t e) {ref : PacketRef}
    (href : s.refAt e = some ref) (hown : ref.Own e) : t.contents e = s.contents e := by
  rw [State.contents, State.contents, h.refAt, href]
  simp only [Option.bind_some, State.deref]
  cases e with
  | null => cases hown
  | umem addr =>
    obtain ⟨⟨off, hdata⟩, _⟩ := hown
    have hframe : t.umem (frameOf addr) = s.umem (frameOf addr) := h
    rw [hdata]
    simp only [hframe]
  | slot i =>
    obtain ⟨⟨off, hdata⟩, _⟩ := hown
    have hslot : t.reorderPool i = s.reorderPool i := h
    rw [hdata]
    simp only [hslot]

end TradingPipeline.Receiver
