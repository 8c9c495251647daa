import TradingPipeline.Receiver.Sequencing

/-! # Ownership of frames, slots and ring entries

Over every run on packets that fit their slots, each UMEM frame has exactly one owner,
each reorder slot is behind at most one un-recycled entry, the ring never fills up, and
the memory behind an entry stays as it was until the entry is recycled.
-/
namespace TradingPipeline.Receiver
open Lib Mold

structure ZeroCopy (s : State) : Prop where
  /-- A frame is on the free stack, with the kernel, in the current burst (to be looked
  at or to be dropped), or behind one un-recycled entry. -/
  frames : ∀ f < afxdpNumFrames, framesIn f s.free + s.kernel.count f +
    (framesIn f s.burst + framesIn f s.drops) + framesIn f s.entryAddrs = 1
  slots : s.entrySlots.Nodup
  slots_used : ∀ i ∈ s.entrySlots, s.reorderAllocSlot ≠ some i ∧ ∀ seq, s.reorderFind seq ≠ some i
  window : wrapSub (2 ^ 32) s.parserEngine.nextWrite s.recycleRead ≤ afxdpNumFrames + reorderMax
  ringFull : s.ringFull = 0
  freeFailures : s.freeFailures = 0
  /-- An entry that was not passed by `next_read` carries the blocks it was published with. -/
  unread : s.unread.map s.contents =
    (s.published.drop s.dispatched.length).map fun p => some (blocks p)

section Facts
variable {s : State}

theorem unread_contents (hr : Readable s) : s.unread.map s.contents =
    (s.published.drop s.dispatched.length).map fun p => some (blocks p) := by
  unfold Readable at hr
  rw [List.map_drop, ← hr, List.drop_left]

theorem Owned.inflight_kept (hs : Owned s) {i : ℕ} (hi : i ∈ s.entrySlots) :
    s.reorderAllocSlot ≠ some i ∧ ∀ seq, s.reorderFind seq ≠ some i := by
  obtain ⟨_, hu, hlt⟩ := hs.inflight i hi
  constructor
  · intro h
    exact hu (reorderAllocSlot_some h).2
  · intro seq h
    have hp := (pending_iff.mp (reorderFind_some h).2.1).2
    omega

theorem Inv.zeroCopy (hs : Inv s) (hh : s.held = []) : ZeroCopy s where
  frames f hf := by
    have hone := hs.owned.frames f
    rw [if_pos hf, State.holders, hh, framesIn_nil] at hone
    omega
  slots := hs.owned.slots_nodup
  slots_used _ hi := hs.owned.inflight_kept hi
  window := by
    rw [← entries_length]
    exact hs.owned.entries_le
  ringFull := hs.ringFull
  freeFailures := hs.freeFailures
  unread := unread_contents hs.readable

end Facts

/-- Every run over packets that fit keeps each frame, slot and entry with one owner, and
each further action recycles entries from the old end, publishes at the new one, and
leaves the memory behind the others alone. -/
theorem ownership_exclusive {fd : ℤ} {as : List Action} {s : State}
    (hr : Runs Step (init fd) as s) (had : Admissible s) :
    ZeroCopy s ∧ s.unread <:+ s.entries ∧
    ∀ a t, Step s a t → Admissible t → ZeroCopy t ∧ Kept s t := by
  obtain ⟨hs, hh⟩ := runs_inv hr had
  refine ⟨hs.zeroCopy hh, hs.cursors.unread_suffix, ?_⟩
  intro a t hstep hadt
  obtain ⟨ht, hht⟩ := hstep.inv hs hh hadt
  exact ⟨ht.zeroCopy hht, (hstep.forward hs hh hadt).2⟩

/-- A frame goes from the free stack to the kernel, the burst, an entry, and back. -/
def frameRun : List Action :=
  [.refill 1, .dma 4095 (sampleFrame (samplePacket 1 1 2 1)), .recvBurst 0 [4095 * 4096 + 256],
    .packet 1 [], .dispatch, .recycle [0]]

theorem frameRun_result :
    (frameRun.foldlM State.act (init (-1))).map
      (fun s => (s.delivered, s.dispatched, s.free.head?)) =
      some ([samplePacket 1 1 2 1], [some [1, 1]], some (4095 * 4096 + 256)) := by
  decide +kernel

theorem ownership_exclusive_frameRun : ∃ s, Runs Step (init (-1)) frameRun s ∧ Admissible s ∧
    s.dispatched = [some [1, 1]] ∧ s.free.head? = some (4095 * 4096 + 256) ∧ ZeroCopy s := by
  obtain ⟨s, hs, hobs⟩ := Option.map_eq_some_iff.mp frameRun_result
  simp only [Prod.mk.injEq] at hobs
  have hr : Runs Step (init (-1)) frameRun s := Runs.of_foldlM hs
  have had : Admissible s := by
    rw [Admissible, hobs.1]
    simp only [Fits]
    decide +kernel
  exact ⟨s, hr, had, hobs.2.1, hobs.2.2, (ownership_exclusive hr had).1⟩

/-- A reply of 1600 bytes changes the memory behind an entry that was not read yet. -/
theorem oversized_reply_overwrites : ∃ as s t, Runs Step (init 3) as s ∧
    Step s (.reply (samplePacket 3 1 1580 0) 1 []) t ∧
    s.unread = [.slot 1] ∧ s.contents (.slot 1) = some [2, 2] ∧
    t.unread = [.slot 1, .slot 0] ∧ t.contents (.slot 1) = none := by
  have hrun : ([.reply (samplePacket 1 1 2 1) 1 [], .reply (samplePacket 2 1 2 2) 1 [], .dispatch,
      .recycle []].foldlM State.act (init 3)).bind (fun s =>
        (s.act (.reply (samplePacket 3 1 1580 0) 1 [])).map fun t =>
          (s.unread, s.contents (.slot 1), t.unread, t.contents (.slot 1))) =
      some ([.slot 1], some [2, 2], [.slot 1, .slot 0], none) := by
    decide +kernel
  obtain ⟨s, hs, hnext⟩ := Option.bind_eq_some_iff.mp hrun
  obtain ⟨t, ht, hobs⟩ := Option.map_eq_some_iff.mp hnext
  simp only [Prod.mk.injEq] at hobs
  exact ⟨_, s, t, Runs.of_foldlM hs, ht, hobs⟩

end TradingPipeline.Receiver
