import TradingPipeline.Receiver.Sequencing

/-! # Copies into the reorder pool

`handle_payload` copies a payload into a slot at two places, and neither looks at its length.
Which calls can reach them, and with what payloads, is decided by `poll_rewinder` and by the
loop over a burst.
-/
namespace TradingPipeline.Receiver
open Lib Mold

/-- The calls of `handle_payload`: with a datagram from the rewinder, or with what
`extract_feed_payload` found in a UMEM frame. -/
inductive Arrival
  | reply (datagram : List UInt8) (pos : 0 < datagram.length)
      (le : datagram.length ≤ rewinderBufferSize)
  | frame (bytes : List UInt8) (addr off : ℕ) (le : bytes.length ≤ afxdpFrameSize)
      (addr_lt : addr < afxdpNumFrames * afxdpFrameSize)
      (extracted : extractFeedPayload bytes = some off)
      (header : headerSize ≤ (bytes.drop off).length)
      (goes_on : messageCount (bytes.drop off) ≠ 0xFFFF)

namespace Arrival

def payload : Arrival → List UInt8
  | reply datagram _ _ => datagram
  | frame bytes _ off _ _ _ _ _ => bytes.drop off

def addr : Arrival → ℕ
  | reply _ _ _ => uint64Max
  | frame _ addr _ _ _ _ _ _ => addr

/-- The offset of the payload behind `umem_frame_base`, if that is not null. -/
def base : Arrival → Option ℕ
  | reply _ _ _ => none
  | frame _ _ off _ _ _ _ _ => some off

end Arrival

def State.handle (s : State) (a : Arrival) (now : ℕ) : Option (State × ℕ) :=
  s.handlePayload a.payload a.addr now a.base

instance (addr : ℕ) (base : Option ℕ) : Decidable (FastPath addr base) :=
  inferInstanceAs (Decidable (_ ∧ _))

/-- The slot into which `handle_payload` copies, if it comes to that. -/
def State.copySlot (s : State) (a : Arrival) : Option ℕ :=
  let u := s.opened a.payload
  if Accepted a.payload ∧ u.gapExpectedSeq ≤ sequenceNumber a.payload ∧
      ¬(sequenceNumber a.payload = u.gapExpectedSeq ∧ FastPath a.addr a.base) then
    match u.reorderFind (sequenceNumber a.payload) with
    | some _ => none
    | none => u.reorderAllocSlot
  else none

section Calls
variable {s t v : State} {a : Arrival} {now ret i : ℕ}

theorem Drains.reorderPool (h : Drains s t) : t.reorderPool = s.reorderPool := by
  induction h with
  | stop => rfl
  | full => exact yield_reorderPool _
  | publish _ _ _ ih => exact ih.trans (yield_reorderPool _)

theorem Skips.reorderPool (h : Skips s t) : t.reorderPool = s.reorderPool := by
  cases h with
  | dropped => rfl
  | ahead _ _ hd => exact hd.reorderPool

theorem copySlot_eq_some : s.copySlot a = some i ↔
    (Accepted a.payload ∧ (s.opened a.payload).gapExpectedSeq ≤ sequenceNumber a.payload ∧
      ¬(sequenceNumber a.payload = (s.opened a.payload).gapExpectedSeq ∧
        FastPath a.addr a.base)) ∧
    (s.opened a.payload).reorderFind (sequenceNumber a.payload) = none ∧
    (s.opened a.payload).reorderAllocSlot = some i := by
  unfold State.copySlot
  cases hf : (s.opened a.payload).reorderFind (sequenceNumber a.payload) with
  | some j => simp [hf]
  | none => simp only [hf, Option.ite_none_right_eq_some, true_and]

/-- A call that copies nothing leaves the pool alone. A call that copies leaves it as the copy
made it, but for the flag of the slot when there was no room to publish it. -/
theorem handle_copies (hcall : s.handle a now = some (t, ret)) :
    (s.copySlot a = none ∧ t.reorderPool = s.reorderPool) ∨
    ∃ i v, s.copySlot a = some i ∧ (s.opened a.payload).fillSlot i a.payload now = some v ∧
      (t.reorderPool = v.reorderPool ∨ t.reorderPool = (v.freeSlot i).reorderPool) := by
  have hopened := opened_reorderPool s a.payload
  cases handlePayload_handles hcall with
  | ignored h => exact .inl ⟨if_neg fun hc => h hc.1, rfl⟩
  | late _ h => exact .inl ⟨if_neg fun hc => absurd hc.2.1 (Nat.not_le_of_lt h), hopened⟩
  | frameFull _ h hm hb hu _ =>
    refine .inl ⟨if_neg fun hc => hc.2.2 ⟨h, hm, by simp [hb]⟩, ?_⟩
    subst hu
    exact (yield_reorderPool _).trans hopened
  | framePublished _ h hm hb hu _ hd =>
    refine .inl ⟨if_neg fun hc => hc.2.2 ⟨h, hm, by simp [hb]⟩, ?_⟩
    subst hu
    exact hd.reorderPool.trans ((yield_reorderPool _).trans hopened)
  | duplicate _ _ hf =>
    refine .inl ⟨?_, hopened⟩
    simp only [State.copySlot, hf, ite_self]
  | copyNoSlot _ _ _ hn hs =>
    refine .inl ⟨?_, hopened⟩
    simp only [State.copySlot, hn, hs, ite_self]
  | @copyFull i v ha h hp hn hs hv _ =>
    refine .inr ⟨i, v, ?_, hv, .inr ?_⟩
    · exact copySlot_eq_some.mpr ⟨⟨ha, Nat.le_of_eq h.symm, fun hc => hp hc.2⟩, hn, hs⟩
    · simp [State.freeSlot, State.setSlot, State.dropOne, State.noteRingFull]
  | @copyPublished i v _ ha h hp hn hs hv _ hd =>
    refine .inr ⟨i, v, ?_, hv, .inl (hd.reorderPool.trans (yield_reorderPool _))⟩
    exact copySlot_eq_some.mpr ⟨⟨ha, Nat.le_of_eq h.symm, fun hc => hp hc.2⟩, hn, hs⟩
  | futureNoSlot _ _ hn hs hk =>
    refine .inl ⟨?_, hk.reorderPool.trans hopened⟩
    simp only [State.copySlot, hn, hs, ite_self]
  | @futureBuffered i v ha h hn hs hv =>
    refine .inr ⟨i, v, ?_, hv, .inl (sendRetransmitRequest_reorderPool _ _ _ _)⟩
    exact copySlot_eq_some.mpr
      ⟨⟨ha, Nat.le_of_lt h, fun hc => absurd hc.1 (Nat.ne_of_gt h)⟩, hn, hs⟩

end Calls

/-- The copy of the payload in slot `i` is whole, and nothing was written beside it. -/
structure Stored (s v : State) (i : ℕ) (payload : List UInt8) : Prop where
  fits : payload.length ≤ slotBytes
  holds : Holds (v.reorderPool i) i payload
  others : ∀ j ≠ i, v.reorderPool j = s.reorderPool j

/-- Whatever the state of the receiver, a copy that the call makes is whole. -/
def Arrival.CopiesFit (a : Arrival) : Prop := ∀ (s : State) (now i : ℕ), s.copySlot a = some i →
  ∃ v, (s.opened a.payload).fillSlot i a.payload now = some v ∧ Stored s v i a.payload

/-- The call copies in some state. A frame with number 0 is never from the future. -/
def Arrival.Copied (a : Arrival) : Prop :=
  Accepted a.payload ∧ (FastPath a.addr a.base → sequenceNumber a.payload ≠ 0)

/-- A receiver that is in a session and waits for number 0. -/
def waiting : State := { init 0 with gapSessionSet := true }

section Fit
variable {a : Arrival} {s : State} {i : ℕ}

theorem waiting_copySlot (h : a.Copied) : waiting.copySlot a = some 0 := by
  have hopen : waiting.opened a.payload = waiting.logDelivery a.payload := rfl
  have hfind : (waiting.logDelivery a.payload).reorderFind (sequenceNumber a.payload) = none := by
    unfold State.reorderFind
    exact List.find?_eq_none.mpr fun i _ => by
      simp [State.pending, State.logDelivery, waiting, init]
  have halloc : (waiting.logDelivery a.payload).reorderAllocSlot = some 0 := by
    unfold State.reorderAllocSlot reorderMax
    rw [List.range_succ_eq_map]
    exact List.find?_cons_of_pos (by simp [State.logDelivery, waiting, init])
  rw [copySlot_eq_some, hopen]
  exact ⟨⟨h.1, Nat.zero_le _, fun hc => h.2 hc.2 hc.1⟩, hfind, halloc⟩

theorem copied_of_copySlot (h : s.copySlot a = some i) : a.Copied := by
  obtain ⟨⟨ha, hle, hslow⟩, -, -⟩ := copySlot_eq_some.mp h
  refine ⟨ha, fun hfast hzero => hslow ⟨?_, hfast⟩⟩
  omega

theorem stored_of_fits (now : ℕ) (h : s.copySlot a = some i) (hfit : a.payload.length ≤ slotBytes) :
    ∃ v, (s.opened a.payload).fillSlot i a.payload now = some v ∧ Stored s v i a.payload := by
  refine ⟨_, fillSlot_of_fits hfit, hfit, ?_, fun j hj => ?_⟩
  · simp only [State.setSlot, Function.update_self]
    exact holds_buildReorderRef _ (copied_of_copySlot h).1 hfit
  · simp only [State.setSlot, Function.update_of_ne hj, opened_reorderPool]

end Fit

/-- What `handle_payload` does to the pool is one copy into the slot that it allocates, or nothing.
Every such copy of a payload is whole exactly if the payload is never copied or has at most 1500
bytes. -/
theorem copies_fit_iff (a : Arrival) :
    (∀ (s t : State) now ret, s.handle a now = some (t, ret) →
      (s.copySlot a = none ∧ t.reorderPool = s.reorderPool) ∨
      ∃ i v, s.copySlot a = some i ∧ (s.opened a.payload).fillSlot i a.payload now = some v ∧
        (t.reorderPool = v.reorderPool ∨ t.reorderPool = (v.freeSlot i).reorderPool)) ∧
    (a.CopiesFit ↔ (a.Copied → a.payload.length ≤ slotBytes)) := by
  refine ⟨fun s t now ret hcall => handle_copies hcall, ?_, ?_⟩
  · intro h hcopied
    obtain ⟨v, -, hstored⟩ := h waiting 0 0 (waiting_copySlot hcopied)
    exact hstored.fits
  · intro h s now i hslot
    exact stored_of_fits now hslot (h (copied_of_copySlot hslot))

def shortReply : Arrival := .reply (samplePacket 1 1 2 1) (by decide +kernel) (by decide +kernel)

/-- The first packet is such a reply: it is copied whole into slot 0 and published from there. -/
theorem copies_fit_iff_shortReply : shortReply.CopiesFit ∧
    ∃ t v, (init 3).handle shortReply 1 = some (t, uint64Max) ∧
      ((init 3).opened shortReply.payload).fillSlot 0 shortReply.payload 1 = some v ∧
      Stored (init 3) v 0 shortReply.payload ∧
      (t.reorderPool = v.reorderPool ∨ t.reorderPool = (v.freeSlot 0).reorderPool) := by
  obtain ⟨hpool, hiff⟩ := copies_fit_iff shortReply
  have hfit : shortReply.CopiesFit := hiff.mpr fun _ => by decide +kernel
  have hcall : ∃ r ∈ (init 3).handle shortReply 1, r.2 = uint64Max := by decide +kernel
  obtain ⟨⟨t, ret⟩, ht, rfl⟩ := hcall
  have hslot : (init 3).copySlot shortReply = some 0 := by decide +kernel
  obtain ⟨v, hv, hstored⟩ := hfit (init 3) 1 0 hslot
  refine ⟨hfit, t, v, ht, hv, hstored, ?_⟩
  rcases hpool (init 3) t 1 _ ht with ⟨hnone, -⟩ | ⟨i, v', hi, hv', hafter⟩
  · rw [hslot] at hnone
    cases hnone
  · cases hslot.symm.trans hi
    cases hv.symm.trans hv'
    exact hafter

/-- The longest datagram that `poll_rewinder` takes. -/
def longReply : Arrival :=
  .reply (samplePacket 1 1 1580 1) (by decide +kernel) (by decide +kernel)

/-- As the first packet, such a reply is copied into slot 0. Only 1500 of its bytes are stored,
and slot 1, into which nothing was put, comes to be in use. -/
theorem longReply_overruns : (init 3).copySlot longReply = some 0 ∧
    longReply.payload.length = 1600 ∧
    ((init 3).handle longReply 1).map (fun r =>
      (r.1.slotPayload 0 == longReply.payload, (r.1.slotPayload 0).length,
        (r.1.reorderPool 1).used, (r.1.reorderPool 1).ref.data)) =
      some (false, 1500, 1, .wild) := by
  decide +kernel

end TradingPipeline.Receiver
