import TradingPipeline.Receiver.Paths
import TradingPipeline.Receiver.Loop
import Mathlib.Logic.Relation

/-! # Elementary moves of the receiver

Every action of the receiver, the dispatcher and the kernel is a sequence of a few
elementary moves, each with the guard under which the code makes it. Invariants are
proved for the moves.
-/
namespace TradingPipeline.Receiver
open Lib Mold Relation

inductive Moves : State → State → Prop
  | ignored {s payload} (h : ¬Accepted payload) : Moves s (s.logDelivery payload)
  | opened {s payload} (h : Accepted payload) : Moves s (s.opened payload)
  | consume {s} : Moves s s.consumeOne
  | setPace {s pace} : Moves s { s with pace := pace }
  | setStopped {s b} : Moves s { s with stopped := b }
  | writeRef {s addr ref} (h : addr ∈ s.held) : Moves s (s.writeRef addr ref)
  | publishFrame {s addr payload now off} (hh : addr ∈ s.held)
      (ho : (s.umem (frameOf addr)).overlay = some (frameRef payload addr now off))
      (hb : (s.umem (frameOf addr)).bytes.drop (off + headerSize) = blocks payload)
      (ha : Accepted payload) (hd : payload ∈ s.delivered) (hset : s.gapSessionSet = true)
      (hseq : sequenceNumber payload = s.gapExpectedSeq) (hr : ¬s.Full) :
      Moves s (((s.push (.umem addr) payload).pin addr).advance (messageCount payload))
  | publishSlot {s i} (hi : i < reorderMax) (hp : s.pending i)
      (hseq : (s.reorderPool i).startSeq = s.gapExpectedSeq) (hr : ¬s.Full) :
      Moves s ((s.push (.slot i) (s.slotPayload i)).advance (s.reorderPool i).msgCount)
  | noteFilled {s} : Moves s s.noteFilled
  | noteRingFull {s} (h : s.Full) : Moves s s.noteRingFull
  | noteAllocFailure {s} : Moves s s.noteAllocFailure
  | dropOne {s} (h : s.singleDrops < s.delivered.length) : Moves s s.dropOne
  | fillSlot {s i payload now t} (hi : i < reorderMax) (hu : (s.reorderPool i).used = 0)
      (ha : Accepted payload) (hd : payload ∈ s.delivered) (hset : s.gapSessionSet = true)
      (hle : s.gapExpectedSeq ≤ sequenceNumber payload)
      (hn : s.reorderFind (sequenceNumber payload) = none)
      (ht : s.fillSlot i payload now = some t) : Moves s t
  | unfillSlot {s i} (hi : i < reorderMax) (hp : s.pending i) (hf : 0 < s.ringFull) :
      Moves s (s.freeSlot i)
  | skipTo {s i} (hi : i < reorderMax) (hp : s.pending i)
      (hlt : s.gapExpectedSeq < (s.reorderPool i).startSeq) (hf : 0 < s.allocFailures) :
      Moves s (s.skipTo (s.reorderPool i).startSeq)
  | sendRequest {s start count now} (hset : s.gapSessionSet = true) :
      Moves s (s.sendRequest ⟨s.gapSession, start, count⟩ now)
  | dma {s f packet} (h : f ∈ s.kernel) :
      Moves s { s with umem := Function.update s.umem f ⟨packet, none⟩ }
  | refill {s room} : Moves s (s.afxdpRefillFq room)
  | takeDescriptor {s addr} (h : frameOf addr ∈ s.kernel) :
      Moves s { s with kernel := s.kernel.erase (frameOf addr), burst := s.burst ++ [addr] }
  | passSlot {s ref} (hne : s.recycleRead ≠ s.parserEngine.nextRead)
      (he : s.refAt (s.parserEngine.entry s.recycleRead) = some ref)
      (hf : ref.umemAddr &&& reorderAddrFlag ≠ 0) :
      Moves s (s.passEntry.freeSlot (ref.umemAddr &&& reorderAddrIdxMask))
  | passFrame {s ref} (hne : s.recycleRead ≠ s.parserEngine.nextRead)
      (he : s.refAt (s.parserEngine.entry s.recycleRead) = some ref)
      (hf : ref.umemAddr &&& reorderAddrFlag = 0) :
      Moves s (s.passEntry.hold ref.umemAddr)
  | freeFrame {s addr rest} (hh : s.held = addr :: rest) (hl : s.free.length < afxdpNumFrames) :
      Moves s { s with free := addr :: s.free, held := rest }
  | freeRefused {s addr rest} (hh : s.held = addr :: rest)
      (hl : afxdpNumFrames ≤ s.free.length) :
      Moves s { s with freeFailures := s.freeFailures + 1 }
  | dropPacket {s addr rest} (hb : s.burst = addr :: rest) :
      Moves s ({ s with burst := rest }.dropPacket addr)
  | takePacket {s addr rest} (hb : s.burst = addr :: rest) (hh : s.held = []) :
      Moves s { s with burst := rest, held := [addr] }
  | dropHeld {s addr} (hh : s.held = [addr]) : Moves s (s.dropHeld addr)
  | holdDrops {s} (hh : s.held = []) : Moves s { s with drops := [], held := s.drops }

section Frames
variable {s t : State} {payload : List UInt8} {i now : ℕ}

theorem opened_frame (s : State) (payload : List UInt8) :
    ∃ session expected, s.opened payload = { s with
      delivered := s.delivered ++ [payload]
      gapSession := session
      gapSessionSet := true
      gapExpectedSeq := expected } := by
  unfold State.opened State.openSession
  by_cases h : s.gapSessionSet = true
  · refine ⟨s.gapSession, s.gapExpectedSeq, ?_⟩
    simp only [State.logDelivery, h, if_true]
  · refine ⟨session payload, sequenceNumber payload, ?_⟩
    simp only [State.logDelivery, h, Bool.false_eq_true, if_false]

@[simp] theorem opened_delivered (s : State) (payload : List UInt8) :
    (s.opened payload).delivered = s.delivered ++ [payload] := by
  obtain ⟨_, _, h⟩ := opened_frame s payload
  rw [h]

@[simp] theorem opened_gapSessionSet (s : State) (payload : List UInt8) :
    (s.opened payload).gapSessionSet = true := by
  obtain ⟨_, _, h⟩ := opened_frame s payload
  rw [h]

@[simp] theorem opened_singleDrops (s : State) (payload : List UInt8) :
    (s.opened payload).singleDrops = s.singleDrops := by
  obtain ⟨_, _, h⟩ := opened_frame s payload
  rw [h]

@[simp] theorem opened_held (s : State) (payload : List UInt8) :
    (s.opened payload).held = s.held := by
  obtain ⟨_, _, h⟩ := opened_frame s payload
  rw [h]

@[simp] theorem opened_umem (s : State) (payload : List UInt8) :
    (s.opened payload).umem = s.umem := by
  obtain ⟨_, _, h⟩ := opened_frame s payload
  rw [h]

@[simp] theorem opened_reorderPool (s : State) (payload : List UInt8) :
    (s.opened payload).reorderPool = s.reorderPool := by
  obtain ⟨_, _, h⟩ := opened_frame s payload
  rw [h]

theorem fillSlot_frame (h : s.fillSlot i payload now = some t) :
    ∃ pool, t = { s with reorderPool := pool } ∧
      pool i = buildReorderRef (copiedSlot (s.reorderPool i) payload) i now := by
  unfold State.fillSlot at h
  simp only [] at h
  split at h
  · cases h
  · cases h
    exact ⟨_, rfl, Function.update_self _ _ _⟩

@[simp] theorem yield_pending (s : State) (i : ℕ) : s.yield.pending i = s.pending i := by
  simp only [State.pending, yield_reorderPool, yield_gapExpectedSeq]

@[simp] theorem yield_slotPayload (s : State) (i : ℕ) :
    s.yield.slotPayload i = s.slotPayload i := by
  simp only [State.slotPayload, yield_reorderPool]

@[simp] theorem yield_gapSessionSet (s : State) : s.yield.gapSessionSet = s.gapSessionSet := by
  obtain ⟨r, d, p, h⟩ := yield_frame s
  rw [h]

end Frames

section HandleMoves
variable {s t : State} {payload : List UInt8} {addr now ret : ℕ} {base : Option ℕ}

theorem consumeMany_moves (s : State) (n : ℕ) : ReflTransGen Moves s (s.consumeMany n) := by
  induction n generalizing s with
  | zero => exact .refl
  | succ n ih => exact .head .consume (ih s.consumeOne)

theorem yield_moves (s : State) : ReflTransGen Moves s s.yield := by
  unfold State.yield
  split
  · exact .refl
  · exact .head .setPace (consumeMany_moves _ _)

theorem drained_moves {i : ℕ} (hfind : s.reorderFind s.gapExpectedSeq = some i)
    (hr : ¬s.yield.Full) : ReflTransGen Moves s (s.drained i) := by
  obtain ⟨hi, hp, hseq⟩ := reorderFind_some hfind
  have hpub : Moves s.yield
      ((s.yield.push (.slot i) (s.slotPayload i)).advance (s.reorderPool i).msgCount) := by
    have hm := @Moves.publishSlot s.yield i hi (by simpa using hp) (by simpa using hseq) hr
    simpa only [yield_slotPayload, yield_reorderPool] using hm
  exact ((yield_moves s).tail hpub).tail .noteFilled

theorem Drains.moves (h : Drains s t) : ReflTransGen Moves s t := by
  induction h with
  | stop => exact .refl
  | full _ hf => exact (yield_moves _).tail (.noteRingFull hf)
  | publish hfind hr _ ih => exact (drained_moves hfind hr).trans ih

theorem Skips.moves (h : Skips s t) (hd : s.singleDrops < s.delivered.length)
    (hf : 0 < s.allocFailures) : ReflTransGen Moves s t := by
  cases h with
  | dropped => exact .single (.dropOne hd)
  | ahead hm hlt hdr =>
    obtain ⟨hi, hp, _⟩ := reorderFindMin_some hm
    exact .head (.skipTo hi hp hlt hf) hdr.moves

theorem sendRetransmitRequest_moves (s : State) (start count now : ℕ) :
    ReflTransGen Moves s (s.sendRetransmitRequest start count now) := by
  unfold State.sendRetransmitRequest
  split_ifs with hfd hcount hnow
  · exact .refl
  · exact .refl
  · exact .refl
  · have hset : s.gapSessionSet = true := by
      by_contra hne
      exact hfd (Or.inr (by simpa using hne))
    exact .single (.sendRequest hset)

theorem writeRef_bytes (s : State) (addr : ℕ) (ref : PacketRef) {k : ℕ} (hk : 32 ≤ k) :
    ((s.writeRef addr ref).umem (frameOf addr)).bytes.drop k =
      (s.umem (frameOf addr)).bytes.drop k := by
  obtain ⟨j, rfl⟩ := Nat.exists_eq_add_of_le hk
  simp only [State.writeRef, Function.update_self]
  rw [← List.drop_drop, List.drop_left' (by simp), List.drop_drop]

theorem writeRef_overlay (s : State) (addr : ℕ) (ref : PacketRef) :
    ((s.writeRef addr ref).umem (frameOf addr)).overlay = some ref := by
  simp only [State.writeRef, Function.update_self]

/-- A frame handed to the fast path is the one at hand, and the payload lies in it. -/
def FrameHolds (s : State) (payload : List UInt8) (addr : ℕ) (base : Option ℕ) : Prop :=
  ∀ off, base = some off → addr ≠ uint64Max →
    addr ∈ s.held ∧ 42 ≤ off ∧ (s.umem (frameOf addr)).bytes.drop off = payload

theorem opened_moves (ha : Accepted payload) : ReflTransGen Moves s (s.opened payload) :=
  .single (.opened ha)

theorem writeRef_moves {off : ℕ} {u : State} (hframe : FrameHolds s payload addr base)
    (ha : Accepted payload) (hm : addr ≠ uint64Max) (hb : base = some off)
    (hu : u = ((s.opened payload).writeRef addr (frameRef payload addr now off)).yield) :
    ReflTransGen Moves s u := by
  have haddr : addr ∈ (s.opened payload).held := by
    simpa using (hframe off hb hm).1
  rw [hu]
  exact ((opened_moves ha).tail (.writeRef haddr)).trans (yield_moves _)

theorem framePublished_moves {off : ℕ} {u : State} (hframe : FrameHolds s payload addr base)
    (ha : Accepted payload) (h : sequenceNumber payload = (s.opened payload).gapExpectedSeq)
    (hm : addr ≠ uint64Max) (hb : base = some off)
    (hu : u = ((s.opened payload).writeRef addr (frameRef payload addr now off)).yield)
    (hr : ¬u.Full) :
    ReflTransGen Moves s
      (((u.push (.umem addr) payload).pin addr).advance (messageCount payload)) := by
  obtain ⟨hheld, hoff, hbytes⟩ := hframe off hb hm
  have hblocks : (u.umem (frameOf addr)).bytes.drop (off + headerSize) = blocks payload := by
    rw [hu, yield_umem, writeRef_bytes _ _ _ (by simp only [headerSize]; omega), opened_umem,
      ← List.drop_drop, hbytes, blocks]
  have hover : (u.umem (frameOf addr)).overlay = some (frameRef payload addr now off) := by
    rw [hu, yield_umem, writeRef_overlay]
  refine (writeRef_moves hframe ha hm hb hu).tail (.publishFrame ?_ hover hblocks ha ?_ ?_ ?_ hr)
  · simpa [hu, State.writeRef] using hheld
  · simp [hu, State.writeRef]
  · simp [hu, State.writeRef]
  · simpa [hu, State.writeRef] using h

theorem fillSlot_pending {u v : State} {i : ℕ} (h : u.fillSlot i payload now = some v)
    (hseq : u.gapExpectedSeq ≤ sequenceNumber payload) : v.pending i ∧
      (v.reorderPool i).startSeq = sequenceNumber payload ∧
      (v.reorderPool i).msgCount = messageCount payload ∧
      v.gapExpectedSeq = u.gapExpectedSeq := by
  obtain ⟨pool, rfl, hslot⟩ := fillSlot_frame h
  refine ⟨?_, ?_, ?_, rfl⟩
  · simpa [pending_iff, hslot, buildReorderRef, copiedSlot] using hseq
  · simp [hslot, buildReorderRef, copiedSlot]
  · simp [hslot, buildReorderRef, copiedSlot]

theorem fillSlot_moves {i : ℕ} {v : State} (ha : Accepted payload)
    (hle : (s.opened payload).gapExpectedSeq ≤ sequenceNumber payload)
    (hn : (s.opened payload).reorderFind (sequenceNumber payload) = none)
    (hs : (s.opened payload).reorderAllocSlot = some i)
    (hv : (s.opened payload).fillSlot i payload now = some v) : ReflTransGen Moves s v := by
  obtain ⟨hi, hu⟩ := reorderAllocSlot_some hs
  exact (opened_moves ha).tail (.fillSlot hi hu ha (by simp) (by simp) hle hn hv)

theorem copyPublished_moves {i : ℕ} {v : State} (ha : Accepted payload)
    (hseq : sequenceNumber payload = (s.opened payload).gapExpectedSeq)
    (hn : (s.opened payload).reorderFind (sequenceNumber payload) = none)
    (hs : (s.opened payload).reorderAllocSlot = some i)
    (hv : (s.opened payload).fillSlot i payload now = some v) (hr : ¬v.yield.Full) :
    ReflTransGen Moves s
      ((v.yield.push (.slot i) (v.slotPayload i)).advance (messageCount payload)) := by
  obtain ⟨hi, _⟩ := reorderAllocSlot_some hs
  obtain ⟨hpend, hstart, hcount, hexp⟩ := fillSlot_pending hv (Nat.le_of_eq hseq.symm)
  have hfilled := fillSlot_moves ha (Nat.le_of_eq hseq.symm) hn hs hv
  have hpub : Moves v.yield
      ((v.yield.push (.slot i) (v.slotPayload i)).advance (messageCount payload)) := by
    have hm := @Moves.publishSlot v.yield i hi (by simpa using hpend)
      (by simp [hstart, hexp, hseq]) hr
    simpa only [yield_slotPayload, yield_reorderPool, hcount] using hm
  exact (hfilled.trans (yield_moves _)).tail hpub

/-- Each path of `handle_payload` is made of moves. -/
theorem Handles.moves (h : Handles s payload addr now base t ret)
    (hframe : FrameHolds s payload addr base) (hd : s.singleDrops ≤ s.delivered.length) :
    ReflTransGen Moves s t := by
  have hdrop : (s.opened payload).singleDrops < (s.opened payload).delivered.length := by
    simp only [opened_singleDrops, opened_delivered, List.length_append, List.length_singleton]
    omega
  cases h with
  | ignored h => exact .single (.ignored h)
  | late ha _ => exact opened_moves ha
  | @frameFull off u ha hseq hm hb hu hf =>
    refine ((writeRef_moves hframe ha hm hb hu).tail (.noteRingFull hf)).tail (.dropOne ?_)
    simpa [hu, State.noteRingFull, State.writeRef] using hdrop
  | framePublished ha hseq hm hb hu hr hdr =>
    exact (framePublished_moves hframe ha hseq hm hb hu hr).trans hdr.moves
  | duplicate ha _ _ => exact opened_moves ha
  | copyNoSlot ha _ _ _ _ =>
    exact ((opened_moves ha).tail .noteAllocFailure).tail (.dropOne hdrop)
  | @copyFull i v ha hseq hp hn hs hv hf =>
    obtain ⟨hi, _⟩ := reorderAllocSlot_some hs
    obtain ⟨hpend, _⟩ := fillSlot_pending hv (Nat.le_of_eq hseq.symm)
    have hfilled := fillSlot_moves ha (Nat.le_of_eq hseq.symm) hn hs hv
    obtain ⟨pool, rfl, _⟩ := fillSlot_frame hv
    refine ((hfilled.trans (yield_moves _)).tail (.noteRingFull hf)).tail
      (.unfillSlot hi ?_ (Nat.succ_pos _)) |>.tail (.dropOne ?_)
    · simpa [State.noteRingFull, State.pending] using hpend
    · simpa [State.noteRingFull, State.freeSlot, State.setSlot] using hdrop
  | copyPublished ha hseq hp hn hs hv hr hdr =>
    exact (copyPublished_moves ha hseq hn hs hv hr).trans hdr.moves
  | futureNoSlot ha _ _ _ hk =>
    exact ((opened_moves ha).tail .noteAllocFailure).trans (hk.moves hdrop (Nat.succ_pos _))
  | @futureBuffered i v ha hlt hn hs hv =>
    exact (fillSlot_moves ha (Nat.le_of_lt hlt) hn hs hv).trans
      (sendRetransmitRequest_moves _ _ _ _)

theorem Drains.held (h : Drains s t) : t.held = s.held := by
  induction h with
  | stop => rfl
  | full => exact yield_held _
  | publish _ _ _ ih => exact ih.trans (yield_held _)

theorem Skips.held (h : Skips s t) : t.held = s.held := by
  cases h with
  | dropped => rfl
  | ahead _ _ hd => exact hd.held

theorem sendRetransmitRequest_frame (s : State) (start count now : ℕ) :
    ∃ last n reqs, s.sendRetransmitRequest start count now = { s with
      gapLastRequestNs := last
      gapRetransRequests := n
      requests := reqs } := by
  unfold State.sendRetransmitRequest
  split_ifs <;> exact ⟨_, _, _, rfl⟩

@[simp] theorem sendRetransmitRequest_held (s : State) (start count now : ℕ) :
    (s.sendRetransmitRequest start count now).held = s.held := by
  obtain ⟨_, _, _, h⟩ := sendRetransmitRequest_frame s start count now
  rw [h]

@[simp] theorem sendRetransmitRequest_delivered (s : State) (start count now : ℕ) :
    (s.sendRetransmitRequest start count now).delivered = s.delivered := by
  obtain ⟨_, _, _, h⟩ := sendRetransmitRequest_frame s start count now
  rw [h]

@[simp] theorem sendRetransmitRequest_reorderPool (s : State) (start count now : ℕ) :
    (s.sendRetransmitRequest start count now).reorderPool = s.reorderPool := by
  obtain ⟨_, _, _, h⟩ := sendRetransmitRequest_frame s start count now
  rw [h]

@[simp] theorem sendRetransmitRequest_gapExpectedSeq (s : State) (start count now : ℕ) :
    (s.sendRetransmitRequest start count now).gapExpectedSeq = s.gapExpectedSeq := by
  obtain ⟨_, _, _, h⟩ := sendRetransmitRequest_frame s start count now
  rw [h]

/-- The packet at hand is given back, or it is pinned by its entry. -/
theorem Handles.held (h : Handles s payload addr now base t ret) :
    (ret = addr ∧ t.held = s.held) ∨
      (ret = uint64Max ∧ base.isSome ∧ t.held = s.held.erase addr) := by
  cases h with
  | ignored => exact .inl ⟨rfl, rfl⟩
  | late => exact .inl ⟨rfl, opened_held s payload⟩
  | frameFull ha hseq hm hb hu hf =>
    subst hu
    exact .inl ⟨rfl, (yield_held _).trans (opened_held s payload)⟩
  | framePublished ha hseq hm hb hu hr hd =>
    subst hu
    refine .inr ⟨rfl, by simp [hb], hd.held.trans ?_⟩
    simp [State.advance, State.pin, State.push, State.writeRef]
  | duplicate => exact .inl ⟨rfl, opened_held s payload⟩
  | copyNoSlot => exact .inl ⟨rfl, opened_held s payload⟩
  | @copyFull i v ha hseq hp hn hs hv hf =>
    obtain ⟨pool, rfl, _⟩ := fillSlot_frame hv
    exact .inl ⟨rfl, (yield_held _).trans (opened_held s payload)⟩
  | @copyPublished i v t ha hseq hp hn hs hv hr hd =>
    obtain ⟨pool, rfl, _⟩ := fillSlot_frame hv
    exact .inl ⟨rfl, hd.held.trans ((yield_held _).trans (opened_held s payload))⟩
  | futureNoSlot ha hlt hn hs hk => exact .inl ⟨rfl, hk.held.trans (opened_held s payload)⟩
  | @futureBuffered i v ha hlt hn hs hv =>
    obtain ⟨pool, rfl, _⟩ := fillSlot_frame hv
    exact .inl ⟨rfl, (sendRetransmitRequest_held _ _ _ _).trans (opened_held s payload)⟩

theorem Drains.delivered (h : Drains s t) : t.delivered = s.delivered := by
  induction h with
  | stop => rfl
  | full => exact yield_delivered _
  | publish _ _ _ ih => exact ih.trans (yield_delivered _)

theorem Handles.delivered (h : Handles s payload addr now base t ret) :
    t.delivered = s.delivered ++ [payload] := by
  have hopen := opened_delivered s payload
  cases h with
  | ignored => rfl
  | late => exact hopen
  | frameFull ha hseq hm hb hu hf =>
    subst hu
    exact (yield_delivered _).trans hopen
  | framePublished ha hseq hm hb hu hr hd =>
    subst hu
    exact hd.delivered.trans ((yield_delivered _).trans hopen)
  | duplicate => exact hopen
  | copyNoSlot => exact hopen
  | @copyFull i v ha hseq hp hn hs hv hf =>
    obtain ⟨pool, rfl, _⟩ := fillSlot_frame hv
    exact (yield_delivered _).trans hopen
  | @copyPublished i v t ha hseq hp hn hs hv hr hd =>
    obtain ⟨pool, rfl, _⟩ := fillSlot_frame hv
    exact hd.delivered.trans ((yield_delivered _).trans hopen)
  | futureNoSlot ha hlt hn hs hk =>
    cases hk with
    | dropped => exact hopen
    | ahead _ _ hd => exact hd.delivered.trans hopen
  | @futureBuffered i v ha hlt hn hs hv =>
    obtain ⟨pool, rfl, _⟩ := fillSlot_frame hv
    exact (sendRetransmitRequest_delivered _ _ _ _).trans hopen

end HandleMoves

end TradingPipeline.Receiver
