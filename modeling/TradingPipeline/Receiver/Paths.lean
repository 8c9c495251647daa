import TradingPipeline.Receiver.Handle

/-! # The paths through `handle_payload`

What a call can do, read off the code once. The later modules split on these paths and
never unfold `handlePayload` again.
-/
namespace TradingPipeline.Receiver
open Lib Mold

/-- The payload has a header and announces at least one message. -/
def Accepted (payload : List UInt8) : Prop :=
  headerSize ≤ payload.length ∧ messageCount payload ≠ 0

instance (payload : List UInt8) : Decidable (Accepted payload) :=
  inferInstanceAs (Decidable (_ ∧ _))

section Yield

theorem consumeOne_frame (s : State) :
    ∃ r d, s.consumeOne = { s with
      parserEngine := { s.parserEngine with nextRead := r }
      dispatched := d } := by
  unfold State.consumeOne
  split
  · exact ⟨s.parserEngine.nextRead, s.dispatched, rfl⟩
  · exact ⟨_, _, rfl⟩

theorem consumeMany_frame (s : State) (n : ℕ) :
    ∃ r d, s.consumeMany n = { s with
      parserEngine := { s.parserEngine with nextRead := r }
      dispatched := d } := by
  induction n generalizing s with
  | zero => exact ⟨s.parserEngine.nextRead, s.dispatched, rfl⟩
  | succ n ih =>
    obtain ⟨r, d, h⟩ := consumeOne_frame s
    obtain ⟨r', d', h'⟩ := ih s.consumeOne
    exact ⟨r', d', by rw [State.consumeMany, h', h]⟩

theorem yield_frame (s : State) :
    ∃ r d p, s.yield = { s with
      parserEngine := { s.parserEngine with nextRead := r }
      dispatched := d
      pace := p } := by
  unfold State.yield
  split
  · exact ⟨s.parserEngine.nextRead, s.dispatched, s.pace, rfl⟩
  · rename_i n pace _
    obtain ⟨r, d, h⟩ := consumeMany_frame { s with pace := pace } n
    exact ⟨r, d, pace, h⟩

variable (s : State)

@[simp] theorem yield_reorderPool : s.yield.reorderPool = s.reorderPool := by
  obtain ⟨r, d, p, h⟩ := yield_frame s
  rw [h]

@[simp] theorem yield_gapExpectedSeq : s.yield.gapExpectedSeq = s.gapExpectedSeq := by
  obtain ⟨r, d, p, h⟩ := yield_frame s
  rw [h]

@[simp] theorem yield_nextWrite : s.yield.parserEngine.nextWrite = s.parserEngine.nextWrite := by
  obtain ⟨r, d, p, h⟩ := yield_frame s
  rw [h]

@[simp] theorem yield_delivered : s.yield.delivered = s.delivered := by
  obtain ⟨r, d, p, h⟩ := yield_frame s
  rw [h]

@[simp] theorem yield_held : s.yield.held = s.held := by
  obtain ⟨r, d, p, h⟩ := yield_frame s
  rw [h]

@[simp] theorem yield_umem : s.yield.umem = s.umem := by
  obtain ⟨r, d, p, h⟩ := yield_frame s
  rw [h]

@[simp] theorem yield_log : s.yield.log = s.log := by
  obtain ⟨r, d, p, h⟩ := yield_frame s
  rw [h]

@[simp] theorem yield_singleDrops : s.yield.singleDrops = s.singleDrops := by
  obtain ⟨r, d, p, h⟩ := yield_frame s
  rw [h]

end Yield

/-- `publish_ref` finds the ring full, or it finds room. -/
def State.Full (s : State) : Prop :=
  parserToEngineSize ≤ wrapSub (2 ^ 32) s.parserEngine.nextWrite s.parserEngine.nextRead

instance (s : State) : Decidable s.Full := inferInstanceAs (Decidable (_ ≤ _))

@[simp] theorem push_reorderPool (s : State) (ptr : RefPtr) (packet : List UInt8) :
    (s.push ptr packet).reorderPool = s.reorderPool := rfl

theorem publishRef_full {s : State} (h : s.yield.Full) (ptr : RefPtr) (packet : List UInt8) :
    s.publishRef ptr packet = (s.yield.noteRingFull, false) := by
  have h' := h
  rw [State.Full, yield_nextWrite] at h'
  rw [State.publishRef, if_pos h']

theorem publishRef_room {s : State} (h : ¬s.yield.Full) (ptr : RefPtr) (packet : List UInt8) :
    s.publishRef ptr packet = (s.yield.push ptr packet, true) := by
  have h' := h
  rw [State.Full, yield_nextWrite] at h'
  rw [State.publishRef, if_neg h']

/-- The state after pending slot `i` was published and counted. -/
def State.drained (s : State) (i : ℕ) : State :=
  ((s.yield.push (.slot i) (s.slotPayload i)).advance (s.reorderPool i).msgCount).noteFilled

inductive Drains : State → State → Prop
  | stop {s} (h : s.reorderFind s.gapExpectedSeq = none) : Drains s s
  | full {s i} (h : s.reorderFind s.gapExpectedSeq = some i) (hf : s.yield.Full) :
      Drains s s.yield.noteRingFull
  | publish {s i t} (h : s.reorderFind s.gapExpectedSeq = some i) (hr : ¬s.yield.Full)
      (hd : Drains (s.drained i) t) : Drains s t

theorem drainTurn_stop {s : State} (h : s.reorderFind s.gapExpectedSeq = none) :
    s.drainTurn = .inr s := by
  rw [State.drainTurn, h]

theorem drainTurn_full {s : State} {i : ℕ} (h : s.reorderFind s.gapExpectedSeq = some i)
    (hf : s.yield.Full) : s.drainTurn = .inr s.yield.noteRingFull := by
  rw [State.drainTurn, h]
  simp only [publishRef_full hf]

theorem drainTurn_room {s : State} {i : ℕ} (h : s.reorderFind s.gapExpectedSeq = some i)
    (hr : ¬s.yield.Full) : s.drainTurn = .inl (s.drained i) := by
  rw [State.drainTurn, h]
  simp only [publishRef_room hr, State.drained, push_reorderPool, yield_reorderPool]

theorem drainPending_drains {s t : State} (h : s.drainPending = some t) : Drains s t := by
  have hl := boundedLoop_loops h
  clear h
  induction hl with
  | @leave s t hb =>
    cases hf : s.reorderFind s.gapExpectedSeq with
    | none =>
      rw [drainTurn_stop hf] at hb
      cases hb
      exact .stop hf
    | some i =>
      by_cases hfull : s.yield.Full
      · rw [drainTurn_full hf hfull] at hb
        cases hb
        exact .full hf hfull
      · rw [drainTurn_room hf hfull] at hb
        cases hb
  | @turn s u t hb _ ih =>
    cases hf : s.reorderFind s.gapExpectedSeq with
    | none =>
      rw [drainTurn_stop hf] at hb
      cases hb
    | some i =>
      by_cases hfull : s.yield.Full
      · rw [drainTurn_full hf hfull] at hb
        cases hb
      · rw [drainTurn_room hf hfull] at hb
        cases hb
        exact .publish hf hfull ih

section Pool
variable {s : State} {i seq : ℕ}

theorem reorderAllocSlot_some (h : s.reorderAllocSlot = some i) :
    i < reorderMax ∧ (s.reorderPool i).used = 0 := by
  unfold State.reorderAllocSlot at h
  exact ⟨List.mem_range.mp (List.mem_of_find?_eq_some h), by simpa using List.find?_some h⟩

theorem reorderAllocSlot_none (h : s.reorderAllocSlot = none) :
    ∀ i < reorderMax, (s.reorderPool i).used ≠ 0 := by
  unfold State.reorderAllocSlot at h
  intro i hi
  simpa using List.find?_eq_none.mp h i (List.mem_range.mpr hi)

theorem pending_iff : s.pending i = true ↔
    (s.reorderPool i).used ≠ 0 ∧ s.gapExpectedSeq ≤ (s.reorderPool i).startSeq := by
  simp [State.pending]

theorem reorderFind_some (h : s.reorderFind seq = some i) :
    i < reorderMax ∧ s.pending i ∧ (s.reorderPool i).startSeq = seq := by
  unfold State.reorderFind at h
  have hp := List.find?_some h
  rw [Bool.and_eq_true, beq_iff_eq] at hp
  exact ⟨List.mem_range.mp (List.mem_of_find?_eq_some h), hp⟩

theorem reorderFind_none (h : s.reorderFind seq = none) :
    ∀ i < reorderMax, s.pending i → (s.reorderPool i).startSeq ≠ seq := by
  unfold State.reorderFind at h
  intro i hi hp hs
  have hn := List.find?_eq_none.mp h i (List.mem_range.mpr hi)
  rw [Bool.and_eq_true, beq_iff_eq] at hn
  exact hn ⟨hp, hs⟩

theorem reorderFindMin_some (h : s.reorderFindMin = some i) :
    i < reorderMax ∧ s.pending i ∧
      ∀ j < reorderMax, s.pending j → (s.reorderPool i).startSeq ≤ (s.reorderPool j).startSeq := by
  unfold State.reorderFindMin at h
  obtain ⟨hi, hp, hmin⟩ := firstMin_some h
  exact ⟨List.mem_range.mp hi, hp, fun j hj => hmin j (List.mem_range.mpr hj)⟩

end Pool

/-- The `packet_ref` of the fast path. -/
def frameRef (payload : List UInt8) (addr now off : ℕ) : PacketRef :=
  ⟨.umem addr (off + headerSize), addr, now, payload.length - headerSize⟩

/-- What the skip-ahead can do once no slot is free. -/
inductive Skips (s : State) : State → Prop
  | dropped (h : ∀ i, s.reorderFindMin = some i →
      (s.reorderPool i).startSeq ≤ s.gapExpectedSeq) : Skips s s.dropOne
  | ahead {i t} (hm : s.reorderFindMin = some i)
      (hlt : s.gapExpectedSeq < (s.reorderPool i).startSeq)
      (hd : Drains (s.skipTo (s.reorderPool i).startSeq) t) : Skips s t

/-- Whether `handle_payload` takes the fast path for an in-order packet. -/
def FastPath (afxdpAddr : ℕ) (base : Option ℕ) : Prop := afxdpAddr ≠ uint64Max ∧ base.isSome

section Handles
variable (s : State) (payload : List UInt8) (addr now : ℕ) (base : Option ℕ)

/-- The paths through `handle_payload`, each with its guards and its result. -/
inductive Handles : State → ℕ → Prop
  | ignored (h : ¬Accepted payload) : Handles (s.logDelivery payload) addr
  | late (ha : Accepted payload)
      (h : sequenceNumber payload < (s.opened payload).gapExpectedSeq) :
      Handles (s.opened payload) addr
  | frameFull {off u} (ha : Accepted payload)
      (h : sequenceNumber payload = (s.opened payload).gapExpectedSeq)
      (hm : addr ≠ uint64Max) (hb : base = some off)
      (hu : u = ((s.opened payload).writeRef addr (frameRef payload addr now off)).yield)
      (hf : u.Full) : Handles u.noteRingFull.dropOne addr
  | framePublished {off u t} (ha : Accepted payload)
      (h : sequenceNumber payload = (s.opened payload).gapExpectedSeq)
      (hm : addr ≠ uint64Max) (hb : base = some off)
      (hu : u = ((s.opened payload).writeRef addr (frameRef payload addr now off)).yield)
      (hr : ¬u.Full)
      (hd : Drains (((u.push (.umem addr) payload).pin addr).advance (messageCount payload)) t) :
      Handles t uint64Max
  | duplicate {i} (ha : Accepted payload)
      (h : (s.opened payload).gapExpectedSeq ≤ sequenceNumber payload)
      (hf : (s.opened payload).reorderFind (sequenceNumber payload) = some i) :
      Handles (s.opened payload) addr
  | copyNoSlot (ha : Accepted payload)
      (h : sequenceNumber payload = (s.opened payload).gapExpectedSeq)
      (hp : ¬FastPath addr base)
      (hn : (s.opened payload).reorderFind (sequenceNumber payload) = none)
      (hs : (s.opened payload).reorderAllocSlot = none) :
      Handles (s.opened payload).noteAllocFailure.dropOne addr
  | copyFull {i v} (ha : Accepted payload)
      (h : sequenceNumber payload = (s.opened payload).gapExpectedSeq)
      (hp : ¬FastPath addr base)
      (hn : (s.opened payload).reorderFind (sequenceNumber payload) = none)
      (hs : (s.opened payload).reorderAllocSlot = some i)
      (hv : (s.opened payload).fillSlot i payload now = some v)
      (hf : v.yield.Full) : Handles (v.yield.noteRingFull.freeSlot i).dropOne addr
  | copyPublished {i v t} (ha : Accepted payload)
      (h : sequenceNumber payload = (s.opened payload).gapExpectedSeq)
      (hp : ¬FastPath addr base)
      (hn : (s.opened payload).reorderFind (sequenceNumber payload) = none)
      (hs : (s.opened payload).reorderAllocSlot = some i)
      (hv : (s.opened payload).fillSlot i payload now = some v) (hr : ¬v.yield.Full)
      (hd : Drains ((v.yield.push (.slot i) (v.slotPayload i)).advance (messageCount payload)) t) :
      Handles t addr
  | futureNoSlot {t} (ha : Accepted payload)
      (h : (s.opened payload).gapExpectedSeq < sequenceNumber payload)
      (hn : (s.opened payload).reorderFind (sequenceNumber payload) = none)
      (hs : (s.opened payload).reorderAllocSlot = none)
      (hk : Skips (s.opened payload).noteAllocFailure t) : Handles t addr
  | futureBuffered {i v} (ha : Accepted payload)
      (h : (s.opened payload).gapExpectedSeq < sequenceNumber payload)
      (hn : (s.opened payload).reorderFind (sequenceNumber payload) = none)
      (hs : (s.opened payload).reorderAllocSlot = some i)
      (hv : (s.opened payload).fillSlot i payload now = some v) :
      Handles (v.sendRetransmitRequest v.gapExpectedSeq
        (requestCount (sequenceNumber payload - v.gapExpectedSeq)) now) addr

end Handles

section Inversion
variable {s t : State} {payload : List UInt8} {addr now ret : ℕ} {base : Option ℕ}

theorem skipAhead_skips (h : s.skipAhead = some t) : Skips s t := by
  unfold State.skipAhead at h
  cases hm : s.reorderFindMin with
  | none =>
    rw [hm] at h
    cases h
    exact .dropped (fun i hi => by rw [hm] at hi; cases hi)
  | some i =>
    simp only [hm] at h
    by_cases hlt : s.gapExpectedSeq < (s.reorderPool i).startSeq
    · rw [if_pos hlt] at h
      exact .ahead hm hlt (drainPending_drains h)
    · rw [if_neg hlt] at h
      cases h
      refine .dropped (fun j hj => ?_)
      rw [hm] at hj
      cases hj
      exact Nat.le_of_not_lt hlt

theorem publishFrame_handles {off : ℕ} (ha : Accepted payload)
    (hseq : sequenceNumber payload = (s.opened payload).gapExpectedSeq) (hm : addr ≠ uint64Max)
    (hb : base = some off)
    (h : (s.opened payload).publishFrame payload addr now off = some (t, ret)) :
    Handles s payload addr now base t ret := by
  unfold State.publishFrame at h
  by_cases hf : ((s.opened payload).writeRef addr (frameRef payload addr now off)).yield.Full
  · have hpub := publishRef_full hf (.umem addr) payload
    simp only [frameRef] at hpub
    simp only [hpub, Option.some.injEq, Prod.mk.injEq] at h
    obtain ⟨rfl, rfl⟩ := h
    exact .frameFull ha hseq hm hb rfl hf
  · have hpub := publishRef_room hf (.umem addr) payload
    simp only [frameRef] at hpub
    simp only [hpub] at h
    split at h
    · cases h
    · rename_i hd
      simp only [Option.some.injEq, Prod.mk.injEq] at h
      obtain ⟨rfl, rfl⟩ := h
      exact .framePublished ha hseq hm hb rfl hf (drainPending_drains hd)

theorem publishCopy_handles (ha : Accepted payload)
    (hseq : sequenceNumber payload = (s.opened payload).gapExpectedSeq)
    (hp : ¬FastPath addr base)
    (h : (s.opened payload).publishCopy payload addr now = some (t, ret)) :
    Handles s payload addr now base t ret := by
  unfold State.publishCopy at h
  cases hn : (s.opened payload).reorderFind (sequenceNumber payload) with
  | some i =>
    simp only [hn, Option.some.injEq, Prod.mk.injEq] at h
    obtain ⟨rfl, rfl⟩ := h
    exact .duplicate ha (Nat.le_of_eq hseq.symm) hn
  | none =>
    cases hs : (s.opened payload).reorderAllocSlot with
    | none =>
      simp only [hn, hs, Option.some.injEq, Prod.mk.injEq] at h
      obtain ⟨rfl, rfl⟩ := h
      exact .copyNoSlot ha hseq hp hn hs
    | some i =>
      cases hv : (s.opened payload).fillSlot i payload now with
      | none => simp [hn, hs, hv] at h
      | some v =>
        simp only [hn, hs, hv] at h
        by_cases hf : v.yield.Full
        · simp only [publishRef_full hf, Option.some.injEq, Prod.mk.injEq] at h
          obtain ⟨rfl, rfl⟩ := h
          exact .copyFull ha hseq hp hn hs hv hf
        · simp only [publishRef_room hf] at h
          split at h
          · cases h
          · rename_i hd
            simp only [Option.some.injEq, Prod.mk.injEq] at h
            obtain ⟨rfl, rfl⟩ := h
            exact .copyPublished ha hseq hp hn hs hv hf (drainPending_drains hd)

theorem bufferFuture_handles (ha : Accepted payload)
    (hseq : (s.opened payload).gapExpectedSeq < sequenceNumber payload)
    (h : (s.opened payload).bufferFuture payload addr now = some (t, ret)) :
    Handles s payload addr now base t ret := by
  unfold State.bufferFuture at h
  cases hn : (s.opened payload).reorderFind (sequenceNumber payload) with
  | some i =>
    simp only [hn, Option.some.injEq, Prod.mk.injEq] at h
    obtain ⟨rfl, rfl⟩ := h
    exact .duplicate ha (Nat.le_of_lt hseq) hn
  | none =>
    cases hs : (s.opened payload).reorderAllocSlot with
    | none =>
      simp only [hn, hs] at h
      split at h
      · cases h
      · rename_i hk
        simp only [Option.some.injEq, Prod.mk.injEq] at h
        obtain ⟨rfl, rfl⟩ := h
        exact .futureNoSlot ha hseq hn hs (skipAhead_skips hk)
    | some i =>
      cases hv : (s.opened payload).fillSlot i payload now with
      | none => simp [hn, hs, hv] at h
      | some v =>
        simp only [hn, hs, hv, Option.some.injEq, Prod.mk.injEq] at h
        obtain ⟨rfl, rfl⟩ := h
        exact .futureBuffered ha hseq hn hs hv

/-- Every call of `handle_payload` takes one of the paths. -/
theorem handlePayload_handles (h : s.handlePayload payload addr now base = some (t, ret)) :
    Handles s payload addr now base t ret := by
  unfold State.handlePayload at h
  by_cases hlen : payload.length < headerSize
  · rw [if_pos hlen] at h
    cases h
    exact .ignored (fun ha => absurd ha.1 (Nat.not_le_of_lt hlen))
  rw [if_neg hlen] at h
  by_cases hcount : messageCount payload = 0
  · rw [if_pos hcount] at h
    cases h
    exact .ignored (fun ha => ha.2 hcount)
  rw [if_neg hcount] at h
  have ha : Accepted payload := ⟨Nat.le_of_not_lt hlen, hcount⟩
  simp only [] at h
  by_cases hlate : sequenceNumber payload < (s.opened payload).gapExpectedSeq
  · rw [if_pos hlate] at h
    cases h
    exact .late ha hlate
  rw [if_neg hlate] at h
  by_cases hseq : sequenceNumber payload = (s.opened payload).gapExpectedSeq
  · rw [if_pos hseq] at h
    cases base with
    | none => exact publishCopy_handles ha hseq (by simp [FastPath]) h
    | some off =>
      by_cases hm : addr ≠ uint64Max
      · simp only [if_pos hm] at h
        exact publishFrame_handles ha hseq hm rfl h
      · simp only [if_neg hm] at h
        exact publishCopy_handles ha hseq (fun hp => hm hp.1) h
  · rw [if_neg hseq] at h
    exact bufferFuture_handles ha (by omega) h

end Inversion

end TradingPipeline.Receiver
