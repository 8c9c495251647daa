import TradingPipeline.Receiver.Owned
import TradingPipeline.Receiver.Actions
import TradingPipeline.Lib.Tiling

/-! # The invariant of the receiver over all runs

Each elementary move keeps the cursors, the pool, the ownership of frames and slots, and
the account of the sequence: published packets and skipped ranges lie one after the
other, and what the dispatcher reads behind the entries is what was published.
-/
namespace TradingPipeline.Receiver
open Lib Mold Relation

def Segment.lo : Segment → ℕ
  | .published p => sequenceNumber p
  | .skipped start _ => start

def Segment.hi : Segment → ℕ
  | .published p => endSequence p
  | .skipped _ stop => stop

def Segment.packet? : Segment → Option (List UInt8)
  | .published p => some p
  | .skipped _ _ => none

/-- The number of sequence numbers given up by the segment. -/
def Segment.lost : Segment → ℕ
  | .published _ => 0
  | .skipped start stop => stop - start

def State.published (s : State) : List (List UInt8) := s.log.filterMap Segment.packet?

def State.skippedTotal (s : State) : ℕ := (s.log.map Segment.lost).sum

/-- The first packet with a header and messages. -/
def firstAccepted (delivered : List (List UInt8)) : Option (List UInt8) :=
  delivered.find? fun p => decide (Accepted p)

structure Sequenced (s : State) : Prop where
  expected_lt : s.gapExpectedSeq < 2 ^ 64
  unset : s.gapSessionSet = false →
    (∀ p ∈ s.delivered, ¬Accepted p) ∧ s.log = [] ∧ s.gapExpectedSeq = 0
  tiles : s.gapSessionSet = true → ∃ p, firstAccepted s.delivered = some p ∧
    Tiles Segment.lo Segment.hi (sequenceNumber p) s.log s.gapExpectedSeq
  published : ∀ p ∈ s.published, p ∈ s.delivered ∧ Accepted p
  dropped : s.gapDroppedPackets = (s.skippedTotal + s.singleDrops) % 2 ^ 64
  singles : s.singleDrops ≤ s.delivered.length
  reach : s.gapSessionSet = true →
    ∃ p ∈ s.delivered, Accepted p ∧ s.gapExpectedSeq ≤ endSequence p

/-- What was read and what lies behind the unread entries is what was published. -/
def Readable (s : State) : Prop :=
  s.dispatched ++ s.unread.map s.contents = s.published.map (fun p => some (blocks p))

/-- The invariant of all runs over packets that fit. -/
structure Inv (s : State) : Prop where
  cursors : Cursors s
  pool : PoolInv s
  owned : Owned s
  sequenced : Sequenced s
  readable : Readable s
  ringFull : s.ringFull = 0
  freeFailures : s.freeFailures = 0

section Accepted
variable {l : List (List UInt8)} {p q : List UInt8}

theorem firstAccepted_append (h : firstAccepted l = some q) :
    firstAccepted (l ++ [p]) = some q := by
  unfold firstAccepted at h ⊢
  rw [List.find?_append, h, Option.some_or]

theorem firstAccepted_first (hl : ∀ q ∈ l, ¬Accepted q) (hp : Accepted p) :
    firstAccepted (l ++ [p]) = some p := by
  have hnone : firstAccepted l = none := by
    simpa [firstAccepted] using hl
  unfold firstAccepted at hnone ⊢
  rw [List.find?_append, hnone, Option.none_or]
  simp [hp]

end Accepted

section Memory
variable {s t : State} {addr i now f : ℕ}

theorem writeRef_same (hs : Owned s) (hh : addr ∈ s.held) (ref : PacketRef) :
    ∀ e ∈ s.entries, SameMemory s (s.writeRef addr ref) e := by
  intro e he
  cases e with
  | null => trivial
  | slot j => rfl
  | umem a =>
    have hpos := framesIn_pos hh
    exact Function.update_of_ne (hs.entry_ne (by omega) he) _ _

theorem dma_same (hs : Owned s) (hf : f ∈ s.kernel) (frame : Frame) :
    ∀ e ∈ s.entries, SameMemory s { s with umem := Function.update s.umem f frame } e := by
  intro e he
  cases e with
  | null => trivial
  | slot j => rfl
  | umem a =>
    have hpos := List.count_pos_iff.mpr hf
    exact Function.update_of_ne (hs.entry_ne (by omega) he) _ _

theorem setSlot_same (hs : Owned s) (hi : (s.reorderPool i).used = 0 ∨ s.pending i)
    (slot : ReorderSlot) : ∀ e ∈ s.entries, SameMemory s (s.setSlot i slot) e := by
  intro e he
  cases e with
  | null => trivial
  | umem a => rfl
  | slot j => exact Function.update_of_ne (hs.slot_ne hi he) _ _

end Memory

theorem Moves.cursors {s t : State} (h : Moves s t) (hc : Cursors s) (hs : Owned s) :
    Cursors t := by
  cases h with
  | opened =>
    obtain ⟨_, _, he⟩ := opened_frame s _
    rw [he]
    exact { hc with }
  | consume =>
    by_cases hne : s.parserEngine.nextRead = s.parserEngine.nextWrite
    · rw [State.consumeOne, if_pos hne]
      exact hc
    · exact consumeOne_cursors hc hne
  | @publishFrame addr payload => exact { push_cursors hc hs.room (.umem addr) payload with }
  | @publishSlot i => exact { push_cursors hc hs.room (.slot i) (s.slotPayload i) with }
  | fillSlot _ _ _ _ _ _ _ ht =>
    obtain ⟨pool, rfl, _⟩ := fillSlot_frame ht
    exact { hc with }
  | passSlot hne => exact { passEntry_cursors hc hne with }
  | passFrame hne => exact { passEntry_cursors hc hne with }
  | _ => exact { hc with }

theorem PoolInv.own {s : State} (hp : PoolInv s) {i : ℕ} (hi : i < reorderMax)
    (hpend : s.pending i) : (s.reorderPool i).ref.Own (.slot i) := by
  obtain ⟨p, _, _, hh⟩ := hp.copies i hi (pending_iff.mp hpend).1
  exact ⟨⟨_, hh.data⟩, hh.umemAddr⟩

theorem PoolInv.next_lt {s : State} (hp : PoolInv s) (had : Admissible s) {i : ℕ}
    (hi : i < reorderMax) (hpend : s.pending i)
    (hseq : (s.reorderPool i).startSeq = s.gapExpectedSeq) :
    s.gapExpectedSeq < (s.gapExpectedSeq + (s.reorderPool i).msgCount) % 2 ^ 64 := by
  obtain ⟨p, _, ha, hh⟩ := hp.copies i hi (pending_iff.mp hpend).1
  have hcount := ha.2
  rw [← hh.msgCount] at hcount
  rw [Nat.mod_eq_of_lt (hp.next_fits had hi hpend hseq)]
  omega

section Opened
variable {s : State} {payload : List UInt8}

theorem opened_entries : (s.opened payload).entries = s.entries := by
  obtain ⟨_, _, he⟩ := opened_frame s payload
  rw [he]
  rfl

theorem Owned.opened (hs : Owned s) (hp : PoolInv s) : Owned (s.opened payload) := by
  have hx : s.entrySlots = [] ∨ s.gapExpectedSeq ≤ (s.opened payload).gapExpectedSeq := by
    by_cases hset : s.gapSessionSet = true
    · right
      unfold State.opened State.openSession
      rw [if_pos (show (s.logDelivery payload).gapSessionSet = true from hset)]
      exact le_rfl
    · -- before the first packet no slot is used, so none is in flight
      left
      refine List.eq_nil_iff_forall_not_mem.mpr (fun i hi => ?_)
      obtain ⟨hlt, hu, _⟩ := hs.inflight i hi
      exact hu (hp.unset (Bool.eq_false_iff.mpr hset) i hlt)
  have hsame : ∀ e ∈ s.entries, SameMemory s (s.opened payload) e := by
    intro e _
    cases e <;> simp [SameMemory]
  refine hs.keep opened_entries (fun f => ?_) hsame hx
  obtain ⟨_, _, he⟩ := opened_frame s payload
  rw [he]
  rfl

end Opened

theorem Moves.owned {s t : State} (h : Moves s t) (hs : Owned s) (hc : Cursors s)
    (hp : PoolInv s) (had : Admissible s) : Owned t := by
  cases h with
  | opened => exact hs.opened hp
  | consume =>
    obtain ⟨r, d, he⟩ := consumeOne_frame s
    rw [he]
    exact { hs with }
  | writeRef hh => exact hs.keep rfl (fun _ => rfl) (writeRef_same hs hh _) (.inr le_rfl)
  | @publishFrame addr payload now off hh ho _ ha hd _ hseq _ =>
    have hfit := (had payload hd ha).2
    rw [endSequence, hseq] at hfit
    refine hs.publishFrame hc hh ho ⟨⟨_, rfl⟩, rfl⟩ ?_
    rw [Nat.mod_eq_of_lt hfit]
    omega
  | publishSlot hi hpend hseq =>
    exact hs.publishSlot hc hi hpend (hp.own hi hpend) hseq (hp.next_lt had hi hpend hseq)
  | @fillSlot i payload now t hi hu ha hd _ _ _ ht =>
    rw [fillSlot_of_fits (had payload hd ha).1] at ht
    cases ht
    exact hs.keep rfl (fun _ => rfl) (setSlot_same hs (.inl hu) _) (.inr le_rfl)
  | unfillSlot _ hpend =>
    exact hs.keep rfl (fun _ => rfl) (setSlot_same hs (.inr hpend) _) (.inr le_rfl)
  | skipTo _ _ hlt =>
    exact hs.keep rfl (fun _ => rfl) (fun e _ => by cases e <;> trivial) (.inr (Nat.le_of_lt hlt))
  | dma hf => exact hs.keep rfl (fun _ => rfl) (dma_same hs hf _) (.inr le_rfl)
  | passSlot hne href hf => exact (hs.passSlot hc hne href hf).1
  | passFrame hne href hf => exact hs.passFrame hc hne href hf
  | @refill room =>
    refine hs.keep rfl (fun f => ?_) (fun e _ => by cases e <;> trivial) (.inr le_rfl)
    have hsplit := framesIn_take_add_drop f room s.free
    have hsame : (s.afxdpRefillFq room).entryAddrs = s.entryAddrs := rfl
    simp only [State.holders, hsame]
    simp only [State.afxdpRefillFq, List.count_append]
    omega
  | @takeDescriptor addr hk =>
    refine hs.keep rfl (fun f => ?_) (fun e _ => by cases e <;> trivial) (.inr le_rfl)
    have hpos := List.count_pos_iff.mpr hk
    simp only [State.holders, State.entryAddrs, State.entries, List.count_erase, framesIn_append,
      framesIn_cons, framesIn_nil, beq_iff_eq]
    split
    · rename_i he
      rw [← he]
      omega
    · omega
  | @freeFrame addr rest hh _ =>
    refine hs.keep rfl (fun f => ?_) (fun e _ => by cases e <;> trivial) (.inr le_rfl)
    simp only [State.holders, State.entryAddrs, State.entries, hh, framesIn_cons]
    omega
  | @dropPacket addr rest hb =>
    refine hs.keep rfl (fun f => ?_) (fun e _ => by cases e <;> trivial) (.inr le_rfl)
    simp only [State.holders, State.dropPacket, State.entryAddrs, State.entries, hb,
      framesIn_append, framesIn_cons, framesIn_nil]
    omega
  | @takePacket addr rest hb hh =>
    refine hs.keep rfl (fun f => ?_) (fun e _ => by cases e <;> trivial) (.inr le_rfl)
    simp only [State.holders, State.entryAddrs, State.entries, hb, hh, framesIn_cons, framesIn_nil]
    omega
  | @dropHeld addr hh =>
    refine hs.keep rfl (fun f => ?_) (fun e _ => by cases e <;> trivial) (.inr le_rfl)
    simp only [State.holders, State.dropHeld, State.entryAddrs, State.entries, hh,
      framesIn_append, framesIn_cons, framesIn_nil]
    omega
  | holdDrops hh =>
    refine hs.keep rfl (fun f => ?_) (fun e _ => by cases e <;> trivial) (.inr le_rfl)
    simp only [State.holders, State.entryAddrs, State.entries, hh, framesIn_nil]
    omega
  | _ => exact { hs with }

section Sequence
variable {s t : State}

theorem Sequenced.extend (hs : Sequenced s) (hset : s.gapSessionSet = true) (seg : Segment)
    (hlo : seg.lo = s.gapExpectedSeq) (hlt : seg.lo < seg.hi) :
    ∃ p, firstAccepted s.delivered = some p ∧
      Tiles Segment.lo Segment.hi (sequenceNumber p) (s.log ++ [seg]) seg.hi := by
  obtain ⟨p, hfirst, htiles⟩ := hs.tiles hset
  exact ⟨p, hfirst, htiles.snoc hlo hlt⟩

theorem published_append (l : List Segment) (seg : Segment) :
    (l ++ [seg]).filterMap Segment.packet? =
      l.filterMap Segment.packet? ++ seg.packet?.toList := by
  rw [List.filterMap_append]
  cases h : seg.packet? <;> simp [h]

theorem Sequenced.publish (hs : Sequenced s) {packet : List UInt8} {n : ℕ}
    (hset : s.gapSessionSet = true) (ha : Accepted packet) (hd : packet ∈ s.delivered)
    (hseq : sequenceNumber packet = s.gapExpectedSeq) (hn : n = messageCount packet)
    (hfit : endSequence packet < 2 ^ 64) (ptr : RefPtr) :
    Sequenced ((s.push ptr packet).advance n) := by
  have hexp : ((s.push ptr packet).advance n).gapExpectedSeq = endSequence packet := by
    subst hn
    rw [endSequence, hseq] at hfit
    rw [endSequence, hseq]
    exact Nat.mod_eq_of_lt hfit
  have hlt : sequenceNumber packet < endSequence packet := by
    have := ha.2
    unfold endSequence
    omega
  refine ⟨Nat.mod_lt _ (by decide), fun h => absurd (hset.symm.trans h) (by decide), fun _ => ?_,
    ?_, ?_, hs.singles, fun _ => ⟨packet, hd, ha, Nat.le_of_eq hexp⟩⟩
  · rw [hexp]
    exact hs.extend hset (.published packet) hseq hlt
  · intro p hp
    simp only [State.published, State.push, State.advance, published_append, List.mem_append] at hp
    rcases hp with hp | hp
    · exact hs.published p hp
    · have hpp : p = packet := by simpa [Segment.packet?] using hp
      rw [hpp]
      exact ⟨hd, ha⟩
  · have hd := hs.dropped
    simpa [State.skippedTotal, State.push, State.advance, Segment.lost] using hd

theorem Sequenced.opened (hs : Sequenced s) {payload : List UInt8} (ha : Accepted payload) :
    Sequenced (s.opened payload) := by
  have hsingles : s.singleDrops ≤ (s.delivered ++ [payload]).length := by
    have := hs.singles
    rw [List.length_append]
    omega
  have hpub : ∀ p ∈ s.published, p ∈ s.delivered ++ [payload] ∧ Accepted p :=
    fun p hp => ⟨List.mem_append_left _ (hs.published p hp).1, (hs.published p hp).2⟩
  unfold State.opened State.openSession
  by_cases hset : s.gapSessionSet = true
  · rw [if_pos (show (s.logDelivery payload).gapSessionSet = true from hset)]
    refine ⟨hs.expected_lt, fun h => absurd (hset.symm.trans h) (by decide),
      fun _ => ?_, hpub, hs.dropped, hsingles, fun _ => ?_⟩
    · obtain ⟨p, hfirst, htiles⟩ := hs.tiles hset
      exact ⟨p, firstAccepted_append hfirst, htiles⟩
    · obtain ⟨p, hp, hreach⟩ := hs.reach hset
      exact ⟨p, List.mem_append_left _ hp, hreach⟩
  · rw [if_neg (show ¬(s.logDelivery payload).gapSessionSet = true from hset)]
    obtain ⟨hnone, hlog, _⟩ := hs.unset (Bool.eq_false_iff.mpr hset)
    refine ⟨sequenceNumber_lt payload, fun h => Bool.noConfusion h, fun _ => ?_, hpub, hs.dropped,
      hsingles, fun _ => ⟨payload, by simp [State.logDelivery], ha, Nat.le_add_right _ _⟩⟩
    refine ⟨payload, firstAccepted_first hnone ha, ?_⟩
    simp only [State.logDelivery, hlog]
    rfl

theorem Sequenced.skipTo (hs : Sequenced s) (hset : s.gapSessionSet = true) {p : List UInt8}
    (hd : p ∈ s.delivered) (ha : Accepted p) (hlt : s.gapExpectedSeq < sequenceNumber p) :
    Sequenced (s.skipTo (sequenceNumber p)) := by
  refine ⟨sequenceNumber_lt p, fun h => absurd (hset.symm.trans h) (by decide),
    fun _ => hs.extend hset (.skipped s.gapExpectedSeq (sequenceNumber p)) rfl hlt, ?_, ?_,
    hs.singles, fun _ => ⟨p, hd, ha, Nat.le_add_right _ _⟩⟩
  · intro q hq
    simp only [State.published, State.skipTo, published_append, Segment.packet?,
      Option.toList_none, List.append_nil] at hq
    exact hs.published q hq
  · have hd := hs.dropped
    simp only [State.skippedTotal, State.skipTo, List.map_append, List.sum_append, List.map_cons,
      List.map_nil, List.sum_cons, List.sum_nil, Segment.lost] at hd ⊢
    rw [hd, Nat.mod_add_mod]
    congr 1
    omega

theorem Moves.sequenced (h : Moves s t) (hs : Sequenced s) (hp : PoolInv s)
    (had : Admissible s) : Sequenced t := by
  cases h with
  | @ignored payload hna =>
    refine ⟨hs.expected_lt, ?_, ?_, ?_, hs.dropped, ?_, ?_⟩
    · intro hset
      obtain ⟨hnone, hlog⟩ := hs.unset hset
      refine ⟨fun p hp => ?_, hlog⟩
      rcases List.mem_append.mp hp with hp | hp
      · exact hnone p hp
      · rw [List.mem_singleton.mp hp]
        exact hna
    · intro hset
      obtain ⟨p, hfirst, htiles⟩ := hs.tiles hset
      exact ⟨p, firstAccepted_append hfirst, htiles⟩
    · exact fun p hp => ⟨List.mem_append_left _ (hs.published p hp).1, (hs.published p hp).2⟩
    · have := hs.singles
      simp only [State.logDelivery, List.length_append]
      omega
    · intro hset
      obtain ⟨p, hp, hreach⟩ := hs.reach hset
      exact ⟨p, List.mem_append_left _ hp, hreach⟩
  | opened ha => exact hs.opened ha
  | consume =>
    obtain ⟨r, d, he⟩ := consumeOne_frame s
    rw [he]
    exact { hs with }
  | @publishFrame addr payload now off _ _ _ ha hd hset hseq _ =>
    have hpub := hs.publish hset ha hd hseq rfl (had payload hd ha).2 (.umem addr)
    exact { hpub with }
  | @publishSlot i hi hpend hseq _ =>
    obtain ⟨p, hd, ha, hh⟩ := hp.copies i hi (pending_iff.mp hpend).1
    have hset : s.gapSessionSet = true := by
      by_contra hne
      exact (pending_iff.mp hpend).1 (hp.unset (Bool.eq_false_iff.mpr hne) i hi)
    rw [hh.slotPayload]
    exact hs.publish hset ha hd (by rw [← hh.startSeq, hseq]) hh.msgCount (had p hd ha).2 _
  | dropOne hlt =>
    refine { hs with dropped := ?_, singles := hlt }
    have hd := hs.dropped
    simp only [State.dropOne, State.skippedTotal] at hd ⊢
    rw [hd, Nat.mod_add_mod]
    rfl
  | fillSlot _ _ _ _ _ _ _ ht =>
    obtain ⟨pool, rfl, _⟩ := fillSlot_frame ht
    exact { hs with }
  | @skipTo i hi hpend hlt =>
    obtain ⟨p, hd, ha, hh⟩ := hp.copies i hi (pending_iff.mp hpend).1
    have hset : s.gapSessionSet = true := by
      by_contra hne
      exact (pending_iff.mp hpend).1 (hp.unset (Bool.eq_false_iff.mpr hne) i hi)
    rw [hh.startSeq] at hlt ⊢
    exact hs.skipTo hset hd ha hlt
  | _ => exact { hs with }

end Sequence

section Reading
variable {s t : State}

theorem Readable.keep (hr : Readable s) (hs : Owned s) (hc : Cursors s)
    (hd : t.dispatched = s.dispatched) (hu : t.unread = s.unread) (hl : t.published = s.published)
    (hm : ∀ e ∈ s.unread, SameMemory s t e) : Readable t := by
  have hmap : s.unread.map t.contents = s.unread.map s.contents := by
    refine List.map_congr_left (fun e he => ?_)
    obtain ⟨ref, href, hown⟩ := hs.refs e (hc.mem_entries he)
    exact (hm e he).contents href hown
  unfold Readable
  rw [hd, hu, hl, hmap]
  exact hr

theorem Readable.consumeOne (hr : Readable s) (hc : Cursors s) : Readable s.consumeOne := by
  by_cases hne : s.parserEngine.nextRead = s.parserEngine.nextWrite
  · rw [State.consumeOne, if_pos hne]
    exact hr
  · have hunread := consumeOne_unread hc hne
    have hd : s.consumeOne.dispatched =
        s.dispatched ++ [s.contents (s.parserEngine.entry s.parserEngine.nextRead)] := by
      rw [State.consumeOne, if_neg hne]
    have hrest : s.consumeOne.published = s.published ∧ s.consumeOne.contents = s.contents := by
      rw [State.consumeOne, if_neg hne]
      exact ⟨rfl, rfl⟩
    unfold Readable at hr ⊢
    rw [hunread, List.map_cons] at hr
    rw [hd, hrest.1, hrest.2, ← hr]
    simp

theorem Readable.push (hr : Readable s) (hs : Owned s) (hc : Cursors s) {ptr : RefPtr}
    {packet : List UInt8} (hcont : s.contents ptr = some (blocks packet)) :
    Readable (s.push ptr packet) := by
  have hunread := push_unread hc hs.room ptr packet
  have hsame : (s.push ptr packet).contents = s.contents := rfl
  have hpub : (s.push ptr packet).published = s.published ++ [packet] := published_append _ _
  unfold Readable at hr ⊢
  rw [hunread, hsame, hpub, List.map_append, List.map_append, ← hr]
  simp [State.push, hcont]

theorem contents_frame {addr now off : ℕ} {payload : List UInt8}
    (ho : (s.umem (frameOf addr)).overlay = some (frameRef payload addr now off))
    (hb : (s.umem (frameOf addr)).bytes.drop (off + headerSize) = blocks payload) :
    s.contents (.umem addr) = some (blocks payload) := by
  simp only [State.contents, State.refAt, ho, Option.bind_some, State.deref, frameRef, hb]
  rw [List.take_of_length_le (by simp [blocks])]

theorem contents_slot {i : ℕ} {p : List UInt8} (hh : Holds (s.reorderPool i) i p)
    (ha : Accepted p) (hfit : p.length ≤ slotBytes) :
    s.contents (.slot i) = some (blocks p) := by
  have hlen : headerSize + (p.length - headerSize) ≤ slotBytes := by
    have := ha.1
    omega
  simp only [State.contents, State.refAt, Option.bind_some, State.deref, hh.data, hh.len,
    if_pos hlen]
  rw [← List.drop_take, hh.bytes, blocks]

theorem Moves.readable (h : Moves s t) (hr : Readable s) (hs : Owned s) (hc : Cursors s)
    (hp : PoolInv s) (had : Admissible s) : Readable t := by
  cases h with
  | @opened payload =>
    obtain ⟨_, _, he⟩ := opened_frame s payload
    rw [he]
    exact hr
  | consume => exact hr.consumeOne hc
  | writeRef hh =>
    exact hr.keep hs hc rfl rfl rfl (fun e he => writeRef_same hs hh _ e (hc.mem_entries he))
  | publishFrame _ ho hb => exact hr.push hs hc (contents_frame ho hb)
  | @publishSlot i hi hpend hseq _ =>
    obtain ⟨p, hd, ha, hh⟩ := hp.copies i hi (pending_iff.mp hpend).1
    rw [hh.slotPayload]
    exact hr.push hs hc (contents_slot hh ha (had p hd ha).1)
  | @fillSlot i payload now t hi hu ha hd _ _ _ ht =>
    rw [fillSlot_of_fits (had payload hd ha).1] at ht
    cases ht
    exact hr.keep hs hc rfl rfl rfl
      (fun e he => setSlot_same hs (.inl hu) _ e (hc.mem_entries he))
  | unfillSlot _ hpend =>
    exact hr.keep hs hc rfl rfl rfl
      (fun e he => setSlot_same hs (.inr hpend) _ e (hc.mem_entries he))
  | @skipTo i =>
    have hpub : (s.skipTo (s.reorderPool i).startSeq).published = s.published := by
      simp only [State.published, State.skipTo, published_append, Segment.packet?,
        Option.toList_none, List.append_nil]
    exact hr.keep hs hc rfl rfl hpub (fun e _ => by cases e <;> trivial)
  | dma hf =>
    exact hr.keep hs hc rfl rfl rfl (fun e he => dma_same hs hf _ e (hc.mem_entries he))
  | passSlot hne href hf =>
    have hpass := passEntry_cursors hc hne
    exact hr.keep hs hc rfl rfl rfl
      (fun e he => (hs.passSlot hc hne href hf).2 e (hpass.mem_entries he))
  | _ => exact hr

end Reading

theorem Owned.free_lt {s : State} (hs : Owned s) {addr : ℕ} {rest : List ℕ}
    (hh : s.held = addr :: rest) : s.free.length < afxdpNumFrames := by
  have hle : (s.free ++ s.held).length ≤ afxdpNumFrames := by
    refine length_le_of_framesIn (fun f => ?_)
    have hf := hs.frames f
    unfold State.holders at hf
    rw [framesIn_append]
    omega
  rw [hh, List.length_append, List.length_cons] at hle
  omega

theorem Moves.inv {s t : State} (h : Moves s t) (hs : Inv s) (had : Admissible t) : Inv t := by
  have had' : Admissible s := had.before h.delivered_subset
  refine ⟨h.cursors hs.cursors hs.owned, h.poolInv hs.pool had,
    h.owned hs.owned hs.cursors hs.pool had', h.sequenced hs.sequenced hs.pool had',
    h.readable hs.readable hs.owned hs.cursors hs.pool had', ?_, ?_⟩
  · have hring := hs.ringFull
    cases h with
    | opened =>
      obtain ⟨_, _, he⟩ := opened_frame s _
      rw [he]
      exact hring
    | consume =>
      obtain ⟨r, d, he⟩ := consumeOne_frame s
      rw [he]
      exact hring
    | noteRingFull hf => exact absurd hf (hs.owned.not_full hs.cursors)
    | fillSlot _ _ _ _ _ _ _ ht =>
      obtain ⟨pool, rfl, _⟩ := fillSlot_frame ht
      exact hring
    | _ => exact hring
  · have hfree := hs.freeFailures
    cases h with
    | opened =>
      obtain ⟨_, _, he⟩ := opened_frame s _
      rw [he]
      exact hfree
    | consume =>
      obtain ⟨r, d, he⟩ := consumeOne_frame s
      rw [he]
      exact hfree
    | freeRefused hh hl => exact absurd hl (Nat.not_le_of_lt (hs.owned.free_lt hh))
    | fillSlot _ _ _ _ _ _ _ ht =>
      obtain ⟨pool, rfl, _⟩ := fillSlot_frame ht
      exact hfree
    | _ => exact hfree

end TradingPipeline.Receiver
