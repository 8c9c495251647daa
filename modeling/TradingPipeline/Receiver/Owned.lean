import TradingPipeline.Receiver.Pool
import TradingPipeline.Receiver.Window
import Mathlib.Data.List.Nodup
import Mathlib.Data.List.Perm.Subperm

/-! # Who holds a frame or a slot

Counting for each UMEM frame how often it occurs in the free stack, with the kernel, in
the current burst and behind un-recycled entries gives exactly one. A slot behind an
un-recycled entry is used and its packet is behind the expected sequence number, so
neither the allocator nor the search for pending packets can pick it.
-/
namespace TradingPipeline.Receiver
open Lib Mold

def RefPtr.addr? : RefPtr → Option ℕ
  | .umem addr => some addr
  | _ => none

def RefPtr.slot? : RefPtr → Option ℕ
  | .slot i => some i
  | _ => none

/-- The UMEM addresses behind un-recycled entries. -/
def State.entryAddrs (s : State) : List ℕ := s.entries.filterMap RefPtr.addr?

/-- The reorder slots behind un-recycled entries. -/
def State.entrySlots (s : State) : List ℕ := s.entries.filterMap RefPtr.slot?

/-- How many of the addresses lie in frame `f`. -/
def framesIn (f : ℕ) (addrs : List ℕ) : ℕ := (addrs.map frameOf).count f

/-- How often frame `f` is held, over all its possible holders. -/
def State.holders (s : State) (f : ℕ) : ℕ :=
  s.kernel.count f + framesIn f s.free + framesIn f s.burst + framesIn f s.drops +
    framesIn f s.held + framesIn f s.entryAddrs

structure Owned (s : State) : Prop where
  frames : ∀ f, s.holders f = if f < afxdpNumFrames then 1 else 0
  slots_nodup : s.entrySlots.Nodup
  inflight : ∀ i ∈ s.entrySlots, i < reorderMax ∧ (s.reorderPool i).used ≠ 0 ∧
    (s.reorderPool i).startSeq < s.gapExpectedSeq
  refs : ∀ e ∈ s.entries, ∃ ref, s.refAt e = some ref ∧ ref.Own e

section Counting
variable {f addr : ℕ} {l k : List ℕ}

@[simp] theorem framesIn_nil : framesIn f [] = 0 := rfl

@[simp] theorem framesIn_append : framesIn f (l ++ k) = framesIn f l + framesIn f k := by
  simp [framesIn]

@[simp] theorem framesIn_cons :
    framesIn f (addr :: l) = framesIn f l + if frameOf addr = f then 1 else 0 := by
  simp [framesIn, List.count_cons]

theorem framesIn_erase (h : addr ∈ l) :
    framesIn f l = framesIn f (l.erase addr) + if frameOf addr = f then 1 else 0 := by
  rw [← framesIn_cons]
  exact ((List.perm_cons_erase h).map frameOf).count_eq f

theorem framesIn_take_add_drop (f n : ℕ) (l : List ℕ) :
    framesIn f l = ((l.take n).map frameOf).count f + framesIn f (l.drop n) := by
  have h := @framesIn_append f (l.take n) (l.drop n)
  rwa [List.take_append_drop] at h

theorem framesIn_pos (h : addr ∈ l) : 0 < framesIn (frameOf addr) l :=
  List.count_pos_iff.mpr (List.mem_map_of_mem h)

theorem length_le_of_framesIn (h : ∀ f, framesIn f l ≤ if f < afxdpNumFrames then 1 else 0) :
    l.length ≤ afxdpNumFrames := by
  have hnodup : (l.map frameOf).Nodup := by
    refine List.nodup_iff_count_le_one.mpr (fun f => le_trans (h f) ?_)
    split <;> omega
  have hsub : l.map frameOf ⊆ List.range afxdpNumFrames := by
    intro f hf
    have hpos := List.count_pos_iff.mpr hf
    have hle := h f
    rw [List.mem_range]
    by_contra hge
    rw [if_neg hge] at hle
    exact absurd hpos (Nat.not_lt_of_le hle)
  simpa using (hnodup.subperm hsub).length_le

end Counting

theorem flag_slot : ∀ i < reorderMax, (reorderAddrFlag ||| i) &&& reorderAddrFlag ≠ 0 ∧
    (reorderAddrFlag ||| i) &&& reorderAddrIdxMask = i := by
  decide +kernel

theorem flag_frame {addr : ℕ} (h : addr < 2 ^ 63) : addr &&& reorderAddrFlag = 0 := by
  refine Nat.eq_of_testBit_eq (fun k => ?_)
  rw [Nat.testBit_and, reorderAddrFlag, Nat.testBit_two_pow, Nat.zero_testBit]
  by_cases hk : 63 = k
  · subst hk
    rw [Nat.testBit_lt_two_pow h, Bool.false_and]
  · simp [hk]

section Facts
variable {s t : State} {addr i : ℕ}

theorem mem_entryAddrs : addr ∈ s.entryAddrs ↔ .umem addr ∈ s.entries := by
  simp only [State.entryAddrs, List.mem_filterMap]
  constructor
  · rintro ⟨e, he, ha⟩
    cases e with
    | umem a =>
      cases ha
      exact he
    | _ => cases ha
  · exact fun h => ⟨_, h, rfl⟩

theorem mem_entrySlots : i ∈ s.entrySlots ↔ .slot i ∈ s.entries := by
  simp only [State.entrySlots, List.mem_filterMap]
  constructor
  · rintro ⟨e, he, ha⟩
    cases e with
    | slot a =>
      cases ha
      exact he
    | _ => cases ha
  · exact fun h => ⟨_, h, rfl⟩

theorem length_eq_addrs_add_slots (l : List RefPtr) (h : .null ∉ l) :
    l.length = (l.filterMap RefPtr.addr?).length + (l.filterMap RefPtr.slot?).length := by
  induction l with
  | nil => rfl
  | cons e l ih =>
    have hl := ih (fun hn => h (List.mem_cons_of_mem e hn))
    cases e with
    | null => exact absurd List.mem_cons_self h
    | umem a =>
      simp only [List.length_cons, List.filterMap_cons, RefPtr.addr?, RefPtr.slot?]
      omega
    | slot i =>
      simp only [List.length_cons, List.filterMap_cons, RefPtr.addr?, RefPtr.slot?]
      omega

theorem Owned.entries_le (hs : Owned s) : s.entries.length ≤ afxdpNumFrames + reorderMax := by
  have hnull : RefPtr.null ∉ s.entries := by
    intro hn
    obtain ⟨ref, href, _⟩ := hs.refs _ hn
    cases href
  have haddrs : s.entryAddrs.length ≤ afxdpNumFrames := by
    refine length_le_of_framesIn (fun f => ?_)
    have hf := hs.frames f
    unfold State.holders at hf
    omega
  have hslots : s.entrySlots.length ≤ reorderMax := by
    have hsub : s.entrySlots ⊆ List.range reorderMax :=
      fun i hi => List.mem_range.mpr (hs.inflight i hi).1
    simpa using (hs.slots_nodup.subperm hsub).length_le
  rw [length_eq_addrs_add_slots _ hnull]
  exact Nat.add_le_add haddrs hslots

theorem Owned.room (hs : Owned s) : s.entries.length < parserToEngineSize :=
  lt_of_le_of_lt hs.entries_le (by decide)

theorem Owned.not_full (hs : Owned s) (hc : Cursors s) : ¬s.Full := by
  intro hf
  have hle := hc.unread_le
  have hroom := hs.room
  unfold State.Full at hf
  omega

theorem Owned.frame_lt (hs : Owned s) {f : ℕ} (h : 0 < s.holders f) : f < afxdpNumFrames := by
  by_contra hge
  rw [hs.frames f, if_neg hge] at h
  omega

theorem Owned.holders_le (hs : Owned s) (f : ℕ) : s.holders f ≤ 1 := by
  rw [hs.frames f]
  split <;> omega

theorem Owned.entry_ne (hs : Owned s) {f : ℕ} (hf : 0 < s.kernel.count f + framesIn f s.held)
    (ha : .umem addr ∈ s.entries) : frameOf addr ≠ f := by
  intro he
  have hpos := framesIn_pos (mem_entryAddrs.mpr ha)
  have hle := hs.holders_le f
  rw [he] at hpos
  unfold State.holders at hle
  omega

theorem Owned.slot_ne (hs : Owned s) {j : ℕ}
    (hj : (s.reorderPool j).used = 0 ∨ s.pending j) (hi : .slot i ∈ s.entries) : i ≠ j := by
  rintro rfl
  obtain ⟨_, hu, hlt⟩ := hs.inflight i (mem_entrySlots.mpr hi)
  rcases hj with hj | hj
  · exact hu hj
  · have := (pending_iff.mp hj).2
    omega

theorem Owned.keep (hs : Owned s) (he : t.entries = s.entries)
    (hf : ∀ f, t.holders f = s.holders f) (hm : ∀ e ∈ s.entries, SameMemory s t e)
    (hx : s.entrySlots = [] ∨ s.gapExpectedSeq ≤ t.gapExpectedSeq) : Owned t where
  frames f := (hf f).trans (hs.frames f)
  slots_nodup := by
    rw [State.entrySlots, he]
    exact hs.slots_nodup
  inflight i hi := by
    rw [State.entrySlots, he] at hi
    obtain ⟨hlt, hu, hstart⟩ := hs.inflight i hi
    have hslot : t.reorderPool i = s.reorderPool i := hm _ (mem_entrySlots.mp hi)
    rw [hslot]
    refine ⟨hlt, hu, ?_⟩
    rcases hx with hnil | hle
    · have hmem : i ∈ s.entrySlots := hi
      rw [hnil] at hmem
      cases hmem
    · omega
  refs e hmem := by
    rw [he] at hmem
    obtain ⟨ref, href, hown⟩ := hs.refs e hmem
    exact ⟨ref, (hm e hmem).refAt.trans href, hown⟩

end Facts

section Publish
variable {s t : State}

theorem Owned.refs_snoc (hs : Owned s) {e : RefPtr} {ref : PacketRef}
    (hentries : t.entries = s.entries ++ [e]) (hpool : t.reorderPool = s.reorderPool)
    (humem : t.umem = s.umem) (href : s.refAt e = some ref) (hown : ref.Own e) :
    ∀ d ∈ t.entries, ∃ ref, t.refAt d = some ref ∧ ref.Own d := by
  intro d hd
  have hsame : t.refAt d = s.refAt d := by
    cases d <;> simp only [State.refAt, hpool, humem]
  rw [hentries] at hd
  rcases List.mem_append.mp hd with hd | hd
  · obtain ⟨r, hr, hro⟩ := hs.refs d hd
    exact ⟨r, hsame.trans hr, hro⟩
  · obtain rfl := List.mem_singleton.mp hd
    exact ⟨ref, hsame.trans href, hown⟩

theorem Owned.publishFrame (hs : Owned s) (hc : Cursors s) {addr n : ℕ} {ref : PacketRef}
    {packet : List UInt8} (hh : addr ∈ s.held)
    (ho : (s.umem (frameOf addr)).overlay = some ref) (hown : ref.Own (.umem addr))
    (hle : s.gapExpectedSeq ≤ (s.gapExpectedSeq + n) % 2 ^ 64) :
    Owned (((s.push (.umem addr) packet).pin addr).advance n) := by
  generalize ht : ((s.push (.umem addr) packet).pin addr).advance n = t
  have hentries : t.entries = s.entries ++ [.umem addr] := by
    rw [← ht]
    exact push_entries hc hs.room _ packet
  have hslots : t.entrySlots = s.entrySlots := by
    simp [State.entrySlots, hentries, RefPtr.slot?]
  have haddrs : t.entryAddrs = s.entryAddrs ++ [addr] := by
    simp [State.entryAddrs, hentries, RefPtr.addr?]
  have hpool : t.reorderPool = s.reorderPool := by rw [← ht]; rfl
  have humem : t.umem = s.umem := by rw [← ht]; rfl
  have hexp : s.gapExpectedSeq ≤ t.gapExpectedSeq := by rw [← ht]; exact hle
  refine ⟨?_, ?_, ?_, ?_⟩
  · intro f
    rw [← hs.frames f]
    have herase := framesIn_erase (f := f) hh
    have hheld : t.held = s.held.erase addr := by rw [← ht]; rfl
    have hrest : t.kernel = s.kernel ∧ t.free = s.free ∧ t.burst = s.burst ∧ t.drops = s.drops := by
      rw [← ht]
      exact ⟨rfl, rfl, rfl, rfl⟩
    obtain ⟨hk, hfree, hb, hd⟩ := hrest
    simp only [State.holders, hk, hfree, hb, hd, hheld, haddrs, framesIn_append, framesIn_cons,
      framesIn_nil]
    omega
  · rw [hslots]
    exact hs.slots_nodup
  · intro i hi
    rw [hslots] at hi
    obtain ⟨hlt, hu, hstart⟩ := hs.inflight i hi
    rw [hpool]
    exact ⟨hlt, hu, lt_of_lt_of_le hstart hexp⟩
  · exact hs.refs_snoc hentries hpool humem ho hown

theorem Owned.publishSlot (hs : Owned s) (hc : Cursors s) {i n : ℕ} {packet : List UInt8}
    (hi : i < reorderMax) (hp : s.pending i) (hown : (s.reorderPool i).ref.Own (.slot i))
    (hseq : (s.reorderPool i).startSeq = s.gapExpectedSeq)
    (hlt : s.gapExpectedSeq < (s.gapExpectedSeq + n) % 2 ^ 64) :
    Owned ((s.push (.slot i) packet).advance n) := by
  generalize ht : (s.push (.slot i) packet).advance n = t
  have hentries : t.entries = s.entries ++ [.slot i] := by
    rw [← ht]
    exact push_entries hc hs.room _ packet
  have hslots : t.entrySlots = s.entrySlots ++ [i] := by
    simp [State.entrySlots, hentries, RefPtr.slot?]
  have haddrs : t.entryAddrs = s.entryAddrs := by
    simp [State.entryAddrs, hentries, RefPtr.addr?]
  have hpool : t.reorderPool = s.reorderPool := by rw [← ht]; rfl
  have humem : t.umem = s.umem := by rw [← ht]; rfl
  have hexp : s.gapExpectedSeq < t.gapExpectedSeq := by rw [← ht]; exact hlt
  refine ⟨?_, ?_, ?_, ?_⟩
  · intro f
    rw [← hs.frames f, State.holders, State.holders, haddrs, ← ht]
    rfl
  · rw [hslots]
    refine List.nodup_append.mpr ⟨hs.slots_nodup, List.nodup_singleton i, ?_⟩
    intro j hj k hk
    rw [List.mem_singleton.mp hk]
    exact hs.slot_ne (.inr hp) (mem_entrySlots.mp hj)
  · intro j hj
    rw [hslots] at hj
    rw [hpool]
    rcases List.mem_append.mp hj with hj | hj
    · obtain ⟨hjlt, hu, hstart⟩ := hs.inflight j hj
      exact ⟨hjlt, hu, lt_trans hstart hexp⟩
    · rw [List.mem_singleton.mp hj]
      exact ⟨hi, (pending_iff.mp hp).1, by omega⟩
  · exact hs.refs_snoc hentries hpool humem rfl hown

end Publish

section Recycle
variable {s : State} {ref : PacketRef}

/-- The recycle flag of an entry's `packet_ref` tells a slot from a frame. -/
theorem Owned.entry_cases (hs : Owned s) {e : RefPtr} (he : e ∈ s.entries)
    (href : s.refAt e = some ref) :
    (∃ i, e = .slot i ∧ ref.umemAddr &&& reorderAddrFlag ≠ 0 ∧
      ref.umemAddr &&& reorderAddrIdxMask = i) ∨
    (∃ addr, e = .umem addr ∧ ref.umemAddr &&& reorderAddrFlag = 0 ∧ ref.umemAddr = addr) := by
  obtain ⟨ref', href', hown⟩ := hs.refs e he
  rw [href] at href'
  cases href'
  cases e with
  | null => cases hown
  | slot i =>
    obtain ⟨_, haddr⟩ := hown
    have hflag := flag_slot i (hs.inflight i (mem_entrySlots.mpr he)).1
    rw [haddr]
    exact .inl ⟨i, rfl, hflag⟩
  | umem addr =>
    obtain ⟨_, haddr⟩ := hown
    have hpos := framesIn_pos (mem_entryAddrs.mpr he)
    have hlt : frameOf addr < afxdpNumFrames := hs.frame_lt (by unfold State.holders; omega)
    have hsmall : addr < 2 ^ 63 := by
      simp only [frameOf, afxdpFrameSize, afxdpNumFrames] at hlt
      omega
    rw [haddr]
    exact .inr ⟨addr, rfl, flag_frame hsmall, rfl⟩

variable (hs : Owned s) (hc : Cursors s) (hne : s.recycleRead ≠ s.parserEngine.nextRead)
  (href : s.refAt (s.parserEngine.entry s.recycleRead) = some ref)
include hs hc hne href

theorem Owned.passSlot (hf : ref.umemAddr &&& reorderAddrFlag ≠ 0) :
    Owned (s.passEntry.freeSlot (ref.umemAddr &&& reorderAddrIdxMask)) ∧
      ∀ e ∈ s.passEntry.entries,
        SameMemory s (s.passEntry.freeSlot (ref.umemAddr &&& reorderAddrIdxMask)) e := by
  have hentries := passEntry_entries hc hne
  have hhead : s.parserEngine.entry s.recycleRead ∈ s.entries := by
    rw [hentries]
    exact List.mem_cons_self
  rcases hs.entry_cases hhead href with ⟨i, hslot, _, hidx⟩ | ⟨_, _, h0, _⟩
  swap
  · exact absurd h0 hf
  rw [hslot] at hentries
  rw [hidx]
  have hnodup := hs.slots_nodup
  have hslots : s.entrySlots = i :: s.passEntry.entrySlots := by
    simp only [State.entrySlots, hentries, List.filterMap_cons, RefPtr.slot?]
  have haddrs : s.entryAddrs = s.passEntry.entryAddrs := by
    simp only [State.entryAddrs, hentries, List.filterMap_cons, RefPtr.addr?]
  rw [hslots] at hnodup
  obtain ⟨hnot, hrest⟩ := List.nodup_cons.mp hnodup
  have hmem : ∀ e ∈ s.passEntry.entries, SameMemory s (s.passEntry.freeSlot i) e := by
    intro e he
    cases e with
    | null => trivial
    | umem addr => rfl
    | slot j =>
      have hji : j ≠ i := by
        rintro rfl
        exact hnot (mem_entrySlots.mpr he)
      exact Function.update_of_ne hji _ _
  have hold : ∀ e ∈ s.passEntry.entries, e ∈ s.entries := by
    intro e he
    rw [hentries]
    exact List.mem_cons_of_mem _ he
  refine ⟨⟨?_, hrest, ?_, ?_⟩, hmem⟩
  · intro f
    rw [← hs.frames f, State.holders, State.holders, haddrs]
    rfl
  · intro j hj
    have hj' : RefPtr.slot j ∈ s.passEntry.entries := mem_entrySlots.mp hj
    have hpool : (s.passEntry.freeSlot i).reorderPool j = s.reorderPool j := hmem _ hj'
    rw [hpool]
    exact hs.inflight j (mem_entrySlots.mpr (hold _ hj'))
  · intro e he
    obtain ⟨r, hr, hown⟩ := hs.refs e (hold e he)
    exact ⟨r, (hmem e he).refAt.trans hr, hown⟩

theorem Owned.passFrame (hf : ref.umemAddr &&& reorderAddrFlag = 0) :
    Owned (s.passEntry.hold ref.umemAddr) := by
  have hentries := passEntry_entries hc hne
  have hhead : s.parserEngine.entry s.recycleRead ∈ s.entries := by
    rw [hentries]
    exact List.mem_cons_self
  rcases hs.entry_cases hhead href with ⟨_, _, h0, _⟩ | ⟨addr, hframe, _, haddr⟩
  · exact absurd hf h0
  rw [hframe] at hentries
  rw [haddr]
  have hslots : s.entrySlots = s.passEntry.entrySlots := by
    simp only [State.entrySlots, hentries, List.filterMap_cons, RefPtr.slot?]
  have haddrs : s.entryAddrs = addr :: s.passEntry.entryAddrs := by
    simp only [State.entryAddrs, hentries, List.filterMap_cons, RefPtr.addr?]
  have hold : ∀ e ∈ s.passEntry.entries, e ∈ s.entries := by
    intro e he
    rw [hentries]
    exact List.mem_cons_of_mem _ he
  have hsame : (s.passEntry.hold addr).entryAddrs = s.passEntry.entryAddrs := rfl
  refine ⟨?_, ?_, ?_, ?_⟩
  · intro f
    rw [← hs.frames f, State.holders, State.holders, haddrs, hsame]
    simp only [State.hold, State.passEntry, framesIn_append, framesIn_cons, framesIn_nil]
    omega
  · have hnodup := hs.slots_nodup
    rw [hslots] at hnodup
    exact hnodup
  · intro i hi
    refine hs.inflight i ?_
    rw [hslots]
    exact hi
  · intro e he
    exact hs.refs e (hold e he)

end Recycle

end TradingPipeline.Receiver
