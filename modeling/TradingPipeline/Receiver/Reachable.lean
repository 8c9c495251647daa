import TradingPipeline.Receiver.Invariant

/-! # Reachable states

The invariant holds after every run over packets that fit. Along a step the session
stays, the expected sequence number does not decrease, and the entries that were not
recycled are kept together with the memory behind them.
-/
namespace TradingPipeline.Receiver
open Lib Mold Relation

section Init

theorem init_entries (fd : ℤ) : (init fd).entries = [] := between_self _ _

theorem init_owned (fd : ℤ) : Owned (init fd) := by
  have hentries := init_entries fd
  have haddrs : (init fd).entryAddrs = [] := by rw [State.entryAddrs, hentries, List.filterMap_nil]
  have hslots : (init fd).entrySlots = [] := by rw [State.entrySlots, hentries, List.filterMap_nil]
  refine ⟨fun f => ?_, ?_, ?_, ?_⟩
  · have hfree : framesIn f (init fd).free = if f < afxdpNumFrames then 1 else 0 := by
      have hmap : (init fd).free.map frameOf = (List.range afxdpNumFrames).reverse := by
        simp only [init, List.map_map]
        refine (List.map_congr_left (fun k _ => ?_)).trans (List.map_id _)
        simp [frameOf, afxdpFrameSize]
      rw [framesIn, hmap, List.count_reverse, List.nodup_range.count]
      simp only [List.mem_range]
    rw [State.holders, haddrs, hfree]
    simp [init]
  · rw [hslots]
    exact List.nodup_nil
  · rw [hslots]
    exact fun i hi => absurd hi List.not_mem_nil
  · rw [hentries]
    exact fun e he => absurd he List.not_mem_nil

theorem init_inv (fd : ℤ) : Inv (init fd) where
  cursors := ⟨Nat.two_pow_pos 32, Nat.two_pow_pos 32, Nat.two_pow_pos 32, rfl⟩
  pool := init_poolInv fd
  owned := init_owned fd
  sequenced := by
    refine ⟨Nat.two_pow_pos 64, fun _ => ⟨fun p hp => absurd hp List.not_mem_nil, rfl, rfl⟩,
      fun h => Bool.noConfusion h, fun p hp => absurd hp List.not_mem_nil, rfl, le_rfl,
      fun h => Bool.noConfusion h⟩
  readable := by
    have hunread : (init fd).unread = [] := between_self _ _
    rw [Readable, hunread]
    rfl
  ringFull := rfl
  freeFailures := rfl

end Init

section Runs
variable {s t : State}

theorem moves_delivered (h : ReflTransGen Moves s t) : s.delivered ⊆ t.delivered := by
  induction h with
  | refl => exact List.Subset.refl _
  | tail _ hm ih => exact List.Subset.trans ih hm.delivered_subset

theorem moves_inv (h : ReflTransGen Moves s t) (hs : Inv s) (had : Admissible t) : Inv t := by
  induction h with
  | refl => exact hs
  | tail _ hm ih => exact hm.inv (ih (had.before hm.delivered_subset)) had

theorem Inv.boundary (hs : Inv s) (hh : s.held = []) : Boundary s where
  held := hh
  read_lt := hs.cursors.read_lt
  recycle_lt := hs.cursors.recycle_lt
  drops := hs.sequenced.singles
  burst addr ha := by
    have hpos := framesIn_pos ha
    have hlt : frameOf addr < afxdpNumFrames :=
      hs.owned.frame_lt (by unfold State.holders; omega)
    simp only [frameOf, afxdpFrameSize, afxdpNumFrames] at hlt
    simp only [uint64Max]
    omega

theorem Step.inv {a : Action} (h : Step s a t) (hs : Inv s) (hh : s.held = [])
    (had : Admissible t) : Inv t ∧ t.held = [] := by
  obtain ⟨hm, hheld⟩ := h.moves (hs.boundary hh)
  have ht := moves_inv hm hs had
  refine ⟨ht, hheld.resolve_right ?_⟩
  rw [ht.freeFailures]
  exact lt_irrefl 0

theorem runs_inv {fd : ℤ} {as : List Action} (hr : Runs Step (init fd) as s)
    (had : Admissible s) : Inv s ∧ s.held = [] := by
  induction hr with
  | nil => exact ⟨init_inv fd, rfl⟩
  | snoc _ hstep ih =>
    obtain ⟨hs, hh⟩ := ih (had.before hstep.delivered_subset)
    exact hstep.inv hs hh had

end Runs

/-- The session and the expected sequence number only move forward. -/
def Forward (s t : State) : Prop :=
  s.gapSessionSet = true →
    t.gapSessionSet = true ∧ t.gapSession = s.gapSession ∧ s.gapExpectedSeq ≤ t.gapExpectedSeq

theorem Forward.trans {s t u : State} (h : Forward s t) (h' : Forward t u) : Forward s u := by
  intro hset
  obtain ⟨hset', hsess, hle⟩ := h hset
  obtain ⟨hset'', hsess', hle'⟩ := h' hset'
  exact ⟨hset'', hsess'.trans hsess, le_trans hle hle'⟩

/-- Entries are recycled from the old end and published at the new one, and the memory
behind those that stay is untouched. -/
def Kept (s t : State) : Prop :=
  ∃ k new, t.entries = s.entries.drop k ++ new ∧ ∀ e ∈ s.entries.drop k, SameMemory s t e

section Steps
variable {s t u : State}

theorem SameMemory.trans {e : RefPtr} (h : SameMemory s t e) (h' : SameMemory t u e) :
    SameMemory s u e := by
  cases e with
  | null => trivial
  | umem addr =>
    have h1 : t.umem (frameOf addr) = s.umem (frameOf addr) := h
    have h2 : u.umem (frameOf addr) = t.umem (frameOf addr) := h'
    exact h2.trans h1
  | slot i =>
    have h1 : t.reorderPool i = s.reorderPool i := h
    have h2 : u.reorderPool i = t.reorderPool i := h'
    exact h2.trans h1

theorem Kept.of_entries (he : t.entries = s.entries) (hm : ∀ e ∈ s.entries, SameMemory s t e) :
    Kept s t := ⟨0, [], by simpa using he, by simpa using hm⟩

theorem Kept.trans (h : Kept s t) (h' : Kept t u) : Kept s u := by
  obtain ⟨k, new, he, hm⟩ := h
  obtain ⟨k', new', he', hm'⟩ := h'
  refine ⟨k + k', new.drop (k' - (s.entries.drop k).length) ++ new', ?_, ?_⟩
  · rw [he', he, List.drop_append, List.drop_drop, List.append_assoc]
  · intro e hmem
    rw [← List.drop_drop] at hmem
    have hold : e ∈ s.entries.drop k := List.mem_of_mem_drop hmem
    refine (hm e hold).trans (hm' e ?_)
    rw [he, List.drop_append]
    exact List.mem_append_left _ hmem

theorem Moves.forward (h : Moves s t) (hp : PoolInv s) (had : Admissible s) : Forward s t := by
  intro hset
  cases h with
  | @opened payload =>
    unfold State.opened State.openSession
    rw [if_pos (show (s.logDelivery payload).gapSessionSet = true from hset)]
    exact ⟨hset, rfl, le_rfl⟩
  | consume =>
    obtain ⟨r, d, he⟩ := consumeOne_frame s
    rw [he]
    exact ⟨hset, rfl, le_rfl⟩
  | @publishFrame addr payload now off _ _ _ ha hd _ hseq _ =>
    have hfit := (had payload hd ha).2
    rw [endSequence, hseq] at hfit
    refine ⟨hset, rfl, ?_⟩
    exact le_trans (Nat.le_add_right _ _) (Nat.le_of_eq (Nat.mod_eq_of_lt hfit).symm)
  | publishSlot hi hpend hseq =>
    exact ⟨hset, rfl, Nat.le_of_lt (hp.next_lt had hi hpend hseq)⟩
  | fillSlot _ _ _ _ _ _ _ ht =>
    obtain ⟨pool, rfl, _⟩ := fillSlot_frame ht
    exact ⟨hset, rfl, le_rfl⟩
  | skipTo _ _ hlt => exact ⟨hset, rfl, Nat.le_of_lt hlt⟩
  | _ => exact ⟨hset, rfl, le_rfl⟩

theorem Moves.kept (h : Moves s t) (hs : Inv s) (had : Admissible s) : Kept s t := by
  have hown := hs.owned
  cases h with
  | @opened payload =>
    exact .of_entries opened_entries (fun e _ => by cases e <;> simp [SameMemory])
  | consume =>
    obtain ⟨r, d, he⟩ := consumeOne_frame s
    rw [he]
    exact .of_entries rfl (fun e _ => by cases e <;> trivial)
  | writeRef hh => exact .of_entries rfl (writeRef_same hown hh _)
  | @publishFrame addr payload =>
    exact ⟨0, [.umem addr], push_entries hs.cursors hown.room _ payload,
      fun e _ => by cases e <;> trivial⟩
  | @publishSlot i =>
    exact ⟨0, [.slot i], push_entries hs.cursors hown.room _ (s.slotPayload i),
      fun e _ => by cases e <;> trivial⟩
  | @fillSlot i payload now t hi hu ha hd _ _ _ ht =>
    rw [fillSlot_of_fits (had payload hd ha).1] at ht
    cases ht
    exact .of_entries rfl (setSlot_same hown (.inl hu) _)
  | unfillSlot _ hpend => exact .of_entries rfl (setSlot_same hown (.inr hpend) _)
  | dma hf => exact .of_entries rfl (dma_same hown hf _)
  | @passSlot ref hne href hf =>
    have hentries := passEntry_entries hs.cursors hne
    refine ⟨1, [], ?_, ?_⟩
    · rw [hentries, List.drop_one, List.tail_cons, List.append_nil]
      rfl
    · rw [hentries, List.drop_one, List.tail_cons]
      exact (hown.passSlot hs.cursors hne href hf).2
  | passFrame hne =>
    have hentries := passEntry_entries hs.cursors hne
    refine ⟨1, [], ?_, fun e _ => by cases e <;> trivial⟩
    rw [hentries, List.drop_one, List.tail_cons, List.append_nil]
    rfl
  | _ => exact .of_entries rfl (fun e _ => by cases e <;> trivial)

theorem moves_forward (h : ReflTransGen Moves s t) (hs : Inv s) (had : Admissible t) :
    Forward s t ∧ Kept s t := by
  induction h with
  | refl => exact ⟨fun hset => ⟨hset, rfl, le_rfl⟩,
    .of_entries rfl (fun e _ => by cases e <;> trivial)⟩
  | tail hpre hm ih =>
    have had' := had.before hm.delivered_subset
    have hu := moves_inv hpre hs had'
    obtain ⟨hf, hk⟩ := ih had'
    exact ⟨hf.trans (hm.forward hu.pool had'), hk.trans (hm.kept hu had')⟩

theorem Step.forward {a : Action} (h : Step s a t) (hs : Inv s) (hh : s.held = [])
    (had : Admissible t) : Forward s t ∧ Kept s t :=
  moves_forward (h.moves (hs.boundary hh)).1 hs had

end Steps

end TradingPipeline.Receiver
