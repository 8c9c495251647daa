import TradingPipeline.Receiver.Moves

/-! # Invariants of the reorder pool

As long as every copied packet fits its slot, each used slot holds a whole packet that
was delivered, and no two pending slots hold the same start.
-/
namespace TradingPipeline.Receiver
open Lib Mold

/-- The packets on which the copies and the 64-bit sequence arithmetic are exact. -/
def Fits (packet : List UInt8) : Prop :=
  packet.length ≤ slotBytes ∧ endSequence packet < 2 ^ 64

/-- Every accepted packet delivered so far fits. -/
def Admissible (s : State) : Prop := ∀ p ∈ s.delivered, Accepted p → Fits p

/-- Slot `i` holds a copy of the packet, and its `packet_ref` covers the message blocks. -/
structure Holds (slot : ReorderSlot) (i : ℕ) (packet : List UInt8) : Prop where
  startSeq : slot.startSeq = sequenceNumber packet
  msgCount : slot.msgCount = messageCount packet
  payloadLen : slot.payloadLen = packet.length
  bytes : slot.bytes.take packet.length = packet
  data : slot.ref.data = .slot i headerSize
  len : slot.ref.len = packet.length - headerSize
  umemAddr : slot.ref.umemAddr = reorderAddrFlag ||| i

structure PoolInv (s : State) : Prop where
  copies : ∀ i < reorderMax, (s.reorderPool i).used ≠ 0 →
    ∃ p ∈ s.delivered, Accepted p ∧ Holds (s.reorderPool i) i p
  unique : ∀ i < reorderMax, ∀ j < reorderMax, s.pending i → s.pending j →
    (s.reorderPool i).startSeq = (s.reorderPool j).startSeq → i = j
  unset : s.gapSessionSet = false → ∀ i < reorderMax, (s.reorderPool i).used = 0

theorem init_poolInv (fd : ℤ) : PoolInv (init fd) where
  copies _ _ hu := absurd rfl hu
  unique _ _ _ _ hp := absurd rfl (pending_iff.mp hp).1
  unset _ _ _ := rfl

section Updates
variable {s t : State} {i now : ℕ} {payload : List UInt8}

theorem PoolInv.shrink (hs : PoolInv s)
    (hp : ∀ i < reorderMax, (t.reorderPool i).used ≠ 0 → t.reorderPool i = s.reorderPool i)
    (he : s.gapExpectedSeq ≤ t.gapExpectedSeq) (hd : s.delivered ⊆ t.delivered)
    (hset : t.gapSessionSet = false → s.gapSessionSet = false) : PoolInv t where
  copies i hi hu := by
    have heq := hp i hi hu
    rw [heq] at hu ⊢
    obtain ⟨p, hmem, ha, hh⟩ := hs.copies i hi hu
    exact ⟨p, hd hmem, ha, hh⟩
  unique i hi j hj hpi hpj hstart := by
    have hkeep : ∀ k < reorderMax, t.pending k → s.pending k := by
      intro k hk hpk
      obtain ⟨hu, hle⟩ := pending_iff.mp hpk
      have heq := hp k hk hu
      rw [heq] at hu hle
      exact pending_iff.mpr ⟨hu, le_trans he hle⟩
    have hui := (pending_iff.mp hpi).1
    have huj := (pending_iff.mp hpj).1
    rw [hp i hi hui, hp j hj huj] at hstart
    exact hs.unique i hi j hj (hkeep i hi hpi) (hkeep j hj hpj) hstart
  unset hu i hi := by
    by_contra hne
    have heq := hp i hi hne
    rw [heq] at hne
    exact hne (hs.unset (hset hu) i hi)

theorem PoolInv.opened (hs : PoolInv s) : PoolInv (s.opened payload) := by
  unfold State.opened State.openSession
  by_cases hset : s.gapSessionSet = true
  · rw [if_pos (show (s.logDelivery payload).gapSessionSet = true from hset)]
    exact hs.shrink (fun _ _ _ => rfl) le_rfl (List.subset_append_left _ _) (fun h => h)
  · -- nothing is pending before the first packet, so the expected number is free to move
    rw [if_neg (show ¬(s.logDelivery payload).gapSessionSet = true from hset)]
    have hfree : ∀ i < reorderMax, (s.reorderPool i).used = 0 :=
      hs.unset (Bool.eq_false_iff.mpr hset)
    exact ⟨fun i hi hu => absurd (hfree i hi) hu,
      fun i hi j _ hp => absurd (hfree i hi) (pending_iff.mp hp).1, fun _ => hfree⟩

theorem fillSlot_of_fits (hfit : payload.length ≤ slotBytes) :
    s.fillSlot i payload now = some (s.setSlot i
      (buildReorderRef (copiedSlot (s.reorderPool i) payload) i now)) := by
  have hnil : payload.drop (slotBytes + 7) = [] := List.drop_of_length_le (by omega)
  have hspill : spill (reorderMax - (i + 1)) s.reorderPool [] = some s.reorderPool := by
    cases reorderMax - (i + 1) <;> rfl
  unfold State.fillSlot
  simp only [hnil, hspill]

theorem holds_buildReorderRef (slot : ReorderSlot) (ha : Accepted payload)
    (hfit : payload.length ≤ slotBytes) :
    Holds (buildReorderRef (copiedSlot slot payload) i now) i payload := by
  have hlen : payload.length < 2 ^ 16 := lt_of_le_of_lt hfit (by decide)
  have hmod : payload.length % 2 ^ 16 = payload.length := Nat.mod_eq_of_lt hlen
  have hbytes : ((payload ++ slot.bytes.drop payload.length).take slotBytes).take payload.length =
      payload := by
    rw [List.take_take, Nat.min_eq_left hfit, List.take_left' rfl]
  exact ⟨rfl, rfl, hmod, hbytes, rfl, by
    simp only [buildReorderRef, copiedSlot, hmod, wrapSub]
    exact if_pos ha.1, rfl⟩

theorem PoolInv.fillSlot (hs : PoolInv s) (ha : Accepted payload) (hd : payload ∈ s.delivered)
    (hset : s.gapSessionSet = true) (hn : s.reorderFind (sequenceNumber payload) = none)
    (hfit : payload.length ≤ slotBytes) :
    PoolInv (s.setSlot i (buildReorderRef (copiedSlot (s.reorderPool i) payload) i now)) := by
  have hpool : ∀ k, k ≠ i → (s.setSlot i (buildReorderRef (copiedSlot (s.reorderPool i) payload)
      i now)).reorderPool k = s.reorderPool k := fun k hk => Function.update_of_ne hk _ _
  have hnew : (s.setSlot i (buildReorderRef (copiedSlot (s.reorderPool i) payload)
      i now)).reorderPool i = buildReorderRef (copiedSlot (s.reorderPool i) payload) i now :=
    Function.update_self _ _ _
  generalize hv : s.setSlot i (buildReorderRef (copiedSlot (s.reorderPool i) payload) i now) = v
    at hpool hnew
  have hexp : v.gapExpectedSeq = s.gapExpectedSeq := by rw [← hv]; rfl
  have hdel : v.delivered = s.delivered := by rw [← hv]; rfl
  -- the new slot is the only one pending at the start of the payload
  have hother : ∀ k < reorderMax, k ≠ i → v.pending k →
      s.pending k ∧ (s.reorderPool k).startSeq ≠ sequenceNumber payload := by
    intro k hk hki hp
    have hps : s.pending k := by
      rw [pending_iff, hpool k hki, hexp] at hp
      exact pending_iff.mpr hp
    exact ⟨hps, reorderFind_none hn k hk hps⟩
  refine ⟨?_, ?_, ?_⟩
  · intro k hk hu
    rw [hdel]
    by_cases hki : k = i
    · subst hki
      rw [hnew]
      exact ⟨payload, hd, ha, holds_buildReorderRef _ ha hfit⟩
    · rw [hpool k hki] at hu ⊢
      exact hs.copies k hk hu
  · intro k hk j hj hpk hpj hstart
    by_cases hki : k = i <;> by_cases hji : j = i
    · rw [hki, hji]
    · subst hki
      rw [hnew, hpool j hji] at hstart
      exact absurd hstart.symm (hother j hj hji hpj).2
    · subst hji
      rw [hnew, hpool k hki] at hstart
      exact absurd hstart (hother k hk hki hpk).2
    · rw [hpool k hki, hpool j hji] at hstart
      exact hs.unique k hk j hj (hother k hk hki hpk).1 (hother j hj hji hpj).1 hstart
  · intro hu
    have : v.gapSessionSet = s.gapSessionSet := by rw [← hv]; rfl
    rw [this, hset] at hu
    cases hu

theorem PoolInv.freeSlot (hs : PoolInv s) (i : ℕ) : PoolInv (s.freeSlot i) := by
  refine hs.shrink ?_ le_rfl (List.Subset.refl _) (fun h => h)
  intro k _ hu
  by_cases hki : k = i
  · subst hki
    exact absurd (by simp [State.freeSlot, State.setSlot]) hu
  · exact Function.update_of_ne hki _ _

theorem Holds.slotPayload {p : List UInt8} (h : Holds (s.reorderPool i) i p) :
    s.slotPayload i = p := by
  rw [State.slotPayload, h.payloadLen, h.bytes]

/-- The packet of a pending slot that is next fits behind the expected number. -/
theorem PoolInv.next_fits (hs : PoolInv s) (had : Admissible s) (hi : i < reorderMax)
    (hp : s.pending i) (hseq : (s.reorderPool i).startSeq = s.gapExpectedSeq) :
    s.gapExpectedSeq + (s.reorderPool i).msgCount < 2 ^ 64 := by
  obtain ⟨p, hmem, ha, hh⟩ := hs.copies i hi (pending_iff.mp hp).1
  have hfit := (had p hmem ha).2
  rw [endSequence, ← hh.startSeq, ← hh.msgCount] at hfit
  omega

end Updates

theorem Moves.delivered_subset {s t : State} (h : Moves s t) : s.delivered ⊆ t.delivered := by
  cases h with
  | ignored => exact List.subset_append_left _ _
  | opened => simp
  | consume =>
    obtain ⟨r, d, he⟩ := consumeOne_frame s
    rw [he]
    exact List.Subset.refl _
  | fillSlot _ _ _ _ _ _ _ ht =>
    obtain ⟨pool, rfl, _⟩ := fillSlot_frame ht
    exact List.Subset.refl _
  | _ => exact List.Subset.refl _

theorem Admissible.before {s t : State} (h : Admissible t) (hsub : s.delivered ⊆ t.delivered) :
    Admissible s := fun p hp => h p (hsub hp)

theorem Moves.poolInv {s t : State} (h : Moves s t) (hs : PoolInv s) (had : Admissible t) :
    PoolInv t := by
  have had' : Admissible s := had.before h.delivered_subset
  cases h with
  | ignored => exact hs.shrink (fun _ _ _ => rfl) le_rfl (List.subset_append_left _ _) (fun h => h)
  | opened => exact hs.opened
  | consume =>
    obtain ⟨r, d, he⟩ := consumeOne_frame s
    rw [he]
    exact { hs with }
  | @publishFrame addr payload now off _ _ _ ha hd _ hseq _ =>
    have hfit := (had' payload hd ha).2
    rw [endSequence, hseq] at hfit
    have hle : s.gapExpectedSeq ≤ (s.gapExpectedSeq + messageCount payload) % 2 ^ 64 := by
      rw [Nat.mod_eq_of_lt hfit]
      omega
    exact hs.shrink (fun _ _ _ => rfl) hle (List.Subset.refl _) (fun h => h)
  | @publishSlot i hi hp hseq _ =>
    have hfit := hs.next_fits had' hi hp hseq
    have hle : s.gapExpectedSeq ≤ (s.gapExpectedSeq + (s.reorderPool i).msgCount) % 2 ^ 64 := by
      rw [Nat.mod_eq_of_lt hfit]
      omega
    exact hs.shrink (fun _ _ _ => rfl) hle (List.Subset.refl _) (fun h => h)
  | @fillSlot i payload now t _ _ ha hd hset _ hn ht =>
    have hfit := (had' payload hd ha).1
    rw [fillSlot_of_fits hfit] at ht
    cases ht
    exact hs.fillSlot ha hd hset hn hfit
  | unfillSlot => exact hs.freeSlot _
  | skipTo _ _ hlt =>
    exact hs.shrink (fun _ _ _ => rfl) (Nat.le_of_lt hlt) (List.Subset.refl _) (fun h => h)
  | passSlot =>
    have hpass : PoolInv s.passEntry := { hs with }
    exact hpass.freeSlot _
  | _ => exact { hs with }

end TradingPipeline.Receiver
