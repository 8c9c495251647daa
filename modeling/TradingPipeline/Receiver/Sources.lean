import TradingPipeline.Receiver.Recovery

/-! # Where the payloads come from

A payload that is sequenced was read from the rewinder's socket or lies in a UMEM frame. Only
the kernel writes packets into frames: the receiver itself overwrites the front of a frame with
a `packet_ref`, and what is left of it is no feed packet any more.
-/
namespace TradingPipeline.Receiver
open Lib Mold

/-- The feed packet that the bytes of a frame hold. -/
def framePayload (frame : List UInt8) : Option (List UInt8) :=
  (extractFeedPayload frame).map frame.drop

/-- A frame under a `packet_ref` has no ether type left. -/
theorem framePayload_overlaid (rest : List UInt8) :
    framePayload (List.replicate 32 0 ++ rest) = none := by
  have hlen : 14 ≤ (List.replicate 32 (0 : UInt8) ++ rest).length := by
    rw [List.length_append, List.length_replicate]
    omega
  have hproto : be16At (List.replicate 32 (0 : UInt8) ++ rest) 12 = 0 := by
    simp [be16At, byteAt]
  have htags : stripVlanTags 0 14 ((List.replicate 32 (0 : UInt8) ++ rest).drop 14) =
      some (0, 14) := rfl
  have hnone : extractFeedPayload (List.replicate 32 (0 : UInt8) ++ rest) = none := by
    rw [extractFeedPayload, if_pos hlen, hproto, htags]
    simp only [ethPIp, ethPIpv6]
    rfl
  rw [framePayload, hnone, Option.map_none]

/-- Each frame has kept its bytes, or a `packet_ref` was laid over its front. -/
def Overlays (s t : State) : Prop :=
  ∀ f, (t.umem f).bytes = (s.umem f).bytes ∨
    ∃ rest, (t.umem f).bytes = List.replicate 32 0 ++ rest

section Overlays
variable {s t u : State}

theorem Overlays.of_umem (h : t.umem = s.umem) : Overlays s t := fun f => .inl (by rw [h])

theorem Overlays.trans (h : Overlays s t) (h' : Overlays t u) : Overlays s u := by
  intro f
  rcases h' f with he | hover
  · rw [he]
    exact h f
  · exact .inr hover

theorem overlays_writeRef (s : State) (addr : ℕ) (ref : PacketRef) :
    Overlays s (s.writeRef addr ref) := by
  intro f
  by_cases hf : f = frameOf addr
  · subst hf
    refine .inr ⟨(s.umem (frameOf addr)).bytes.drop 32, ?_⟩
    simp only [State.writeRef, Function.update_self]
  · exact .inl (by simp only [State.writeRef, Function.update_of_ne hf])

theorem Overlays.framePayload (h : Overlays s t) {f : ℕ} {p : List UInt8}
    (hp : framePayload (t.umem f).bytes = some p) : framePayload (s.umem f).bytes = some p := by
  rcases h f with he | ⟨rest, hover⟩
  · rwa [← he]
  · rw [hover, framePayload_overlaid] at hp
    cases hp

end Overlays

section Memory
variable {s t : State} {payload : List UInt8} {addr now ret : ℕ} {base : Option ℕ}

theorem Drains.umem (h : Drains s t) : t.umem = s.umem := by
  induction h with
  | stop => rfl
  | full => exact yield_umem _
  | publish _ _ _ ih => exact ih.trans (yield_umem _)

theorem Skips.umem (h : Skips s t) : t.umem = s.umem := by
  cases h with
  | dropped => rfl
  | ahead _ _ hd => exact hd.umem

theorem fillSlot_umem {i : ℕ} (h : s.fillSlot i payload now = some t) : t.umem = s.umem := by
  obtain ⟨pool, rfl, _⟩ := fillSlot_frame h
  rfl

theorem Handles.overlays (h : Handles s payload addr now base t ret) : Overlays s t := by
  have hopen : Overlays s (s.opened payload) := .of_umem (opened_umem s payload)
  cases h with
  | ignored => exact .of_umem rfl
  | late => exact hopen
  | frameFull _ _ _ _ hu _ =>
    subst hu
    exact (hopen.trans (overlays_writeRef _ _ _)).trans (.of_umem (yield_umem _))
  | framePublished _ _ _ _ hu _ hd =>
    subst hu
    exact (hopen.trans (overlays_writeRef _ _ _)).trans (.of_umem (hd.umem.trans (yield_umem _)))
  | duplicate => exact hopen
  | copyNoSlot => exact hopen
  | copyFull _ _ _ _ _ hv _ =>
    exact hopen.trans (.of_umem ((yield_umem _).trans (fillSlot_umem hv)))
  | copyPublished _ _ _ _ _ hv _ hd =>
    exact hopen.trans (.of_umem (hd.umem.trans ((yield_umem _).trans (fillSlot_umem hv))))
  | futureNoSlot _ _ _ _ hk => exact hopen.trans (.of_umem hk.umem)
  | @futureBuffered i v _ _ _ _ hv =>
    refine hopen.trans (.of_umem (Eq.trans ?_ (fillSlot_umem hv)))
    obtain ⟨_, _, _, he⟩ := sendRetransmitRequest_frame v v.gapExpectedSeq
      (requestCount (sequenceNumber payload - v.gapExpectedSeq)) now
    rw [he]

theorem freeFrames_umem (s : State) (addrs : List ℕ) : (s.freeFrames addrs).1.umem = s.umem := by
  induction addrs generalizing s with
  | nil => rfl
  | cons addr rest ih =>
    unfold State.freeFrames
    split
    · rfl
    · exact ih _

theorem afxdpRecycle_umem (s : State) (room : ℕ) : (s.afxdpRecycle room).1.umem = s.umem := by
  have hfree := freeFrames_umem s s.held
  unfold State.afxdpRecycle
  split
  · next hf =>
    rw [hf] at hfree
    exact hfree
  · next hf =>
    rw [hf] at hfree
    exact hfree

theorem recycleLoop_umem {rooms : List ℕ} {n : ℕ} {ok : Bool}
    (h : s.recycleLoop rooms n = some (t, ok)) : t.umem = s.umem := by
  induction n generalizing s rooms with
  | zero =>
    simp only [State.recycleLoop, Option.some.injEq] at h
    split at h
    · cases h
      rfl
    · have hrec := afxdpRecycle_umem s (rooms.headD 0)
      rwa [h] at hrec
  | succ n ih =>
    unfold State.recycleLoop at h
    split at h
    · cases h
    · next ref _ =>
      split at h
      · have hrest := ih h
        exact hrest
      · have hrec := afxdpRecycle_umem (s.passEntry.hold ref.umemAddr) (rooms.headD 0)
        simp only [] at h
        split at h
        · split at h
          · next hf =>
            cases h
            rw [hf] at hrec
            exact hrec
          · next hf =>
            rw [hf] at hrec
            exact (ih h).trans hrec
        · have hrest := ih h
          exact hrest

theorem takeDescriptors_umem {addrs : List ℕ}
    (h : addrs.foldlM State.takeDescriptor s = some t) : t.umem = s.umem := by
  induction addrs generalizing s with
  | nil =>
    cases h
    rfl
  | cons addr addrs ih =>
    obtain ⟨u, hu, hrest⟩ := Option.bind_eq_some_iff.mp h
    unfold State.takeDescriptor at hu
    split at hu
    · cases hu
      have htaken := ih hrest
      exact htaken
    · cases hu

theorem burstPacket_overlays (h : s.burstPacket now = some t) : Overlays s t := by
  cases burstPacket_bursts h with
  | stopped => exact .of_umem rfl
  | dropped => exact .of_umem rfl
  | ended => exact .of_umem rfl
  | handled _ _ handles =>
    split
    · exact handles.overlays
    · exact handles.overlays

/-- No action of the receiver or the dispatcher brings a feed packet into a frame. -/
theorem Step.overlays {a : Action} (h : Step s a t) (ha : ∀ f packet, a ≠ .dma f packet) :
    Overlays s t := by
  unfold Step at h
  cases a with
  | dispatch =>
    cases h
    obtain ⟨r, d, he⟩ := consumeOne_frame s
    rw [he]
    exact .of_umem rfl
  | dma f packet => exact absurd rfl (ha f packet)
  | refill =>
    cases h
    exact .of_umem rfl
  | recycle =>
    simp only [State.act] at h
    split at h
    · cases h
    · next hrec =>
      cases h
      have hkept := recycleLoop_umem hrec
      exact .of_umem hkept
  | recvBurst room addrs =>
    simp only [State.act] at h
    split at h
    · unfold State.afxdpRecvBurst at h
      split at h
      · have hkept := takeDescriptors_umem h
        exact .of_umem hkept
      · cases h
    · cases h
  | reply datagram now pace =>
    simp only [State.act] at h
    split at h
    · obtain ⟨⟨u, ret⟩, hhandle, rfl⟩ := Option.map_eq_some_iff.mp h
      exact (handlePayload_handles hhandle).overlays
    · cases h
  | nudge now =>
    cases h
    refine .of_umem ?_
    unfold State.nudgeRewinder
    split
    · split
      · rfl
      · split
        · obtain ⟨_, _, _, he⟩ :=
            sendRetransmitRequest_frame s s.gapExpectedSeq (requestCount _) now
          rw [he]
        · rfl
    · rfl
  | packet now pace =>
    have hset : Overlays s { s with pace := pace } := .of_umem rfl
    exact hset.trans (burstPacket_overlays h)
  | recycleDrops room =>
    simp only [State.act] at h
    split at h
    · cases h
      exact .of_umem rfl
    · cases h
      exact .of_umem (afxdpRecycle_umem { s with drops := [], held := s.drops } room)

theorem Step.dma_umem {f : ℕ} {packet : List UInt8} (h : Step s (.dma f packet) t) :
    t.umem = Function.update s.umem f ⟨packet, none⟩ := by
  unfold Step State.act at h
  dsimp only at h
  split at h
  · cases h
    rfl
  · cases h

end Memory

section Delivery
variable {s t : State}

/-- The payload that an action hands to `handle_payload`. -/
inductive Hands (s : State) : Action → List UInt8 → Prop
  | reply {datagram : List UInt8} {now : ℕ} {pace : List ℕ} :
    Hands s (.reply datagram now pace) datagram
  | packet {f now : ℕ} {pace : List ℕ} {payload : List UInt8}
      (hframe : framePayload (s.umem f).bytes = some payload)
      (hend : messageCount payload ≠ 0xFFFF) : Hands s (.packet now pace) payload

theorem burstPacket_delivered {now : ℕ} (h : s.burstPacket now = some t) :
    t.delivered = s.delivered ∨ ∃ f payload, framePayload (s.umem f).bytes = some payload ∧
      messageCount payload ≠ 0xFFFF ∧ t.delivered = s.delivered ++ [payload] := by
  unfold State.burstPacket at h
  split at h
  · cases h
    exact .inl rfl
  · split at h
    · cases h
    · next addr rest _ =>
      dsimp only at h
      split at h
      · cases h
        exact .inl rfl
      · next off hex =>
        split at h
        · cases h
          exact .inl rfl
        · split at h
          · cases h
            exact .inl rfl
          · next hend =>
            split at h
            · cases h
            · next u ret hhandle =>
              have hdel := (handlePayload_handles hhandle).delivered
              have hframe : framePayload (s.umem (frameOf addr)).bytes =
                  some ((s.umem (frameOf addr)).bytes.drop off) := by
                rw [framePayload, hex, Option.map_some]
              refine .inr ⟨_, _, hframe, hend, ?_⟩
              split at h
              · cases h
                exact hdel
              · cases h
                exact hdel

theorem Step.delivers {a : Action} (h : Step s a t) :
    t.delivered = s.delivered ∨ ∃ payload, Hands s a payload ∧
      t.delivered = s.delivered ++ [payload] := by
  have hquiet : Undelivered s t → t.delivered = s.delivered ∨ ∃ payload, Hands s a payload ∧
      t.delivered = s.delivered ++ [payload] := fun hu => .inl hu.delivered
  cases a with
  | reply datagram now pace =>
    unfold Step State.act at h
    dsimp only at h
    split at h
    · obtain ⟨⟨u, ret⟩, hhandle, rfl⟩ := Option.map_eq_some_iff.mp h
      exact .inr ⟨datagram, .reply, (handlePayload_handles hhandle).delivered⟩
    · cases h
  | packet now pace =>
    rcases burstPacket_delivered h with hd | ⟨f, payload, hframe, hend, hd⟩
    · exact .inl hd
    · exact .inr ⟨payload, .packet hframe hend, hd⟩
  | dispatch =>
    cases h
    obtain ⟨r, d, he⟩ := consumeOne_frame s
    exact .inl (by rw [he])
  | dma f packet =>
    unfold Step State.act at h
    dsimp only at h
    split at h
    · cases h
      exact .inl rfl
    · cases h
  | refill =>
    cases h
    exact .inl rfl
  | recycle =>
    unfold Step State.act at h
    dsimp only at h
    split at h
    · cases h
    · next hrec =>
      cases h
      exact .inl (recycleLoop_undelivered hrec).delivered
  | recvBurst room addrs =>
    unfold Step State.act at h
    dsimp only at h
    split at h
    · unfold State.afxdpRecvBurst at h
      split at h
      · exact .inl (takeDescriptors_moves h).2.2.delivered
      · cases h
    · cases h
  | nudge now =>
    cases h
    exact hquiet (nudgeRewinder_moves s now).2.2
  | recycleDrops room =>
    unfold Step State.act at h
    dsimp only at h
    split at h
    · cases h
      exact .inl rfl
    · cases h
      cases hrec : ({ s with drops := [], held := s.drops } : State).afxdpRecycle room with
      | mk u ok => exact .inl (afxdpRecycle_recycles hrec).undelivered.delivered

end Delivery

end TradingPipeline.Receiver
