import TradingPipeline.Receiver.Moves

/-! # Actions as sequences of moves

Between two actions no address is held in a local variable. From such a state every
action is a sequence of elementary moves that leads to such a state again, unless
`xsk_free_umem_frame` refuses a frame.
-/
namespace TradingPipeline.Receiver
open Lib Mold Relation

/-- What the receiver relies on at the start of an action. -/
structure Boundary (s : State) : Prop where
  held : s.held = []
  read_lt : s.parserEngine.nextRead < 2 ^ 32
  recycle_lt : s.recycleRead < 2 ^ 32
  drops : s.singleDrops ≤ s.delivered.length
  burst : ∀ addr ∈ s.burst, addr ≠ uint64Max

section Recycle
variable {s t : State} {ok : Bool}

/-- What an action that delivers no packet leaves alone; it may free slots. -/
structure Undelivered (s t : State) : Prop where
  delivered : t.delivered = s.delivered
  gapSession : t.gapSession = s.gapSession
  gapSessionSet : t.gapSessionSet = s.gapSessionSet
  gapExpectedSeq : t.gapExpectedSeq = s.gapExpectedSeq
  gapDroppedPackets : t.gapDroppedPackets = s.gapDroppedPackets
  log : t.log = s.log
  allocFailures : t.allocFailures = s.allocFailures
  pool : ∀ i, (t.reorderPool i).used ≠ 0 → t.reorderPool i = s.reorderPool i

theorem Undelivered.refl (s : State) : Undelivered s s :=
  ⟨rfl, rfl, rfl, rfl, rfl, rfl, rfl, fun _ _ => rfl⟩

theorem Undelivered.trans {u : State} (h : Undelivered s t) (h' : Undelivered t u) :
    Undelivered s u where
  delivered := h'.delivered.trans h.delivered
  gapSession := h'.gapSession.trans h.gapSession
  gapSessionSet := h'.gapSessionSet.trans h.gapSessionSet
  gapExpectedSeq := h'.gapExpectedSeq.trans h.gapExpectedSeq
  gapDroppedPackets := h'.gapDroppedPackets.trans h.gapDroppedPackets
  log := h'.log.trans h.log
  allocFailures := h'.allocFailures.trans h.allocFailures
  pool i hu := by
    have hi := h'.pool i hu
    rw [hi] at hu ⊢
    exact h.pool i hu

theorem undelivered_freeSlot (s : State) (i : ℕ) : Undelivered s (s.freeSlot i) := by
  refine { Undelivered.refl s with pool := fun k hu => ?_ }
  by_cases hk : k = i
  · subst hk
    exact absurd (by simp [State.freeSlot, State.setSlot]) hu
  · exact Function.update_of_ne hk _ _

/-- What `afxdp_recycle` makes of the frames in its hands: they are free again, or it has
failed. It touches neither the ring nor what was delivered. -/
structure Recycles (s t : State) (ok : Bool) : Prop where
  moves : ReflTransGen Moves s t
  held : ok = true → t.held = []
  failed : ok = false → 0 < t.freeFailures
  ring : t.parserEngine = s.parserEngine
  cursor : t.recycleRead = s.recycleRead
  stopped : t.stopped = s.stopped
  undelivered : Undelivered s t

theorem freeFrames_recycles {addrs : List ℕ} (hh : s.held = addrs)
    (h : s.freeFrames addrs = (t, ok)) : Recycles s t ok := by
  induction addrs generalizing s with
  | nil =>
    cases h
    exact ⟨.refl, fun _ => hh, fun h => absurd h (by decide), rfl, rfl, rfl, .refl _⟩
  | cons addr rest ih =>
    unfold State.freeFrames at h
    by_cases hl : afxdpNumFrames ≤ s.free.length
    · rw [if_pos hl] at h
      cases h
      exact ⟨.single (.freeRefused hh hl), fun h => absurd h (by decide), fun _ => Nat.succ_pos _,
        rfl, rfl, rfl, { Undelivered.refl s with }⟩
    · rw [if_neg hl] at h
      have hrest := ih (s := { s with free := addr :: s.free, held := rest }) rfl h
      exact { hrest with
        moves := .head (.freeFrame hh (Nat.lt_of_not_le hl)) hrest.moves
        undelivered := { hrest.undelivered with } }

theorem afxdpRecycle_recycles {room : ℕ} (h : s.afxdpRecycle room = (t, ok)) : Recycles s t ok := by
  unfold State.afxdpRecycle at h
  cases hf : s.freeFrames s.held with
  | mk u b =>
    have hu := freeFrames_recycles rfl hf
    rw [hf] at h
    cases b with
    | false =>
      cases h
      exact hu
    | true =>
      cases h
      exact { hu with
        moves := hu.moves.tail .refill
        undelivered := { hu.undelivered with }
        failed := fun h => absurd h (by decide) }

theorem recycleLoop_moves {rooms : List ℕ} {n : ℕ} (hr : s.parserEngine.nextRead < 2 ^ 32)
    (hc : s.recycleRead < 2 ^ 32)
    (hn : n = wrapSub (2 ^ 32) s.parserEngine.nextRead s.recycleRead)
    (h : s.recycleLoop rooms n = some (t, ok)) :
    ReflTransGen Moves s t ∧ (ok = true → t.held = []) ∧ (ok = false → 0 < t.freeFailures) := by
  induction n generalizing s rooms with
  | zero =>
    simp only [State.recycleLoop, Option.some.injEq] at h
    by_cases hheld : s.held = []
    · rw [if_pos hheld] at h
      cases h
      exact ⟨.refl, fun _ => hheld, fun h => absurd h (by decide)⟩
    · rw [if_neg hheld] at h
      have hrec := afxdpRecycle_recycles h
      exact ⟨hrec.moves, hrec.held, hrec.failed⟩
  | succ n ih =>
    obtain ⟨hne, hpass⟩ := wrapSub_eq_succ hr hc hn
    have hlt : (s.recycleRead + 1) % 2 ^ 32 < 2 ^ 32 := Nat.mod_lt _ (by decide)
    unfold State.recycleLoop at h
    cases href : s.refAt (s.parserEngine.entry s.recycleRead) with
    | none => simp [href] at h
    | some ref =>
      simp only [href] at h
      by_cases hflag : ref.umemAddr &&& reorderAddrFlag ≠ 0
      · rw [if_pos hflag] at h
        obtain ⟨hm, hok⟩ :=
          ih (s := s.passEntry.freeSlot (ref.umemAddr &&& reorderAddrIdxMask)) hr hlt hpass h
        exact ⟨.head (.passSlot hne.symm href hflag) hm, hok⟩
      · rw [if_neg hflag] at h
        have hmove : Moves s (s.passEntry.hold ref.umemAddr) :=
          .passFrame hne.symm href (not_not.mp hflag)
        by_cases hfull : (s.passEntry.hold ref.umemAddr).held.length = rxBurstSize
        · rw [if_pos hfull] at h
          cases hrec : (s.passEntry.hold ref.umemAddr).afxdpRecycle (rooms.headD 0) with
          | mk u b =>
            have hu := afxdpRecycle_recycles hrec
            rw [hrec] at h
            cases b with
            | false =>
              cases h
              exact ⟨.head hmove hu.moves, hu.held, hu.failed⟩
            | true =>
              obtain ⟨hm, hok⟩ :=
                ih (s := u) (by rw [hu.ring]; exact hr) (by rw [hu.cursor]; exact hlt)
                (by rw [hu.ring, hu.cursor]; exact hpass) h
              exact ⟨(ReflTransGen.head hmove hu.moves).trans hm, hok⟩
        · rw [if_neg hfull] at h
          obtain ⟨hm, hok⟩ := ih (s := s.passEntry.hold ref.umemAddr) hr hlt hpass h
          exact ⟨.head hmove hm, hok⟩

theorem recycleLoop_stopped {rooms : List ℕ} {n : ℕ}
    (h : s.recycleLoop rooms n = some (t, ok)) : t.stopped = s.stopped := by
  induction n generalizing s rooms with
  | zero =>
    simp only [State.recycleLoop, Option.some.injEq] at h
    split_ifs at h
    · cases h
      rfl
    · exact (afxdpRecycle_recycles h).stopped
  | succ n ih =>
    unfold State.recycleLoop at h
    cases href : s.refAt (s.parserEngine.entry s.recycleRead) with
    | none => simp [href] at h
    | some ref =>
      simp only [href] at h
      split_ifs at h with hflag hfull
      · have hrest := ih h
        exact hrest
      · cases hrec : (s.passEntry.hold ref.umemAddr).afxdpRecycle (rooms.headD 0) with
        | mk u b =>
          have hu := (afxdpRecycle_recycles hrec).stopped
          rw [hrec] at h
          cases b with
          | false =>
            cases h
            exact hu
          | true => exact (ih h).trans hu
      · have hrest := ih h
        exact hrest

theorem recycleLoop_undelivered {rooms : List ℕ} {n : ℕ}
    (h : s.recycleLoop rooms n = some (t, ok)) : Undelivered s t := by
  induction n generalizing s rooms with
  | zero =>
    simp only [State.recycleLoop, Option.some.injEq] at h
    split_ifs at h
    · cases h
      exact .refl _
    · exact (afxdpRecycle_recycles h).undelivered
  | succ n ih =>
    unfold State.recycleLoop at h
    cases href : s.refAt (s.parserEngine.entry s.recycleRead) with
    | none => simp [href] at h
    | some ref =>
      simp only [href] at h
      have hpass : Undelivered s s.passEntry := { Undelivered.refl s with }
      have hhold : Undelivered s (s.passEntry.hold ref.umemAddr) := { Undelivered.refl s with }
      split_ifs at h with hflag hfull
      · exact (hpass.trans (undelivered_freeSlot _ _)).trans (ih h)
      · cases hrec : (s.passEntry.hold ref.umemAddr).afxdpRecycle (rooms.headD 0) with
        | mk u b =>
          have hu := hhold.trans (afxdpRecycle_recycles hrec).undelivered
          rw [hrec] at h
          cases b with
          | false =>
            cases h
            exact hu
          | true => exact hu.trans (ih h)
      · exact hhold.trans (ih h)

end Recycle

section Burst
variable {s t : State}

theorem takeDescriptors_moves {addrs : List ℕ} (h : addrs.foldlM State.takeDescriptor s = some t) :
    ReflTransGen Moves s t ∧ t.held = s.held ∧ Undelivered s t := by
  induction addrs generalizing s with
  | nil =>
    cases h
    exact ⟨.refl, rfl, .refl _⟩
  | cons addr addrs ih =>
    obtain ⟨u, hu, hrest⟩ := Option.bind_eq_some_iff.mp h
    unfold State.takeDescriptor at hu
    split_ifs at hu with hk
    cases hu
    obtain ⟨hm, hheld, hsame⟩ := ih hrest
    exact ⟨.head (.takeDescriptor hk) hm, hheld, { hsame with }⟩

theorem nudgeRewinder_moves (s : State) (now : ℕ) :
    ReflTransGen Moves s (s.nudgeRewinder now) ∧ (s.nudgeRewinder now).held = s.held ∧
      Undelivered s (s.nudgeRewinder now) := by
  unfold State.nudgeRewinder
  split_ifs
  · split
    · exact ⟨.refl, rfl, .refl s⟩
    · split_ifs
      · refine ⟨sendRetransmitRequest_moves _ _ _ _, sendRetransmitRequest_held _ _ _ _, ?_⟩
        obtain ⟨_, _, _, h⟩ := sendRetransmitRequest_frame s s.gapExpectedSeq (requestCount _) now
        rw [h]
        exact { Undelivered.refl s with }
      · exact ⟨.refl, rfl, .refl s⟩
  · exact ⟨.refl, rfl, .refl s⟩

inductive Bursts (s : State) (now : ℕ) : State → Prop
  | stopped : Bursts s now s
  | dropped {addr : ℕ} {rest : List ℕ} (hburst : s.burst = addr :: rest) :
      Bursts s now ({ s with burst := rest }.dropPacket addr)
  | ended {addr : ℕ} {rest : List ℕ} (hburst : s.burst = addr :: rest) :
      Bursts s now { ({ s with burst := rest } : State).dropPacket addr with stopped := true }
  | handled {addr : ℕ} {rest : List ℕ} {payload : List UInt8} {base : Option ℕ} {u : State}
    {ret : ℕ}
      (hburst : s.burst = addr :: rest)
      (hframe : FrameHolds { s with burst := rest, held := [addr] } payload addr base)
      (handles : Handles { s with burst := rest, held := [addr] } payload addr now base u ret) :
      Bursts s now (if ret ≠ uint64Max then u.dropHeld ret else u)

theorem burstPacket_bursts {now : ℕ} (h : s.burstPacket now = some t) : Bursts s now t := by
  unfold State.burstPacket at h
  split_ifs at h with hstop
  · cases h
    exact .stopped
  · cases hburst : s.burst with
    | nil => simp [hburst] at h
    | cons addr rest =>
      simp only [hburst] at h
      cases hex : extractFeedPayload (s.umem (frameOf addr)).bytes with
      | none =>
        simp only [hex, Option.some.injEq] at h
        exact h ▸ .dropped hburst
      | some off =>
        simp only [hex] at h
        split_ifs at h with hlen hend
        · cases h
          exact .dropped hburst
        · cases h
          exact .ended hburst
        · split at h
          · cases h
          · rename_i u ret hhandle
            have hframe : FrameHolds { s with burst := rest, held := [addr] }
                ((s.umem (frameOf addr)).bytes.drop off) addr (some off) := by
              intro off' hoff _
              cases hoff
              exact ⟨List.mem_singleton_self addr, (extractFeedPayload_bounds hex).1, rfl⟩
            rw [← apply_ite some, Option.some.injEq] at h
            exact h ▸ .handled hburst hframe (handlePayload_handles hhandle)

theorem burstPacket_moves {now : ℕ} (hb : Boundary s) (h : s.burstPacket now = some t) :
    ReflTransGen Moves s t ∧ t.held = [] := by
  cases burstPacket_bursts h with
  | stopped => exact ⟨.refl, hb.held⟩
  | dropped hburst => exact ⟨.single (.dropPacket hburst), hb.held⟩
  | ended hburst =>
    have hdropped := ReflTransGen.single (Moves.dropPacket hburst)
    exact ⟨hdropped.tail .setStopped, hb.held⟩
  | handled hburst hframe handles =>
    have hmoves := ReflTransGen.head (.takePacket hburst hb.held) (handles.moves hframe hb.drops)
    rcases handles.held with ⟨rfl, hheld⟩ | ⟨rfl, _, hheld⟩
    · have hne := hb.burst _ (by rw [hburst]; exact List.mem_cons_self)
      rw [if_pos hne]
      exact ⟨hmoves.tail (.dropHeld hheld), rfl⟩
    · rw [if_neg (not_not.mpr rfl)]
      exact ⟨hmoves, by rw [hheld]; simp⟩

/-- The state in which `handle_payload` is called: the caller has set up the packet. -/
def State.atHand (s : State) (burst held pace : List ℕ) : State :=
  { s with burst := burst, held := held, pace := pace }

/-- An action that calls `handle_payload`, once, with the packet at hand. -/
inductive Calls (s t : State) : Prop
  | call {burst held pace payload addr now base ret v}
      (setup : s.held = [] → ReflTransGen Moves s (s.atHand burst held pace))
      (frame : FrameHolds (s.atHand burst held pace) payload addr base)
      (handles : Handles (s.atHand burst held pace) payload addr now base v ret)
      (result : t = v ∨ t = v.dropHeld ret)

theorem burstPacket_calls {now : ℕ} {pace : List ℕ}
    (h : ({ s with pace := pace } : State).burstPacket now = some t) :
    Calls s t ∨ Undelivered s t := by
  cases burstPacket_bursts h with
  | @handled addr rest payload base u ret hburst hframe handles =>
    have hsetup : s.held = [] → ReflTransGen Moves s (s.atHand rest [addr] pace) :=
      fun hh => (ReflTransGen.single (.takePacket hburst hh)).tail .setPace
    refine .inl (.call hsetup hframe handles ?_)
    split_ifs
    · exact .inr rfl
    · exact .inl rfl
  | _ => exact .inr { Undelivered.refl s with }

theorem Step.calls {a : Action} (h : Step s a t) : Calls s t ∨ Undelivered s t := by
  unfold Step at h
  cases a with
  | dispatch =>
    cases h
    obtain ⟨r, d, he⟩ := consumeOne_frame s
    rw [he]
    exact .inr { Undelivered.refl s with }
  | dma f packet =>
    simp only [State.act] at h
    split_ifs at h
    cases h
    exact .inr { Undelivered.refl s with }
  | refill room =>
    cases h
    exact .inr { Undelivered.refl s with }
  | recycle rooms =>
    simp only [State.act] at h
    split at h
    · cases h
    · rename_i hrec
      cases h
      exact .inr { recycleLoop_undelivered hrec with }
  | recvBurst room addrs =>
    simp only [State.act] at h
    split_ifs at h
    unfold State.afxdpRecvBurst at h
    split_ifs at h
    exact .inr { (takeDescriptors_moves h).2.2 with }
  | reply datagram now pace =>
    simp only [State.act] at h
    split_ifs at h
    obtain ⟨⟨u, ret⟩, hhandle, rfl⟩ := Option.map_eq_some_iff.mp h
    have hsetup : s.held = [] → ReflTransGen Moves s (s.atHand s.burst s.held pace) :=
      fun _ => .single .setPace
    exact .inl (.call hsetup (fun off hoff => by cases hoff) (handlePayload_handles hhandle)
      (.inl rfl))
  | nudge now =>
    cases h
    exact .inr (nudgeRewinder_moves s now).2.2
  | packet now pace => exact burstPacket_calls h
  | recycleDrops room =>
    simp only [State.act] at h
    split_ifs at h
    · cases h
      exact .inr (.refl s)
    · cases h
      cases hrec : ({ s with drops := [], held := s.drops } : State).afxdpRecycle room with
      | mk u ok => exact .inr { (afxdpRecycle_recycles hrec).undelivered with }

theorem Step.delivered_subset {a : Action} (h : Step s a t) : s.delivered ⊆ t.delivered := by
  rcases h.calls with ⟨_, _, hpaths, ht⟩ | hu
  · have hd := hpaths.delivered
    rcases ht with rfl | rfl
    · rw [hd]
      exact List.subset_append_left _ _
    · simp only [State.dropHeld, hd]
      exact List.subset_append_left _ _
  · rw [hu.delivered]
    exact List.Subset.refl _

theorem Step.moves {a : Action} (h : Step s a t) (hb : Boundary s) :
    ReflTransGen Moves s t ∧ (t.held = [] ∨ 0 < t.freeFailures) := by
  unfold Step at h
  cases a with
  | dispatch =>
    cases h
    obtain ⟨r, d, he⟩ := consumeOne_frame s
    exact ⟨.single .consume, .inl (by rw [he]; exact hb.held)⟩
  | dma f packet =>
    simp only [State.act] at h
    split_ifs at h with hk
    cases h
    exact ⟨.single (.dma hk.1), .inl hb.held⟩
  | refill room =>
    cases h
    exact ⟨.single .refill, .inl hb.held⟩
  | recycle rooms =>
    simp only [State.act] at h
    split at h
    · cases h
    · rename_i u ok hrec
      cases h
      obtain ⟨hm, htrue, hfalse⟩ := recycleLoop_moves hb.read_lt hb.recycle_lt rfl hrec
      refine ⟨hm.tail .setStopped, ?_⟩
      cases ok with
      | true => exact .inl (htrue rfl)
      | false => exact .inr (hfalse rfl)
  | recvBurst room addrs =>
    simp only [State.act] at h
    split_ifs at h
    unfold State.afxdpRecvBurst at h
    split_ifs at h
    obtain ⟨hm, hheld, _⟩ := takeDescriptors_moves h
    exact ⟨.head .refill hm, .inl (hheld.trans hb.held)⟩
  | reply datagram now pace =>
    simp only [State.act] at h
    split_ifs at h
    obtain ⟨⟨u, ret⟩, hhandle, rfl⟩ := Option.map_eq_some_iff.mp h
    have hpaths := handlePayload_handles hhandle
    have hframe : FrameHolds { s with pace := pace } datagram uint64Max none := by
      intro off hoff _
      cases hoff
    refine ⟨.head .setPace (hpaths.moves hframe hb.drops), .inl ?_⟩
    rcases hpaths.held with ⟨_, hheld⟩ | ⟨_, hsome, _⟩
    · exact hheld.trans hb.held
    · simp at hsome
  | nudge now =>
    cases h
    obtain ⟨hm, hheld, _⟩ := nudgeRewinder_moves s now
    exact ⟨hm, .inl (hheld.trans hb.held)⟩
  | packet now pace =>
    have hb' : Boundary { s with pace := pace } := { hb with }
    obtain ⟨hm, hheld⟩ := burstPacket_moves hb' h
    exact ⟨.head .setPace hm, .inl hheld⟩
  | recycleDrops room =>
    simp only [State.act] at h
    split_ifs at h
    · cases h
      exact ⟨.refl, .inl hb.held⟩
    · cases h
      cases hrec : ({ s with drops := [], held := s.drops } : State).afxdpRecycle room with
      | mk u ok =>
        have hu := afxdpRecycle_recycles hrec
        refine ⟨(ReflTransGen.head (.holdDrops hb.held) hu.moves).tail .setStopped, ?_⟩
        cases ok with
        | true => exact .inl (hu.held rfl)
        | false => exact .inr (hu.failed rfl)

end Burst

end TradingPipeline.Receiver
