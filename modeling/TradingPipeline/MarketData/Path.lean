import Mathlib.Data.List.Flatten
import Mathlib.Data.List.Infix
import TradingPipeline.Receiver.Sources
import TradingPipeline.Server.CacheRace
import TradingPipeline.Server.Plan

/-! # Market data from the file to the dispatcher

The feed thread makes its packets one after the other; each is cached by five stores and then
sent, if it is sent at all. The rewinder answers requests in between. The network loses, repeats
and reorders what is sent to the feed port, and it does the same to the replies. The receiver
puts together what it gets. It leaves its loop with the end of the session and then frees the
UMEM, in which entries that the dispatcher has not read may still point: the path ends there.
-/
namespace TradingPipeline.MarketData
open Lib Mold Feed Rewinder

structure State where
  /-- The packets that the feed thread has yet to make. -/
  unmade : List (List UInt8)
  /-- The copies of the packet at hand that it has yet to send. -/
  toSend : List (List UInt8)
  ended : Bool
  server : Threads
  /-- The datagrams sent to the feed port, oldest first. -/
  aired : List (List UInt8)
  receiver : Receiver.State
  /-- The receiver thread has called `afxdp_close`. -/
  closed : Bool

inductive Action
  /-- The feed thread fills its next packet and calls `rewinder_cache_packet`. -/
  | make
  | store
  | air
  /-- `send_end_of_session`. -/
  | finish
  /-- The rewinder receives a datagram, from whomever. -/
  | request (datagram : List UInt8)
  | read
  | receiver (a : Receiver.Action)
  /-- `afxdp_close`, at the end of the receiver thread. -/
  | close
  deriving DecidableEq

/-- What the network can bring: a frame with anything in it, but on the feed port only what the
feed has sent, and on the rewinder's socket only its replies. -/
def State.Brings (s : State) : Receiver.Action → Prop
  | .dma _ frame => ∀ p ∈ Receiver.framePayload frame, p ∈ s.aired
  | .reply datagram _ _ => datagram ∈ s.server.replies.map Reply.bytes
  | _ => True

instance (s : State) : (a : Receiver.Action) → Decidable (s.Brings a)
  | .dma _ frame => inferInstanceAs (Decidable (∀ p ∈ Receiver.framePayload frame, p ∈ s.aired))
  | .reply datagram _ _ =>
    inferInstanceAs (Decidable (datagram ∈ s.server.replies.map Reply.bytes))
  | .dispatch | .refill _ | .recycle _ | .recvBurst _ _ | .nudge _ | .packet _ _
  | .recycleDrops _ => inferInstanceAs (Decidable True)

/-- What can happen to a receiver that has left its loop: drops and consumed frames are still
recycled, the kernel still has frames, and the dispatcher reads. -/
def outsideLoop : Receiver.Action → Bool
  | .dispatch | .dma _ _ | .recycle _ | .recycleDrops _ => true
  | .refill _ | .recvBurst _ _ | .reply _ _ _ | .nudge _ | .packet _ _ => false

/-- Nothing happens to the frames once they are freed; an entry that points into them has no
meaning any more. -/
def State.Admits (s : State) (a : Receiver.Action) : Prop :=
  s.closed = false ∧ (s.receiver.stopped = true → outsideLoop a = true)

instance (s : State) (a : Receiver.Action) : Decidable (s.Admits a) :=
  inferInstanceAs (Decidable (_ ∧ _))

section System
variable (plan : Plan)

def start (fd : ℤ) : State := ⟨plan.packets, [], false, .start, [], Receiver.init fd, false⟩

def State.serve (s : State) (a : Rewinder.Action) : Option State :=
  (s.server.step a).map fun server => { s with server := server }

def step (s : State) : Action → Option State
  | .make =>
    match s.unmade, s.toSend with
    | p :: rest, [] =>
      (s.server.step (.call (cacheCall plan.session p))).map fun server =>
        { s with unmade := rest, toSend := plan.airs p, server := server }
    | _, _ => none
  | .store => s.serve .store
  | .air =>
    match s.toSend with
    | p :: rest =>
      if s.server.feed = none then some { s with toSend := rest, aired := s.aired ++ [p] } else none
    | [] => none
  | .finish =>
    if s.unmade = [] ∧ s.toSend = [] ∧ s.server.feed = none ∧ s.ended = false then
      some { s with ended := true, aired := s.aired ++ [plan.endPacket] }
    else none
  | .request datagram => s.serve (.receive datagram)
  | .read => s.serve .read
  | .receiver a =>
    if s.Brings a ∧ s.Admits a then (s.receiver.act a).map fun r => { s with receiver := r }
    else none
  | .close =>
    if s.receiver.stopped = true ∧ s.closed = false then some { s with closed := true } else none

def Step (s : State) (a : Action) (t : State) : Prop := step plan s a = some t

/-- The feed thread copies into the slot from which the rewinder is about to send. -/
def State.overtakes (s : State) (a : Action) : Bool := a = .store && s.server.overtakes .store

/-- A step that does not overwrite a reply under way. -/
def Timely (s : State) (a : Action) (t : State) : Prop := Step plan s a t ∧ s.overtakes a = false

inductive Moves (s : State) : Action → State → Prop
  | make {p rest server} (hunmade : s.unmade = p :: rest) (hsend : s.toSend = [])
      (hserver : Threads.Step s.server (.call (cacheCall plan.session p)) server) :
      Moves s .make { s with unmade := rest, toSend := plan.airs p, server := server }
  | serve {a b server} (hb : ∀ p, b ≠ .call p) (hserver : Threads.Step s.server b server)
      (hstore : a = .store ↔ b = .store) : Moves s a { s with server := server }
  | air {p rest} (hsend : s.toSend = p :: rest) :
      Moves s .air { s with toSend := rest, aired := s.aired ++ [p] }
  | finish (hunmade : s.unmade = []) (hsend : s.toSend = []) (hfeed : s.server.feed = none)
      (hended : s.ended = false) :
      Moves s .finish { s with ended := true, aired := s.aired ++ [plan.endPacket] }
  | receiver {a r} (hbrings : s.Brings a) (hadmits : s.Admits a)
      (hstep : Receiver.Step s.receiver a r) : Moves s (.receiver a) { s with receiver := r }
  | close (hstopped : s.receiver.stopped = true) : Moves s .close { s with closed := true }

variable {plan}

theorem Step.moves {s t : State} {a : Action} (h : Step plan s a t) : Moves plan s a t := by
  unfold Step step at h
  cases a with
  | make =>
    dsimp only at h
    split at h
    · next p rest hunmade hsend =>
      obtain ⟨server, hserver, rfl⟩ := Option.map_eq_some_iff.mp h
      exact .make hunmade hsend hserver
    · cases h
  | store =>
    obtain ⟨server, hserver, rfl⟩ := Option.map_eq_some_iff.mp h
    exact .serve (fun _ hc => by cases hc) hserver (by simp)
  | air =>
    dsimp only at h
    split at h
    · next p rest hsend =>
      split at h
      · cases h
        exact .air hsend
      · cases h
    · cases h
  | finish =>
    dsimp only at h
    split at h
    · next hready =>
      cases h
      exact .finish hready.1 hready.2.1 hready.2.2.1 hready.2.2.2
    · cases h
  | request datagram =>
    obtain ⟨server, hserver, rfl⟩ := Option.map_eq_some_iff.mp h
    exact .serve (fun _ hc => by cases hc) hserver (by simp)
  | read =>
    obtain ⟨server, hserver, rfl⟩ := Option.map_eq_some_iff.mp h
    exact .serve (fun _ hc => by cases hc) hserver (by simp)
  | receiver a =>
    dsimp only at h
    split at h
    · next hcan =>
      obtain ⟨r, hr, rfl⟩ := Option.map_eq_some_iff.mp h
      exact .receiver hcan.1 hcan.2 hr
    · cases h
  | close =>
    dsimp only at h
    split at h
    · next hcan =>
      cases h
      exact .close hcan.1
    · cases h

end System

section Server
variable {s t : Threads}

/-- The calls of `rewinder_cache_packet` made so far, the one under way included. -/
def begunCalls (s : Threads) : List Sent :=
  match s.feed with
  | none => s.cached
  | some call => if call.next = .cursor then s.cached else s.cached ++ [call.sent]

theorem cached_subset_begun (s : Threads) : s.cached ⊆ begunCalls s := by
  unfold begunCalls
  split
  · exact List.Subset.refl _
  · split
    · exact List.Subset.refl _
    · exact List.subset_append_left _ _

theorem begun_serve {a : Rewinder.Action} (h : Threads.Step s a t) (ha : ∀ p, a ≠ .call p) :
    begunCalls t = begunCalls s := by
  cases h.moves with
  | refuse => rfl
  | call => exact absurd rfl (ha _)
  | @store call hfeed =>
    obtain ⟨p, w, next⟩ := call
    cases next <;> simp [begunCalls, Threads.store, hfeed, Store.after]
  | _ => rfl

theorem begun_call {p : Sent} (h : Threads.Step s (.call p) t)
    (hlen : p.packet.length ≤ rewinderMaxPacket) (hcnt : p.msgCount ≠ 0) :
    begunCalls t = begunCalls s ++ [p] := by
  have hguard : ¬(rewinderMaxPacket < p.packet.length ∨ p.msgCount = 0) := by
    rintro (hlong | hzero)
    · omega
    · exact hcnt hzero
  unfold Threads.Step Threads.step at h
  dsimp only at h
  split at h
  · next hfeed =>
    rw [Threads.call, if_neg hguard] at h
    cases h
    simp [begunCalls, hfeed]
  · cases h

end Server

/-- What holds along every run. `made` are the packets that the feed thread has filled. -/
structure Inv (plan : Plan) (fd : ℤ) (made : List (List UInt8)) (s : State) : Prop where
  split : plan.packets = made ++ s.unmade
  begun : begunCalls s.server = made.map (cacheCall plan.session)
  sent : s.aired ++ s.toSend =
    made.flatMap plan.airs ++ if s.ended then [plan.endPacket] else []
  ended : s.ended = true → s.unmade = [] ∧ s.toSend = [] ∧ s.server.feed = none
  answers : s.server.Answers
  frames : ∀ f, ∀ p ∈ Receiver.framePayload (s.receiver.umem f).bytes, p ∈ s.aired
  delivered : ∀ p ∈ s.receiver.delivered, p ∈ made
  runs : ∃ as, Runs Receiver.Step (Receiver.init fd) as s.receiver

section Invariant
variable {plan : Plan} {fd : ℤ} {made : List (List UInt8)} {s t : State}

theorem start_inv : Inv plan fd [] (start plan fd) where
  split := rfl
  begun := rfl
  sent := rfl
  ended h := Bool.noConfusion h
  answers := Threads.start_answers
  frames _ _ hp := by cases hp
  delivered _ hp := absurd hp List.not_mem_nil
  runs := ⟨[], .nil⟩

theorem mem_airs {p q : List UInt8} (h : q ∈ plan.airs p) : q = p := List.eq_of_mem_replicate h

theorem Inv.mem_packets (hs : Inv plan fd made s) {p : List UInt8} (hp : p ∈ made) :
    p ∈ plan.packets := by
  rw [hs.split]
  exact List.mem_append_left _ hp

theorem Inv.aired (hs : Inv plan fd made s) {p : List UInt8} (hp : p ∈ s.aired) :
    p ∈ made ∨ p = plan.endPacket := by
  have hmem : p ∈ made.flatMap plan.airs ++ if s.ended then [plan.endPacket] else [] := by
    rw [← hs.sent]
    exact List.mem_append_left _ hp
  rcases List.mem_append.mp hmem with hmem | hmem
  · obtain ⟨q, hq, hair⟩ := List.mem_flatMap.mp hmem
    rw [mem_airs hair]
    exact .inl hq
  · split at hmem
    · exact .inr (List.mem_singleton.mp hmem)
    · cases hmem

theorem Inv.replied (hs : Inv plan fd made s) {d : List UInt8}
    (hd : d ∈ s.server.replies.map Reply.bytes) : d ∈ made := by
  obtain ⟨r, hr, rfl⟩ := List.mem_map.mp hd
  obtain ⟨p, hp, _, hbytes⟩ := hs.answers.replied r hr
  have hbegun := cached_subset_begun s.server hp
  rw [hs.begun] at hbegun
  obtain ⟨q, hq, rfl⟩ := List.mem_map.mp hbegun
  rw [hbytes]
  exact hq

theorem Inv.make {p : List UInt8} {rest : List (List UInt8)} {server : Threads}
    (hs : Inv plan fd made s) (hunmade : s.unmade = p :: rest) (hsend : s.toSend = [])
    (hserver : Threads.Step s.server (.call (cacheCall plan.session p)) server) :
    Inv plan fd (made ++ [p])
      { s with unmade := rest, toSend := plan.airs p, server := server } := by
  have hp : p ∈ plan.packets := by
    rw [hs.split, hunmade]
    exact List.mem_append_right _ List.mem_cons_self
  have hended : s.ended = false := by
    by_contra hne
    have hnil := (hs.ended (Bool.not_eq_false _ ▸ hne)).1
    rw [hunmade] at hnil
    cases hnil
  have hlen : (cacheCall plan.session p).packet.length ≤ rewinderMaxPacket :=
    le_trans (Plan.mem_length hp).2 (by decide)
  refine { hs with
    split := ?_
    begun := ?_
    sent := ?_
    ended := ?_
    answers := hserver.moves.answers hs.answers rfl
    delivered := fun q hq => List.mem_append_left _ (hs.delivered q hq) }
  · rw [hs.split, hunmade, List.append_assoc, List.singleton_append]
  · rw [begun_call hserver hlen (Plan.mem_count hp), hs.begun, List.map_append]
    rfl
  · have hsent := hs.sent
    simp only [hsend, hended, Bool.false_eq_true, if_false, List.append_nil] at hsent ⊢
    rw [hsent, List.flatMap_append, List.flatMap_singleton]
  · intro h
    exact absurd (hended.symm.trans h) Bool.false_ne_true

theorem Inv.serve {b : Rewinder.Action} {server : Threads} (hs : Inv plan fd made s)
    (hb : ∀ p, b ≠ .call p) (hserver : Threads.Step s.server b server)
    (hover : s.server.overtakes b = false) : Inv plan fd made { s with server := server } := by
  refine { hs with begun := ?_, ended := ?_, answers := hserver.moves.answers hs.answers hover }
  · rw [begun_serve hserver hb, hs.begun]
  · intro hended
    obtain ⟨hunmade, hsend, hfeed⟩ := hs.ended hended
    refine ⟨hunmade, hsend, ?_⟩
    cases hserver.moves with
    | call => exact absurd rfl (hb _)
    | store hcall =>
      rw [hfeed] at hcall
      cases hcall
    | _ => exact hfeed

theorem Inv.air {p : List UInt8} {rest : List (List UInt8)} (hs : Inv plan fd made s)
    (hsend : s.toSend = p :: rest) :
    Inv plan fd made { s with toSend := rest, aired := s.aired ++ [p] } := by
  refine { hs with sent := ?_, ended := ?_, frames := ?_ }
  · rw [← hs.sent, hsend, List.append_assoc, List.singleton_append]
  · intro hended
    have hnil := (hs.ended hended).2.1
    rw [hsend] at hnil
    cases hnil
  · exact fun f q hq => List.mem_append_left _ (hs.frames f q hq)

theorem Inv.finish (hs : Inv plan fd made s) (hunmade : s.unmade = []) (hsend : s.toSend = [])
    (hfeed : s.server.feed = none) (hended : s.ended = false) :
    Inv plan fd made { s with ended := true, aired := s.aired ++ [plan.endPacket] } := by
  refine { hs with sent := ?_, ended := fun _ => ⟨hunmade, hsend, hfeed⟩, frames := ?_ }
  · have hsent := hs.sent
    simp only [hsend, hended, Bool.false_eq_true, if_false, List.append_nil, if_true] at hsent ⊢
    rw [hsent]
  · exact fun f q hq => List.mem_append_left _ (hs.frames f q hq)

theorem Inv.receive {a : Receiver.Action} {r : Receiver.State} (hs : Inv plan fd made s)
    (hbrings : s.Brings a) (hstep : Receiver.Step s.receiver a r) :
    Inv plan fd made { s with receiver := r } := by
  obtain ⟨as, hruns⟩ := hs.runs
  refine { hs with frames := ?_, delivered := ?_, runs := ⟨_, hruns.snoc hstep⟩ }
  · by_cases hdma : ∃ f packet, a = .dma f packet
    · obtain ⟨f, packet, rfl⟩ := hdma
      intro g p hp
      rw [hstep.dma_umem] at hp
      by_cases hg : g = f
      · subst hg
        rw [Function.update_self] at hp
        exact hbrings p hp
      · rw [Function.update_of_ne hg] at hp
        exact hs.frames g p hp
    · have hover := hstep.overlays fun f packet h => hdma ⟨f, packet, h⟩
      exact fun g p hp => hs.frames g p (hover.framePayload hp)
  · intro p hp
    rcases hstep.delivers with hd | ⟨payload, hhands, hd⟩
    · rw [hd] at hp
      exact hs.delivered p hp
    · rw [hd] at hp
      rcases List.mem_append.mp hp with hp | hp
      · exact hs.delivered p hp
      · rw [List.mem_singleton.mp hp]
        cases hhands with
        | reply => exact hs.replied hbrings
        | packet hframe hend =>
          -- the end-of-session packet is not sequenced
          refine (hs.aired (hs.frames _ _ hframe)).resolve_right ?_
          rintro rfl
          exact hend plan.endPacket_count

theorem Timely.inv {a : Action} (h : Timely plan s a t) (hs : Inv plan fd made s) :
    ∃ made', Inv plan fd made' t := by
  obtain ⟨hstep, hover⟩ := h
  cases hstep.moves with
  | make hunmade hsend hserver => exact ⟨_, hs.make hunmade hsend hserver⟩
  | @serve _ b server hb hserver hstore =>
    refine ⟨made, hs.serve hb hserver ?_⟩
    by_cases hst : b = .store
    · subst hst
      simpa [State.overtakes, hstore.mpr rfl] using hover
    · cases b with
      | store => exact absurd rfl hst
      | _ => rfl
  | air hsend => exact ⟨made, hs.air hsend⟩
  | finish hunmade hsend hfeed hended => exact ⟨made, hs.finish hunmade hsend hfeed hended⟩
  | receiver hbrings _ hreceiver => exact ⟨made, hs.receive hbrings hreceiver⟩
  | close => exact ⟨made, { hs with }⟩

theorem runs_inv {as : List Action} (hr : Runs (Timely plan) (start plan fd) as s) :
    ∃ made, Inv plan fd made s := by
  induction hr with
  | nil => exact ⟨[], start_inv⟩
  | snoc _ hstep ih =>
    obtain ⟨made, hs⟩ := ih
    exact hstep.inv hs

end Invariant

section Packets
variable {plan : Plan} {p : List UInt8}

theorem accepted_of_mem (hp : p ∈ plan.packets) : Receiver.Accepted p :=
  ⟨(Plan.mem_length hp).1, Plan.mem_count hp⟩

theorem fits_of_mem (hp : p ∈ plan.packets) : Receiver.Fits p := by
  have hend := (Plan.mem_bounds hp).2.2
  have hfew : plan.messages.length + 1 < 2 ^ 64 := plan.few
  exact ⟨le_trans (Plan.mem_length hp).2 (by decide), by omega⟩

end Packets

/-- The messages that the dispatcher's block loop has found so far. -/
def State.parsed (s : State) : List (List UInt8) :=
  s.receiver.dispatched.flatMap fun payload => payload.elim [] messages

structure EndToEnd (plan : Plan) (s : State) : Prop where
  /-- At its end the feed thread has cached and sent what its mode says. -/
  feed : s.ended = true → s.server.cached = plan.output.cached ∧ s.aired = plan.output.sent
  /-- Everything published can be read. -/
  readable : none ∉ s.receiver.dispatched
  /-- No message is made up, repeated or out of order. -/
  ordered : s.parsed.Sublist plan.messages
  /-- As long as the reorder slots last, none is left out either. -/
  gapless : s.receiver.allocFailures = 0 →
    ∀ first, Receiver.firstAccepted s.receiver.delivered = some first →
      s.parsed <+: plan.messages.drop (sequenceNumber first - 1)
  /-- Once every packet from the first one on has arrived, all their messages have been read or
  wait in the ring. -/
  complete : s.receiver.allocFailures = 0 → s.receiver.unread = [] →
    ∀ first, Receiver.firstAccepted s.receiver.delivered = some first →
      (∀ p ∈ plan.packets, sequenceNumber first ≤ sequenceNumber p → p ∈ s.receiver.delivered) →
      s.parsed = plan.messages.drop (sequenceNumber first - 1)

section Reading
variable {plan : Plan} {fd : ℤ} {made : List (List UInt8)} {s : State}

theorem Inv.delivered_packets (hs : Inv plan fd made s) {p : List UInt8}
    (hp : p ∈ s.receiver.delivered) : p ∈ plan.packets := hs.mem_packets (hs.delivered p hp)

theorem Inv.admissible (hs : Inv plan fd made s) : Receiver.Admissible s.receiver :=
  fun _ hp _ => fits_of_mem (hs.delivered_packets hp)

theorem Inv.receiver (hs : Inv plan fd made s) : Receiver.Inv s.receiver := by
  obtain ⟨as, hr⟩ := hs.runs
  exact (Receiver.runs_inv hr hs.admissible).1

theorem Inv.held (hs : Inv plan fd made s) : s.receiver.held = [] := by
  obtain ⟨as, hr⟩ := hs.runs
  exact (Receiver.runs_inv hr hs.admissible).2

theorem Inv.tracked (hs : Inv plan fd made s) :
    Receiver.Settled s.receiver ∧ Receiver.Tracked s.receiver := by
  obtain ⟨as, hr⟩ := hs.runs
  exact Receiver.runs_tracked hr hs.admissible

theorem Inv.dispatched (hs : Inv plan fd made s) : s.receiver.dispatched =
    (s.receiver.published.take s.receiver.dispatched.length).map fun p => some (blocks p) := by
  have hcarried := hs.receiver.inSequence.carried
  rw [List.map_take, ← hcarried, List.take_left]

theorem Inv.parsed (hs : Inv plan fd made s) : s.parsed =
    (s.receiver.published.take s.receiver.dispatched.length).flatMap
      fun p => messages (blocks p) := by
  unfold State.parsed
  rw [hs.dispatched, List.flatMap_map, List.length_map, List.length_take]
  simp only [Option.elim_some]
  congr 1
  rw [List.take_eq_take_iff]
  omega

theorem Inv.published (hs : Inv plan fd made s) : s.receiver.published.Sublist plan.packets :=
  plan.tiles.sublist_of_subset
    (fun p hp => hs.delivered_packets (hs.receiver.inSequence.delivered p hp).1)
    hs.receiver.inSequence.disjoint

theorem mem_of_firstAccepted {l : List (List UInt8)} {first : List UInt8}
    (h : Receiver.firstAccepted l = some first) : first ∈ l := List.mem_of_find?_eq_some h

/-- While the slots last, what was published is the first part of the packets from the first
one on, and the others start at the expected sequence number. -/
theorem Inv.published_from (hs : Inv plan fd made s) (hslots : s.receiver.allocFailures = 0)
    {first : List UInt8} (hfirst : Receiver.firstAccepted s.receiver.delivered = some first) :
    ∃ pre post rest, plan.packets = pre ++ first :: post ∧
      first :: post = s.receiver.published ++ rest ∧
      Tiles sequenceNumber endSequence s.receiver.gapExpectedSeq rest
        (plan.messages.length + 1) := by
  have hset := Receiver.gapSessionSet_of_first hs.receiver hfirst
  obtain ⟨p, hp, hlog⟩ := hs.receiver.sequenced.tiles hset
  rw [hfirst] at hp
  cases hp
  have hpub := Receiver.published_tiles hlog (hs.tracked.2.log hslots)
  obtain ⟨pre, post, hsplit⟩ :=
    List.append_of_mem (hs.delivered_packets (mem_of_firstAccepted hfirst))
  have htiles := plan.tiles
  rw [hsplit] at htiles
  obtain ⟨m, hpre, hpost⟩ := htiles.append_split
  have hm : m = sequenceNumber first := hpost.1.symm
  rw [hm] at hpre hpost
  have hsub : s.receiver.published ⊆ first :: post := by
    intro q hq
    have hmem := hs.published.subset hq
    rw [hsplit] at hmem
    rcases List.mem_append.mp hmem with hbefore | hmem
    · have hle := (hpub.bounds hq).1
      have hlt := (hpre.bounds hbefore).2
      omega
    · exact hmem
  obtain ⟨rest, hrest, htail⟩ := hpub.split_of_subset hpost hsub
  exact ⟨pre, post, rest, hsplit, hrest, htail⟩

theorem Inv.gapless (hs : Inv plan fd made s) (hslots : s.receiver.allocFailures = 0)
    {first : List UInt8} (hfirst : Receiver.firstAccepted s.receiver.delivered = some first) :
    s.parsed <+: plan.messages.drop (sequenceNumber first - 1) := by
  obtain ⟨pre, post, rest, hsplit, hrest, _⟩ := hs.published_from hslots hfirst
  rw [hs.parsed, ← Plan.messages_from hsplit, hrest]
  exact ((List.take_prefix _ _).trans (List.prefix_append _ rest)).flatMap _

theorem Inv.complete (hs : Inv plan fd made s) (hslots : s.receiver.allocFailures = 0)
    (hunread : s.receiver.unread = []) {first : List UInt8}
    (hfirst : Receiver.firstAccepted s.receiver.delivered = some first)
    (hall : ∀ p ∈ plan.packets, sequenceNumber first ≤ sequenceNumber p →
      p ∈ s.receiver.delivered) :
    s.parsed = plan.messages.drop (sequenceNumber first - 1) := by
  obtain ⟨pre, post, rest, hsplit, hrest, htail⟩ := hs.published_from hslots hfirst
  have hnil : rest = [] := by
    cases rest with
    | nil => rfl
    | cons q rest =>
      -- the first packet that was not published is known, but neither behind nor waiting
      have hq : q ∈ first :: post := by
        rw [hrest]
        exact List.mem_append_right _ List.mem_cons_self
      have hmem : q ∈ plan.packets := by
        rw [hsplit]
        exact List.mem_append_right _ hq
      have htiles := plan.tiles
      rw [hsplit] at htiles
      obtain ⟨m, _, hpost⟩ := htiles.append_split
      have hle : sequenceNumber first ≤ sequenceNumber q := by
        have hfrom := (hpost.bounds hq).1
        rw [← hpost.1] at hfrom
        exact hfrom
      obtain ⟨hsettled, htracked⟩ := hs.tracked
      have hlo := htail.1
      rcases htracked.known hslots q (hall q hmem hle) (accepted_of_mem hmem) with
        hlt | ⟨i, hi, hp, hseq⟩
      · omega
      · have := hsettled i hi hp
        omega
  have hlength : s.receiver.dispatched.length = s.receiver.published.length := by
    have hcarried := congrArg List.length hs.receiver.inSequence.carried
    rwa [hunread, List.map_nil, List.append_nil, List.length_map] at hcarried
  rw [hs.parsed, ← Plan.messages_from hsplit, hrest, hnil, List.append_nil, hlength,
    List.take_length]

theorem Inv.endToEnd (hs : Inv plan fd made s) : EndToEnd plan s where
  feed hended := by
    obtain ⟨hunmade, hsend, hfeed⟩ := hs.ended hended
    have hsplit := hs.split
    have hbegun := hs.begun
    have hsent := hs.sent
    rw [hunmade, List.append_nil] at hsplit
    rw [begunCalls, hfeed] at hbegun
    rw [hsend, List.append_nil, hended, if_pos rfl] at hsent
    rw [Plan.output, hsplit]
    exact ⟨hbegun, hsent⟩
  readable := by
    rw [hs.dispatched]
    intro hnone
    obtain ⟨p, _, hp⟩ := List.mem_map.mp hnone
    cases hp
  ordered := by
    rw [hs.parsed, ← Plan.flatMap_messages]
    exact ((List.take_sublist _ _).trans hs.published).flatMap _
  gapless hslots _ hfirst := hs.gapless hslots hfirst
  complete hslots hunread _ hfirst hall := hs.complete hslots hunread hfirst hall

end Reading

/-- Over every run of the feed thread, the rewinder, the network and the receiver in which no
reply is overwritten while it is sent, the dispatcher gets the messages of the file in order,
whatever is lost, repeated or reordered on the way. -/
theorem market_data_end_to_end {plan : Plan} {fd : ℤ} {as : List Action} {s : State}
    (hr : Runs (Timely plan) (start plan fd) as s) : EndToEnd plan s := by
  obtain ⟨made, hs⟩ := runs_inv hr
  exact hs.endToEnd

/-- Three packets of one message each, of which the second is cached and not sent. -/
def samplePlan : Plan where
  session := sampleSession
  copies seq := if seq = 2 then 0 else 1
  groups := [[[1]], [[2]], [[3]]]
  fit := by
    simp only [PacketGroup]
    decide
  few := by decide

/-- The second packet is withheld; the first and the third arrive. -/
def gapActions (m₁ m₃ : List UInt8) : List Action :=
  (Action.make :: List.replicate 5 .store) ++ [Action.air] ++
    (Action.make :: List.replicate 5 .store) ++ (Action.make :: List.replicate 5 .store) ++
    [Action.air, .finish] ++
    [Action.receiver (.refill 2),
      .receiver (.dma 4095 (Receiver.sampleFrame (dataPacket sampleSession 1 [m₁]))),
      .receiver (.dma 4094 (Receiver.sampleFrame (dataPacket sampleSession 3 [m₃]))),
      .receiver (.recvBurst 0 [4095 * 4096 + 256, 4094 * 4096 + 256]),
      .receiver (.packet 6000000 []), .receiver (.packet 6000000 [])]

/-- The rewinder is asked for the second packet, which fills the gap. -/
def sampleActions (m₁ m₂ m₃ : List UInt8) : List Action :=
  gapActions m₁ m₃ ++ [Action.request (MoldUdp64Header.mk sampleSession.toList 2 1).encode] ++
    List.replicate 5 Action.read ++
    [Action.receiver (.reply (dataPacket sampleSession 2 [m₂]) 6000000 []), .receiver .dispatch,
      .receiver .dispatch, .receiver .dispatch]

theorem sampleActions_end :
    ∃ s ∈ (sampleActions [1] [2] [3]).foldlM
        (fun s a => if s.overtakes a then none else step samplePlan s a) (start samplePlan 3),
      s.ended = true ∧ s.receiver.requests = [⟨sampleSession.toList, 2, 1⟩] ∧
        s.parsed = [[1], [2], [3]] := by
  decide +kernel

theorem runs_of_foldlM {plan : Plan} {s t : State} {as : List Action}
    (h : as.foldlM (fun s a => if s.overtakes a then none else step plan s a) s = some t) :
    Runs (Timely plan) s as t := by
  refine (Runs.of_foldlM h).mono fun s a t ht => ?_
  split at ht
  · cases ht
  · next hover => exact ⟨ht, Bool.eq_false_iff.mpr hover⟩

theorem market_data_end_to_end_withheld : ∃ s,
    Runs (Timely samplePlan) (start samplePlan 3) (sampleActions [1] [2] [3]) s ∧
      s.parsed = [[1], [2], [3]] ∧ EndToEnd samplePlan s := by
  obtain ⟨s, hs, _, _, hparsed⟩ := sampleActions_end
  have hr := runs_of_foldlM hs
  exact ⟨s, hr, hparsed, market_data_end_to_end hr⟩

end TradingPipeline.MarketData
