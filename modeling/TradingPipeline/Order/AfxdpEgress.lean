import TradingPipeline.Afxdp.Pool
import TradingPipeline.Order.Handover
import TradingPipeline.Order.Wire

/-! # Orders over AF_XDP

With `HFT_AFXDP_TX` set, `order_sender_thread` hands each order to `afxdp_tx_send` and tries again
as long as there is no free frame or no room in the TX ring. The kernel sends the frames and
completes them at any time and in any order. Every order that leaves the ring is in exactly one
frame, the frame holds the message of that order until the kernel is done with it, and the sender
never meets an error on which it would give up.
-/
namespace TradingPipeline.OrderEgress
open Lib OrderRing OrderSession

/-- Where the sender stands with the order at `next_read`. -/
inductive Hand
  | none
  | sending (msg : WireOrder)
  | sent
  deriving DecidableEq

/-- The two threads around the ring, the transmit path and the kernel behind it. `log` are the
messages that were submitted, `pending` the descriptors that the kernel has, each with the
position of its message, and `wire` what it has sent. -/
structure State where
  ring : OrderRing.State
  tx : Afxdp.Tx
  nextSeq : UInt64
  hand : Hand
  stopped : Bool
  taken : List Order
  log : List WireOrder
  pending : List (Afxdp.Desc × ℕ)
  wire : List (ℕ × List UInt8)

def start (avx2 : Bool) (cfg : Afxdp.Config) (umem : Memory) : State where
  ring := OrderRing.init
  tx := Afxdp.initialTx avx2 cfg umem
  nextSeq := 1
  hand := .none
  stopped := false
  taken := []
  log := []
  pending := []
  wire := []

inductive Action
  | submit (a : OrderRing.Action)
  | load (a : OrderRing.Action)
  | drain (peeked : ℕ)
  | copy (sendNs : UInt64)
  | trySend (peeked : ℕ) (reserved : Bool) (drained : ℕ)
  | storeRead
  | complete (desc : Afxdp.Desc)

/-- One turn of the retry loop around `afxdp_tx_send`. After `EAGAIN` and `ENOSPC` the completions
are drained once more; any other error ends the thread. -/
def State.trySend (avx2 : Bool) (s : State) (msg : WireOrder) (peeked : ℕ) (reserved : Bool)
    (drained : ℕ) : State :=
  match Afxdp.afxdpTxSend avx2 s.tx (some msg.bytes) peeked reserved with
  | (.ok (), tx) =>
    { s with
      tx := tx
      hand := .sent
      log := s.log ++ [msg]
      pending := s.pending ++ (tx.submitted.drop s.tx.submitted.length).map (·, s.log.length) }
  | (.error .einval, tx) => { s with tx := tx, stopped := true }
  | (.error _, tx) => { s with tx := (Afxdp.afxdpTxDrainCompletions tx drained).2 }

def step (avx2 : Bool) (s : State) : Action → Option State
  | .submit a => (submitStep s.ring a).map fun r => { s with ring := r }
  | .load .senderStoreRead => none
  | .load a =>
    if s.stopped = false ∧ s.hand = .none then
      (senderStep s.ring a).map fun r => { s with ring := r }
    else none
  | .drain peeked =>
    if s.stopped = false ∧ s.hand = .none then
      some { s with tx := (Afxdp.afxdpTxDrainCompletions s.tx peeked).2 }
    else none
  | .copy sendNs =>
    if s.stopped = false ∧ s.hand = .none then
      s.ring.slotRead.map fun o => { s with
        hand := .sending (wireOrder o s.nextSeq sendNs)
        taken := s.taken ++ [o] }
    else none
  | .trySend peeked reserved drained =>
    match s.hand with
    | .sending msg =>
      if s.stopped then none else some (s.trySend avx2 msg peeked reserved drained)
    | _ => none
  | .storeRead =>
    if s.hand = .sent then
      (senderStep s.ring .senderStoreRead).map fun r => { s with
        ring := r
        nextSeq := s.nextSeq + 1
        hand := .none }
    else none
  | .complete desc =>
    (s.pending.find? (·.1 = desc)).map fun p => { s with
      tx := { s.tx with
        submitted := s.tx.submitted.erase desc
        completed := s.tx.completed ++ [desc.addr] }
      pending := s.pending.eraseP (·.1 = desc)
      wire := s.wire ++ [(p.2, s.tx.ctx.umem.load desc.addr desc.len)] }

def Step (avx2 : Bool) (s : State) (a : Action) (t : State) : Prop := step avx2 s a = some t

section Transmit
variable {avx2 : Bool} {cfg : Afxdp.Config} {umem : Memory} {t : Afxdp.Tx}

theorem drain_keeps (h : Afxdp.Inv avx2 cfg umem t) (peeked : ℕ) :
    (Afxdp.afxdpTxDrainCompletions t peeked).2.submitted = t.submitted ∧
      (Afxdp.afxdpTxDrainCompletions t peeked).2.ctx.umem = t.ctx.umem := by
  rw [h.drain_eq]
  exact ⟨rfl, rfl⟩

/-- What a send of a payload that fits can do. Either it submits one more frame, which is valid,
or it fails for lack of room; the frames that the kernel has stay as they are. -/
theorem send_effect (h : Afxdp.Inv avx2 cfg umem t) {payload : List UInt8}
    (hlo : payload.length ≠ 0) (hhi : payload.length ≤ Afxdp.maxPayload) (peeked : ℕ)
    (reserved : Bool) :
    ∃ r u, Afxdp.afxdpTxSend avx2 t (some payload) peeked reserved = (r, u) ∧
      (∀ d ∈ t.submitted, u.ctx.umem.load d.addr d.len = t.ctx.umem.load d.addr d.len) ∧
      ((∃ d, r = .ok () ∧ u.submitted = t.submitted ++ [d] ∧
          Afxdp.ValidFrame avx2 cfg payload (u.ctx.umem.load d.addr d.len)) ∨
        ∃ e, r = .error e ∧ e ≠ .einval ∧ u.submitted = t.submitted) := by
  have hu := h.drain peeked
  obtain ⟨hsub, humem⟩ := drain_keeps h peeked
  rcases Afxdp.afxdpTxSend_cases avx2 t (some payload) peeked reserved with
    ⟨hbad, -⟩ | ⟨-, heq⟩ | ⟨bs, addr, rest, hbs, hn, hfree, heq⟩
  · have hlen := hbad payload rfl
    omega
  · refine ⟨_, _, heq, fun d _ => by rw [humem], .inr ⟨.enospc, rfl, by decide, hsub⟩⟩
  · obtain rfl := Option.some.inj hbs
    obtain ⟨-, hothers, hvalid⟩ := hu.fill hfree hn
    have hkept : ∀ d ∈ t.submitted, ((Afxdp.afxdpTxDrainCompletions t peeked).2.ctx.fill avx2 addr
        payload).umem.load d.addr d.len = t.ctx.umem.load d.addr d.len := by
      intro d hd
      rw [← humem]
      exact hothers d (hsub ▸ hd)
    cases reserved with
    | true =>
      refine ⟨_, _, heq, hkept, .inl ⟨⟨addr, Afxdp.hdrTotal + payload.length⟩, rfl, ?_, hvalid⟩⟩
      rw [← hsub]
    | false =>
      refine ⟨_, _, heq, ?_, .inr ⟨.eagain, rfl, by decide, hsub⟩⟩
      rw [hu.releaseFrame hfree]
      exact hkept

end Transmit

/-- The order at `next_read` was copied into a message. -/
def Hand.copied : Hand → Bool
  | .none => false
  | _ => true

/-- The message at position `k` is the one of the order at that position, with the number
`k + 1`. -/
def MessageAt (taken : List Order) (k : ℕ) (m : WireOrder) : Prop :=
  ∃ o ∈ taken[k]?, ∃ ts, m = wireOrder o (UInt64.ofNat (k + 1)) ts

/-- The bytes are a valid frame with the message at position `k`. -/
def FrameOf (avx2 : Bool) (cfg : Afxdp.Config) (log : List WireOrder) (k : ℕ)
    (bytes : List UInt8) : Prop :=
  ∃ m ∈ log[k]?, Afxdp.ValidFrame avx2 cfg m.bytes bytes

/-- What the sender's position says about the counters. -/
def HandOk (s : State) : Prop :=
  match s.hand with
  | .none => s.taken.length = s.log.length ∧ s.nextSeq = UInt64.ofNat (s.log.length + 1)
  | .sending msg =>
    s.taken.length = s.log.length + 1 ∧ s.nextSeq = UInt64.ofNat (s.log.length + 1) ∧
      MessageAt s.taken s.log.length msg
  | .sent => s.taken.length = s.log.length ∧ s.nextSeq = UInt64.ofNat s.log.length

structure Inv (avx2 : Bool) (cfg : Afxdp.Config) (umem : Memory) (s : State) : Prop where
  ring : OrderRing.Inv s.ring
  tx : Afxdp.Inv avx2 cfg umem s.tx
  took : Took s.ring s.hand.copied s.taken
  live : s.stopped = false
  hand : HandOk s
  messages : ∀ k m, s.log[k]? = some m → MessageAt s.taken k m
  pending : s.pending.map Prod.fst = s.tx.submitted
  frames : ∀ p ∈ s.pending,
    FrameOf avx2 cfg s.log p.2 (s.tx.ctx.umem.load p.1.addr p.1.len)
  wire : ∀ p ∈ s.wire, FrameOf avx2 cfg s.log p.1 p.2
  once : (s.wire.map Prod.fst ++ s.pending.map Prod.snd).Perm (List.range s.log.length)
  ordered : (s.pending.map Prod.snd).Pairwise (· < ·)

theorem getElem?_append_of_some {α : Type*} {l : List α} {k : ℕ} {x : α} (h : l[k]? = some x)
    (l' : List α) : (l ++ l')[k]? = some x := by
  rwa [List.getElem?_append_left (List.getElem?_eq_some_iff.mp h).1]

theorem MessageAt.append {taken : List Order} {k : ℕ} {m : WireOrder} (h : MessageAt taken k m)
    (l : List Order) : MessageAt (taken ++ l) k m := by
  obtain ⟨o, ho, ts, hm⟩ := h
  exact ⟨o, getElem?_append_of_some ho l, ts, hm⟩

section Invariant
variable {avx2 : Bool} {cfg : Afxdp.Config} {umem : Memory} {s : State}

theorem FrameOf.append {log : List WireOrder} {k : ℕ} {bytes : List UInt8}
    (h : FrameOf avx2 cfg log k bytes) (l : List WireOrder) :
    FrameOf avx2 cfg (log ++ l) k bytes := by
  obtain ⟨m, hm, hvalid⟩ := h
  exact ⟨m, getElem?_append_of_some hm l, hvalid⟩

theorem start_inv (avx2 : Bool) (cfg : Afxdp.Config) (umem : Memory) :
    Inv avx2 cfg umem (start avx2 cfg umem) where
  ring := init_inv
  tx := .initial avx2 cfg umem
  took := ⟨fun _ => rfl, fun h => Bool.noConfusion h⟩
  live := rfl
  hand := ⟨rfl, rfl⟩
  messages k m hk := by simp [start] at hk
  pending := rfl
  frames p hp := by cases hp
  wire p hp := by cases hp
  once := .refl _
  ordered := .nil

theorem Inv.drain (h : Inv avx2 cfg umem s) (peeked : ℕ) :
    Inv avx2 cfg umem { s with tx := (Afxdp.afxdpTxDrainCompletions s.tx peeked).2 } := by
  obtain ⟨hsub, humem⟩ := drain_keeps h.tx peeked
  refine { h with tx := h.tx.drain peeked, pending := h.pending.trans hsub.symm, frames := ?_ }
  intro p hp
  rw [humem]
  exact h.frames p hp

theorem Inv.copy (h : Inv avx2 cfg umem s) (hhand : s.hand = .none) {o : Order}
    (ho : s.ring.slotRead = some o) (sendNs : UInt64) :
    Inv avx2 cfg umem { s with
      hand := .sending (wireOrder o s.nextSeq sendNs)
      taken := s.taken ++ [o] } := by
  have hok := h.hand
  simp only [HandOk, hhand] at hok
  obtain ⟨hlen, hseq⟩ := hok
  have htook := h.took
  rw [hhand] at htook
  refine { h with
    took := htook.copy ho
    hand := ⟨by rw [List.length_append, hlen]; rfl, hseq, o, ?_, sendNs, by rw [hseq]⟩
    messages := fun k m hk => (h.messages k m hk).append [o] }
  rw [← hlen]
  simp

theorem Inv.submitted (h : Inv avx2 cfg umem s) {msg : WireOrder} (hhand : s.hand = .sending msg)
    {u : Afxdp.Tx} {d : Afxdp.Desc} (hu : Afxdp.Inv avx2 cfg umem u)
    (hkept : ∀ d ∈ s.tx.submitted, u.ctx.umem.load d.addr d.len = s.tx.ctx.umem.load d.addr d.len)
    (hsub : u.submitted = s.tx.submitted ++ [d])
    (hvalid : Afxdp.ValidFrame avx2 cfg msg.bytes (u.ctx.umem.load d.addr d.len)) :
    Inv avx2 cfg umem { s with
      tx := u
      hand := .sent
      log := s.log ++ [msg]
      pending := s.pending ++ [(d, s.log.length)] } := by
  have hok := h.hand
  simp only [HandOk, hhand] at hok
  obtain ⟨hlen, hseq, hmsg⟩ := hok
  have htook := h.took
  rw [hhand] at htook
  have hturns : ∀ k ∈ s.pending.map Prod.snd, k < s.log.length := fun k hk =>
    List.mem_range.mp (h.once.subset (List.mem_append_right _ hk))
  refine ⟨h.ring, hu, htook, h.live, ⟨?_, ?_⟩, ?_, ?_, ?_, fun p hp => (h.wire p hp).append [msg],
    ?_, ?_⟩
  · rw [hlen, List.length_append, List.length_singleton]
  · rw [hseq, List.length_append, List.length_singleton]
  · intro k m hk
    rcases Nat.lt_or_ge k s.log.length with hlt | hge
    · exact h.messages k m (by rwa [List.getElem?_append_left hlt] at hk)
    · have hkl : k = s.log.length := by
        have := (List.getElem?_eq_some_iff.mp hk).1
        simp only [List.length_append, List.length_singleton] at this
        omega
      subst hkl
      obtain rfl : msg = m := by simpa using hk
      exact hmsg
  · rw [List.map_append, h.pending, hsub]
    rfl
  · intro p hp
    rcases List.mem_append.mp hp with hp | hp
    · rw [hkept p.1 (h.pending ▸ List.mem_map_of_mem hp)]
      exact (h.frames p hp).append [msg]
    · obtain rfl := List.mem_singleton.mp hp
      exact ⟨msg, by simp, hvalid⟩
  · rw [List.map_append, ← List.append_assoc, List.length_append, List.length_singleton,
      List.range_succ]
    exact h.once.append_right _
  · rw [List.map_append]
    refine List.pairwise_append.mpr ⟨h.ordered, List.pairwise_singleton _ _, fun k hk j hj => ?_⟩
    rw [List.mem_singleton.mp hj]
    exact hturns k hk

theorem Inv.trySend (h : Inv avx2 cfg umem s) {msg : WireOrder} (hhand : s.hand = .sending msg)
    (peeked : ℕ) (reserved : Bool) (drained : ℕ) :
    Inv avx2 cfg umem (s.trySend avx2 msg peeked reserved drained) := by
  have hsize : msg.bytes.length = 36 := msg.bytes_length
  have hsent := h.tx.send (some msg.bytes) peeked reserved
  have hlo : msg.bytes.length ≠ 0 := by omega
  have hhi : msg.bytes.length ≤ Afxdp.maxPayload := by
    rw [hsize]
    decide
  obtain ⟨r, u, heq, hkept, heffect⟩ := send_effect h.tx hlo hhi peeked reserved
  rw [heq] at hsent
  unfold State.trySend
  rw [heq]
  rcases heffect with ⟨d, rfl, hsub, hvalid⟩ | ⟨e, rfl, hne, hsub⟩
  · dsimp only
    rw [hsub, List.drop_left]
    exact h.submitted hhand hsent hkept hsub hvalid
  · have hsame : Inv avx2 cfg umem { s with tx := u } := by
      refine { h with tx := hsent, pending := h.pending.trans hsub.symm, frames := fun p hp => ?_ }
      rw [hkept p.1 (h.pending ▸ List.mem_map_of_mem hp)]
      exact h.frames p hp
    cases e with
    | einval => exact absurd rfl hne
    | enospc => exact hsame.drain drained
    | eagain => exact hsame.drain drained

theorem Inv.complete (h : Inv avx2 cfg umem s) {desc : Afxdp.Desc} {p : Afxdp.Desc × ℕ}
    (hp : s.pending.find? (·.1 = desc) = some p) :
    Inv avx2 cfg umem { s with
      tx := { s.tx with
        submitted := s.tx.submitted.erase desc
        completed := s.tx.completed ++ [desc.addr] }
      pending := s.pending.eraseP (·.1 = desc)
      wire := s.wire ++ [(p.2, s.tx.ctx.umem.load desc.addr desc.len)] } := by
  obtain ⟨hdesc, before, behind, hsplit, hbefore⟩ := List.find?_eq_some_iff_append.mp hp
  obtain rfl : p.1 = desc := of_decide_eq_true hdesc
  have hmem : p ∈ s.pending := hsplit ▸ by simp
  have herase : s.pending.eraseP (·.1 = p.1) = before ++ behind := by
    rw [hsplit, List.eraseP_append_right _ (fun b hb => by simpa using hbefore b hb),
      List.eraseP_cons_of_pos (by simp)]
  have hout : p.1 ∉ before.map Prod.fst := by
    intro hin
    obtain ⟨b, hb, hbp⟩ := List.mem_map.mp hin
    simpa [hbp] using hbefore b hb
  refine ⟨h.ring, h.tx.complete (h.pending ▸ List.mem_map_of_mem hmem), h.took, h.live, h.hand,
    h.messages, ?_, ?_, ?_, ?_, ?_⟩
  · rw [herase, ← h.pending, hsplit, List.map_append, List.map_append, List.map_cons,
      List.erase_append_right _ hout, List.erase_cons_head]
  · intro q hq
    exact h.frames q (List.eraseP_subset hq)
  · intro q hq
    rcases List.mem_append.mp hq with hq | hq
    · exact h.wire q hq
    · obtain rfl := List.mem_singleton.mp hq
      exact h.frames p hmem
  · refine List.Perm.trans ?_ h.once
    rw [herase, hsplit, List.map_append, List.map_append, List.map_append, List.append_assoc]
    refine List.Perm.append_left _ ?_
    show (p.2 :: (before.map Prod.snd ++ behind.map Prod.snd)).Perm
      (before.map Prod.snd ++ p.2 :: behind.map Prod.snd)
    exact List.perm_middle.symm
  · rw [herase]
    refine h.ordered.sublist (List.Sublist.map _ ?_)
    rw [hsplit]
    exact (List.Sublist.refl before).append (List.sublist_cons_self p behind)

theorem Step.inv {a : Action} {t : State} (he : Step avx2 s a t) (h : Inv avx2 cfg umem s) :
    Inv avx2 cfg umem t := by
  unfold Step step at he
  split at he
  · obtain ⟨r, hr, rfl⟩ := Option.map_eq_some_iff.mp he
    exact { h with ring := step_inv h.ring (submitStep_step hr), took := h.took.submit hr }
  · cases he
  · next a ha =>
    split at he
    · next hidle =>
      obtain ⟨r, hr, rfl⟩ := Option.map_eq_some_iff.mp he
      have htook := h.took
      rw [hidle.2] at htook
      refine { h with ring := step_inv h.ring (senderStep_step hr), took := ?_ }
      show Took r s.hand.copied s.taken
      rw [hidle.2]
      exact htook.load (fun hstore => ha hstore) hr
    · cases he
  · split at he
    · exact Option.some.inj he ▸ h.drain _
    · cases he
  · split at he
    · next hidle =>
      obtain ⟨o, ho, rfl⟩ := Option.map_eq_some_iff.mp he
      exact h.copy hidle.2 ho _
    · cases he
  · split at he
    · next msg hhand =>
      split at he
      · cases he
      · exact Option.some.inj he ▸ h.trySend hhand _ _ _
    · cases he
  · split at he
    · next hsent =>
      obtain ⟨r, hr, rfl⟩ := Option.map_eq_some_iff.mp he
      have htook := h.took
      have hok := h.hand
      rw [hsent] at htook
      simp only [HandOk, hsent] at hok
      refine { h with
        ring := step_inv h.ring (senderStep_step hr)
        took := htook.storeRead hr
        hand := ⟨hok.1, ?_⟩ }
      rw [hok.2, UInt64.ofNat_add]
      rfl
    · cases he
  · obtain ⟨p, hp, rfl⟩ := Option.map_eq_some_iff.mp he
    exact h.complete hp

theorem runs_inv {as : List Action} (hr : Runs (Step avx2) (start avx2 cfg umem) as s) :
    Inv avx2 cfg umem s :=
  hr.invariant (start_inv avx2 cfg umem) fun _ _ _ h he => he.inv h

theorem Inv.taken_le_log (h : Inv avx2 cfg umem s) : s.ring.taken.length ≤ s.log.length := by
  have hok := h.hand
  have htook := h.took
  unfold HandOk at hok
  split at hok
  · next hhand =>
    rw [hhand] at htook
    rw [← htook.apart rfl, hok.1]
  · next msg hhand =>
    rw [hhand] at htook
    obtain ⟨o, -, htaken⟩ := htook.joined rfl
    have hlen := congrArg List.length htaken
    rw [List.length_append, List.length_singleton] at hlen
    omega
  · next hhand =>
    rw [hhand] at htook
    obtain ⟨o, -, htaken⟩ := htook.joined rfl
    have hlen := congrArg List.length htaken
    rw [List.length_append, List.length_singleton] at hlen
    omega

end Invariant

/-- What the way of the orders over AF_XDP promises. -/
structure Egress (avx2 : Bool) (cfg : Afxdp.Config) (s : State) : Prop where
  /-- No send fails for good. -/
  live : s.stopped = false
  /-- The messages are those of the submitted orders, in their order and numbered from one. -/
  messages : ∀ k m, s.log[k]? = some m → MessageAt s.ring.submitted k m
  /-- Each message is in one frame, which is with the kernel or was sent. -/
  once : (s.wire.map Prod.fst ++ s.pending.map Prod.snd).Perm (List.range s.log.length)
  ordered : (s.pending.map Prod.snd).Pairwise (· < ·)
  /-- The frames with the kernel are not written over. -/
  frames : ∀ p ∈ s.pending,
    FrameOf avx2 cfg s.log p.2 (s.tx.ctx.umem.load p.1.addr p.1.len)
  /-- What was sent is a valid frame, and its payload is the message. -/
  sent : ∀ p ∈ s.wire, FrameOf avx2 cfg s.log p.1 p.2 ∧
    s.log[p.1]? = some (WireOrder.ofBytes (p.2.drop 42))
  inFlight : s.pending.length ≤ 511
  backlog : s.ring.submitted.length ≤ s.log.length + orderToExcSize

theorem FrameOf.payload {avx2 : Bool} {cfg : Afxdp.Config} {log : List WireOrder} {k : ℕ}
    {bytes : List UInt8} (h : FrameOf avx2 cfg log k bytes) :
    log[k]? = some (WireOrder.ofBytes (bytes.drop 42)) := by
  obtain ⟨m, hm, check, udpCheck, hbytes, -⟩ := h
  have hdrop : bytes.drop 42 = m.bytes := by
    rw [hbytes, ← List.append_assoc, ← List.append_assoc]
    exact List.drop_left' (by
      simp [Afxdp.ethernetHeader, Afxdp.ipHeader, Afxdp.udpHeader])
  rw [hdrop, WireOrder.ofBytes_bytes]
  exact hm

/-- For every interleaving of the two threads and the kernel, with any room in the rings. -/
theorem afxdp_orders_sent_once {avx2 : Bool} {cfg : Afxdp.Config} {umem : Memory}
    {as : List Action} {s : State} (hr : Runs (Step avx2) (start avx2 cfg umem) as s) :
    Egress avx2 cfg s := by
  have h := runs_inv hr
  refine ⟨h.live, fun k m hk => ?_, h.once, h.ordered, h.frames,
    fun p hp => ⟨h.wire p hp, (h.wire p hp).payload⟩, ?_, ?_⟩
  · obtain ⟨rest, hrest⟩ := h.took.isPrefix h.ring
    rw [← hrest]
    exact (h.messages k m hk).append rest
  · have hlen := h.tx.length
    rw [← h.pending, List.length_map] at hlen
    omega
  · exact h.ring.backlog.trans (Nat.add_le_add_right h.taken_le_log _)

def submitAndCopy (a : Submission) (ns : UInt64) : List Action :=
  [Action.submit (.loadWrite a), .submit .loadRead] ++
    Field.all.map (fun f => Action.submit (.fill f)) ++
    [Action.submit .storeWrite, .load .senderLoadRead, .load .senderLoadWrite] ++
    Field.all.map (fun f => Action.load (.senderRead f)) ++ [Action.copy ns]

/-- The TX ring has no room at first, and the second order is submitted before the first frame
was completed. -/
def retryActions : List Action :=
  submitAndCopy ⟨13, 66, 32000, 100, 5⟩ 7 ++
    [Action.trySend 0 false 0, .trySend 0 true 0, .storeRead] ++
    submitAndCopy ⟨13, 66, 32000, 0, 6⟩ 9 ++
    [Action.trySend 0 true 0, .complete ⟨4096, 78⟩, .storeRead]

theorem retryActions_end :
    ∃ s ∈ retryActions.foldlM (step true) (start true Afxdp.sampleConfig fun _ => 0),
      s.log.length = 2 ∧ s.wire.map Prod.fst = [0] ∧ s.pending = [(⟨8192, 78⟩, 1)] := by
  decide +kernel

theorem afxdp_orders_sent_once_retry : ∃ s,
    Runs (Step true) (start true Afxdp.sampleConfig fun _ => 0) retryActions s ∧
      s.log.length = 2 ∧ s.wire.map Prod.fst = [0] ∧ Egress true Afxdp.sampleConfig s := by
  obtain ⟨s, hs, hlog, hwire, -⟩ := retryActions_end
  have hr : Runs (Step true) (start true Afxdp.sampleConfig fun _ => 0) retryActions s :=
    Runs.of_foldlM hs
  exact ⟨s, hr, hlog, hwire, afxdp_orders_sent_once hr⟩

end TradingPipeline.OrderEgress
