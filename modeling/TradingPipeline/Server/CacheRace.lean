import TradingPipeline.Server.CacheThreads

/-! # What the rewinder sends while packets are cached

A probe finds only whole packets, since `start_seq` is zero while a slot is filled. The bytes and
the length are read after it, with no second look at `start_seq` before they go out: a reply is
the packet that was found as long as no other one is copied over it in between.
-/
namespace TradingPipeline.Rewinder
open Lib Mold

section Slots

/-- What a call has done to its slot before its next store: from the first store on the slot is
marked empty, and the stores still to come make it the packet's. -/
def Call.Fills (call : Call) (slot : CachedPacket) : Prop :=
  match call.next with
  | .zero => True
  | .header => slot.startSeq = 0
  | .bytes => slot.startSeq = 0 ∧
      ((slot.store call.sent .bytes).store call.sent .startSeq).sent = call.sent
  | .startSeq => slot.startSeq = 0 ∧ (slot.store call.sent .startSeq).sent = call.sent
  | .cursor => True

/-- A slot that is not marked empty holds one cached packet, whole. -/
structure Threads.Intact (s : Threads) : Prop where
  whole : ∀ j, (s.cache.slots j).startSeq ≠ 0 → (s.cache.slots j).sent ∈ s.cached
  fills : ∀ call ∈ s.feed, call.Fills (s.cache.slots call.slot)

theorem Call.Fills.store {call : Call} {slot : CachedPacket} (h : call.Fills slot) {n : Store}
    (hn : call.next.after = some n) :
    Call.Fills { call with next := n } (slot.store call.sent call.next) := by
  obtain ⟨p, w, next⟩ := call
  cases next with
  | zero =>
    cases hn
    rfl
  | header =>
    cases hn
    refine ⟨h, ?_⟩
    simp [CachedPacket.store, CachedPacket.sent]
  | bytes =>
    cases hn
    exact h
  | startSeq =>
    cases hn
    trivial
  | cursor => cases hn

theorem Threads.store_slot_self (s : Threads) (call : Call) :
    (s.store call).cache.slots call.slot = (s.cache.slots call.slot).store call.sent call.next :=
  Function.update_self ..

theorem Threads.store_slot_of_ne (s : Threads) {call : Call} {j : ℕ} (h : j ≠ call.slot) :
    (s.store call).cache.slots j = s.cache.slots j := Function.update_of_ne h ..

theorem Threads.Intact.store {s : Threads} (h : s.Intact) {call : Call} (hc : s.feed = some call) :
    (s.store call).Intact := by
  have hfills := h.fills call hc
  refine ⟨?_, ?_⟩
  · intro j hj
    by_cases hslot : j = call.slot
    · subst hslot
      rw [s.store_slot_self call] at hj ⊢
      obtain ⟨p, w, next⟩ := call
      cases next with
      | zero => exact absurd rfl hj
      | header => exact absurd hfills hj
      | bytes => exact absurd hfills.1 hj
      | startSeq =>
        rw [hfills.2]
        exact List.mem_append_right _ (List.mem_singleton_self p)
      | cursor => exact h.whole _ hj
    · rw [s.store_slot_of_ne hslot] at hj ⊢
      have hmem := h.whole j hj
      dsimp only [Threads.store]
      split
      · exact List.mem_append_left _ hmem
      · exact hmem
  · intro c hc'
    obtain ⟨n, hn, rfl⟩ := Option.map_eq_some_iff.mp hc'
    have hkept := hfills.store hn
    rwa [← s.store_slot_self call] at hkept

theorem Threads.Moves.intact {s t : Threads} {a : Action} (h : Moves s a t) (hs : s.Intact) :
    t.Intact := by
  cases h with
  | refuse => exact hs
  | call _ =>
    refine ⟨hs.whole, ?_⟩
    rintro c ⟨⟩
    trivial
  | store hc => exact hs.store hc
  | receive => exact ⟨hs.whole, hs.fills⟩
  | load _ => exact ⟨hs.whole, hs.fills⟩
  | probe _ => exact ⟨hs.whole, hs.fills⟩
  | send _ => exact ⟨hs.whole, hs.fills⟩
  | reload _ => exact ⟨hs.whole, hs.fills⟩

theorem Threads.start_intact : start.Intact where
  whole _ hj := absurd rfl hj
  fills _ hc := by cases hc

/-- A probe takes a slot that is being overwritten for a miss. -/
theorem Threads.Intact.hit {s : Threads} (h : s.Intact) {j seq : ℕ}
    (hhit : (s.cache.slots j).hit seq = true) :
    (s.cache.slots j).sent ∈ s.cached ∧ (s.cache.slots j).sent.Covers seq := by
  rw [CachedPacket.hit, decide_eq_true_iff] at hhit
  obtain ⟨hne, hle, hlt⟩ := hhit
  exact ⟨h.whole j hne, hle, hlt.trans_le (Nat.mod_le _ _)⟩

end Slots

section Replies

/-- The reply is a cached packet that covers the number looked up. -/
def Reply.Right (r : Reply) (cached : List Sent) : Prop :=
  ∃ p ∈ cached, p.Covers r.seq ∧ r.bytes = p.packet

/-- The store copies into the slot that the rewinder has found and not yet sent. -/
def Threads.overtakes (s : Threads) (a : Action) : Bool :=
  match a, s.feed, s.rewinder with
  | .store, some call, .send _ j => call.slot = j ∧ (call.next = .header ∨ call.next = .bytes)
  | _, _, _ => false

/-- What was sent is right, and so is what is about to be sent. -/
structure Threads.Answers (s : Threads) : Prop where
  intact : s.Intact
  found : ∀ t j, s.rewinder = .send t j → (t.reply (s.cache.slots j)).Right s.cached
  replied : ∀ r ∈ s.replies, r.Right s.cached

variable {s : Threads}

theorem Reply.Right.mono {r : Reply} {cached cached' : List Sent} (h : r.Right cached)
    (hle : cached ⊆ cached') : r.Right cached' := by
  obtain ⟨p, hp, hcov, hbytes⟩ := h
  exact ⟨p, hle hp, hcov, hbytes⟩

theorem Threads.cached_store (s : Threads) (call : Call) : s.cached ⊆ (s.store call).cached := by
  dsimp only [Threads.store]
  split
  · exact List.subset_append_left _ _
  · exact List.Subset.refl _

theorem reply_store (t : Turn) (slot : CachedPacket) (p : Sent) {n : Store} (hh : n ≠ .header)
    (hb : n ≠ .bytes) : t.reply (slot.store p n) = t.reply slot := by
  cases n with
  | header => exact absurd rfl hh
  | bytes => exact absurd rfl hb
  | zero | startSeq | cursor => rfl

theorem Threads.reply_slot_store {call : Call} (hc : s.feed = some call) {t : Turn} {j : ℕ}
    (hsend : s.rewinder = .send t j) (hover : s.overtakes .store = false) :
    t.reply ((s.store call).cache.slots j) = t.reply (s.cache.slots j) := by
  have hquiet : call.slot = j → ¬(call.next = .header ∨ call.next = .bytes) := by
    simpa [Threads.overtakes, hc, hsend] using hover
  by_cases hslot : call.slot = j
  · obtain ⟨hh, hb⟩ := not_or.mp (hquiet hslot)
    rw [← hslot, s.store_slot_self call]
    exact reply_store t _ _ hh hb
  · rw [s.store_slot_of_ne (Ne.symm hslot)]

theorem Turn.enter_ne_send (t t' : Turn) (j : ℕ) : t.enter ≠ .send t' j := by
  unfold Turn.enter
  split <;> simp

theorem Turn.scan_ne_send (t t' : Turn) (w i j : ℕ) : t.scan w i ≠ .send t' j := by
  unfold Turn.scan
  split <;> simp

theorem Turn.reload_ne_send (t t' : Turn) (slot : CachedPacket) (j : ℕ) :
    t.reload slot ≠ .send t' j := by
  unfold Turn.reload
  dsimp only
  split
  · simp
  · exact Turn.enter_ne_send _ _ _

theorem receive_ne_send (d : List UInt8) (t : Turn) (j : ℕ) : receive d ≠ .send t j := by
  unfold receive
  dsimp only
  split
  · simp
  · exact Turn.enter_ne_send _ _ _

theorem Turn.probe_eq_send {t t' : Turn} {c : Cache} {w i j : ℕ} (h : t.probe c w i = .send t' j) :
    t' = t ∧ (c.slots j).hit t.wantSeq = true := by
  unfold Turn.probe at h
  dsimp only at h
  split at h
  · next hhit =>
    cases h
    exact ⟨rfl, hhit⟩
  · exact absurd h (Turn.scan_ne_send _ _ _ _ _)

theorem Threads.Answers.idles (h : s.Answers) {pos : Reader} (hpos : ∀ t j, pos ≠ .send t j) :
    Threads.Answers { s with rewinder := pos } :=
  ⟨⟨h.intact.whole, h.intact.fills⟩, fun t j he => absurd he (hpos t j), h.replied⟩

theorem Threads.Moves.answers {a : Action} {t : Threads} (h : Moves s a t) (hs : s.Answers)
    (hover : s.overtakes a = false) : t.Answers := by
  have hintact := h.intact hs.intact
  cases h with
  | refuse => exact hs
  | call _ => exact ⟨hintact, hs.found, hs.replied⟩
  | @store call hc =>
    have hle := s.cached_store call
    refine ⟨hintact, ?_, fun r hr => (hs.replied r hr).mono hle⟩
    intro t j hsend
    rw [Threads.reply_slot_store hc hsend hover]
    exact (hs.found t j hsend).mono hle
  | receive => exact hs.idles (receive_ne_send _)
  | load _ => exact hs.idles (Turn.scan_ne_send _ · _ _)
  | @probe t w i _ =>
    refine ⟨hintact, ?_, hs.replied⟩
    intro t' j hsend
    obtain ⟨rfl, hhit⟩ := Turn.probe_eq_send hsend
    obtain ⟨hmem, hcov⟩ := hs.intact.hit hhit
    exact ⟨_, hmem, hcov, rfl⟩
  | @send t j hsend =>
    refine ⟨hintact, (fun _ _ he => by cases he), ?_⟩
    intro r hr
    rcases List.mem_append.mp hr with hr | hr
    · exact hs.replied r hr
    · rw [List.mem_singleton.mp hr]
      exact hs.found t j hsend
  | reload _ => exact hs.idles (Turn.reload_ne_send _ · _)

theorem Threads.start_answers : start.Answers where
  intact := start_intact
  found _ _ he := by cases he
  replied _ hr := absurd hr List.not_mem_nil

end Replies

section Samples

/-- The calls for packets of one message each, numbered from 1. -/
def lapCall (k : ℕ) : Sent := sampleCall (List.replicate 10 65) (k + 1) 1

def lapCalls (n : ℕ) : List Sent := (List.range n).map lapCall

def lapRequest : List UInt8 := (MoldUdp64Header.mk (List.replicate 10 65) 1 1).encode

theorem lapCall_fits (k : ℕ) :
    (lapCall k).packet.length ≤ rewinderMaxPacket ∧ (lapCall k).msgCount ≠ 0 := by
  have hlen : (lapCall k).packet.length = 20 := by
    simp [lapCall, sampleCall, MoldUdp64Header.encode, writeBE_length]
  exact ⟨hlen ▸ (by decide), Nat.one_ne_zero⟩

theorem mem_lapCalls {n : ℕ} {p : Sent} (h : p ∈ lapCalls n) : ∃ k, lapCall k = p := by
  obtain ⟨k, -, hk⟩ := List.mem_map.mp h
  exact ⟨k, hk⟩

theorem lapCalls_tile (n : ℕ) : Tiles Sent.startSeq Sent.endSeq 1 (lapCalls n) (n + 1) := by
  induction n with
  | zero => rfl
  | succ n ih =>
    rw [lapCalls, List.range_succ, List.map_append]
    exact ih.snoc (s := lapCall n) rfl (Nat.lt_succ_self _)

theorem lapCalls_feeds {n : ℕ} (hn : n < 2 ^ 32) : Feeds (lapCalls n) where
  few := by rwa [lapCalls, List.length_map, List.length_range]
  tiles := ⟨n + 1, lapCalls_tile n⟩
  count_lt p hp := by
    obtain ⟨k, rfl⟩ := mem_lapCalls hp
    exact (by decide : 1 < 2 ^ 16)
  len_le p hp := by
    obtain ⟨k, rfl⟩ := mem_lapCalls hp
    exact (lapCall_fits k).1

theorem not_right_of_ne {n : ℕ} {bytes : List UInt8} (hne : bytes ≠ (lapCall 0).packet) :
    ¬Reply.Right ⟨1, bytes⟩ (lapCalls n) := by
  rintro ⟨p, hp, ⟨hle, -⟩, hbytes⟩
  obtain ⟨k, rfl⟩ := mem_lapCalls hp
  have hk : k = 0 := Nat.le_zero.mp (Nat.le_of_succ_le_succ hle)
  subst hk
  exact hne hbytes

/-- The feed thread and the rewinder take their stores and reads in any order, but no packet is
copied into a slot between the probe that found it and the `sendto`. Then every reply is, as a
whole, a cached packet that covers the number looked up. -/
theorem replies_right {as : List Action} {t : Threads}
    (h : Runs (fun s a t => Threads.Step s a t ∧ s.overtakes a = false) .start as t) :
    ∀ r ∈ t.replies, r.Right t.cached := by
  have hanswers : t.Answers :=
    h.invariant Threads.start_answers fun _ _ _ hs hstep => hstep.1.moves.answers hs hstep.2
  exact hanswers.replied

/-- The second packet is cached while the first is about to be sent. -/
def overlapActions : List Action :=
  (Action.call (lapCall 0) :: List.replicate 5 .store) ++
    [Action.receive lapRequest, .read, .read] ++
    (Action.call (lapCall 1) :: List.replicate 5 .store) ++ [Action.read, .read]

theorem overlapActions_end :
    ∃ t ∈ overlapActions.foldlM (fun s a => if s.overtakes a then none else s.step a) Threads.start,
      t.replies = [⟨1, (lapCall 0).packet⟩] := by
  decide +kernel

theorem replies_right_overlapActions :
    ∃ t, Runs (fun s a t => Threads.Step s a t ∧ s.overtakes a = false) .start overlapActions t ∧
      t.replies.length = 1 ∧ ∀ r ∈ t.replies, r.Right t.cached := by
  obtain ⟨t, ht, hreplies⟩ := overlapActions_end
  have hr : Runs (fun s a t => Threads.Step s a t ∧
    s.overtakes a = false) .start overlapActions t := by
    refine (Runs.of_foldlM ht).mono fun s a u hu => ?_
    split at hu
    · cases hu
    · next hover => exact ⟨hu, Bool.eq_false_iff.mpr hover⟩
  exact ⟨t, hr, by rw [hreplies]; rfl, replies_right hr⟩

theorem lap_lt : 0 < rewinderCacheSlots ∧ rewinderCacheSlots + 1 < 2 ^ 32 := by
  unfold rewinderCacheSlots
  decide

theorem lapped_slot : ((cacheAfter (lapCalls (rewinderCacheSlots + 1))).slots 0).sent =
    lapCall rewinderCacheSlots := by
  obtain ⟨hpos, hfew⟩ := lap_lt
  have hlen : (lapCalls (rewinderCacheSlots + 1)).length = rewinderCacheSlots + 1 := by
    rw [lapCalls, List.length_map, List.length_range]
  have hslot := (lapCalls_feeds hfew).holds.slots rewinderCacheSlots (by rw [hlen]; omega)
    (by rw [hlen]; omega)
  rw [Nat.mod_self] at hslot
  refine hslot.trans ?_
  simp [lapCalls]

theorem lapCall_found : ∃ as, Runs Threads.Step .start as
    ⟨cacheAfter (lapCalls 1), none, .send ⟨0, 1, 1⟩ 0, lapCalls 1, []⟩ := by
  have hcall := Threads.call_run (s := .start) rfl (lapCall_fits 0).1 (lapCall_fits 0).2
  have hfind := Threads.find_run (s := ⟨cacheAfter (lapCalls 1), none, .idle, lapCalls 1, []⟩) rfl
    (d := lapRequest) (t := ⟨0, 1, 1⟩) (w := 1) (i := 1) (j := 0)
    (by decide +kernel) (by decide +kernel) (by decide +kernel)
  exact ⟨_, hcall.trans hfind⟩

theorem lapCall_overtaken (n : ℕ) : ∃ as, Runs Threads.Step .start as
    ⟨cacheAfter (lapCalls (n + 1)), none, .send ⟨0, 1, 1⟩ 0, lapCalls (n + 1), []⟩ := by
  induction n with
  | zero => exact lapCall_found
  | succ n ih =>
    obtain ⟨as, hr⟩ := ih
    have hcalls : lapCalls (n + 1 + 1) = lapCalls (n + 1) ++ [lapCall (n + 1)] := by
      rw [lapCalls, List.range_succ, List.map_append, List.map_singleton, lapCalls]
    have hcache : cacheAfter (lapCalls (n + 1 + 1)) =
        (cacheAfter (lapCalls (n + 1))).cachePacket (lapCall (n + 1)) := by
      rw [hcalls, cacheAfter, List.foldl_append]
      rfl
    have hcall := hr.trans
      (Threads.call_run rfl (lapCall_fits (n + 1)).1 (lapCall_fits (n + 1)).2)
    rw [hcache, hcalls]
    exact ⟨_, hcall⟩

theorem lapCall_sent (n : ℕ) : ∃ as, Runs Threads.Step .start as
    ⟨cacheAfter (lapCalls (n + 1)), none, .reload ⟨0, 1, 1⟩ 0, lapCalls (n + 1),
      [⟨1, ((cacheAfter (lapCalls (n + 1))).slots 0).sent.packet⟩]⟩ := by
  obtain ⟨as, hr⟩ := lapCall_overtaken n
  exact ⟨_, hr.snoc (Threads.send_step rfl)⟩

/-- The rewinder finds the first packet. Before it sends it, the feed thread goes once around the
cache, and the reply is the packet that took its slot. -/
theorem lapped_slot_sent :
    ∃ as t, Runs Threads.Step .start as t ∧ Feeds t.cached ∧
      t.replies = [⟨1, (lapCall rewinderCacheSlots).packet⟩] ∧
      ¬∀ r ∈ t.replies, r.Right t.cached := by
  obtain ⟨as, hr⟩ := lapCall_sent rewinderCacheSlots
  rw [lapped_slot] at hr
  refine ⟨as, _, hr, lapCalls_feeds lap_lt.2, rfl, fun hall => ?_⟩
  have hne : (lapCall rewinderCacheSlots).packet ≠ (lapCall 0).packet := by
    unfold rewinderCacheSlots
    decide
  exact not_right_of_ne hne (hall _ (List.mem_singleton_self _))

end Samples

end TradingPipeline.Rewinder
