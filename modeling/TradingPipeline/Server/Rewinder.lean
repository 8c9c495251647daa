import Mathlib.Algebra.Order.BigOperators.Group.List
import Mathlib.Data.List.Chain
import TradingPipeline.Lib.RingWindow
import TradingPipeline.Lib.Tiling
import TradingPipeline.Mold.Header

/-! # The retransmit cache

The feed thread stores every packet it sends in a ring of slots under a free-running
32-bit cursor, and the rewinder thread answers requests from it. A lookup scans the
ring backwards from the newest packet.
-/
namespace TradingPipeline.Rewinder
open Lib Mold

@[irreducible] def rewinderCacheSlots : ℕ := 64 * 1024
def rewinderCacheMask : ℕ := rewinderCacheSlots - 1
def rewinderMaxPacket : ℕ := 1500
def rewinderMaxReplay : ℕ := 16

/-- `cached_packet`. A `startSeq` of 0 marks an empty slot. -/
structure CachedPacket where
  startSeq : ℕ
  msgCount : ℕ
  len : ℕ
  session : List UInt8
  bytes : List UInt8
  deriving DecidableEq, Repr

/-- `g_cache` and `g_write_cursor`. -/
structure Cache where
  slots : ℕ → CachedPacket
  writeCursor : ℕ

def rewinderInit : Cache where
  slots _ := ⟨0, 0, 0, List.replicate 10 0, List.replicate rewinderMaxPacket 0⟩
  writeCursor := 0

/-- The arguments of a call of `rewinder_cache_packet`. -/
structure Sent where
  session : List UInt8
  startSeq : ℕ
  msgCount : ℕ
  packet : List UInt8
  deriving DecidableEq, Repr

def Sent.endSeq (p : Sent) : ℕ := p.startSeq + p.msgCount

def Sent.Covers (p : Sent) (seq : ℕ) : Prop := p.startSeq ≤ seq ∧ seq < p.endSeq

instance (p : Sent) (seq : ℕ) : Decidable (p.Covers seq) :=
  inferInstanceAs (Decidable (_ ∧ _))

/-- A shorter packet leaves the end of the slot's bytes as it was. -/
def CachedPacket.overwrite (slot : CachedPacket) (p : Sent) : CachedPacket where
  startSeq := p.startSeq
  msgCount := p.msgCount
  len := p.packet.length
  session := p.session
  bytes := p.packet ++ slot.bytes.drop p.packet.length

def Cache.cachePacket (c : Cache) (p : Sent) : Cache :=
  if rewinderMaxPacket < p.packet.length ∨ p.msgCount = 0 then c
  else
    let i := c.writeCursor &&& rewinderCacheMask
    { slots := Function.update c.slots i ((c.slots i).overwrite p)
      writeCursor := (c.writeCursor + 1) % 2 ^ 32 }

/-- The slots that `find_packet` looks at, in its order. -/
def Cache.scanned (c : Cache) : List CachedPacket :=
  (List.range (min c.writeCursor rewinderCacheSlots)).map fun i =>
    c.slots ((c.writeCursor - (i + 1)) &&& rewinderCacheMask)

/-- The test of `find_packet` on a slot. -/
def CachedPacket.hit (slot : CachedPacket) (seq : ℕ) : Bool :=
  slot.startSeq ≠ 0 ∧ slot.startSeq ≤ seq ∧ seq < (slot.startSeq + slot.msgCount) % 2 ^ 64

def Cache.findPacket (c : Cache) (seq : ℕ) : Option CachedPacket :=
  c.scanned.find? (·.hit seq)

/-- The replay loop of `rewinder_thread`: the packets it sends in at most `n` turns. -/
def Cache.replay (c : Cache) : ℕ → ℕ → ℕ → List CachedPacket
  | 0, _, _ => []
  | n + 1, wantSeq, wantCnt =>
    if wantCnt = 0 then []
    else
      match c.findPacket wantSeq with
      | none => []
      | some p =>
        let nextSeq := (p.startSeq + p.msgCount) % 2 ^ 64
        if nextSeq ≤ wantSeq then [p]
        else
          let covered := nextSeq - wantSeq
          p :: c.replay n nextSeq (if wantCnt ≤ covered then 0 else wantCnt - covered)

/-- One turn of `rewinder_thread`: the datagrams sent in reply to one. The buffer of
`recvfrom` has the size of a request, so the rest of a longer datagram is cut off. -/
def Cache.handleRequest (c : Cache) (datagram : List UInt8) : List (List UInt8) :=
  let req := datagram.take headerSize
  if req.length ≠ headerSize then []
  else
    (c.replay rewinderMaxReplay (sequenceNumber req) (messageCount req)).map fun p =>
      p.bytes.take p.len

/-- What a slot says about the call that filled it. -/
def CachedPacket.sent (slot : CachedPacket) : Sent :=
  ⟨slot.session, slot.startSeq, slot.msgCount, slot.bytes.take slot.len⟩

def cacheAfter (calls : List Sent) : Cache := calls.foldl Cache.cachePacket rewinderInit

/-- The calls whose packets are still in the cache. -/
def recent (calls : List Sent) : List Sent := newest rewinderCacheSlots calls

/-- The calls a feed makes: adjacent ranges from sequence number 1 on, in packets that fit
a slot, and fewer of them than the cursor counts. -/
structure Feeds (calls : List Sent) : Prop where
  few : calls.length < 2 ^ 32
  tiles : ∃ stop, Tiles Sent.startSeq Sent.endSeq 1 calls stop
  count_lt : ∀ p ∈ calls, p.msgCount < 2 ^ 16
  len_le : ∀ p ∈ calls, p.packet.length ≤ rewinderMaxPacket

section Lookup

theorem and_rewinderCacheMask (w : ℕ) : w &&& rewinderCacheMask = w % rewinderCacheSlots := by
  unfold rewinderCacheMask rewinderCacheSlots
  exact Nat.and_two_pow_sub_one_eq_mod w 16

@[simp] theorem overwrite_sent (slot : CachedPacket) (p : Sent) : (slot.overwrite p).sent = p := by
  simp [CachedPacket.overwrite, CachedPacket.sent]

/-- The cursor counts the calls, and the slots behind it hold the most recent ones. -/
structure Holds (c : Cache) (calls : List Sent) : Prop where
  cursor : c.writeCursor = calls.length
  slots : Remembers rewinderCacheSlots (fun i => (c.slots i).sent) calls

theorem Holds.cachePacket {c : Cache} {calls : List Sent} (h : Holds c calls) {p : Sent}
    (hlen : p.packet.length ≤ rewinderMaxPacket) (hcnt : p.msgCount ≠ 0)
    (hfew : calls.length + 1 < 2 ^ 32) : Holds (c.cachePacket p) (calls ++ [p]) := by
  have hguard : ¬(rewinderMaxPacket < p.packet.length ∨ p.msgCount = 0) := by
    rintro (h | h)
    · omega
    · exact hcnt h
  have hpush := h.slots.push p
  rw [Cache.cachePacket, if_neg hguard, h.cursor, and_rewinderCacheMask]
  refine ⟨?_, ?_⟩
  · rw [List.length_append, List.length_singleton]
    exact Nat.mod_eq_of_lt hfew
  · intro k hk hrecent
    rw [← hpush k hk hrecent]
    by_cases hi : k % rewinderCacheSlots = calls.length % rewinderCacheSlots
    · simp only [hi, Function.update_self, overwrite_sent]
    · simp only [Function.update_of_ne hi]

theorem Feeds.count_pos {calls : List Sent} (h : Feeds calls) {p : Sent} (hp : p ∈ calls) :
    p.msgCount ≠ 0 := by
  obtain ⟨stop, ht⟩ := h.tiles
  have hlt := (ht.bounds hp).2.1
  rw [Sent.endSeq] at hlt
  omega

theorem Feeds.before {calls : List Sent} {p : Sent} (h : Feeds (calls ++ [p])) : Feeds calls := by
  have hsub : calls ⊆ calls ++ [p] := List.subset_append_left _ _
  have hfew := h.few
  rw [List.length_append] at hfew
  obtain ⟨stop, ht⟩ := h.tiles
  obtain ⟨m, hcalls, _⟩ := ht.append_split
  exact ⟨by omega, ⟨m, hcalls⟩, fun q hq => h.count_lt q (hsub hq),
    fun q hq => h.len_le q (hsub hq)⟩

theorem Feeds.holds {calls : List Sent} (h : Feeds calls) : Holds (cacheAfter calls) calls := by
  induction calls using List.reverseRecOn with
  | nil => exact ⟨rfl, fun k hk _ => absurd hk (Nat.not_lt_zero k)⟩
  | append_singleton calls p ih =>
    have hp : p ∈ calls ++ [p] := List.mem_append_right _ (List.mem_singleton_self p)
    have hfew := h.few
    rw [List.length_append, List.length_singleton] at hfew
    have hstep := (ih h.before).cachePacket (h.len_le p hp) (h.count_pos hp) hfew
    rwa [cacheAfter, List.foldl_append]

theorem Holds.scanned {c : Cache} {calls : List Sent} (h : Holds c calls) :
    c.scanned.map CachedPacket.sent = (recent calls).reverse := by
  rw [recent, ← h.slots.backwards, Cache.scanned, List.map_map, h.cursor]
  refine List.map_congr_left (fun i _ => ?_)
  rw [Function.comp_apply, and_rewinderCacheMask]

theorem Feeds.endSeq_lt {calls : List Sent} (h : Feeds calls) {p : Sent} (hp : p ∈ calls) :
    p.endSeq < 2 ^ 64 := by
  obtain ⟨stop, ht⟩ := h.tiles
  have hle := (ht.bounds hp).2.2
  have htotal := ht.total
  have hsum : (calls.map fun q => q.endSeq - q.startSeq).sum ≤ calls.length * 2 ^ 16 := by
    have hbound := List.sum_le_card_nsmul (calls.map fun q => q.endSeq - q.startSeq) (2 ^ 16) (by
      intro n hn
      obtain ⟨q, hq, rfl⟩ := List.mem_map.mp hn
      have hcnt := h.count_lt q hq
      simp only [Sent.endSeq]
      omega)
    simpa using hbound
  have hfew := h.few
  omega

theorem Feeds.recent_tiles {calls : List Sent} (h : Feeds calls) :
    ∃ start stop, Tiles Sent.startSeq Sent.endSeq start (recent calls) stop := by
  obtain ⟨stop, ht⟩ := h.tiles
  rw [← take_append_newest rewinderCacheSlots calls] at ht
  obtain ⟨start, _, hrecent⟩ := ht.append_split
  exact ⟨start, stop, hrecent⟩

theorem recent_subset (calls : List Sent) : recent calls ⊆ calls := newest_subset _ _

theorem Feeds.hit_iff {calls : List Sent} (h : Feeds calls) {slot : CachedPacket}
    (hs : slot.sent ∈ calls) (seq : ℕ) : slot.hit seq = true ↔ slot.sent.Covers seq := by
  obtain ⟨stop, ht⟩ := h.tiles
  have hstart : 1 ≤ slot.startSeq := (ht.bounds hs).1
  have hend : slot.startSeq + slot.msgCount < 2 ^ 64 := h.endSeq_lt hs
  have hcov : slot.sent.Covers seq ↔
      slot.startSeq ≤ seq ∧ seq < slot.startSeq + slot.msgCount := Iff.rfl
  rw [hcov, CachedPacket.hit, decide_eq_true_iff, Nat.mod_eq_of_lt hend]
  refine ⟨fun h => h.2, fun h => ⟨by omega, h⟩⟩

/-- `find_packet` finds exactly the packets that are still cached. -/
theorem Feeds.findPacket_iff {calls : List Sent} (h : Feeds calls) (seq : ℕ) (p : Sent) :
    ((cacheAfter calls).findPacket seq).map CachedPacket.sent = some p ↔
      p ∈ recent calls ∧ p.Covers seq := by
  have hscan := h.holds.scanned
  have hmem : ∀ slot ∈ (cacheAfter calls).scanned, slot.sent ∈ recent calls := by
    intro slot hslot
    rw [← List.mem_reverse, ← hscan]
    exact List.mem_map_of_mem hslot
  have hfound : ∀ slot, (cacheAfter calls).findPacket seq = some slot →
      slot.sent ∈ recent calls ∧ slot.sent.Covers seq := by
    intro slot hslot
    have hin := hmem slot (List.mem_of_find?_eq_some hslot)
    have hhit : slot.hit seq = true :=
      @List.find?_some _ (fun x : CachedPacket => x.hit seq) slot _ hslot
    exact ⟨hin, (h.hit_iff (recent_subset calls hin) seq).mp hhit⟩
  constructor
  · intro hp
    obtain ⟨slot, hslot, rfl⟩ := Option.map_eq_some_iff.mp hp
    exact hfound slot hslot
  · rintro ⟨hp, hcov⟩
    have hp' : p ∈ (cacheAfter calls).scanned.map CachedPacket.sent := by
      rw [hscan]
      exact List.mem_reverse.mpr hp
    obtain ⟨slot, hslot, rfl⟩ := List.mem_map.mp hp'
    have hhit := (h.hit_iff (recent_subset calls hp) seq).mpr hcov
    have hsome : ((cacheAfter calls).findPacket seq).isSome = true :=
      List.find?_isSome.mpr ⟨slot, hslot, hhit⟩
    obtain ⟨found, hfind⟩ := Option.isSome_iff_exists.mp hsome
    obtain ⟨hin, hcov'⟩ := hfound found hfind
    obtain ⟨start, stop, ht⟩ := h.recent_tiles
    rw [hfind, Option.map_some, ht.cover_unique hin hp hcov' hcov]

theorem Feeds.findPacket_none {calls : List Sent} (h : Feeds calls) {seq : ℕ}
    (hmiss : ∀ p ∈ recent calls, ¬p.Covers seq) : (cacheAfter calls).findPacket seq = none := by
  cases hfind : (cacheAfter calls).findPacket seq with
  | none => rfl
  | some slot =>
    have hsome : ((cacheAfter calls).findPacket seq).map CachedPacket.sent = some slot.sent := by
      rw [hfind, Option.map_some]
    obtain ⟨hin, hcov⟩ := (h.findPacket_iff seq slot.sent).mp hsome
    exact absurd hcov (hmiss _ hin)

end Lookup

section Replay

/-- The packets from the front of a list up to the one that reaches `stop`, and `n` at most. -/
def served (stop : ℕ) : ℕ → List Sent → List Sent
  | 0, _ => []
  | _ + 1, [] => []
  | n + 1, p :: l => p :: if stop ≤ p.endSeq then [] else served stop n l

theorem served_prefix (stop n : ℕ) (l : List Sent) : served stop n l <+: l := by
  induction n generalizing l with
  | zero => exact List.nil_prefix
  | succ n ih =>
    cases l with
    | nil => exact List.prefix_rfl
    | cons p l =>
      rw [served, List.prefix_cons_inj]
      split
      · exact List.nil_prefix
      · exact ih l

theorem replay_none {c : Cache} {seq : ℕ} (h : c.findPacket seq = none) (n cnt : ℕ) :
    c.replay n seq cnt = [] := by
  cases n with
  | zero => rfl
  | succ n => rw [Cache.replay, h, ite_self]

theorem replay_zero (c : Cache) (n seq : ℕ) : c.replay n seq 0 = [] := by
  cases n with
  | zero => rfl
  | succ n => rw [Cache.replay, if_pos rfl]

theorem Feeds.replay_eq {calls : List Sent} (h : Feeds calls) {pre post : List Sent} {p : Sent}
    (hrecent : recent calls = pre ++ p :: post) {wantSeq wantCnt : ℕ} (hcov : p.Covers wantSeq)
    (hcnt : 0 < wantCnt) (n : ℕ) :
    ((cacheAfter calls).replay n wantSeq wantCnt).map CachedPacket.sent =
      served (wantSeq + wantCnt) n (p :: post) := by
  induction n generalizing pre p post wantSeq wantCnt with
  | zero => rfl
  | succ n ih =>
    have hp : p ∈ recent calls := by simp [hrecent]
    obtain ⟨slot, hfind, rfl⟩ := Option.map_eq_some_iff.mp
      ((h.findPacket_iff wantSeq p).mpr ⟨hp, hcov⟩)
    have hend : slot.startSeq + slot.msgCount < 2 ^ 64 := h.endSeq_lt (recent_subset calls hp)
    have hend' : slot.sent.endSeq = slot.startSeq + slot.msgCount := rfl
    have hlt : wantSeq < slot.startSeq + slot.msgCount := hcov.2
    rw [Cache.replay, if_neg (by omega), hfind]
    simp only [Nat.mod_eq_of_lt hend, if_neg (Nat.not_le_of_lt hlt), List.map_cons, served, hend']
    congr 1
    split
    · rw [if_pos (by omega), replay_zero, List.map_nil]
    · rw [if_neg (by omega)]
      obtain ⟨start, stop, ht⟩ := h.recent_tiles
      rw [hrecent] at ht
      obtain ⟨m, hpre, _, _, hpost⟩ := ht.append_split
      cases post with
      | nil =>
        -- the newest packet was sent: nothing cached reaches beyond it
        have hnone : (cacheAfter calls).findPacket (slot.startSeq + slot.msgCount) = none := by
          refine h.findPacket_none (fun q hq hqcov => ?_)
          rw [hrecent] at hq
          have hle := (ht.bounds hq).2.2
          have hqlt := hqcov.2
          rw [← hpost, hend'] at hle
          omega
        rw [replay_none hnone]
        cases n <;> rfl
      | cons q post =>
        have hq : q.Covers (slot.startSeq + slot.msgCount) := by
          obtain ⟨hlo, hhi, _⟩ := hpost
          rw [hend'] at hlo
          exact ⟨Nat.le_of_eq hlo, by rw [← hlo]; exact hhi⟩
        have hnext : recent calls = (pre ++ [slot.sent]) ++ q :: post := by simp [hrecent]
        rw [ih hnext hq (by omega)]
        congr 1
        omega

/-- A replay that has sent `sent` is finished: it reached `stop`, it used up its turns, or
it sent the newest cached packet. -/
def Done (cached : List Sent) (stop : ℕ) (sent : List Sent) : Prop :=
  ∃ p, sent.getLast? = some p ∧
    (stop ≤ p.endSeq ∨ sent.length = rewinderMaxReplay ∨ cached.getLast? = some p)

/-- The replies to a request for `wantCnt` messages from `wantSeq` on. -/
structure Replays (cached : List Sent) (wantSeq wantCnt : ℕ) (sent : List Sent) : Prop where
  consecutive : sent <:+: cached
  adjacent : sent.IsChain fun p q => q.startSeq = p.endSeq
  first : ∀ p, sent.head? = some p → p.Covers wantSeq
  empty_iff : sent = [] ↔ ∀ p ∈ cached, ¬p.Covers wantSeq
  done : sent ≠ [] → Done cached (wantSeq + wantCnt) sent
  not_before : ∀ k < sent.length, ¬Done cached (wantSeq + wantCnt) (sent.take k)

theorem Replays.nothing {cached : List Sent} {wantSeq wantCnt : ℕ}
    (h : ∀ p ∈ cached, ¬p.Covers wantSeq) : Replays cached wantSeq wantCnt [] where
  consecutive := List.nil_infix
  adjacent := .nil
  first p hp := by cases hp
  empty_iff := ⟨fun _ => h, fun _ => rfl⟩
  done hne := absurd rfl hne
  not_before k hk := absurd hk (Nat.not_lt_zero k)

theorem served_last {stop n : ℕ} {l : List Sent} (hl : l ≠ []) (hn : 0 < n) :
    ∃ p, (served stop n l).getLast? = some p ∧
      (stop ≤ p.endSeq ∨ (served stop n l).length = n ∨ l.getLast? = some p) := by
  induction n generalizing l with
  | zero => omega
  | succ n ih =>
    cases l with
    | nil => exact absurd rfl hl
    | cons p l =>
      by_cases hstop : stop ≤ p.endSeq
      · exact ⟨p, by simp [served, hstop], .inl hstop⟩
      · rw [served, if_neg hstop]
        rcases Nat.eq_zero_or_pos n with rfl | hpos
        · exact ⟨p, rfl, .inr (.inl rfl)⟩
        · cases l with
          | nil =>
            have hnil : served stop n [] = [] := by cases n <;> rfl
            exact ⟨p, by rw [hnil]; rfl, .inr (.inr rfl)⟩
          | cons q l =>
            obtain ⟨r, hlast, hr⟩ := ih (List.cons_ne_nil q l) hpos
            refine ⟨r, by rw [List.getLast?_cons, hlast]; rfl, ?_⟩
            rcases hr with hr | hr | hr
            · exact .inl hr
            · exact .inr (.inl (by rw [List.length_cons, hr]))
            · exact .inr (.inr (by rw [List.getLast?_cons, hr]; rfl))

theorem served_length_le (stop n : ℕ) (l : List Sent) : (served stop n l).length ≤ n := by
  induction n generalizing l with
  | zero => exact le_rfl
  | succ n ih =>
    cases l with
    | nil => exact Nat.zero_le _
    | cons p l =>
      rw [served, List.length_cons]
      split
      · exact Nat.succ_le_succ (Nat.zero_le n)
      · exact Nat.succ_le_succ (ih l)

theorem served_short {stop n : ℕ} {l pre post : List Sent} {p : Sent}
    (h : served stop n l = pre ++ p :: post) (hpost : post ≠ []) : p.endSeq < stop := by
  induction n generalizing l pre with
  | zero => simp [served] at h
  | succ n ih =>
    cases l with
    | nil => simp [served] at h
    | cons q l =>
      rw [served] at h
      cases pre with
      | nil =>
        obtain ⟨rfl, hrest⟩ := List.cons.inj h
        by_contra hge
        rw [if_pos (Nat.le_of_not_lt hge)] at hrest
        exact hpost hrest.symm
      | cons r pre =>
        obtain ⟨rfl, hrest⟩ := List.cons.inj h
        split at hrest
        · simp at hrest
        · exact ih hrest

theorem served_replays {cached pre post : List Sent} {p : Sent} {start last : ℕ}
    (ht : Tiles Sent.startSeq Sent.endSeq start cached last) (hcached : cached = pre ++ p :: post)
    {wantSeq wantCnt : ℕ} (hcov : p.Covers wantSeq) :
    Replays cached wantSeq wantCnt
      (served (wantSeq + wantCnt) rewinderMaxReplay (p :: post)) := by
  have hpre := served_prefix (wantSeq + wantCnt) rewinderMaxReplay (p :: post)
  have hsuffix : (p :: post) <:+ cached := ⟨pre, hcached.symm⟩
  have hinside := hpre.isInfix.trans hsuffix.isInfix
  obtain ⟨rest, hrest⟩ : ∃ rest,
      served (wantSeq + wantCnt) rewinderMaxReplay (p :: post) = p :: rest := ⟨_, rfl⟩
  refine ⟨hinside, ht.isChain.infix hinside, ?_, ?_, ?_, ?_⟩
  · intro q hq
    rw [hrest, List.head?_cons] at hq
    cases hq
    exact hcov
  · rw [hrest]
    refine ⟨fun h => absurd h (List.cons_ne_nil _ _), fun h => absurd hcov (h p ?_)⟩
    simp [hcached]
  · intro _
    obtain ⟨q, hlast, hq⟩ :=
      served_last (List.cons_ne_nil p post) (show 0 < rewinderMaxReplay by decide)
    refine ⟨q, hlast, ?_⟩
    rw [hcached, List.getLast?_append_cons]
    exact hq
  · rintro k hk ⟨q, hlast, hq⟩
    obtain ⟨front, hfront⟩ := List.getLast?_eq_some_iff.mp hlast
    have hbehind : (served (wantSeq + wantCnt) rewinderMaxReplay (p :: post)).drop k ≠ [] := by
      rw [ne_eq, List.drop_eq_nil_iff]
      omega
    have hsplit := List.take_append_drop k
      (served (wantSeq + wantCnt) rewinderMaxReplay (p :: post))
    rw [hfront, List.append_assoc, List.singleton_append] at hsplit
    rcases hq with hq | hq | hq
    · have hshort := served_short hsplit.symm hbehind
      omega
    · have hle := served_length_le (wantSeq + wantCnt) rewinderMaxReplay (p :: post)
      rw [List.length_take] at hq
      omega
    · rw [← hsplit] at hinside
      exact ht.not_last hinside hbehind hq

/-- The cache answers every request from the most recent 65536 packets. A lookup finds
the packet that covers a number exactly if it is one of them, and the replies are
consecutive ones from there on, up to the end of the request, the turns of the loop or the
newest packet. -/
theorem retransmit_correct {calls : List Sent} (h : Feeds calls) :
    (∀ seq p, ((cacheAfter calls).findPacket seq).map CachedPacket.sent = some p ↔
      p ∈ newest 65536 calls ∧ p.Covers seq) ∧
    ∀ request : List UInt8, headerSize ≤ request.length → 0 < messageCount request →
      ∃ sent, (cacheAfter calls).handleRequest request = sent.map Sent.packet ∧
        Replays (newest 65536 calls) (sequenceNumber request) (messageCount request) sent := by
  have hslots : newest 65536 calls = recent calls := by
    unfold recent rewinderCacheSlots
    rfl
  rw [hslots]
  refine ⟨h.findPacket_iff, fun request hlen hcnt => ?_⟩
  have hreq : (request.take headerSize).length = headerSize := List.length_take_of_le hlen
  have hseq : sequenceNumber (request.take headerSize) = sequenceNumber request := by
    rw [sequenceNumber, sequenceNumber, decode_take]
  have hcount : messageCount (request.take headerSize) = messageCount request := by
    rw [messageCount, messageCount, decode_take]
  refine ⟨((cacheAfter calls).replay rewinderMaxReplay (sequenceNumber request)
    (messageCount request)).map CachedPacket.sent, ?_, ?_⟩
  · rw [Cache.handleRequest, if_neg (not_not.mpr hreq), hseq, hcount, List.map_map]
    rfl
  · by_cases hcov : ∃ p ∈ recent calls, p.Covers (sequenceNumber request)
    · obtain ⟨p, hp, hcov⟩ := hcov
      obtain ⟨pre, post, hrecent⟩ := List.append_of_mem hp
      obtain ⟨start, stop, ht⟩ := h.recent_tiles
      rw [h.replay_eq hrecent hcov hcnt]
      exact served_replays ht hrecent hcov
    · have hmiss : ∀ p ∈ recent calls, ¬p.Covers (sequenceNumber request) :=
        fun p hp hc => hcov ⟨p, hp, hc⟩
      rw [replay_none (h.findPacket_none hmiss), List.map_nil]
      exact Replays.nothing hmiss

/-- A call that caches a packet without messages behind its header. -/
def sampleCall (session : List UInt8) (seq cnt : ℕ) : Sent :=
  ⟨session, seq, cnt, (MoldUdp64Header.mk session seq cnt).encode⟩

def sampleCalls (session : List UInt8) : List Sent :=
  [sampleCall session 1 1, sampleCall session 2 2, sampleCall session 4 1]

theorem sampleCalls_feeds : Feeds (sampleCalls (List.replicate 10 65)) := by
  refine ⟨by decide, ⟨5, ?_⟩, by decide, by decide⟩
  simp only [sampleCalls, Tiles]
  decide

theorem retransmit_correct_sampleCalls :
    Feeds (sampleCalls (List.replicate 10 65)) ∧
    ∃ sent, (cacheAfter (sampleCalls (List.replicate 10 65))).handleRequest
        (MoldUdp64Header.mk (List.replicate 10 65) 3 2).encode = sent.map Sent.packet ∧
      Replays (newest 65536 (sampleCalls (List.replicate 10 65))) 3 2 sent :=
  ⟨sampleCalls_feeds, (retransmit_correct sampleCalls_feeds).2
    (MoldUdp64Header.mk (List.replicate 10 65) 3 2).encode (by decide) (by decide)⟩

end Replay

end TradingPipeline.Rewinder
