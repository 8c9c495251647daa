import TradingPipeline.Lib.Runs
import TradingPipeline.Server.Rewinder

/-! # The retransmit cache under two threads

`rewinder_cache_packet` fills a slot by five stores, and `start_seq` is zero while the others are
under way. `rewinder_thread` looks at a slot three times: `find_packet` probes its range, `sendto`
reads its bytes and length, and the range is read once more for the next lookup. Each store and
each read is a step here, and the two threads take them in any order.
-/
namespace TradingPipeline.Rewinder
open Lib Mold

/-- The stores of `rewinder_cache_packet`, in its order. -/
inductive Store
  | zero
  | header
  | bytes
  | startSeq
  | cursor
  deriving DecidableEq, Repr

def Store.after : Store → Option Store
  | .zero => some .header
  | .header => some .bytes
  | .bytes => some .startSeq
  | .startSeq => some .cursor
  | .cursor => none

/-- A call of `rewinder_cache_packet` under way: its arguments, the cursor that it loaded, and
the store that it makes next. -/
structure Call where
  sent : Sent
  w : ℕ
  next : Store
  deriving DecidableEq

def Call.slot (call : Call) : ℕ := call.w &&& rewinderCacheMask

def CachedPacket.store (slot : CachedPacket) (p : Sent) : Store → CachedPacket
  | .zero => { slot with startSeq := 0 }
  | .header => { slot with session := p.session, msgCount := p.msgCount, len := p.packet.length }
  | .bytes => { slot with bytes := p.packet ++ slot.bytes.drop p.packet.length }
  | .startSeq => { slot with startSeq := p.startSeq }
  | .cursor => slot

def Cache.store (c : Cache) (call : Call) : Cache where
  slots := Function.update c.slots call.slot ((c.slots call.slot).store call.sent call.next)
  writeCursor := if call.next = .cursor then (call.w + 1) % 2 ^ 32 else c.writeCursor

/-- The variables of the replay loop. -/
structure Turn where
  i : ℕ
  wantSeq : ℕ
  wantCnt : ℕ
  deriving DecidableEq

/-- Where `rewinder_thread` is: in `recvfrom`, or before its next read, which is the load of the
cursor in `find_packet`, the probe of the slot `i` behind the cursor, the `sendto` from a slot or
the second look at the slot's range. -/
inductive Reader
  | idle
  | load (t : Turn)
  | probe (t : Turn) (w i : ℕ)
  | send (t : Turn) (slot : ℕ)
  | reload (t : Turn) (slot : ℕ)
  deriving DecidableEq

/-- The head of the replay loop. -/
def Turn.enter (t : Turn) : Reader :=
  if t.i < rewinderMaxReplay ∧ 0 < t.wantCnt then .load t else .idle

/-- The head of the loop of `find_packet`. -/
def Turn.scan (t : Turn) (w i : ℕ) : Reader :=
  if i ≤ min w rewinderCacheSlots then .probe t w i else .idle

def Turn.probe (t : Turn) (c : Cache) (w i : ℕ) : Reader :=
  let j := (w - i) &&& rewinderCacheMask
  if (c.slots j).hit t.wantSeq then .send t j else t.scan w (i + 1)

def Turn.next (t : Turn) (nextSeq : ℕ) : Turn where
  i := t.i + 1
  wantSeq := nextSeq
  wantCnt :=
    let covered := nextSeq - t.wantSeq
    if t.wantCnt ≤ covered then 0 else t.wantCnt - covered

/-- The end of the replay loop's body. -/
def Turn.reload (t : Turn) (slot : CachedPacket) : Reader :=
  let nextSeq := (slot.startSeq + slot.msgCount) % 2 ^ 64
  if nextSeq ≤ t.wantSeq then .idle else (t.next nextSeq).enter

def receive (datagram : List UInt8) : Reader :=
  let req := datagram.take headerSize
  if req.length ≠ headerSize then .idle
  else Turn.enter ⟨0, sequenceNumber req, messageCount req⟩

/-- A datagram sent by the rewinder, and the sequence number it had looked up. -/
structure Reply where
  seq : ℕ
  bytes : List UInt8
  deriving DecidableEq, Repr

/-- `sendto` from a slot. -/
def Turn.reply (t : Turn) (slot : CachedPacket) : Reply := ⟨t.wantSeq, slot.bytes.take slot.len⟩

/-- The cache with its two threads. `cached` has the calls that have stored their `start_seq`,
and `replies` what was sent. -/
structure Threads where
  cache : Cache
  feed : Option Call
  rewinder : Reader
  cached : List Sent
  replies : List Reply

/-- The feed thread calls `rewinder_cache_packet` or makes its next store; the rewinder receives a
datagram or makes its next read. -/
inductive Action
  | call (p : Sent)
  | store
  | receive (datagram : List UInt8)
  | read
  deriving DecidableEq

namespace Threads

def start : Threads := ⟨rewinderInit, none, .idle, [], []⟩

def call (s : Threads) (p : Sent) : Threads :=
  if rewinderMaxPacket < p.packet.length ∨ p.msgCount = 0 then s
  else { s with feed := some ⟨p, s.cache.writeCursor, .zero⟩ }

def store (s : Threads) (call : Call) : Threads :=
  { s with
    cache := s.cache.store call
    feed := call.next.after.map fun n => { call with next := n }
    cached := if call.next = .startSeq then s.cached ++ [call.sent] else s.cached }

def read (s : Threads) : Option Threads :=
  match s.rewinder with
  | .idle => none
  | .load t => some { s with rewinder := t.scan s.cache.writeCursor 1 }
  | .probe t w i => some { s with rewinder := t.probe s.cache w i }
  | .send t j =>
    some { s with rewinder := .reload t j, replies := s.replies ++ [t.reply (s.cache.slots j)] }
  | .reload t j => some { s with rewinder := t.reload (s.cache.slots j) }

def step (s : Threads) : Action → Option Threads
  | .call p => if s.feed = none then some (s.call p) else none
  | .store => s.feed.map s.store
  | .receive d =>
    if s.rewinder = .idle then some { s with rewinder := Rewinder.receive d } else none
  | .read => s.read

def Step (s : Threads) (a : Action) (t : Threads) : Prop := s.step a = some t

inductive Moves (s : Threads) : Action → Threads → Prop
  | refuse {p : Sent} : Moves s (.call p) s
  | call {p : Sent} (h : s.feed = none) :
      Moves s (.call p) { s with feed := some ⟨p, s.cache.writeCursor, .zero⟩ }
  | store {c : Call} (h : s.feed = some c) : Moves s .store (s.store c)
  | receive {d : List UInt8} : Moves s (.receive d) { s with rewinder := Rewinder.receive d }
  | load {t : Turn} (h : s.rewinder = .load t) :
      Moves s .read { s with rewinder := t.scan s.cache.writeCursor 1 }
  | probe {t : Turn} {w i : ℕ} (h : s.rewinder = .probe t w i) :
      Moves s .read { s with rewinder := t.probe s.cache w i }
  | send {t : Turn} {j : ℕ} (h : s.rewinder = .send t j) :
      Moves s .read { s with
        rewinder := .reload t j
        replies := s.replies ++ [t.reply (s.cache.slots j)] }
  | reload {t : Turn} {j : ℕ} (h : s.rewinder = .reload t j) :
      Moves s .read { s with rewinder := t.reload (s.cache.slots j) }

theorem Step.moves {s t : Threads} {a : Action} (h : Step s a t) : Moves s a t := by
  unfold Step step at h
  cases a with
  | call p =>
    dsimp only [Threads.call] at h
    split at h
    · next hfeed =>
      split at h
      · exact Option.some.inj h ▸ .refuse
      · exact Option.some.inj h ▸ .call hfeed
    · cases h
  | store =>
    obtain ⟨c, hc, rfl⟩ := Option.map_eq_some_iff.mp h
    exact .store hc
  | receive d =>
    dsimp only at h
    split at h
    · exact Option.some.inj h ▸ .receive
    · cases h
  | read =>
    dsimp only [read] at h
    split at h
    · cases h
    · next ht => exact Option.some.inj h ▸ .load ht
    · next ht => exact Option.some.inj h ▸ .probe ht
    · next ht => exact Option.some.inj h ▸ .send ht
    · next ht => exact Option.some.inj h ▸ .reload ht

end Threads

section Alone
variable {s : Threads}

theorem Threads.call_run (hfeed : s.feed = none) {p : Sent}
    (hlen : p.packet.length ≤ rewinderMaxPacket) (hcnt : p.msgCount ≠ 0) :
    Runs Step s (.call p :: List.replicate 5 .store)
      { s with cache := s.cache.cachePacket p, cached := s.cached ++ [p] } := by
  have hguard : ¬(rewinderMaxPacket < p.packet.length ∨ p.msgCount = 0) :=
    not_or.mpr ⟨Nat.not_lt_of_le hlen, hcnt⟩
  obtain ⟨c, feed, rewinder, cached, replies⟩ := s
  cases hfeed
  refine Runs.of_foldlM ?_
  simp [List.foldlM, List.replicate, Threads.step, Threads.call, Threads.store, Cache.store,
    Store.after, Call.slot, CachedPacket.store, Cache.cachePacket, CachedPacket.overwrite, hguard]

theorem Threads.find_run (hs : s.rewinder = .idle) {d : List UInt8} {t : Turn} {w i j : ℕ}
    (hd : Rewinder.receive d = .load t) (hscan : t.scan s.cache.writeCursor 1 = .probe t w i)
    (hprobe : t.probe s.cache w i = .send t j) :
    Runs Step s [.receive d, .read, .read] { s with rewinder := .send t j } := by
  refine Runs.of_foldlM ?_
  simp [List.foldlM, Threads.step, Threads.read, hs, hd, hscan, hprobe]

theorem Threads.send_step {t : Turn} {j : ℕ} (h : s.rewinder = .send t j) :
    Step s .read { s with
      rewinder := .reload t j
      replies := s.replies ++ [t.reply (s.cache.slots j)] } := by
  rw [Step, step, read, h]

theorem Threads.read_run {t u : Threads} {k : ℕ} (h : s.read = some t)
    (hr : Runs Step t (List.replicate k .read) u) :
    Runs Step s (List.replicate (k + 1) .read) u := by
  have hstep : Runs Step s [.read] t := Runs.single h
  exact hstep.trans hr

/-- Where `find_packet` leaves the rewinder. -/
def Turn.Lands (t : Turn) (c : Cache) : Option CachedPacket → Reader → Prop
  | none, pos => pos = .idle
  | some slot, pos => ∃ j, pos = .send t j ∧ c.slots j = slot

theorem Threads.scan_run {t : Turn} {w : ℕ} (m : ℕ) {i : ℕ} (hm : i + m = min w rewinderCacheSlots)
    (hs : s.rewinder = t.scan w (i + 1)) :
    ∃ k pos, Runs Step s (List.replicate k .read) { s with rewinder := pos } ∧
      t.Lands s.cache (((List.range' i m).map fun d =>
        s.cache.slots ((w - (d + 1)) &&& rewinderCacheMask)).find? (·.hit t.wantSeq)) pos := by
  induction m generalizing s i with
  | zero =>
    have hidle : s.rewinder = .idle := by rw [hs, Turn.scan, if_neg (by omega)]
    refine ⟨0, .idle, ?_, rfl⟩
    rw [← hidle]
    exact .nil
  | succ m ih =>
    have hprobe : s.rewinder = .probe t w (i + 1) := by rw [hs, Turn.scan, if_pos (by omega)]
    have hread : s.read = some { s with rewinder := t.probe s.cache w (i + 1) } := by
      rw [Threads.read, hprobe]
    rw [List.range'_succ, List.map_cons]
    cases hhit : (s.cache.slots ((w - (i + 1)) &&& rewinderCacheMask)).hit t.wantSeq with
    | true =>
      have hsend : t.probe s.cache w (i + 1) = .send t ((w - (i + 1)) &&& rewinderCacheMask) :=
        if_pos hhit
      simp only [List.find?_cons, hhit]
      exact ⟨1, t.probe s.cache w (i + 1), Threads.read_run hread .nil, _, hsend, rfl⟩
    | false =>
      have hmiss : t.probe s.cache w (i + 1) = t.scan w (i + 1 + 1) :=
        if_neg (Bool.not_eq_true _ ▸ hhit)
      obtain ⟨k, pos, hr, hpos⟩ := ih (s := { s with rewinder := t.probe s.cache w (i + 1) })
        (by omega) hmiss
      simp only [List.find?_cons, hhit]
      exact ⟨k + 1, pos, Threads.read_run hread hr, hpos⟩

theorem Threads.lookup_run {t : Turn} (hs : s.rewinder = .load t) :
    ∃ k pos, Runs Step s (List.replicate k .read) { s with rewinder := pos } ∧
      t.Lands s.cache (s.cache.findPacket t.wantSeq) pos := by
  have hread : s.read = some { s with rewinder := t.scan s.cache.writeCursor 1 } := by
    rw [Threads.read, hs]
  obtain ⟨k, pos, hr, hpos⟩ := Threads.scan_run
    (s := { s with rewinder := t.scan s.cache.writeCursor 1 }) (t := t) _ (Nat.zero_add _) rfl
  rw [Cache.findPacket, Cache.scanned, List.range_eq_range']
  exact ⟨k + 1, pos, Threads.read_run hread hr, hpos⟩

theorem reads_append {t u : Threads} {k l : ℕ}
    (h : Runs Threads.Step s (List.replicate k .read) t)
    (h' : Runs Threads.Step t (List.replicate l .read) u) :
    Runs Threads.Step s (List.replicate (k + l) .read) u := by
  rw [List.replicate_add]
  exact h.trans h'

theorem Threads.replay_run (n : ℕ) {t : Turn} (hn : t.i + n = rewinderMaxReplay)
    (hs : s.rewinder = t.enter) :
    ∃ k rs, Runs Step s (List.replicate k .read)
        { s with rewinder := .idle, replies := s.replies ++ rs } ∧
      rs.map Reply.bytes =
        (s.cache.replay n t.wantSeq t.wantCnt).map fun p => p.bytes.take p.len := by
  induction n generalizing s t with
  | zero =>
    have hidle : s.rewinder = .idle := by rw [hs, Turn.enter, if_neg (by omega)]
    refine ⟨0, [], ?_, rfl⟩
    rw [← hidle, List.append_nil]
    exact .nil
  | succ n ih =>
    rcases Nat.eq_zero_or_pos t.wantCnt with hcnt | hcnt
    · have hidle : s.rewinder = .idle := by rw [hs, Turn.enter, if_neg (by omega)]
      refine ⟨0, [], ?_, by rw [hcnt, replay_zero]; rfl⟩
      rw [← hidle, List.append_nil]
      exact .nil
    have hload : s.rewinder = .load t := by rw [hs, Turn.enter, if_pos ⟨by omega, hcnt⟩]
    obtain ⟨k, pos, hlookup, hpos⟩ := Threads.lookup_run hload
    rw [Cache.replay, if_neg (Nat.ne_of_gt hcnt)]
    cases hfind : s.cache.findPacket t.wantSeq with
    | none =>
      rw [hfind] at hpos
      subst hpos
      exact ⟨k, [], by rwa [List.append_nil], rfl⟩
    | some slot =>
      rw [hfind] at hpos
      obtain ⟨j, rfl, rfl⟩ := hpos
      -- the packet goes out, and its range is read again
      have hsent : Runs Step { s with rewinder := .send t j } (List.replicate 2 .read)
          { s with
            rewinder := t.reload (s.cache.slots j)
            replies := s.replies ++ [t.reply (s.cache.slots j)] } :=
        Threads.read_run rfl (Threads.read_run rfl .nil)
      have hfirst := reads_append hlookup hsent
      unfold Turn.reload at hfirst
      dsimp only at hfirst ⊢
      generalize ((s.cache.slots j).startSeq + (s.cache.slots j).msgCount) % 2 ^ 64 = nextSeq
        at hfirst ⊢
      split at hfirst
      · next hstop =>
        rw [if_pos hstop]
        exact ⟨k + 2, _, hfirst, rfl⟩
      · next hstop =>
        have hturn : (t.next nextSeq).i + n = rewinderMaxReplay := by
          rw [← hn, Nat.add_comm n 1, ← Nat.add_assoc]
          rfl
        obtain ⟨l, rs, hrest, hrs⟩ := ih hturn (s := { s with
          rewinder := (t.next nextSeq).enter
          replies := s.replies ++ [t.reply (s.cache.slots j)] }) rfl
        have hall := reads_append hfirst hrest
        rw [List.append_assoc] at hall
        rw [if_neg hstop]
        exact ⟨_, _, hall, by rw [List.map_append, hrs]; rfl⟩

/-- A request that no store interrupts is answered as in the sequential model. -/
theorem Threads.serve_run (hs : s.rewinder = .idle) (d : List UInt8) :
    ∃ k rs, Runs Step s (.receive d :: List.replicate k .read)
        { s with replies := s.replies ++ rs } ∧
      rs.map Reply.bytes = s.cache.handleRequest d := by
  have hstep : Runs Step s [.receive d] { s with rewinder := Rewinder.receive d } :=
    Runs.single (if_pos hs)
  unfold Cache.handleRequest
  unfold Rewinder.receive at hstep
  dsimp only at hstep ⊢
  split
  · next hlen =>
    rw [if_pos hlen, ← hs] at hstep
    exact ⟨0, [], by rwa [List.append_nil], rfl⟩
  · next hlen =>
    rw [if_neg hlen] at hstep
    let t : Turn := ⟨0, sequenceNumber (d.take headerSize), messageCount (d.take headerSize)⟩
    obtain ⟨k, rs, hr, hrs⟩ := Threads.replay_run rewinderMaxReplay (t := t) (Nat.zero_add _)
      (s := { s with rewinder := t.enter }) rfl
    rw [← hs] at hr
    exact ⟨k, rs, hstep.trans hr, hrs⟩

end Alone

end TradingPipeline.Rewinder
