import TradingPipeline.Order.Acks
import Mathlib.Algebra.Order.BigOperators.Group.List
import Mathlib.Data.List.TakeWhile

/-! # When acknowledgements are decoded as they were sent

The records have no delimiters. A record that was written in part shifts everything behind it,
and so does a part of a record that is left over from an earlier connection.
-/
namespace TradingPipeline.OrderSession
open Lib

section ShortWrites

/-- The bytes of an acknowledgement that `send` took: any number up to all of them. -/
abbrev AckPart := Fin (wireAckSize + 1)

/-- What the client receives when of each acknowledgement only the first bytes are taken. -/
def shortWrites (ws : List (Ack × AckPart)) : List UInt8 :=
  ws.flatMap fun w => w.1.wire.bytes.take w.2

def fullAcks (ws : List (Ack × AckPart)) : List Ack :=
  (ws.filter fun w => (w.2 : ℕ) = wireAckSize).map Prod.fst

/-- Nothing was written, or all of it. -/
def AckPart.Whole (n : AckPart) : Bool := (n : ℕ) = 0 ∨ (n : ℕ) = wireAckSize

/-- From the first acknowledgement on that was cut short, less than one record was written. -/
def Aligned (lens : List AckPart) : Prop :=
  ((lens.dropWhile AckPart.Whole).map Fin.val).sum < wireAckSize

variable {ws ws' : List (Ack × AckPart)}

theorem shortWrites_append : shortWrites (ws ++ ws') = shortWrites ws ++ shortWrites ws' :=
  List.flatMap_append

theorem shortWrites_cons (w : Ack × AckPart) (ws : List (Ack × AckPart)) :
    shortWrites (w :: ws) = w.1.wire.bytes.take w.2 ++ shortWrites ws := List.flatMap_cons

theorem fullAcks_append : fullAcks (ws ++ ws') = fullAcks ws ++ fullAcks ws' := by
  simp [fullAcks]

theorem shortWrites_length (ws : List (Ack × AckPart)) :
    (shortWrites ws).length = ((ws.map Prod.snd).map Fin.val).sum := by
  have hpart (w : Ack × AckPart) : (w.1.wire.bytes.take w.2).length = (w.2 : ℕ) := by
    rw [List.length_take, WireAck.bytes_length, Nat.min_eq_left (Nat.le_of_lt_succ w.2.isLt)]
  simp only [shortWrites, List.length_flatMap, hpart, List.map_map, Function.comp_def]

theorem shortWrites_whole (h : ∀ w ∈ ws, w.2.Whole) :
    shortWrites ws = ((fullAcks ws).map (·.wire.bytes)).flatten := by
  induction ws with
  | nil => rfl
  | cons w ws ih =>
    have hrest := ih fun v hv => h v (List.mem_cons_of_mem w hv)
    have hw := h w List.mem_cons_self
    simp only [AckPart.Whole, decide_eq_true_eq] at hw
    rw [shortWrites_cons, hrest]
    rcases hw with hw | hw
    · have hnot : ¬(w.2 : ℕ) = wireAckSize := by
        rw [hw]
        decide
      have hfull : fullAcks (w :: ws) = fullAcks ws := by
        rw [fullAcks, List.filter_cons_of_neg (by simpa using hnot), fullAcks]
      rw [hfull, hw, List.take_zero, List.nil_append]
    · simp [fullAcks, hw, WireAck.bytes_take]

theorem fullAcks_of_short (h : ((ws.map Prod.snd).map Fin.val).sum < wireAckSize) :
    fullAcks ws = [] := by
  rw [fullAcks, List.map_eq_nil_iff, List.filter_eq_nil_iff]
  intro w hw hfull
  have hmem : (w.2 : ℕ) ∈ (ws.map Prod.snd).map Fin.val :=
    List.mem_map_of_mem (List.mem_map_of_mem hw)
  have hle := List.le_sum_of_mem hmem
  rw [decide_eq_true_iff] at hfull
  omega

theorem Aligned.stream (h : Aligned (ws.map Prod.snd)) :
    ∃ part, part.length < wireAckSize ∧
      shortWrites ws = ((fullAcks ws).map (·.wire.bytes)).flatten ++ part := by
  let p : Ack × AckPart → Bool := fun w => w.2.Whole
  have hsplit := List.takeWhile_append_dropWhile (p := p) (l := ws)
  have hshort : (((ws.dropWhile p).map Prod.snd).map Fin.val).sum < wireAckSize := by
    have hdrop : (ws.map Prod.snd).dropWhile AckPart.Whole = (ws.dropWhile p).map Prod.snd :=
      List.dropWhile_map ..
    rw [← hdrop]
    exact h
  refine ⟨shortWrites (ws.dropWhile p), ?_, ?_⟩
  · rwa [shortWrites_length]
  · have hwhole : ∀ w ∈ ws.takeWhile p, w.2.Whole :=
      fun w hw => List.mem_takeWhile_imp (p := p) hw
    have hfull : fullAcks ws = fullAcks (ws.takeWhile p) := by
      rw [← hsplit, fullAcks_append, fullAcks_of_short hshort, List.append_nil, hsplit]
    rw [hfull, ← shortWrites_whole hwhole, ← shortWrites_append, hsplit]

theorem shortWrites_head (h : shortWrites ws ≠ []) : (shortWrites ws).head? = some wireMsgAck := by
  induction ws with
  | nil => exact absurd rfl h
  | cons w ws ih =>
    rw [shortWrites_cons] at h ⊢
    cases hn : (w.2 : ℕ) with
    | zero =>
      rw [hn, List.take_zero, List.nil_append] at h
      exact ih h
    | succ n => rfl

/-- The acknowledgements of the streams that go wrong. -/
def quietAck : Ack := ⟨0, .ok, 0⟩
def cutAck : Ack := ⟨0, .badCsum, 0⟩

/-- A record that starts in an acknowledgement that was cut short is taken for one, and not for
one that reports success. -/
theorem cutRecord_spec {n : ℕ} {rest : List UInt8} (h0 : 0 < n)
    (hrest : rest.head? = some wireMsgAck) :
    (WireAck.ofBytes (cutAck.wire.bytes.take n ++ rest)).msgType = wireMsgAck ∧
      (WireAck.ofBytes (cutAck.wire.bytes.take n ++ rest)).flag ≠ AckFlag.ok.code := by
  obtain ⟨r, rfl⟩ : ∃ r, rest = wireMsgAck :: r := by
    cases rest with
    | nil => cases hrest
    | cons b r => exact ⟨r, by rw [Option.some.inj hrest]⟩
  have hbytes : cutAck.wire.bytes = 65 :: 1 :: List.replicate 22 0 := by decide
  rw [hbytes]
  match n, h0 with
  | 1, _ => exact ⟨rfl, (by decide : (65 : UInt8) ≠ 0)⟩
  | n + 2, _ => exact ⟨rfl, (by decide : (1 : UInt8) ≠ 0)⟩

theorem Drain.Has.decoded {bs : List UInt8} {d : Drain}
    (h : Drain.Has Drain.start.counts bs d) :
    d.counts.decoded = (((division wireAckSize bs).map WireAck.ofBytes).filter
      (·.msgType = wireMsgAck)).map fun a => (a.flag, a.seq) := by
  rw [AckCounts.decoded, h.records]
  rfl

theorem Aligned.decoded (h : Aligned (ws.map Prod.snd)) {d : Drain}
    (hd : Drain.Has Drain.start.counts (shortWrites ws) d) :
    d.counts.decoded = (fullAcks ws).map fun a => (a.flag.code, a.seq) := by
  obtain ⟨part, hlt, hstream⟩ := h.stream
  have hframes : ∀ y ∈ (fullAcks ws).map (·.wire.bytes), y.length = wireAckSize := by simp
  have hwire : WireAck.ofBytes ∘ (fun a : Ack => a.wire.bytes) = Ack.wire := by
    funext a
    exact a.wire.ofBytes_bytes
  have hall : ∀ r ∈ (fullAcks ws).map Ack.wire, decide (r.msgType = wireMsgAck) = true := by
    intro r hr
    obtain ⟨a, _, rfl⟩ := List.mem_map.mp hr
    rfl
  rw [hd.decoded, hstream, division_flatten_append (by decide) hframes, division_of_lt hlt,
    List.append_nil, List.map_map, hwire, List.filter_eq_self.mpr hall, List.map_map]
  rfl

/-- The stream in which the acknowledgement that is cut short differs from all others. -/
def cutWrites (pre : List AckPart) (n : AckPart) (post : List AckPart) : List (Ack × AckPart) :=
  pre.map (quietAck, ·) ++ (cutAck, n) :: post.map (quietAck, ·)

theorem cutWrites_lens (pre : List AckPart) (n : AckPart) (post : List AckPart) :
    (cutWrites pre n post).map Prod.snd = pre ++ n :: post := by
  simp [cutWrites, Function.comp_def]

theorem cutWrites_full {pre post : List AckPart} {n : AckPart} (hn : (n : ℕ) ≠ wireAckSize) :
    ∀ a ∈ fullAcks (cutWrites pre n post), a = quietAck := by
  intro a ha
  obtain ⟨w, hw, rfl⟩ := List.mem_map.mp ha
  obtain ⟨hw, hfull⟩ := List.mem_filter.mp hw
  rw [decide_eq_true_iff] at hfull
  rcases List.mem_append.mp hw with hw | hw
  · obtain ⟨m, _, rfl⟩ := List.mem_map.mp hw
    rfl
  · rcases List.mem_cons.mp hw with rfl | hw
    · exact absurd hfull hn
    · obtain ⟨m, _, rfl⟩ := List.mem_map.mp hw
      rfl

/-- Once enough was written behind it, the acknowledgement that was cut short is decoded
together with bytes of the next ones. -/
theorem cutWrites_decoded {pre post : List AckPart} {n : AckPart}
    (hpre : ∀ m ∈ pre, AckPart.Whole m) (h0 : 0 < (n : ℕ)) (hn : (n : ℕ) < wireAckSize)
    (hlong : wireAckSize ≤ n + (post.map Fin.val).sum) {d : Drain}
    (hd : Drain.Has Drain.start.counts (shortWrites (cutWrites pre n post)) d) :
    ∃ x ∈ d.counts.decoded, x.1 ≠ AckFlag.ok.code := by
  let front := pre.map (quietAck, ·)
  let rest := shortWrites (post.map (quietAck, ·))
  let cut := cutAck.wire.bytes.take n ++ rest.take (wireAckSize - n)
  have hfront : shortWrites front = ((fullAcks front).map (·.wire.bytes)).flatten := by
    refine shortWrites_whole fun w hw => ?_
    obtain ⟨m, hm, rfl⟩ := List.mem_map.mp hw
    exact hpre m hm
  have hlen : wireAckSize - n ≤ rest.length := by
    have hlens : (post.map ((quietAck, ·) : AckPart → Ack × AckPart)).map Prod.snd = post := by
      simp [Function.comp_def]
    rw [shortWrites_length, hlens]
    omega
  have hcut : cut.length = wireAckSize := by
    rw [List.length_append, List.length_take, List.length_take, WireAck.bytes_length,
      Nat.min_eq_left hn.le, Nat.min_eq_left hlen]
    omega
  have hstream : shortWrites (cutWrites pre n post) =
      ((fullAcks front).map (·.wire.bytes)).flatten ++ (cut ++ rest.drop (wireAckSize - n)) := by
    rw [cutWrites, shortWrites_append, ← hfront, List.append_assoc, List.take_append_drop]
    rfl
  have hhead : (rest.take (wireAckSize - n)).head? = some wireMsgAck := by
    have hne : rest ≠ [] := by
      intro he
      rw [he, List.length_nil] at hlen
      omega
    rw [List.head?_take, if_neg (by omega)]
    exact shortWrites_head hne
  obtain ⟨htype, hflag⟩ := cutRecord_spec h0 hhead
  have hframes : ∀ y ∈ (fullAcks front).map (·.wire.bytes), y.length = wireAckSize := by simp
  have hmem : cut ∈ division wireAckSize (shortWrites (cutWrites pre n post)) := by
    rw [hstream, division_flatten_append (by decide) hframes, division_append (by decide) hcut]
    exact List.mem_append_right _ List.mem_cons_self
  rw [hd.decoded]
  refine ⟨_, List.mem_map_of_mem (List.mem_filter.mpr ⟨List.mem_map_of_mem hmem, ?_⟩), hflag⟩
  rw [decide_eq_true_iff]
  exact htype

/-- Acknowledgements survive short writes exactly when the lengths are aligned: then, whatever
the acknowledgements and however the stream is cut, each one that was written in full is decoded
once with its flag and its sequence number, in order, and nothing else is. -/
theorem acks_decoded_iff_aligned (lens : List AckPart) :
    (∀ ws : List (Ack × AckPart), ws.map Prod.snd = lens →
      ∀ chunks d, chunks.flatten = shortWrites ws → Runs Drain.Received Drain.start chunks d →
        d.counts.decoded = (fullAcks ws).map fun a => (a.flag.code, a.seq)) ↔
    Aligned lens := by
  constructor
  · intro h
    by_contra hnot
    rw [Aligned] at hnot
    cases hdrop : lens.dropWhile AckPart.Whole with
    | nil =>
      rw [hdrop] at hnot
      exact hnot (by decide)
    | cons n post =>
      rw [hdrop, List.map_cons, List.sum_cons, Nat.not_lt] at hnot
      have hcut : ¬AckPart.Whole n = true := by
        have hhead := List.head?_dropWhile_not AckPart.Whole lens
        rw [hdrop] at hhead
        simpa using hhead
      simp only [AckPart.Whole, decide_eq_true_eq, not_or] at hcut
      have hlens : (cutWrites (lens.takeWhile AckPart.Whole) n post).map Prod.snd = lens := by
        rw [cutWrites_lens, ← hdrop, List.takeWhile_append_dropWhile]
      obtain ⟨chunks, d, hflat, hr⟩ := Drain.has_start.receives
        (shortWrites (cutWrites (lens.takeWhile AckPart.Whole) n post))
      have hd := Drain.has_start.runs hr
      rw [List.nil_append, hflat] at hd
      have hlt : (n : ℕ) < wireAckSize :=
        Nat.lt_of_le_of_ne (Nat.le_of_lt_succ n.isLt) hcut.2
      obtain ⟨x, hx, hflag⟩ := cutWrites_decoded (fun m hm => List.mem_takeWhile_imp hm)
        (Nat.pos_of_ne_zero hcut.1) hlt hnot hd
      rw [h _ hlens chunks d hflat hr] at hx
      obtain ⟨a, ha, rfl⟩ := List.mem_map.mp hx
      rw [cutWrites_full hcut.2 a ha] at hflag
      exact hflag rfl
  · intro h ws hlens chunks d hflat hr
    have hd := Drain.has_start.runs hr
    rw [List.nil_append, hflat] at hd
    exact Aligned.decoded (hlens ▸ h) hd

/-- Ten bytes of the first acknowledgement are taken and the second is written in full: the
client sees one record, with a flag and a sequence number that nobody sent. -/
theorem shortAck_garbled : ∃ d,
    Runs Drain.Received Drain.start [shortWrites [(⟨1, .ok, 7⟩, 10), (⟨2, .ok, 9⟩, 24)]] d ∧
      fullAcks [(⟨1, .ok, 7⟩, 10), (⟨2, .ok, 9⟩, 24)] = [⟨2, .ok, 9⟩] ∧
      d.counts.decoded = [(0, 0x410001)] := by
  refine ⟨_, Runs.single ⟨?_, ?_, rfl⟩, ?_, ?_⟩ <;> decide +kernel

end ShortWrites

section Sockets

/-- What the calls of `send_ack` on one connection get from the system, by their number: the
time, and how many bytes `send` takes. -/
structure AckSocket where
  clock : ℕ → UInt64
  taken : ℕ → AckPart

def AckSocket.whole (clock : ℕ → UInt64) : AckSocket := ⟨clock, fun _ => Fin.last wireAckSize⟩

def AckSocket.writes (k : AckSocket) (acks : List (UInt64 × AckFlag)) : List (Ack × AckPart) :=
  acks.zipIdx.map fun a => (⟨a.1.1, a.1.2, k.clock a.2⟩, k.taken a.2)

/-- The bytes that the server has sent back for its acknowledgements so far. -/
def AckSocket.stream (k : AckSocket) (acks : List (UInt64 × AckFlag)) : List UInt8 :=
  shortWrites (k.writes acks)

variable {k : AckSocket} {acks acks' : List (UInt64 × AckFlag)}

theorem AckSocket.stream_prefix (h : acks <+: acks') : k.stream acks <+: k.stream acks' := by
  obtain ⟨more, rfl⟩ := h
  rw [stream, stream, writes, writes, List.zipIdx_append, List.map_append, shortWrites_append]
  exact List.prefix_append _ _

theorem AckSocket.stream_whole (clock : ℕ → UInt64) (acks : List (UInt64 × AckFlag)) :
    (AckSocket.whole clock).stream acks =
      (acks.zipIdx.map fun a => (Ack.wire ⟨a.1.1, a.1.2, clock a.2⟩).bytes).flatten := by
  simp only [stream, writes, whole, shortWrites, List.flatMap_map, Fin.val_last, WireAck.bytes_take]
  rfl

end Sockets

section Reconnects

/-- What happens to the variables of `drain_acks` over the life of the thread. -/
inductive AckEvent
  | recv (chunk : List UInt8)
  | reconnect

def AckStep (d : Drain) : AckEvent → Drain → Prop
  | .recv chunk, d' => d.Received chunk d'
  | .reconnect, d' => d' = d.reconnect

variable {d : Drain}

theorem Drain.has_carry (h : d.carry.length < wireAckSize) : Drain.Has d.counts d.carry d :=
  ⟨[], rfl, by simp, h, rfl⟩

theorem AckStep.carry_lt {d' : Drain} {e : AckEvent} (h : AckStep d e d')
    (hd : d.carry.length < wireAckSize) : d'.carry.length < wireAckSize := by
  cases e with
  | recv chunk =>
    obtain ⟨-, -, rfl⟩ := h
    exact ((Drain.has_carry hd).drainAcks chunk).carry_lt
  | reconnect =>
    obtain rfl : d' = d.reconnect := h
    exact hd

theorem ackRuns_carry_lt {es : List AckEvent} (hr : Runs AckStep Drain.start es d) :
    d.carry.length < wireAckSize :=
  hr.invariant (by decide) fun _ _ _ hd h => h.carry_lt hd

theorem records_after_reconnect (hd : d.carry.length < wireAckSize)
    {chunks : List (List UInt8)} {d' : Drain} (hr : Runs Drain.Received d.reconnect chunks d') :
    d'.counts.records = d.counts.records ++
      (division wireAckSize (d.carry ++ chunks.flatten)).map WireAck.ofBytes :=
  ((Drain.has_carry (d := d.reconnect) hd).runs hr).records

/-- After a reconnect in any run, the records read from the new connection are the consecutive
records of its own bytes, however these come in, exactly when no part of a record was left over
from the connections before. -/
theorem acks_restart_iff {es : List AckEvent} (hr : Runs AckStep Drain.start es d) :
    (∀ chunks d', Runs Drain.Received d.reconnect chunks d' →
      d'.counts.records = d.counts.records ++
        (division wireAckSize chunks.flatten).map WireAck.ofBytes) ↔ d.carry = [] := by
  have hlt := ackRuns_carry_lt hr
  constructor
  · intro h
    by_contra hne
    have hpos := List.length_pos_iff.mpr hne
    obtain ⟨chunks, d', hflat, hr'⟩ := (Drain.has_carry (d := d.reconnect) hlt).receives
      (List.replicate (wireAckSize - d.carry.length) 0)
    have hrecords := h chunks d' hr'
    rw [records_after_reconnect hlt hr', hflat] at hrecords
    have hone : (d.carry ++ List.replicate (wireAckSize - d.carry.length) (0 : UInt8)).length =
        wireAckSize := by
      rw [List.length_append, List.length_replicate]
      omega
    have hnone : (List.replicate (wireAckSize - d.carry.length) (0 : UInt8)).length <
        wireAckSize := by
      rw [List.length_replicate]
      omega
    have hcount := congrArg List.length (List.append_cancel_left hrecords)
    rw [division_of_lt hnone, division] at hcount
    simp only [List.length_map, List.length_range, List.length_nil, hone] at hcount
    exact absurd hcount (by decide)
  · intro hnil chunks d' hr'
    rw [records_after_reconnect hlt hr', hnil, List.nil_append]

/-- A connection that ends between two records, and one that ends inside the second. -/
def wholeConnection : List AckEvent :=
  [.recv (Ack.wire ⟨1, .ok, 7⟩).bytes, .recv (Ack.wire ⟨2, .ok, 9⟩).bytes]
def cutConnection : List AckEvent :=
  [.recv (Ack.wire ⟨1, .ok, 7⟩).bytes, .recv ((Ack.wire ⟨2, .ok, 9⟩).bytes.take 10)]

theorem acks_restart_iff_wholeConnection : ∃ d,
    Runs AckStep Drain.start wholeConnection d ∧ d.counts.records.length = 2 ∧
      ∀ chunks d', Runs Drain.Received d.reconnect chunks d' →
        d'.counts.records = d.counts.records ++
          (division wireAckSize chunks.flatten).map WireAck.ofBytes := by
  have hr : Runs AckStep Drain.start wholeConnection _ :=
    (Runs.single ⟨by decide, by decide, rfl⟩).snoc ⟨by decide, by decide +kernel, rfl⟩
  exact ⟨_, hr, by decide +kernel, (acks_restart_iff hr).mpr (by decide +kernel)⟩

/-- After the cut the first acknowledgement of the next connection is decoded with another
sequence number. -/
theorem cutConnection_garbles : ∃ d d',
    Runs AckStep Drain.start cutConnection d ∧
      Runs Drain.Received d.reconnect [(Ack.wire ⟨1, .ok, 11⟩).bytes] d' ∧
      d'.counts.records.drop d.counts.records.length = [⟨65, 0, 0, 0, 0x410002, 0x10000⟩] ∧
      (division wireAckSize (Ack.wire ⟨1, .ok, 11⟩).bytes).map WireAck.ofBytes =
        [Ack.wire ⟨1, .ok, 11⟩] := by
  have hr : Runs AckStep Drain.start cutConnection _ :=
    (Runs.single ⟨by decide, by decide, rfl⟩).snoc ⟨by decide, by decide +kernel, rfl⟩
  exact ⟨_, _, hr, Runs.single ⟨by decide, by decide +kernel, rfl⟩, by decide +kernel,
    by decide +kernel⟩

end Reconnects

end TradingPipeline.OrderSession
