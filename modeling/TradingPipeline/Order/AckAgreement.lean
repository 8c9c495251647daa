import TradingPipeline.Order.AckFraming

/-! # What the client believes to be acknowledged

`drain_acks` keeps the highest sequence number of any acknowledgement. The server answers a frame
with a bad checksum by the number that stands in the frame, which it has not accepted; all
other answers carry the number of an order that it has.
-/
namespace TradingPipeline.OrderSession
open Lib OrderRing

/-- The two ends of one connection: `handle_client`, how many bytes of its answers were received,
and `drain_acks`. -/
structure AckLink where
  client : Client
  got : ℕ
  drain : Drain

/-- A frame arrives at the server, or the client receives bytes of the answers. -/
inductive LinkAction
  | frame (bytes : List UInt8)
  | drain (n : ℕ)
  deriving DecidableEq

namespace AckLink

def start : AckLink := ⟨.start, 0, .start⟩

def step (k : AckSocket) (s : AckLink) : LinkAction → Option AckLink
  | .frame f =>
    if f.length = wireOrderSize then some { s with client := s.client.handleFrame f } else none
  | .drain n =>
    let stream := k.stream s.client.acks
    if 0 < n ∧ n ≤ ackBufBytes - s.drain.carry.length ∧ s.got + n ≤ stream.length then
      some { s with
        got := s.got + n
        drain := s.drain.drainAcks ((stream.drop s.got).take n) }
    else none

def Step (k : AckSocket) (s : AckLink) (a : LinkAction) (t : AckLink) : Prop :=
  s.step k a = some t

inductive Moves (k : AckSocket) (s : AckLink) : LinkAction → AckLink → Prop
  | frame {f : List UInt8} (hf : f.length = wireOrderSize) :
      Moves k s (.frame f) { s with client := s.client.handleFrame f }
  | drain {n : ℕ} (hn : s.got + n ≤ (k.stream s.client.acks).length) :
      Moves k s (.drain n) { s with
        got := s.got + n
        drain := s.drain.drainAcks (((k.stream s.client.acks).drop s.got).take n) }

theorem Step.moves {k : AckSocket} {s t : AckLink} {a : LinkAction} (h : Step k s a t) :
    Moves k s a t := by
  unfold Step step at h
  cases a with
  | frame f =>
    dsimp only at h
    split at h
    · next hf => exact Option.some.inj h ▸ .frame hf
    · cases h
  | drain n =>
    dsimp only at h
    split at h
    · next hn => exact Option.some.inj h ▸ .drain hn.2.2
    · cases h

end AckLink

def arrived (as : List LinkAction) : List (List UInt8) :=
  as.filterMap fun
    | .frame f => some f
    | .drain _ => none

section Server

/-- The highest sequence number among the accepted orders, and zero before the first. -/
def Client.highest (c : Client) : ℕ := (c.accepted.map (·.seq.toNat)).foldl max 0

/-- Every answer so far carries the number of an accepted order or less, and the answer to a
duplicate or to a gap would as well. -/
structure Client.Reports (c : Client) : Prop where
  acks : ∀ a ∈ c.acks, a.1.toNat ≤ c.highest
  expected : (c.expectedSeq - 1).toNat ≤ c.highest

variable {c : Client}

theorem Client.highest_accept (c : Client) (o : WireOrder) :
    (c.accept o).highest = max c.highest o.seq.toNat := by
  simp [Client.highest, Client.accept]

theorem Client.reports_accept (h : ∀ a ∈ c.acks, a.1.toNat ≤ c.highest) (o : WireOrder) :
    (c.accept o).Reports := by
  refine ⟨?_, ?_⟩
  · intro a ha
    rw [Client.highest_accept]
    rcases List.mem_append.mp ha with ha | ha
    · exact (h a ha).trans (Nat.le_max_left _ _)
    · rw [List.mem_singleton.mp ha]
      exact Nat.le_max_right _ _
  · have hseq : o.seq + 1 - 1 = o.seq := by simp
    rw [Client.highest_accept]
    exact (congrArg UInt64.toNat hseq).trans_le (Nat.le_max_right _ _)

theorem Client.Reports.sendAck (h : c.Reports) {seq : UInt64} (hseq : seq.toNat ≤ c.highest)
    (flag : AckFlag) : (c.sendAck seq flag).Reports := by
  refine ⟨?_, h.expected⟩
  intro a ha
  rcases List.mem_append.mp ha with ha | ha
  · exact h.acks a ha
  · rw [List.mem_singleton.mp ha]
    exact hseq

theorem Client.Reports.handleFrame (h : c.Reports) {f : List UInt8}
    (hbad : (WireOrder.ofBytes f).checksum ≠ (WireOrder.ofBytes f).wantCsum →
      (WireOrder.ofBytes f).seq.toNat ≤ c.highest) : (c.handleFrame f).Reports := by
  unfold Client.handleFrame
  dsimp only
  split
  · next hcsum =>
    have hc : ({ c with badCsum := c.badCsum + 1 } : Client).Reports := ⟨h.acks, h.expected⟩
    exact hc.sendAck (hbad hcsum) .badCsum
  · split
    · exact Client.reports_accept h.acks _
    · split
      · -- the answer to the gap goes out before the order that opened it is accepted
        have hc : ({ c with seqGaps := c.seqGaps + 1 } : Client).Reports := ⟨h.acks, h.expected⟩
        exact Client.reports_accept (hc.sendAck h.expected .seqGap).acks _
      · exact h.sendAck h.expected .ok

theorem Client.handleFrame_acks (c : Client) (f : List UInt8) :
    c.acks <+: (c.handleFrame f).acks := by
  unfold Client.handleFrame
  dsimp only
  split
  · exact List.prefix_append _ _
  · split
    · exact List.prefix_append _ _
    · split
      · exact (List.prefix_append _ _).trans (List.prefix_append _ _)
      · exact List.prefix_append _ _

/-- Every frame with a bad checksum carries a sequence number that was already covered by an
accepted order when the frame arrived. -/
def Harmless (fs : List (List UInt8)) : Prop :=
  ∀ k : Fin fs.length,
    (WireOrder.ofBytes fs[k]).checksum ≠ (WireOrder.ofBytes fs[k]).wantCsum →
      (WireOrder.ofBytes fs[k]).seq.toNat ≤ ((fs.take k).foldl Client.handleFrame .start).highest

instance : DecidablePred Harmless := fun _ => inferInstanceAs (Decidable (∀ _, _))

theorem Harmless.frame {pre post : List (List UInt8)} {f : List UInt8}
    (h : Harmless (pre ++ f :: post))
    (hbad : (WireOrder.ofBytes f).checksum ≠ (WireOrder.ofBytes f).wantCsum) :
    (WireOrder.ofBytes f).seq.toNat ≤ (pre.foldl Client.handleFrame .start).highest := by
  have hk := h ⟨pre.length, by simp⟩
  simp only [Fin.getElem_fin, List.getElem_append_right le_rfl, Nat.sub_self,
    List.getElem_cons_zero, List.take_left] at hk
  exact hk hbad

theorem Harmless.reports {fs pre : List (List UInt8)} (h : Harmless fs) (hpre : pre <+: fs) :
    (pre.foldl Client.handleFrame .start).Reports := by
  induction pre using List.reverseRecOn generalizing fs with
  | nil => exact ⟨fun a ha => (List.not_mem_nil ha).elim, by decide⟩
  | append_singleton pre f ih =>
    obtain ⟨post, rfl⟩ := hpre
    rw [List.append_assoc, List.singleton_append] at h
    rw [List.foldl_append]
    exact (ih h (List.prefix_append _ _)).handleFrame h.frame

end Server

section Client
variable {c : AckCounts} {frames : List (List UInt8)}

theorem AckCounts.handleRecord_ackedSeq (c : AckCounts) (f : List UInt8) :
    (c.handleRecord f).ackedSeq.toNat =
      if (WireAck.ofBytes f).msgType = wireMsgAck then
        max c.ackedSeq.toNat (WireAck.ofBytes f).seq.toNat
      else c.ackedSeq.toNat := by
  unfold AckCounts.handleRecord
  dsimp only
  split
  · dsimp only
    split
    · next hlt => exact (Nat.max_eq_right (UInt64.lt_iff_toNat_lt.mp hlt).le).symm
    · next hge => exact (Nat.max_eq_left
        (Nat.le_of_not_lt (mt UInt64.lt_iff_toNat_lt.mpr hge))).symm
  · rfl

theorem AckCounts.foldl_ackedSeq_le {b : ℕ} (hc : c.ackedSeq.toNat ≤ b)
    (h : ∀ f ∈ frames, (WireAck.ofBytes f).seq.toNat ≤ b) :
    (frames.foldl AckCounts.handleRecord c).ackedSeq.toNat ≤ b := by
  induction frames generalizing c with
  | nil => exact hc
  | cons f frames ih =>
    refine ih ?_ fun g hg => h g (List.mem_cons_of_mem f hg)
    rw [AckCounts.handleRecord_ackedSeq]
    split
    · exact Nat.max_le.mpr ⟨hc, h f List.mem_cons_self⟩
    · exact hc

theorem AckCounts.le_foldl_ackedSeq (c : AckCounts) (frames : List (List UInt8)) :
    c.ackedSeq.toNat ≤ (frames.foldl AckCounts.handleRecord c).ackedSeq.toNat := by
  induction frames generalizing c with
  | nil => exact le_rfl
  | cons f frames ih =>
    refine le_trans ?_ (ih (c.handleRecord f))
    rw [AckCounts.handleRecord_ackedSeq]
    split
    · exact Nat.le_max_left _ _
    · exact le_rfl

theorem AckCounts.seq_le_foldl_ackedSeq {f : List UInt8} (hf : f ∈ frames)
    (htype : (WireAck.ofBytes f).msgType = wireMsgAck) :
    (WireAck.ofBytes f).seq.toNat ≤ (frames.foldl AckCounts.handleRecord c).ackedSeq.toNat := by
  obtain ⟨pre, post, rfl⟩ := List.append_of_mem hf
  rw [List.foldl_append, List.foldl_cons]
  refine le_trans ?_ (AckCounts.le_foldl_ackedSeq _ post)
  rw [AckCounts.handleRecord_ackedSeq, if_pos htype]
  exact Nat.le_max_right _ _

variable {clock : ℕ → UInt64} {acks : List (UInt64 × AckFlag)}

theorem AckSocket.division_whole (clock : ℕ → UInt64) (acks : List (UInt64 × AckFlag)) :
    division wireAckSize ((AckSocket.whole clock).stream acks) =
      acks.zipIdx.map fun a => (Ack.wire ⟨a.1.1, a.1.2, clock a.2⟩).bytes := by
  rw [AckSocket.stream_whole, ← List.flatMap_def]
  exact division_flatMap (by decide) (fun _ => WireAck.bytes_length _) _

theorem Drain.Has.ackedSeq_le {b got : ℕ} {d : Drain}
    (h : Drain.Has Drain.start.counts (((AckSocket.whole clock).stream acks).take got) d)
    (hacks : ∀ a ∈ acks, a.1.toNat ≤ b) : d.counts.ackedSeq.toNat ≤ b := by
  rw [HasRead.eq_division (by decide) h]
  refine AckCounts.foldl_ackedSeq_le (Nat.zero_le b) fun f hf => ?_
  have hmem := (division_mono (List.take_prefix got _)).subset hf
  rw [AckSocket.division_whole] at hmem
  obtain ⟨a, ha, rfl⟩ := List.mem_map.mp hmem
  rw [WireAck.ofBytes_bytes]
  exact hacks a.1 (List.fst_mem_of_mem_zipIdx ha)

theorem Drain.Has.le_ackedSeq {d : Drain}
    (h : Drain.Has Drain.start.counts ((AckSocket.whole clock).stream acks) d)
    {a : UInt64 × AckFlag} (ha : a ∈ acks) : a.1.toNat ≤ d.counts.ackedSeq.toNat := by
  obtain ⟨i, hi, rfl⟩ := List.getElem_of_mem ha
  have hidx : (acks[i], i) ∈ acks.zipIdx := by
    rw [List.mem_zipIdx_iff_getElem?]
    exact List.getElem?_eq_getElem hi
  have hmem := List.mem_map_of_mem (f := fun a : (UInt64 × AckFlag) × ℕ =>
    (Ack.wire ⟨a.1.1, a.1.2, clock a.2⟩).bytes) hidx
  rw [HasRead.eq_division (by decide) h, AckSocket.division_whole]
  have hle := AckCounts.seq_le_foldl_ackedSeq (c := Drain.start.counts) hmem
    (by rw [WireAck.ofBytes_bytes]; rfl)
  rwa [WireAck.ofBytes_bytes] at hle

end Client

section Runs
variable {k : AckSocket} {clock : ℕ → UInt64} {s t : AckLink} {as : List LinkAction}

/-- The client has read the answers that it received. -/
structure AckLink.Ok (k : AckSocket) (s : AckLink) : Prop where
  got : s.got ≤ (k.stream s.client.acks).length
  has : Drain.Has Drain.start.counts ((k.stream s.client.acks).take s.got) s.drain

theorem AckLink.Moves.ok {a : LinkAction} (h : Moves k s a t) (hs : s.Ok k) : t.Ok k := by
  cases h with
  | @frame f _ =>
    obtain ⟨more, hmore⟩ := AckSocket.stream_prefix (k := k) (s.client.handleFrame_acks f)
    refine ⟨?_, ?_⟩
    · rw [← hmore, List.length_append]
      exact hs.got.trans (Nat.le_add_right _ _)
    · rw [← hmore, List.take_append_of_le_length hs.got]
      exact hs.has
  | drain hn =>
    refine ⟨hn, ?_⟩
    rw [List.take_add]
    exact hs.has.drainAcks _

theorem AckLink.runs_ok (hr : Runs (AckLink.Step k) .start as s) : s.Ok k :=
  hr.invariant ⟨Nat.zero_le _, Drain.has_start⟩ fun _ _ _ hs h => h.moves.ok hs

theorem arrived_append (as bs : List LinkAction) : arrived (as ++ bs) = arrived as ++ arrived bs :=
  List.filterMap_append

theorem AckLink.runs_client (hr : Runs (AckLink.Step k) .start as s) :
    s.client = (arrived as).foldl Client.handleFrame .start := by
  induction hr with
  | nil => rfl
  | snoc _ hstep ih =>
    rw [arrived_append, List.foldl_append, ← ih]
    cases hstep.moves <;> rfl

theorem AckLink.frames_run {fs : List (List UInt8)} (hfs : ∀ f ∈ fs, f.length = wireOrderSize) :
    Runs (AckLink.Step k) s (fs.map .frame)
      { s with client := fs.foldl Client.handleFrame s.client } := by
  induction fs using List.reverseRecOn with
  | nil => exact .nil
  | append_singleton fs f ih =>
    have hprev := ih fun g hg => hfs g (List.mem_append_left _ hg)
    have hf : f.length = wireOrderSize := hfs f (by simp)
    rw [List.map_append, List.foldl_append]
    refine hprev.snoc ?_
    simp only [AckLink.Step, AckLink.step, if_pos hf]
    rfl

theorem AckLink.drain_run (hs : s.Ok k) :
    ∃ bs t, Runs (AckLink.Step k) s bs t ∧ arrived bs = [] ∧ t.client = s.client ∧
      t.got = (k.stream s.client.acks).length ∧ t.Ok k := by
  obtain ⟨n, hn⟩ := Nat.exists_eq_add_of_le hs.got
  induction n generalizing s with
  | zero => exact ⟨[], s, .nil, rfl, rfl, hn.symm, hs⟩
  | succ n ih =>
    have hroom : 1 ≤ ackBufBytes - s.drain.carry.length := by
      have hlt := hs.has.carry_lt
      simp only [wireAckSize, ackBufBytes] at hlt ⊢
      omega
    have hstep : AckLink.Step k s (.drain 1) { s with
        got := s.got + 1
        drain := s.drain.drainAcks (((k.stream s.client.acks).drop s.got).take 1) } := by
      rw [AckLink.Step, AckLink.step]
      exact if_pos ⟨Nat.one_pos, hroom, by omega⟩
    obtain ⟨bs, t, hr, harr, hclient, hgot, hok⟩ := ih (hstep.moves.ok hs) (by
      change _ = s.got + 1 + n
      rw [hn]
      omega)
    exact ⟨.drain 1 :: bs, t, (Runs.single hstep).trans hr, harr, hclient, hgot, hok⟩

/-- With whole acknowledgements, in every interleaving of the arrival of the frames `fs` with the
delivery of the answers `acked_seq` stays within the accepted orders, exactly when every frame
with a bad checksum carries a number that was within them when it arrived. -/
theorem acked_within_accepted_iff (clock : ℕ → UInt64) {fs : List (List UInt8)}
    (hfs : ∀ f ∈ fs, f.length = wireOrderSize) :
    (∀ as s, Runs (AckLink.Step (.whole clock)) .start as s → arrived as <+: fs →
      s.drain.counts.ackedSeq.toNat ≤ s.client.highest) ↔ Harmless fs := by
  constructor
  · intro h i hbad
    let pre := fs.take i
    let f := fs[i]
    have hsucc : pre ++ [f] = fs.take (i + 1) := List.take_append_getElem i.isLt
    have hpre : pre ++ [f] <+: fs := hsucc ▸ List.take_prefix _ _
    have hframes := AckLink.frames_run (k := .whole clock) (s := .start) fun g hg =>
      hfs g (hpre.subset hg)
    obtain ⟨bs, t, hr, harr, hclient, hgot, hok⟩ := AckLink.drain_run (AckLink.runs_ok hframes)
    have harrived : arrived ((pre ++ [f]).map .frame ++ bs) = pre ++ [f] := by
      rw [arrived_append, harr, List.append_nil, arrived, List.filterMap_map]
      exact List.filterMap_some
    have hle := h _ t (hframes.trans hr) (by rwa [harrived])
    have hhas := hok.has
    rw [hgot, hclient, List.take_length] at hhas
    -- the last frame is refused, and its answer is among those received
    let c := pre.foldl Client.handleFrame .start
    have hc : t.client = c.handleFrame f := by rw [hclient, List.foldl_append]; rfl
    have hrefused : c.handleFrame f = { c with badCsum := c.badCsum + 1 }.sendAck
        (WireOrder.ofBytes f).seq .badCsum := if_pos hbad
    have hack : ((WireOrder.ofBytes f).seq, AckFlag.badCsum) ∈ t.client.acks := by
      rw [hc, hrefused]
      exact List.mem_append_right _ (List.mem_singleton.mpr rfl)
    have hseq := Drain.Has.le_ackedSeq hhas (hclient ▸ hack)
    have hhigh : t.client.highest = c.highest := by
      rw [hc, hrefused]
      rfl
    rw [← hhigh]
    exact hseq.trans hle
  · intro h as s hr hpre
    have hreports := h.reports hpre
    rw [← AckLink.runs_client hr] at hreports
    exact Drain.Has.ackedSeq_le (AckLink.runs_ok hr).has hreports.acks

/-- The first order of a connection, and the same with its price or its number damaged. -/
def firstFrame : List UInt8 := (wireOrder ((Submission.mk 13 66 32000 100 5).order 1) 1 5).bytes
def damagedPrice : List UInt8 := firstFrame.set 8 77
def damagedSeq : List UInt8 := firstFrame.set 16 5

theorem acked_within_accepted_damagedPrice :
    Harmless [firstFrame, damagedPrice] ∧
      ∀ as s, Runs (AckLink.Step (.whole fun _ => 7)) .start as s →
        arrived as <+: [firstFrame, damagedPrice] →
          s.drain.counts.ackedSeq.toNat ≤ s.client.highest := by
  have hharmless : Harmless [firstFrame, damagedPrice] := by decide +kernel
  exact ⟨hharmless, (acked_within_accepted_iff _ (by decide +kernel)).mpr hharmless⟩

theorem damagedSeq_end :
    ∃ s ∈ [LinkAction.frame damagedSeq, .drain 24].foldlM (AckLink.step (.whole fun _ => 7)) .start,
      s.client.accepted = [] ∧ s.drain.counts.ackedSeq = 5 := by
  decide +kernel

/-- A frame with a damaged number is answered with that number, and the client takes it for
acknowledged although nothing was accepted. -/
theorem acked_exceeds_accepted :
    ∃ s, Runs (AckLink.Step (.whole fun _ => 7)) .start [.frame damagedSeq, .drain 24] s ∧
      s.client.accepted = [] ∧ s.client.highest < s.drain.counts.ackedSeq.toNat := by
  obtain ⟨s, hs, haccepted, hacked⟩ := damagedSeq_end
  refine ⟨s, Runs.of_foldlM hs, haccepted, ?_⟩
  rw [Client.highest, haccepted, hacked]
  decide

end Runs

end TradingPipeline.OrderSession
