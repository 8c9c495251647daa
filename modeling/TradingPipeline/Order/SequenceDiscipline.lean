import Mathlib.Data.UInt
import TradingPipeline.Observer.Streams

/-! # The sequence discipline of the server

`handle_client` expects one number and takes any later one in its place, so the numbers it
accepts grow for every client. The number after the largest is zero: from then on no frame
with a good checksum is refused.
-/
namespace TradingPipeline.OrderSession
open Lib

/-- `handle_client` after the given frames. -/
def serve (frames : List (List UInt8)) : Client := frames.foldl Client.handleFrame .start

/-- The frame passes the checksum test. -/
def Intact (frame : List UInt8) : Prop :=
  (WireOrder.ofBytes frame).checksum = (WireOrder.ofBytes frame).wantCsum

instance (frame : List UInt8) : Decidable (Intact frame) := inferInstanceAs (Decidable (_ = _))

def seqOf (frame : List UInt8) : ℕ := (WireOrder.ofBytes frame).seq.toNat

/-- How many numbers of a series do not follow the one before them. -/
def gapsFrom : ℕ → List ℕ → ℕ
  | _, [] => 0
  | prev, n :: ns => (if n = prev + 1 then 0 else 1) + gapsFrom n ns

theorem gapsFrom_snoc (prev : ℕ) (ns : List ℕ) (n : ℕ) :
    gapsFrom prev (ns ++ [n]) =
      gapsFrom prev ns + if n = ns.getLastD prev + 1 then 0 else 1 := by
  induction ns generalizing prev with
  | nil => simp [gapsFrom]
  | cons m ns ih =>
    rw [List.cons_append, gapsFrom, gapsFrom, ih, List.getLastD_cons, Nat.add_assoc]

namespace Client

def seqs (c : Client) : List ℕ := c.accepted.map (·.seq.toNat)

/-- The last accepted sequence number, and zero before the first. -/
def lastSeq (c : Client) : ℕ := c.seqs.getLastD 0

/-- What is accepted is intact and grows, and the two counters tell of it. -/
structure Disciplined (c : Client) : Prop where
  intact : ∀ o ∈ c.accepted, o.checksum = o.wantCsum
  increasing : c.seqs.Pairwise (· < ·)
  expectedSeq : c.expectedSeq = UInt64.ofNat (c.lastSeq + 1)
  seqGaps : c.seqGaps = UInt64.ofNat (gapsFrom 0 c.seqs)

/-- A frame with a bad checksum or a number that was reached already changes neither
`expected_seq` nor `order_count`. -/
def IgnoresOld (c : Client) (frame : List UInt8) : Prop :=
  ¬Intact frame ∨ seqOf frame ≤ c.lastSeq →
    (c.handleFrame frame).expectedSeq = c.expectedSeq ∧
    (c.handleFrame frame).orderCount = c.orderCount

section Frames
variable {c : Client} {f : List UInt8}

structure Refused (c d : Client) : Prop where
  accepted : d.accepted = c.accepted
  expectedSeq : d.expectedSeq = c.expectedSeq
  seqGaps : d.seqGaps = c.seqGaps
  orderCount : d.orderCount = c.orderCount

theorem refused_of_not_intact (h : ¬Intact f) : Refused c (c.handleFrame f) := by
  have hcsum : (WireOrder.ofBytes f).checksum ≠ (WireOrder.ofBytes f).wantCsum := h
  rw [handleFrame, if_pos hcsum]
  exact ⟨rfl, rfl, rfl, rfl⟩

theorem refused_of_lt (hf : Intact f) (h : seqOf f < c.expectedSeq.toNat) :
    Refused c (c.handleFrame f) := by
  have hcsum : ¬(WireOrder.ofBytes f).checksum ≠ (WireOrder.ofBytes f).wantCsum := not_not.mpr hf
  have hne : (WireOrder.ofBytes f).seq ≠ c.expectedSeq := by
    intro heq
    rw [seqOf, heq] at h
    exact lt_irrefl _ h
  have hlt : ¬c.expectedSeq < (WireOrder.ofBytes f).seq := by
    rw [UInt64.lt_iff_toNat_lt]
    exact Nat.not_lt.mpr h.le
  simp only [handleFrame, if_neg hcsum, if_neg hne, if_neg hlt]
  exact ⟨rfl, rfl, rfl, rfl⟩

/-- A frame that is accepted becomes the last one, and a gap is counted unless it was
expected. -/
structure Accepts (c : Client) (f : List UInt8) (d : Client) : Prop where
  accepted : d.accepted = c.accepted ++ [WireOrder.ofBytes f]
  expectedSeq : d.expectedSeq = UInt64.ofNat (seqOf f + 1)
  seqGaps : d.seqGaps = c.seqGaps + if seqOf f = c.expectedSeq.toNat then 0 else 1

theorem accepts_of_le (hf : Intact f) (h : c.expectedSeq.toNat ≤ seqOf f) :
    Accepts c f (c.handleFrame f) := by
  have hcsum : ¬(WireOrder.ofBytes f).checksum ≠ (WireOrder.ofBytes f).wantCsum := not_not.mpr hf
  have hnext : (WireOrder.ofBytes f).seq + 1 = UInt64.ofNat (seqOf f + 1) := by
    rw [UInt64.ofNat_add, seqOf, UInt64.ofNat_toNat]
    rfl
  simp only [handleFrame, if_neg hcsum]
  split
  · next heq =>
    refine ⟨rfl, hnext, ?_⟩
    rw [seqOf, heq, if_pos rfl]
    exact (UInt64.add_zero _).symm
  · next hne =>
    have hne' : seqOf f ≠ c.expectedSeq.toNat := fun heq => hne (UInt64.toNat_inj.mp heq)
    have hlt : c.expectedSeq < (WireOrder.ofBytes f).seq := by
      rw [UInt64.lt_iff_toNat_lt]
      exact lt_of_le_of_ne h (Ne.symm hne')
    rw [if_pos hlt]
    refine ⟨rfl, hnext, ?_⟩
    rw [if_neg hne']
    rfl

theorem Accepts.seqs {d : Client} (h : Accepts c f d) : d.seqs = c.seqs ++ [seqOf f] := by
  rw [Client.seqs, h.accepted, List.map_append]
  rfl

theorem Accepts.lastSeq {d : Client} (h : Accepts c f d) : d.lastSeq = seqOf f := by
  rw [Client.lastSeq, h.seqs, List.getLastD_concat]

theorem Refused.seqs {d : Client} (h : Refused c d) : d.seqs = c.seqs := by
  rw [Client.seqs, h.accepted]
  rfl

theorem Refused.lastSeq {d : Client} (h : Refused c d) : d.lastSeq = c.lastSeq := by
  rw [Client.lastSeq, h.seqs]
  rfl

/-- The discipline, and where the last number stands among the frames so far. -/
structure Tracks (c : Client) (frames : List (List UInt8)) : Prop extends Disciplined c where
  bound : ∀ n ∈ c.seqs, n ≤ c.lastSeq
  seen : ∀ f ∈ frames, Intact f → seqOf f ≤ c.lastSeq
  source : c.lastSeq ≠ 0 → ∃ f ∈ frames, Intact f ∧ seqOf f = c.lastSeq

theorem tracks_start : Tracks .start [] :=
  ⟨⟨by simp [start], by simp [Client.seqs, start], rfl, rfl⟩, by simp [Client.seqs, start], by simp,
    fun h => absurd rfl h⟩

variable {frames : List (List UInt8)}

theorem Tracks.refuse {d : Client} (h : c.Tracks frames) (hd : Refused c d)
    (hf : Intact f → seqOf f ≤ c.lastSeq) : d.Tracks (frames ++ [f]) := by
  refine ⟨⟨?_, ?_, ?_, ?_⟩, ?_, ?_, ?_⟩
  · rw [hd.accepted]
    exact h.intact
  · rw [hd.seqs]
    exact h.increasing
  · rw [hd.expectedSeq, hd.lastSeq]
    exact h.expectedSeq
  · rw [hd.seqGaps, hd.seqs]
    exact h.seqGaps
  · rw [hd.seqs, hd.lastSeq]
    exact h.bound
  · intro x hx hxi
    rw [hd.lastSeq]
    rcases List.mem_append.mp hx with hx | hx
    · exact h.seen x hx hxi
    · rw [List.mem_singleton.mp hx] at hxi ⊢
      exact hf hxi
  · intro hne
    rw [hd.lastSeq] at hne ⊢
    obtain ⟨x, hx, hxs⟩ := h.source hne
    exact ⟨x, List.mem_append_left _ hx, hxs⟩

theorem Tracks.accept {d : Client} (h : c.Tracks frames) (hd : Accepts c f d) (hf : Intact f)
    (hlt : c.lastSeq < seqOf f) : d.Tracks (frames ++ [f]) := by
  have hmax : seqOf f < 2 ^ 64 := UInt64.toNat_lt _
  have hexp : c.expectedSeq.toNat = c.lastSeq + 1 := by
    rw [h.expectedSeq, UInt64.toNat_ofNat', Nat.mod_eq_of_lt (by omega)]
  refine ⟨⟨?_, ?_, ?_, ?_⟩, ?_, ?_, ?_⟩
  · intro o ho
    rw [hd.accepted] at ho
    rcases List.mem_append.mp ho with ho | ho
    · exact h.intact o ho
    · rw [List.mem_singleton.mp ho]
      exact hf
  · rw [hd.seqs, List.pairwise_append]
    refine ⟨h.increasing, List.pairwise_singleton _ _, ?_⟩
    intro n hn m hm
    rw [List.mem_singleton.mp hm]
    exact (h.bound n hn).trans_lt hlt
  · rw [hd.lastSeq]
    exact hd.expectedSeq
  · rw [hd.seqs, gapsFrom_snoc, hd.seqGaps, h.seqGaps, UInt64.ofNat_add, hexp, ← Client.lastSeq]
    split <;> rfl
  · intro n hn
    rw [hd.seqs] at hn
    rw [hd.lastSeq]
    rcases List.mem_append.mp hn with hn | hn
    · exact (h.bound n hn).trans hlt.le
    · exact (List.mem_singleton.mp hn).le
  · intro x hx hxi
    rw [hd.lastSeq]
    rcases List.mem_append.mp hx with hx | hx
    · exact (h.seen x hx hxi).trans hlt.le
    · rw [List.mem_singleton.mp hx]
  · intro _
    rw [hd.lastSeq]
    exact ⟨f, by simp, hf, rfl⟩

theorem Tracks.frame (h : c.Tracks frames) (hmax : Intact f → c.lastSeq + 1 < 2 ^ 64) :
    (c.handleFrame f).Tracks (frames ++ [f]) ∧ c.IgnoresOld f := by
  by_cases hf : Intact f
  · have hexp : c.expectedSeq.toNat = c.lastSeq + 1 := by
      rw [h.expectedSeq, UInt64.toNat_ofNat', Nat.mod_eq_of_lt (hmax hf)]
    rcases Nat.lt_or_ge c.lastSeq (seqOf f) with hlt | hle
    · refine ⟨h.accept (accepts_of_le hf (by omega)) hf hlt, ?_⟩
      rintro (hbad | hold)
      · exact absurd hf hbad
      · omega
    · have hd : Refused c (c.handleFrame f) := refused_of_lt hf (by omega)
      exact ⟨h.refuse hd fun _ => hle, fun _ => ⟨hd.expectedSeq, hd.orderCount⟩⟩
  · have hd : Refused c (c.handleFrame f) := refused_of_not_intact hf
    exact ⟨h.refuse hd fun hi => absurd hi hf, fun _ => ⟨hd.expectedSeq, hd.orderCount⟩⟩

/-- After the largest number every intact frame is taken, and the numbers no longer grow. -/
theorem Tracks.not_increasing (h : c.Tracks frames) (hmax : c.lastSeq + 1 = 2 ^ 64)
    (hf : Intact f) : ¬(c.handleFrame f).Disciplined := by
  intro hd
  have hexp : c.expectedSeq.toNat = 0 := by
    rw [h.expectedSeq, hmax]
    rfl
  have hseqs := (accepts_of_le (c := c) hf (by omega)).seqs
  have hinc := hd.increasing
  rw [hseqs, List.pairwise_append] at hinc
  have hmem : c.lastSeq ∈ c.seqs := by
    have hne : c.seqs ≠ [] := by
      intro hnil
      rw [Client.lastSeq, hnil, List.getLastD_nil] at hmax
      omega
    rw [Client.lastSeq, List.getLastD_eq_getLast?, List.getLast?_eq_some_getLast hne]
    exact List.getLast_mem hne
  have hlt := hinc.2.2 _ hmem _ (List.mem_singleton.mpr rfl)
  have hbound : seqOf f < 2 ^ 64 := UInt64.toNat_lt _
  omega

end Frames
end Client

section Streams
variable {frames : List (List UInt8)} {f : List UInt8}

theorem serve_snoc (frames : List (List UInt8)) (f : List UInt8) :
    serve (frames ++ [f]) = (serve frames).handleFrame f := by
  rw [serve, List.foldl_append]
  rfl

/-- No intact frame comes after one with the largest sequence number. -/
def NoWrap (frames : List (List UInt8)) : Prop :=
  frames.Pairwise fun f g => Intact f → seqOf f = 2 ^ 64 - 1 → ¬Intact g

/-- The discipline holds after every frame, and every frame that is old or damaged is
ignored when its turn comes. -/
def AlwaysDisciplined (frames : List (List UInt8)) : Prop :=
  (∀ pre, pre <+: frames → (serve pre).Disciplined) ∧
    ∀ pre f, pre ++ [f] <+: frames → (serve pre).IgnoresOld f

theorem Client.Tracks.lastSeq_lt {c : Client} (h : c.Tracks frames) : c.lastSeq < 2 ^ 64 := by
  rcases Nat.eq_zero_or_pos c.lastSeq with hzero | hpos
  · omega
  · obtain ⟨f, -, -, hf⟩ := h.source (by omega)
    rw [← hf]
    exact UInt64.toNat_lt _

theorem Client.Tracks.lastSeq_eq_max {c : Client} (h : c.Tracks frames) :
    c.lastSeq + 1 = 2 ^ 64 ↔ ∃ f ∈ frames, Intact f ∧ seqOf f = 2 ^ 64 - 1 := by
  constructor
  · intro hmax
    obtain ⟨f, hf, hi, hseq⟩ := h.source (by omega)
    exact ⟨f, hf, hi, by omega⟩
  · rintro ⟨f, hf, hi, hseq⟩
    have hle := h.seen f hf hi
    have hlt := h.lastSeq_lt
    omega

theorem NoWrap.of_prefix {pre : List (List UInt8)} (h : NoWrap frames) (hpre : pre <+: frames) :
    NoWrap pre := h.sublist hpre.sublist

theorem NoWrap.next (h : NoWrap (frames ++ [f])) (ht : (serve frames).Tracks frames) :
    (serve (frames ++ [f])).Tracks (frames ++ [f]) ∧ (serve frames).IgnoresOld f := by
  rw [serve_snoc]
  refine ht.frame fun hf => ?_
  have hlt := ht.lastSeq_lt
  by_contra hmax
  obtain ⟨g, hg, hi, hseq⟩ := ht.lastSeq_eq_max.mp (by omega)
  exact (List.pairwise_append.mp h).2.2 g hg f (by simp) hi hseq hf

theorem NoWrap.tracks (h : NoWrap frames) : (serve frames).Tracks frames := by
  induction frames using List.reverseRecOn with
  | nil => exact Client.tracks_start
  | append_singleton frames f ih =>
    exact (h.next (ih (h.of_prefix (List.prefix_append _ _)))).1

theorem NoWrap.always (h : NoWrap frames) : AlwaysDisciplined frames := by
  refine ⟨fun pre hpre => (h.of_prefix hpre).tracks.toDisciplined, fun pre f hpre => ?_⟩
  have hboth := h.of_prefix hpre
  exact (hboth.next (hboth.of_prefix (List.prefix_append _ _)).tracks).2

/-- By induction on the frames: the first intact frame after the largest number would be
accepted out of order. -/
theorem noWrap_of_disciplined (h : ∀ pre, pre <+: frames → (serve pre).Disciplined) :
    NoWrap frames := by
  induction frames using List.reverseRecOn with
  | nil => exact List.Pairwise.nil
  | append_singleton frames f ih =>
    have hfront : NoWrap frames := ih fun pre hpre => h pre (hpre.trans (List.prefix_append _ _))
    refine List.pairwise_append.mpr ⟨hfront, List.pairwise_singleton _ _, ?_⟩
    intro g hg f' hf' hi hseq hf
    rw [List.mem_singleton.mp hf'] at hf
    have ht := hfront.tracks
    have hlast := h _ List.prefix_rfl
    rw [serve_snoc] at hlast
    exact ht.not_increasing (ht.lastSeq_eq_max.mpr ⟨g, hg, hi, hseq⟩) hf hlast

end Streams

/-- `handle_client` works through the frames of its byte stream however it is cut. The
discipline holds throughout exactly if no intact frame follows one with the largest sequence
number. -/
theorem sequence_discipline_iff (bytes : List UInt8) :
    (∀ chunks : List (List UInt8), chunks.flatten = bytes →
      (Observer.handleClient chunks).1 = serve (division wireOrderSize bytes)) ∧
    (AlwaysDisciplined (division wireOrderSize bytes) ↔ NoWrap (division wireOrderSize bytes)) := by
  refine ⟨?_, fun h => noWrap_of_disciplined h.1, NoWrap.always⟩
  rintro chunks rfl
  exact HasRead.eq_division (by decide) (Observer.handleClient_has chunks)

def numberedFrame (seq : UInt64) : List UInt8 :=
  (wireOrder ((OrderRing.Submission.mk 13 66 32000 100 5).order 1) seq 9).bytes

/-- The same order is accepted again after the largest number. -/
theorem wrapped_seq_accepted_twice :
    (serve [numberedFrame 1, numberedFrame (2 ^ 64 - 1), numberedFrame 1]).seqs =
        [1, 2 ^ 64 - 1, 1] ∧
      ¬(serve [numberedFrame 1, numberedFrame (2 ^ 64 - 1), numberedFrame 1]).Disciplined := by
  have hseqs : (serve [numberedFrame 1, numberedFrame (2 ^ 64 - 1), numberedFrame 1]).seqs =
      [1, 2 ^ 64 - 1, 1] := by decide +kernel
  refine ⟨hseqs, fun hd => ?_⟩
  have hinc := hd.increasing
  rw [hseqs] at hinc
  exact absurd hinc (by decide)

end TradingPipeline.OrderSession
