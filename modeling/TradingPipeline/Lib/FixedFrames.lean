import Mathlib.Data.List.Basic
import Mathlib.Algebra.Order.Group.Nat
import Mathlib.Tactic.Ring

/-! # Frames of a fixed size in a byte stream

A reader takes the complete frames out of its buffer and carries the rest over to the
next read. What it has seen depends on the bytes alone and not on how they were split.
-/
namespace TradingPipeline.Lib

variable {α σ : Type*} {n : ℕ} {f : σ → List α → σ} {s s₀ : σ}

/-- The turns `while (offset + n <= total)` over a buffer, with a bound on their number:
the state after the complete frames, and what is left of the buffer. -/
def readFrames (n : ℕ) (f : σ → List α → σ) : ℕ → σ → List α → σ × List α
  | 0, s, buf => (s, buf)
  | fuel + 1, s, buf =>
    if n ≤ buf.length then readFrames n f fuel (f s (buf.take n)) (buf.drop n) else (s, buf)

/-- The state and the carry of a reader that has received `bs`. -/
def HasRead (n : ℕ) (f : σ → List α → σ) (s₀ : σ) (bs : List α) (r : σ × List α) : Prop :=
  ∃ frames : List (List α), bs = frames.flatten ++ r.2 ∧ (∀ x ∈ frames, x.length = n) ∧
    r.2.length < n ∧ r.1 = frames.foldl f s₀

theorem HasRead.start (hn : 0 < n) : HasRead n f s₀ [] (s₀, []) :=
  ⟨[], rfl, by simp, hn, rfl⟩

theorem HasRead.length_lt {bs : List α} {r : σ × List α} (h : HasRead n f s₀ bs r) :
    r.2.length < n := by
  obtain ⟨-, -, -, hlt, -⟩ := h
  exact hlt

theorem readFrames_hasRead (hn : 0 < n) {fuel : ℕ} {buf : List α} (hfuel : buf.length ≤ fuel) :
    HasRead n f s buf (readFrames n f fuel s buf) := by
  induction fuel generalizing s buf with
  | zero =>
    have hnil : buf = [] := List.eq_nil_of_length_eq_zero (by omega)
    rw [hnil]
    exact HasRead.start hn
  | succ fuel ih =>
    unfold readFrames
    split
    · next hle =>
      have hdrop : (buf.drop n).length ≤ fuel := by
        rw [List.length_drop]
        omega
      obtain ⟨frames, hbuf, hall, hlt, hs⟩ := ih (s := f s (buf.take n)) hdrop
      refine ⟨buf.take n :: frames, ?_, ?_, hlt, hs⟩
      · rw [List.flatten_cons, List.append_assoc, ← hbuf, List.take_append_drop]
      · intro x hx
        rcases List.mem_cons.mp hx with rfl | hx
        · rw [List.length_take, Nat.min_eq_left hle]
        · exact hall x hx
    · next hgt => exact ⟨[], rfl, by simp, Nat.lt_of_not_le hgt, rfl⟩

theorem HasRead.read (hn : 0 < n) {bs chunk carry : List α} (h : HasRead n f s₀ bs (s, carry))
    {fuel : ℕ} (hfuel : (carry ++ chunk).length ≤ fuel) :
    HasRead n f s₀ (bs ++ chunk) (readFrames n f fuel s (carry ++ chunk)) := by
  obtain ⟨frames, hbs, hall, _, hs⟩ := h
  obtain ⟨more, hbuf, hall', hlt, hs'⟩ := readFrames_hasRead (f := f) (s := s) hn hfuel
  refine ⟨frames ++ more, ?_, ?_, hlt, ?_⟩
  · rw [hbs, List.flatten_append, List.append_assoc, List.append_assoc, ← hbuf]
  · intro x hx
    exact (List.mem_append.mp hx).elim (hall x) (hall' x)
  · rw [hs', List.foldl_append, ← hs]

theorem length_flatten_of_frames {frames : List (List α)} (hall : ∀ x ∈ frames, x.length = n) :
    frames.flatten.length = n * frames.length := by
  induction frames with
  | nil => simp
  | cons x frames ih =>
    have hx := hall x List.mem_cons_self
    have hrest := ih (fun y hy => hall y (List.mem_cons_of_mem x hy))
    rw [List.flatten_cons, List.length_append, hx, hrest, List.length_cons]
    ring

theorem frames_prefix {xs ys : List (List α)} {a b : List α} (hx : ∀ x ∈ xs, x.length = n)
    (hy : ∀ y ∈ ys, y.length = n) (hb : b.length < n)
    (h : xs.flatten ++ a <+: ys.flatten ++ b) : xs <+: ys := by
  induction xs generalizing ys with
  | nil => exact List.nil_prefix
  | cons x xs ih =>
    have hlen := h.length_le
    have hxl := hx x List.mem_cons_self
    cases ys with
    | nil =>
      simp only [List.flatten_cons, List.flatten_nil, List.length_append, List.length_nil] at hlen
      omega
    | cons y ys =>
      have hyl := hy y List.mem_cons_self
      obtain ⟨t, ht⟩ := h
      simp only [List.flatten_cons, List.append_assoc] at ht
      obtain ⟨rfl, hrest⟩ := List.append_inj ht (hxl.trans hyl.symm)
      have hpre : xs.flatten ++ a <+: ys.flatten ++ b := ⟨t, by rw [List.append_assoc]; exact hrest⟩
      have hxs := ih (fun z hz => hx z (List.mem_cons_of_mem x hz))
        (fun z hz => hy z (List.mem_cons_of_mem x hz)) hpre
      exact List.prefix_cons_inj x |>.mpr hxs

theorem HasRead.of_prefix {bs carry b : List α} {ys : List (List α)}
    (h : HasRead n f s₀ bs (s, carry)) (hy : ∀ y ∈ ys, y.length = n) (hb : b.length < n)
    (hpre : bs <+: ys.flatten ++ b) : s = (ys.take (bs.length / n)).foldl f s₀ := by
  obtain ⟨frames, hbs, hall, hlt, hs⟩ := h
  have hlen : bs.length / n = frames.length := by
    rw [hbs, List.length_append, length_flatten_of_frames hall]
    exact Nat.div_eq_of_lt_le (by rw [Nat.mul_comm]; omega)
      (by rw [Nat.add_mul, Nat.mul_comm]; omega)
  have hframes := frames_prefix (a := carry) hall hy hb (hbs ▸ hpre)
  rw [hlen, ← List.prefix_iff_eq_take.mp hframes]
  exact hs

section Division

/-- The consecutive frames of a stream. -/
def division (n : ℕ) (bs : List α) : List (List α) :=
  (List.range (bs.length / n)).map fun k => (bs.drop (n * k)).take n

theorem division_append (hn : 0 < n) {x : List α} (hx : x.length = n) (bs : List α) :
    division n (x ++ bs) = x :: division n bs := by
  have hlen : (x ++ bs).length / n = bs.length / n + 1 := by
    rw [List.length_append, hx, Nat.add_comm, Nat.add_div_right _ hn]
  rw [division, hlen, List.range_succ_eq_map, List.map_cons, List.map_map, Nat.mul_zero,
    List.drop_zero, List.take_left' hx, division]
  refine congrArg (x :: ·) (List.map_congr_left fun k _ => ?_)
  rw [Function.comp_apply, Nat.succ_eq_add_one, Nat.mul_add, Nat.mul_one, Nat.add_comm, ← hx,
    List.drop_length_add_append]

theorem division_of_lt {bs : List α} (h : bs.length < n) : division n bs = [] := by
  rw [division, Nat.div_eq_of_lt h]
  rfl

theorem division_flatten_append (hn : 0 < n) {ys : List (List α)} (hy : ∀ y ∈ ys, y.length = n)
    (bs : List α) : division n (ys.flatten ++ bs) = ys ++ division n bs := by
  induction ys with
  | nil => rfl
  | cons y ys ih =>
    have hrest := ih fun z hz => hy z (List.mem_cons_of_mem y hz)
    rw [List.flatten_cons, List.append_assoc, division_append hn (hy y List.mem_cons_self), hrest,
      List.cons_append]

theorem division_flatten (hn : 0 < n) {ys : List (List α)} (hy : ∀ y ∈ ys, y.length = n) :
    division n ys.flatten = ys := by
  have hnil : division n ([] : List α) = [] := division_of_lt hn
  have h := division_flatten_append hn hy []
  rwa [List.append_nil, hnil, List.append_nil] at h

theorem division_flatMap {β : Type*} {g : β → List α} (hn : 0 < n) (hg : ∀ b, (g b).length = n)
    (bs : List β) : division n (bs.flatMap g) = bs.map g := by
  rw [List.flatMap_def]
  refine division_flatten hn fun y hy => ?_
  obtain ⟨b, -, rfl⟩ := List.mem_map.mp hy
  exact hg b

theorem foldl_log {β γ : Type*} {g : σ → β → σ} {log : σ → List γ} {entry : β → γ}
    (h : ∀ s b, log (g s b) = log s ++ [entry b]) (s : σ) (bs : List β) :
    log (bs.foldl g s) = log s ++ bs.map entry := by
  induction bs generalizing s with
  | nil => simp
  | cons b bs ih =>
    rw [List.foldl_cons, ih, h, List.append_assoc, List.map_cons, List.singleton_append]

theorem HasRead.eq_division (hn : 0 < n) {bs carry : List α} (h : HasRead n f s₀ bs (s, carry)) :
    s = (division n bs).foldl f s₀ := by
  obtain ⟨frames, hbs, hall, hlt, hs⟩ := h
  rw [hbs, division_flatten_append hn hall, division_of_lt hlt, List.append_nil]
  exact hs

theorem HasRead.of_flatten (hn : 0 < n) {ys : List (List α)} (hy : ∀ y ∈ ys, y.length = n)
    {r : σ × List α} (h : HasRead n f s₀ ys.flatten r) : r = (ys.foldl f s₀, []) := by
  have hs := HasRead.eq_division (s := r.1) hn h
  rw [division_flatten hn hy] at hs
  obtain ⟨frames, hbs, hall, hlt, -⟩ := h
  have hdiv := division_flatten_append hn hall r.2
  rw [← hbs, division_flatten hn hy, division_of_lt hlt, List.append_nil] at hdiv
  rw [hdiv] at hbs
  exact Prod.ext hs (List.self_eq_append_right.mp hbs)

theorem division_mono {bs bs' : List α} (h : bs <+: bs') : division n bs <+: division n bs' := by
  obtain ⟨rest, rfl⟩ := h
  rcases Nat.eq_zero_or_pos n with rfl | hn
  · simp [division]
  have hle : bs.length / n ≤ (bs ++ rest).length / n :=
    Nat.div_le_div_right (by simp)
  have hrange : List.range (bs.length / n) = (List.range ((bs ++ rest).length / n)).take
    (bs.length / n) := by
    rw [List.take_range, Nat.min_eq_left hle]
  have heq : division n bs = (division n (bs ++ rest)).take (bs.length / n) := by
    rw [division, division, ← List.map_take, ← hrange]
    refine List.map_congr_left fun k hk => ?_
    have hk' : n * (k + 1) ≤ bs.length :=
      (Nat.mul_le_mul_left n (List.mem_range.mp hk)).trans (Nat.mul_div_le _ _)
    rw [Nat.mul_add, Nat.mul_one] at hk'
    rw [List.drop_append_of_le_length (by omega),
      List.take_append_of_le_length (by rw [List.length_drop]; omega)]
  rw [heq]
  exact List.take_prefix _ _

end Division

section Resync

/-- A reader that passes over bytes until an acceptable frame starts. -/
def scanFrames (n : ℕ) (ok : List α → Bool) (f : σ → List α → σ) : ℕ → σ → List α → σ × List α
  | 0, s, buf => (s, buf)
  | fuel + 1, s, buf =>
    if n ≤ buf.length then
      if ok (buf.take n) then scanFrames n ok f fuel (f s (buf.take n)) (buf.drop n)
      else scanFrames n ok f fuel s (buf.drop 1)
    else (s, buf)

variable {ok : List α → Bool}

theorem scanFrames_eq_readFrames (hn : 0 < n) {fuel : ℕ} {buf : List α}
    (hok : ∀ x ∈ division n buf, ok x = true) :
    scanFrames n ok f fuel s buf = readFrames n f fuel s buf := by
  induction fuel generalizing s buf with
  | zero => rfl
  | succ fuel ih =>
    unfold scanFrames readFrames
    split
    · next hle =>
      have hlen : (buf.take n).length = n := by rw [List.length_take, Nat.min_eq_left hle]
      have hdiv := division_append hn hlen (buf.drop n)
      rw [List.take_append_drop] at hdiv
      rw [hdiv] at hok
      rw [if_pos (hok _ List.mem_cons_self), ih fun x hx => hok x (List.mem_cons_of_mem _ hx)]
    · rfl

theorem scanFrames_length_le (fuel : ℕ) (s : σ) (buf : List α) :
    (scanFrames n ok f fuel s buf).2.length ≤ buf.length := by
  induction fuel generalizing s buf with
  | zero => exact le_rfl
  | succ fuel ih =>
    unfold scanFrames
    split
    · split
      · exact (ih _ _).trans (by rw [List.length_drop]; omega)
      · exact (ih _ _).trans (by rw [List.length_drop]; omega)
    · exact le_rfl

/-- One more read, in a stream in which every frame is acceptable. -/
theorem HasRead.scan (hn : 0 < n) {bs chunk carry : List α} (h : HasRead n f s₀ bs (s, carry))
    (hok : ∀ x ∈ division n (bs ++ chunk), ok x = true) {fuel : ℕ}
    (hfuel : (carry ++ chunk).length ≤ fuel) :
    HasRead n f s₀ (bs ++ chunk) (scanFrames n ok f fuel s (carry ++ chunk)) := by
  have hread := h.read hn hfuel
  obtain ⟨frames, hbs, hall, -, -⟩ := h
  rw [hbs, List.append_assoc, division_flatten_append hn hall] at hok
  rwa [scanFrames_eq_readFrames hn fun x hx => hok x (List.mem_append_right _ hx)]

end Resync

end TradingPipeline.Lib
