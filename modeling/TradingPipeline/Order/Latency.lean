import TradingPipeline.Lib.OrderStatistics
import TradingPipeline.Lib.Runs
import Mathlib.Data.Nat.ModEq
import Mathlib.Logic.Function.Basic

/-! # The latency sampler

The sender stores one latency per order into a ring and then counts it. It prints the percentiles
of its own samples now and then. The telemetry thread copies the ring at any time, without
a lock: it loads `lat_count` again for each cell, and stores of the sender fall between
its loads.
-/
namespace TradingPipeline.Latency
open Lib

def latRingSz : ℕ := 4096

def latRingMask : ℕ := latRingSz - 1

/-- The latency of an order, as far as it fits into 32 bits. -/
def delta (parseNs sendNs : ℕ) : ℕ :=
  if parseNs ≠ 0 ∧ parseNs ≤ sendNs then
    if 2 ^ 32 - 1 < sendNs - parseNs then 2 ^ 32 - 1 else sendNs - parseNs
  else 0

structure Report where
  p50 : ℕ
  p90 : ℕ
  p99 : ℕ
  mx : ℕ
  n : ℕ
  deriving DecidableEq, Repr

/-- The percentiles of the copied samples. -/
def report (buf : List ℕ) : Report :=
  let n := buf.length
  let sorted := buf.insertionSort (· ≤ ·)
  { p50 := sorted.getD (n * 50 / 100) 0
    p90 := sorted.getD (n * 90 / 100) 0
    p99 := sorted.getD (if 100 ≤ n then n * 99 / 100 else n - 1) 0
    mx := sorted.getD (n - 1) 0
    n := n }

def taken (nTotal : ℕ) : ℕ := if nTotal < latRingSz then nTotal else latRingSz

/-- The cell of the `i`th of `n` samples before the counter `c`. -/
def cellOf (c n i : ℕ) : ℕ := (c + 2 ^ 32 - n + i) % 2 ^ 32 &&& latRingMask

/-- Where `order_sender_lat_snapshot_ns` stands: before the next load of `lat_count`, or
before the load of the cell. -/
inductive Reader
  | idle
  | count (n : ℕ) (buf : List ℕ)
  | cell (n : ℕ) (buf : List ℕ) (c : ℕ)
  deriving DecidableEq, Repr

/-- `samples` are all latencies stored so far. `begunAt` and `printedAt` are the numbers of samples
counted when the snapshot began and at the last print. -/
structure State where
  latRing : ℕ → ℕ
  latCount : ℕ
  latWindowStart : ℕ
  counting : Bool
  reader : Reader
  printed : List Report
  snapshots : List Report
  samples : List ℕ
  begunAt : ℕ
  printedAt : ℕ

inductive Action
  | store (parseNs sendNs : ℕ)
  | count
  | print
  | begin
  | load
  deriving DecidableEq, Repr

def init : State where
  latRing := fun _ => 0
  latCount := 0
  latWindowStart := 0
  counting := false
  reader := .idle
  printed := []
  snapshots := []
  samples := []
  begunAt := 0
  printedAt := 0

def State.counted (s : State) : ℕ := if s.counting then s.samples.length - 1 else s.samples.length

/-- The sender's store; the sample is counted by the next one. -/
def State.latStore (s : State) (v : ℕ) : State :=
  { s with
    latRing := Function.update s.latRing (s.latCount &&& latRingMask) v
    counting := true
    samples := s.samples ++ [v] }

/-- `lat_print_and_reset`, in the sender's thread. -/
def State.latPrintAndReset (s : State) : State :=
  let nTotal := (s.latCount + 2 ^ 32 - s.latWindowStart) % 2 ^ 32
  if nTotal = 0 then s
  else
    let n := taken nTotal
    let buf := (List.range n).map fun i => s.latRing (cellOf s.latCount n i)
    { s with
      printed := s.printed ++ [report buf]
      latWindowStart := s.latCount
      printedAt := s.counted }

/-- The next load of the telemetry thread; the last one completes the snapshot. -/
def State.latLoad (s : State) : Option State :=
  match s.reader with
  | .idle => none
  | .count n buf => some { s with reader := .cell n buf s.latCount }
  | .cell n buf c =>
    let buf := buf ++ [s.latRing (cellOf c n buf.length)]
    if buf.length < n then some { s with reader := .count n buf }
    else some { s with reader := .idle, snapshots := s.snapshots ++ [report buf] }

def step (s : State) : Action → Option State
  | .store parseNs sendNs =>
    if s.counting then none else some (s.latStore (delta parseNs sendNs))
  | .count =>
    if s.counting then some { s with latCount := (s.latCount + 1) % 2 ^ 32, counting := false }
    else none
  | .print => if s.counting then none else some s.latPrintAndReset
  | .begin =>
    match s.reader with
    | .idle =>
      if s.latCount = 0 then some { s with snapshots := s.snapshots ++ [⟨0, 0, 0, 0, 0⟩] }
      else some { s with reader := .count (taken s.latCount) [], begunAt := s.counted }
    | _ => none
  | .load => s.latLoad

def Step (s : State) (a : Action) (t : State) : Prop := step s a = some t

/-- The report's numbers are values of the list, of the ranks they stand for. -/
structure Ranks (buf : List ℕ) (r : Report) : Prop where
  n : r.n = buf.length
  p50 : OfRank buf (buf.length * 50 / 100) r.p50
  p90 : OfRank buf (buf.length * 90 / 100) r.p90
  p99 : OfRank buf (if 100 ≤ buf.length then buf.length * 99 / 100 else buf.length - 1) r.p99
  mx : OfRank buf (buf.length - 1) r.mx
  ordered : r.p50 ≤ r.p90 ∧ r.p90 ≤ r.p99 ∧ r.p99 ≤ r.mx

theorem report_ranks {buf : List ℕ} (hne : buf ≠ []) : Ranks buf (report buf) := by
  have hpos : 0 < buf.length := List.length_pos_of_ne_nil hne
  have hlast : (if 100 ≤ buf.length then buf.length * 99 / 100 else buf.length - 1) <
      buf.length := by
    split <;> omega
  have hbefore : buf.length * 90 / 100 ≤
      if 100 ≤ buf.length then buf.length * 99 / 100 else buf.length - 1 := by
    split <;> omega
  refine ⟨rfl, ofRank_sorted _ _ (by omega), ofRank_sorted _ _ (by omega), ofRank_sorted _ _ hlast,
    ofRank_sorted _ _ (by omega), ?_, ?_, ?_⟩
  · exact sorted_getD_le _ _ (by omega) (by omega)
  · exact sorted_getD_le _ _ hbefore hlast
  · exact sorted_getD_le _ _ (by omega) (by omega)

def lastOf (samples : List ℕ) (stop n : ℕ) : List ℕ := (samples.take stop).drop (stop - n)

/-- The reports printed, the last one after `stop` samples: each has the percentiles of the
samples since the print before, or of the last of them that the ring holds. -/
inductive Printed (samples : List ℕ) : ℕ → List Report → Prop
  | nil : Printed samples 0 []
  | snoc {start stop : ℕ} {rs : List Report} {r : Report} (before : Printed samples start rs)
      (start_le : start ≤ stop) (stop_le : stop ≤ samples.length)
      (some_new : (stop - start) % 2 ^ 32 ≠ 0)
      (ranks : Ranks (lastOf samples stop (taken ((stop - start) % 2 ^ 32))) r) :
      Printed samples stop (rs ++ [r])

/-- What a copy that began after `start` samples has of the last `n`: each value is a sample, none
is older than these, and they are these if nothing was stored since. -/
structure Copied (samples : List ℕ) (start n : ℕ) (buf : List ℕ) : Prop where
  start_le : start ≤ samples.length
  real : ∀ v ∈ buf, ∃ j, start - n ≤ j ∧ samples[j]? = some v
  quiet : start = samples.length → buf = (lastOf samples start n).take buf.length

/-- The report of a snapshot that began after `start` samples were counted: zeros if the counter was
at zero, and otherwise the percentiles of copied values. -/
def Snapshot (samples : List ℕ) (start : ℕ) (r : Report) : Prop :=
  if start % 2 ^ 32 = 0 then r = ⟨0, 0, 0, 0, 0⟩
  else ∃ buf, buf.length = taken (start % 2 ^ 32) ∧
    Copied samples start (taken (start % 2 ^ 32)) buf ∧ Ranks buf r

theorem and_latRingMask (x : ℕ) : x &&& latRingMask = x % latRingSz :=
  Nat.and_two_pow_sub_one_eq_mod x 12

/-- The counter may have wrapped, even between the beginning of the copy and the load. -/
theorem cellOf_eq {m n : ℕ} (hn : n ≤ m) (hn' : n ≤ latRingSz) (i : ℕ) :
    cellOf (m % 2 ^ 32) n i = (m - n + i) % latRingSz := by
  rw [cellOf, and_latRingMask]
  unfold latRingSz at hn' ⊢
  omega

theorem taken_le (n : ℕ) : taken n ≤ n ∧ taken n ≤ latRingSz := by
  unfold taken
  split <;> omega

theorem taken_pos {n : ℕ} (hn : n ≠ 0) : 0 < taken n := by
  unfold taken latRingSz
  split <;> omega

theorem length_lastOf {samples : List ℕ} {n : ℕ} (hn : n ≤ samples.length) :
    (lastOf samples samples.length n).length = n := by
  rw [lastOf, List.take_length, List.length_drop]
  omega

section Ring
variable {ring : ℕ → ℕ} {samples : List ℕ}

def Holds (ring : ℕ → ℕ) (samples : List ℕ) : Prop :=
  ∀ j < samples.length, samples.length ≤ j + latRingSz → samples[j]? = some (ring (j % latRingSz))

theorem Holds.store (h : Holds ring samples) (v : ℕ) :
    Holds (Function.update ring (samples.length % latRingSz) v) (samples ++ [v]) := by
  intro j hj hrecent
  rw [List.length_append, List.length_singleton] at hj hrecent
  by_cases hlast : j = samples.length
  · subst hlast
    rw [List.getElem?_concat_length, Function.update_self]
  · have hcell : j % latRingSz ≠ samples.length % latRingSz := by
      unfold latRingSz at hrecent ⊢
      omega
    rw [List.getElem?_append_left (by omega), Function.update_of_ne hcell]
    exact h j (by omega) (by omega)

theorem Holds.latest (h : Holds ring samples) {i : ℕ} (hi : i < samples.length) :
    ∃ j, i ≤ j ∧ j < samples.length ∧ samples[j]? = some (ring (i % latRingSz)) := by
  have hdiv := Nat.div_add_mod (samples.length - 1 - i) latRingSz
  have hmod : (samples.length - 1 - i) % latRingSz < latRingSz := Nat.mod_lt _ (by decide)
  generalize hq : (samples.length - 1 - i) / latRingSz = q at hdiv
  have hcell : (i + latRingSz * q) % latRingSz = i % latRingSz := Nat.add_mul_mod_self_left _ _ _
  refine ⟨i + latRingSz * q, by omega, by omega, ?_⟩
  rw [← hcell]
  exact h _ (by omega) (by omega)

theorem Holds.window (h : Holds ring samples) {n : ℕ} (hn : n ≤ samples.length)
    (hn' : n ≤ latRingSz) :
    (List.range n).map (fun i => ring ((samples.length - n + i) % latRingSz)) =
      lastOf samples samples.length n := by
  refine List.ext_getElem? fun i => ?_
  rw [lastOf, List.take_length, List.getElem?_drop, List.getElem?_map]
  by_cases hi : i < n
  · rw [List.getElem?_range hi, Option.map_some]
    exact (h _ (by omega) (by omega)).symm
  · rw [List.getElem?_eq_none (by rw [List.length_range]; omega), Option.map_none,
      List.getElem?_eq_none (by omega)]

end Ring

section Growing
variable {samples : List ℕ} {r : Report} {start stop n : ℕ} {buf : List ℕ}

theorem lastOf_append (more : List ℕ) (h : stop ≤ samples.length) :
    lastOf (samples ++ more) stop n = lastOf samples stop n := by
  rw [lastOf, List.take_append_of_le_length h, lastOf]

theorem Printed.append {rs : List Report} (h : Printed samples stop rs) (more : List ℕ) :
    Printed (samples ++ more) stop rs := by
  induction h with
  | nil => exact .nil
  | snoc _ hle hstop hne hranks ih =>
    refine ih.snoc hle ?_ hne ?_
    · rw [List.length_append]
      omega
    · rwa [lastOf_append more hstop]

theorem Copied.append (h : Copied samples start n buf) (v : ℕ) :
    Copied (samples ++ [v]) start n buf where
  start_le := h.start_le.trans (by simp)
  real := by
    intro w hw
    obtain ⟨j, hj, hget⟩ := h.real w hw
    have hlt := (List.getElem?_eq_some_iff.mp hget).1
    exact ⟨j, hj, by rw [List.getElem?_append_left hlt, hget]⟩
  quiet := by
    intro heq
    have hle := h.start_le
    rw [List.length_append, List.length_singleton] at heq
    omega

theorem Snapshot.append (h : Snapshot samples start r) (v : ℕ) :
    Snapshot (samples ++ [v]) start r := by
  unfold Snapshot at h ⊢
  split_ifs at h ⊢
  · exact h
  · obtain ⟨buf, hlen, hcopied, hranks⟩ := h
    exact ⟨buf, hlen, hcopied.append v, hranks⟩

theorem Copied.snoc {ring : ℕ → ℕ} (h : Copied samples start n buf)
    (hring : Holds ring samples) {m : ℕ} (hm : start ≤ m) (hm' : m ≤ samples.length)
    (hn : n ≤ start) (hn' : n ≤ latRingSz) (hlen : buf.length < n) :
    Copied samples start n (buf ++ [ring ((m - n + buf.length) % latRingSz)]) where
  start_le := h.start_le
  real := by
    intro v hv
    rcases List.mem_append.mp hv with hv | hv
    · exact h.real v hv
    · obtain rfl := List.mem_singleton.mp hv
      obtain ⟨j, hj, _, hget⟩ := @Holds.latest ring samples hring (m - n + buf.length) (by omega)
      exact ⟨j, by omega, hget⟩
  quiet := by
    intro heq
    obtain rfl : m = start := by omega
    have hget := hring (m - n + buf.length) (by omega) (by omega)
    rw [List.length_append, List.length_singleton, List.take_add_one, ← h.quiet heq, lastOf,
      List.getElem?_drop, List.getElem?_take_of_lt (by omega), hget]
    rfl

end Growing

/-- The state of a copy under way, of which a load of the counter may be the last. -/
def Reading (samples : List ℕ) (start counted : ℕ) : Reader → Prop
  | .idle => True
  | .count n buf => n = taken (start % 2 ^ 32) ∧ buf.length < n ∧ Copied samples start n buf
  | .cell n buf c => n = taken (start % 2 ^ 32) ∧ buf.length < n ∧ Copied samples start n buf ∧
    ∃ m, start ≤ m ∧ m ≤ counted ∧ c = m % 2 ^ 32

theorem Reading.store {samples : List ℕ} {start counted : ℕ} {r : Reader}
    (h : Reading samples start counted r) (v : ℕ) : Reading (samples ++ [v]) start counted r := by
  cases r with
  | idle => trivial
  | count n buf => exact ⟨h.1, h.2.1, h.2.2.append v⟩
  | cell n buf c => exact ⟨h.1, h.2.1, h.2.2.1.append v, h.2.2.2⟩

theorem Reading.count {samples : List ℕ} {start counted counted' : ℕ} {r : Reader}
    (h : Reading samples start counted r) (hle : counted ≤ counted') :
    Reading samples start counted' r := by
  cases r with
  | idle => trivial
  | count n buf => exact h
  | cell n buf c =>
    obtain ⟨hn, hbuf, hc, m, hm, hm', rfl⟩ := h
    exact ⟨hn, hbuf, hc, m, hm, hm'.trans hle, rfl⟩

structure Inv (s : State) : Prop where
  stored : s.counting = true → s.samples ≠ []
  latCount : s.latCount = s.counted % 2 ^ 32
  ring : Holds s.latRing s.samples
  window : s.printedAt ≤ s.counted ∧ s.latWindowStart = s.printedAt % 2 ^ 32
  begun : s.begunAt ≤ s.counted
  reading : Reading s.samples s.begunAt s.counted s.reader
  printed : Printed s.samples s.printedAt s.printed

section Steps
variable {s t : State}

theorem counted_le (s : State) : s.counted ≤ s.samples.length := by
  unfold State.counted
  split <;> omega

theorem init_inv : Inv init where
  stored h := Bool.noConfusion h
  latCount := rfl
  ring j hj := absurd hj (Nat.not_lt_zero j)
  window := ⟨Nat.zero_le _, rfl⟩
  begun := Nat.zero_le _
  reading := trivial
  printed := .nil

theorem counted_latStore (hcounting : s.counting = false) (v : ℕ) :
    (s.latStore v).counted = s.counted := by
  unfold State.counted
  rw [hcounting]
  simp [State.latStore]

theorem Inv.latStore (h : Inv s) (hcounting : s.counting = false) (v : ℕ) : Inv (s.latStore v) := by
  have hcounted : s.counted = s.samples.length := by simp [State.counted, hcounting]
  have hsame := counted_latStore hcounting v
  have hcell : s.latCount &&& latRingMask = s.samples.length % latRingSz := by
    rw [and_latRingMask, h.latCount, hcounted]
    exact Nat.mod_mod_of_dvd _ (by decide)
  constructor
  · exact fun _ => List.append_ne_nil_of_right_ne_nil _ (List.cons_ne_nil _ _)
  · rw [hsame]
    exact h.latCount
  · have hring := h.ring.store v
    rwa [← hcell] at hring
  · rw [hsame]
    exact h.window
  · rw [hsame]
    exact h.begun
  · rw [hsame]
    exact h.reading.store v
  · exact h.printed.append [v]

theorem Inv.count (h : Inv s) (hcounting : s.counting = true) :
    Inv { s with latCount := (s.latCount + 1) % 2 ^ 32, counting := false } := by
  have hpos : 0 < s.samples.length := List.length_pos_of_ne_nil (h.stored hcounting)
  have hcounted : s.counted = s.samples.length - 1 := if_pos hcounting
  have hnext : State.counted { s with latCount := (s.latCount + 1) % 2 ^ 32, counting := false } =
      s.counted + 1 := by
    rw [hcounted]
    exact (Nat.sub_add_cancel hpos).symm
  have hle := Nat.le_add_right s.counted 1
  constructor
  · exact fun hc => Bool.noConfusion hc
  · rw [hnext]
    dsimp only
    rw [h.latCount, Nat.mod_add_mod]
  · exact h.ring
  · rw [hnext]
    exact ⟨h.window.1.trans hle, h.window.2⟩
  · rw [hnext]
    exact h.begun.trans hle
  · rw [hnext]
    exact h.reading.count hle
  · exact h.printed

theorem Inv.latPrintAndReset (h : Inv s) (hcounting : s.counting = false) :
    Inv s.latPrintAndReset := by
  have hcounted : s.counted = s.samples.length := by simp [State.counted, hcounting]
  obtain ⟨hle, hwindow⟩ := h.window
  have htotal : (s.latCount + 2 ^ 32 - s.latWindowStart) % 2 ^ 32 =
      (s.samples.length - s.printedAt) % 2 ^ 32 := by
    rw [h.latCount, hwindow]
    omega
  unfold State.latPrintAndReset
  dsimp only
  rw [htotal]
  have hbounds := taken_le ((s.samples.length - s.printedAt) % 2 ^ 32)
  have hpos : (s.samples.length - s.printedAt) % 2 ^ 32 ≠ 0 →
      0 < taken ((s.samples.length - s.printedAt) % 2 ^ 32) := taken_pos
  generalize hn : taken ((s.samples.length - s.printedAt) % 2 ^ 32) = n at hbounds hpos ⊢
  have hfits : n ≤ s.samples.length := by omega
  split
  · exact h
  · next hne =>
    have hbuf : (List.range n).map (fun i => s.latRing (cellOf s.latCount n i)) =
        lastOf s.samples s.samples.length n := by
      rw [← h.ring.window hfits hbounds.2]
      refine List.map_congr_left fun i _ => ?_
      rw [h.latCount, hcounted, cellOf_eq hfits hbounds.2]
    rw [hbuf]
    refine { h with window := ⟨le_rfl, h.latCount⟩, printed := ?_ }
    refine h.printed.snoc hle hcounted.le (by rwa [hcounted]) ?_
    rw [hcounted, hn]
    refine report_ranks (List.ne_nil_of_length_pos ?_)
    rw [length_lastOf hfits]
    exact hpos hne

/-- A snapshot that began after `start` samples were counted, with the reports `before` it, is under
way or has made its report. -/
def Underway (start : ℕ) (before : List Report) (s : State) : Prop :=
  (s.reader ≠ .idle ∧ s.snapshots = before ∧ s.begunAt = start ∧ start % 2 ^ 32 ≠ 0) ∨
  (s.reader = .idle ∧ ∃ r, s.snapshots = before ++ [r] ∧ Snapshot s.samples start r)

theorem Inv.begin (h : Inv s) (ht : Step s .begin t) :
    Inv t ∧ Underway s.counted s.snapshots t := by
  simp only [Step, step] at ht
  split at ht
  · next hidle =>
    split at ht
    · next hzero =>
      cases ht
      refine ⟨{ h with }, .inr ⟨hidle, _, rfl, ?_⟩⟩
      rw [Snapshot, if_pos (h.latCount.symm.trans hzero)]
    · next hne =>
      cases ht
      refine ⟨{ h with begun := le_rfl, reading := ⟨?_, ?_, ?_⟩ },
        .inl ⟨nofun, rfl, rfl, h.latCount ▸ hne⟩⟩
      · rw [h.latCount]
      · exact taken_pos hne
      · exact ⟨counted_le s, fun _ hv => absurd hv List.not_mem_nil, fun _ => rfl⟩
  · cases ht

theorem Inv.latLoad (h : Inv s) (ht : s.latLoad = some t) :
    Inv t ∧ ∀ start before, Underway start before s → Underway start before t := by
  have hreading := h.reading
  unfold State.latLoad at ht
  cases hreader : s.reader with
  | idle =>
    rw [hreader] at ht
    cases ht
  | count n buf =>
    rw [hreader] at ht hreading
    cases ht
    refine ⟨{ h with reading := ⟨hreading.1, hreading.2.1, hreading.2.2, s.counted, h.begun,
      le_rfl, h.latCount⟩ }, fun start before hu => ?_⟩
    rcases hu with ⟨-, hrest⟩ | ⟨hidle, -⟩
    · exact .inl ⟨nofun, hrest⟩
    · exact absurd (hreader.symm.trans hidle) nofun
  | cell n buf c =>
    rw [hreader] at ht hreading
    obtain ⟨hn, hbuf, hcopied, m, hm, hm', rfl⟩ := hreading
    obtain ⟨hstart, hsize⟩ := taken_le (s.begunAt % 2 ^ 32)
    rw [← hn] at hstart hsize
    have hfits : n ≤ s.begunAt := hstart.trans (Nat.mod_le _ _)
    have hnext := hcopied.snoc h.ring hm (hm'.trans (counted_le s)) hfits hsize hbuf
    rw [← cellOf_eq (hfits.trans hm) hsize] at hnext
    dsimp only at ht
    generalize s.latRing (cellOf (m % 2 ^ 32) n buf.length) = v at ht hnext
    have hlen : (buf ++ [v]).length = buf.length + 1 := List.length_append
    have hbusy : s.reader ≠ .idle := by
      rw [hreader]
      exact nofun
    split at ht
    · next hmore =>
      cases ht
      refine ⟨{ h with reading := ⟨hn, hmore, hnext⟩ }, fun start before hu => ?_⟩
      rcases hu with ⟨-, hrest⟩ | ⟨hidle, -⟩
      · exact .inl ⟨nofun, hrest⟩
      · exact absurd hidle hbusy
    · next hdone =>
      cases ht
      refine ⟨{ h with reading := trivial }, fun start before hu => ?_⟩
      rcases hu with ⟨-, hsame, hbegun, hne⟩ | ⟨hidle, -⟩
      · refine .inr ⟨rfl, report (buf ++ [v]), by rw [← hsame], ?_⟩
        rw [Snapshot, if_neg hne]
        rw [hbegun] at hn hnext
        refine ⟨buf ++ [v], by omega, hn ▸ hnext, ?_⟩
        exact report_ranks (List.append_ne_nil_of_right_ne_nil _ (List.cons_ne_nil _ _))
      · exact absurd hidle hbusy

theorem Underway.sender {start : ℕ} {before : List Report} (h : Underway start before s)
    (hreader : t.reader = s.reader) (hsnapshots : t.snapshots = s.snapshots)
    (hbegun : t.begunAt = s.begunAt)
    (hsamples : t.samples = s.samples ∨ ∃ v, t.samples = s.samples ++ [v]) :
    Underway start before t := by
  unfold Underway
  rw [hreader, hsnapshots, hbegun]
  refine h.imp_right fun ⟨hidle, r, hr, hsnap⟩ => ⟨hidle, r, hr, ?_⟩
  rcases hsamples with hsame | ⟨v, hmore⟩
  · rw [hsame]
    exact hsnap
  · rw [hmore]
    exact hsnap.append v

theorem latPrintAndReset_frame (s : State) : ∃ printed start printedAt,
    s.latPrintAndReset = { s with
      printed := printed, latWindowStart := start, printedAt := printedAt } := by
  unfold State.latPrintAndReset
  dsimp only
  split <;> exact ⟨_, _, _, rfl⟩

theorem Step.inv {a : Action} (h : Step s a t) (hs : Inv s) :
    Inv t ∧ (a ≠ .begin → ∀ start before, Underway start before s → Underway start before t) := by
  cases a with
  | store parseNs sendNs =>
    simp only [Step, step] at h
    split at h
    · cases h
    · next hcounting =>
      cases h
      exact ⟨hs.latStore (Bool.eq_false_iff.mpr hcounting) _,
        fun _ _ _ hu => hu.sender rfl rfl rfl (.inr ⟨_, rfl⟩)⟩
  | count =>
    simp only [Step, step] at h
    split at h
    · next hcounting =>
      cases h
      exact ⟨hs.count hcounting, fun _ _ _ hu => hu.sender rfl rfl rfl (.inl rfl)⟩
    · cases h
  | print =>
    simp only [Step, step] at h
    split at h
    · cases h
    · next hcounting =>
      cases h
      refine ⟨hs.latPrintAndReset (Bool.eq_false_iff.mpr hcounting), fun _ _ _ hu => ?_⟩
      obtain ⟨printed, start, printedAt, hprint⟩ := latPrintAndReset_frame s
      rw [hprint]
      exact hu.sender rfl rfl rfl (.inl rfl)
  | begin => exact ⟨(hs.begin h).1, fun hne => absurd rfl hne⟩
  | load =>
    obtain ⟨hinv, hunder⟩ := hs.latLoad h
    exact ⟨hinv, fun _ => hunder⟩

theorem underway_of_run {bs : List Action} (hr : Runs Step s bs t) (hs : Inv s)
    (hno : .begin ∉ bs) {start : ℕ} {before : List Report} (h : Underway start before s) :
    Underway start before t := by
  have hall : Inv t ∧ Underway start before t := by
    induction hr with
    | nil => exact ⟨hs, h⟩
    | @snoc bs a t u _ he ih =>
      obtain ⟨ht, hunder⟩ := ih fun hin => hno (List.mem_append_left _ hin)
      obtain ⟨hu, hkeeps⟩ := he.inv ht
      refine ⟨hu, hkeeps ?_ _ _ hunder⟩
      rintro rfl
      exact hno (by simp)
  exact hall.2

end Steps

/-- Over every interleaving of the sender and the telemetry thread, each printed report is
exact for the samples since the print before, as far as the ring holds them. A snapshot begun in
any state, once it is done, has made a report on real samples, none older than the last 4096
counted when it began, and on exactly these if nothing was stored since. -/
theorem latency_reports_sound {as : List Action} {s : State} (hr : Runs Step init as s) :
    Printed s.samples s.printedAt s.printed ∧
      ∀ t bs u, Step s .begin t → Runs Step t bs u → .begin ∉ bs → u.reader = .idle →
        ∃ r, u.snapshots = s.snapshots ++ [r] ∧ Snapshot u.samples s.counted r := by
  have hinv : Inv s := hr.invariant init_inv fun _ _ _ hs hstep => (hstep.inv hs).1
  refine ⟨hinv.printed, fun t bs u hbegin hrun hno hidle => ?_⟩
  obtain ⟨ht, hunder⟩ := hinv.begin hbegin
  rcases underway_of_run hrun ht hno hunder with ⟨hbusy, -⟩ | ⟨-, hdone⟩
  · exact absurd hidle hbusy
  · exact hdone

def twoSamples : List Action := [.store 1 5, .count, .store 2 9, .count]

/-- A third sample arrives in the middle of the copy, which misses the second one. -/
def racingLoads : List Action :=
  [.load, .load, .store 3 103, .count, .load, .load, .print]

theorem latency_reports_sound_racing : ∃ s t u, Runs Step init twoSamples s ∧
    Step s .begin t ∧ Runs Step t racingLoads u ∧
    u.snapshots = [report [4, 100]] ∧ u.printed = [report [4, 7, 100]] ∧
    Printed u.samples u.printedAt u.printed ∧ Snapshot u.samples 2 (report [4, 100]) := by
  have hrun : ∃ s ∈ twoSamples.foldlM step init, s.counted = 2 ∧ s.snapshots = [] ∧
      ∃ t ∈ step s .begin, ∃ u ∈ racingLoads.foldlM step t, u.reader = .idle ∧
        u.snapshots = [report [4, 100]] ∧ u.printed = [report [4, 7, 100]] := by decide +kernel
  obtain ⟨s, hs, hcounted, hnone, t, ht, u, hu, hidle, hsnapshots, hprinted⟩ := hrun
  have hr : Runs Step init twoSamples s := Runs.of_foldlM hs
  have hru : Runs Step t racingLoads u := Runs.of_foldlM hu
  obtain ⟨r, hr', hsnap⟩ := (latency_reports_sound hr).2 t _ u ht hru (by decide) hidle
  have hwhole : Runs Step init (twoSamples ++ [.begin] ++ racingLoads) u :=
    (hr.snoc ht).trans hru
  obtain rfl : r = report [4, 100] := by
    rw [hsnapshots, hnone, List.nil_append] at hr'
    exact (List.singleton_inj.mp hr').symm
  rw [hcounted] at hsnap
  exact ⟨s, t, u, hr, ht, hru, hsnapshots, hprinted, (latency_reports_sound hwhole).1, hsnap⟩

end TradingPipeline.Latency
