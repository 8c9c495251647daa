import Mathlib.Data.List.SplitLengths
import Mathlib.Data.List.Induction
import TradingPipeline.Lib.FixedFrames

/-! # Frames behind a buffer of a fixed size

A reader that scans for frames keeps the unfinished one in a buffer for `cap` elements. What
arrives and does not fit beside it replaces it. The reader sees every stream of frames exactly
if each arrival fits: otherwise a frame is lost, on any stream in which frames cannot be
mistaken for others.
-/
namespace TradingPipeline.Lib

variable {α σ : Type*} {n cap : ℕ} {ok : List α → Bool} {f : σ → List α → σ} {s s₀ : σ}

def arrived (cap : ℕ) (held data : List α) : List α :=
  if cap < held.length + data.length then data.drop (data.length - cap) else held ++ data

def scanArrival (n cap : ℕ) (ok : List α → Bool) (f : σ → List α → σ) (r : σ × List α)
    (data : List α) : σ × List α :=
  if data = [] then r
  else scanFrames n ok f (arrived cap r.2 data).length r.1 (arrived cap r.2 data)

/-- Arrivals of these sizes fit beside the unfinished frame in front of them. -/
def Fit (n cap : ℕ) (sizes : List ℕ) : Prop :=
  ∀ front len, front ++ [len] <+: sizes → front.sum % n + len ≤ cap

theorem Fit.of_prefix {front sizes : List ℕ} (hfront : front <+: sizes) (h : Fit n cap sizes) :
    Fit n cap front :=
  fun part len hpart => h part len (hpart.trans hfront)

theorem exists_first_unfit {sizes : List ℕ} (h : ¬Fit n cap sizes) :
    ∃ front len, front ++ [len] <+: sizes ∧ Fit n cap front ∧ cap < front.sum % n + len := by
  induction sizes using List.reverseRecOn with
  | nil =>
    refine absurd (fun front len hpre => ?_) h
    exact absurd (List.prefix_nil.mp hpre) (by simp)
  | append_singleton sizes len ih =>
    by_cases hfit : Fit n cap sizes
    · refine ⟨sizes, len, List.prefix_rfl, hfit, ?_⟩
      by_contra hlast
      refine h fun front len' hpre => ?_
      rcases List.prefix_concat_iff.mp hpre with heq | hpre
      · obtain ⟨rfl, hlen⟩ := List.append_inj' heq rfl
        cases hlen
        exact not_lt.mp hlast
      · exact hfit front len' hpre
    · obtain ⟨front, len', hpre, hrest⟩ := ih hfit
      exact ⟨front, len', hpre.trans (List.prefix_append _ _), hrest⟩

theorem HasRead.carry_length {bs : List α} {r : σ × List α} (h : HasRead n f s₀ bs r) :
    r.2.length = bs.length % n := by
  obtain ⟨frames, hbs, hall, hlt, -⟩ := h
  rw [hbs, List.length_append, length_flatten_of_frames hall, Nat.mul_add_mod,
    Nat.mod_eq_of_lt hlt]

theorem hasRead_of_fit (hn : 0 < n) {chunks : List (List α)}
    (hfit : Fit n cap (chunks.map List.length))
    (hok : ∀ x ∈ division n chunks.flatten, ok x = true) :
    HasRead n f s₀ chunks.flatten (chunks.foldl (scanArrival n cap ok f) (s₀, [])) := by
  induction chunks using List.reverseRecOn with
  | nil => exact HasRead.start hn
  | append_singleton chunks data ih =>
    rw [List.map_append, List.map_singleton] at hfit
    rw [List.flatten_append, List.flatten_singleton] at hok ⊢
    rw [List.foldl_append, List.foldl_cons, List.foldl_nil]
    have hprev := ih (hfit.of_prefix (List.prefix_append _ _))
      (fun x hx => hok x ((division_mono (List.prefix_append _ _)).subset hx))
    generalize chunks.foldl (scanArrival n cap ok f) (s₀, []) = r at hprev ⊢
    by_cases hnil : data = []
    · rw [scanArrival, if_pos hnil, hnil, List.append_nil]
      exact hprev
    · have hroom : r.2.length + data.length ≤ cap := by
        rw [hprev.carry_length, List.length_flatten]
        exact hfit _ _ List.prefix_rfl
      have hbuf : arrived cap r.2 data = r.2 ++ data := if_neg (not_lt.mpr hroom)
      rw [scanArrival, if_neg hnil, hbuf]
      exact HasRead.scan hn hprev hok le_rfl

/-- Where acceptable frames start at multiples of `n` only, no more of them are found than lie
behind the first element that is left. -/
theorem count_scanFrames_le (hn : 0 < n) {count : σ → ℕ} (hf : ∀ s x, count (f s x) = count s + 1)
    {bs : List α}
    (hsync : ∀ i, i + n ≤ bs.length → ok ((bs.drop i).take n) = true → n ∣ i) (fuel i : ℕ) (s : σ) :
    count (scanFrames n ok f fuel s (bs.drop i)).1 ≤
      count s + (bs.length / n - (i + n - 1) / n) := by
  induction fuel generalizing i s with
  | zero => exact Nat.le_add_right _ _
  | succ fuel ih =>
    unfold scanFrames
    split
    · next hle =>
      rw [List.length_drop] at hle
      have hin : i + n ≤ bs.length := by omega
      split
      · next hframe =>
        -- a frame at a multiple of `n` uses up one of those counted
        obtain ⟨k, rfl⟩ := hsync i hin hframe
        have hrest := ih (n * k + n) (f s ((bs.drop (n * k)).take n))
        have hstart : (n * k + n - 1) / n = k := by
          rw [Nat.add_sub_assoc hn, Nat.mul_add_div hn, Nat.div_eq_of_lt (by omega), Nat.add_zero]
        have hnext : (n * k + n + n - 1) / n = k + 1 := by
          rw [show n * k + n + n - 1 = n * (k + 1) + (n - 1) by rw [Nat.mul_add]; omega,
            Nat.mul_add_div hn, Nat.div_eq_of_lt (by omega), Nat.add_zero]
        have hmore : k + 1 ≤ bs.length / n := by
          rw [Nat.le_div_iff_mul_le hn, Nat.mul_comm, Nat.mul_add, Nat.mul_one]
          exact hin
        rw [hf, hnext] at hrest
        rw [List.drop_drop, hstart]
        omega
      · have hrest := ih (i + 1) s
        have hmono : (i + n - 1) / n ≤ (i + 1 + n - 1) / n := Nat.div_le_div_right (by omega)
        rw [List.drop_drop]
        omega
    · exact Nat.le_add_right _ _

theorem count_foldl {count : σ → ℕ} (hf : ∀ s x, count (f s x) = count s + 1) (s : σ)
    (frames : List (List α)) : count (frames.foldl f s) = count s + frames.length := by
  induction frames generalizing s with
  | nil => rfl
  | cons x frames ih =>
    rw [List.foldl_cons, ih, hf, List.length_cons, Nat.add_assoc, Nat.add_comm 1]

theorem count_lt_of_unfit (hn : 0 < n) (hcap : n ≤ cap) {count : σ → ℕ}
    (hf : ∀ s x, count (f s x) = count s + 1) {bs data : List α} {r : σ × List α}
    (h : HasRead n f s₀ bs r) (hover : cap < bs.length % n + data.length)
    (hsync : ∀ i, i + n ≤ (bs ++ data).length →
      ok (((bs ++ data).drop i).take n) = true → n ∣ i) :
    count (scanArrival n cap ok f r data).1 < count s₀ + (bs ++ data).length / n := by
  have hbefore : count r.1 = count s₀ + bs.length / n := by
    obtain ⟨frames, hbs, hall, hlt, hs⟩ := h
    rw [hs, count_foldl hf, hbs, List.length_append, length_flatten_of_frames hall,
      Nat.mul_add_div hn,
      Nat.div_eq_of_lt hlt, Nat.add_zero]
  have hne : data ≠ [] := by
    rintro rfl
    have := Nat.mod_lt bs.length hn
    rw [List.length_nil] at hover
    omega
  have hbuf : arrived cap r.2 data = (bs ++ data).drop (bs.length + (data.length - cap)) := by
    rw [arrived, h.carry_length, if_pos hover, List.drop_length_add_append]
  have hfound := count_scanFrames_le hn hf hsync
    ((bs ++ data).drop (bs.length + (data.length - cap))).length
    (bs.length + (data.length - cap)) r.1
  -- the first element that is left lies behind the start of the unfinished frame
  have hdiv := Nat.div_add_mod bs.length n
  have hmod := Nat.mod_lt bs.length hn
  have hstart : bs.length / n + 1 ≤ (bs.length + (data.length - cap) + n - 1) / n := by
    rw [Nat.le_div_iff_mul_le hn, Nat.mul_comm, Nat.mul_add, Nat.mul_one]
    omega
  have htotal : bs.length / n + 1 ≤ (bs ++ data).length / n := by
    rw [Nat.le_div_iff_mul_le hn, Nat.mul_comm, Nat.mul_add, Nat.mul_one, List.length_append]
    omega
  rw [scanArrival, if_neg hne, hbuf]
  omega

theorem exact_of_fit (hn : 0 < n) {frames chunks : List (List α)}
    (hframes : ∀ x ∈ frames, x.length = n) (hok : ∀ x ∈ frames, ok x = true)
    (hfit : Fit n cap (chunks.map List.length)) (hpre : chunks.flatten <+: frames.flatten) :
    (chunks.foldl (scanArrival n cap ok f) (s₀, [])).1 =
      (frames.take (chunks.flatten.length / n)).foldl f s₀ := by
  have hdiv : ∀ x ∈ division n chunks.flatten, ok x = true := by
    intro x hx
    have hmem := (division_mono hpre).subset hx
    rw [division_flatten hn hframes] at hmem
    exact hok x hmem
  have hread : HasRead n f s₀ chunks.flatten (chunks.foldl (scanArrival n cap ok f) (s₀, [])) :=
    hasRead_of_fit hn hfit hdiv
  refine HasRead.of_prefix (b := []) hread hframes hn ?_
  rw [List.append_nil]
  exact hpre

theorem exists_chunks {sizes : List ℕ} {bs : List α} (h : sizes.sum ≤ bs.length) :
    ∃ chunks : List (List α), chunks.map List.length = sizes ∧ chunks.flatten <+: bs := by
  have hlength : (bs.take sizes.sum).length = sizes.sum := List.length_take_of_le h
  refine ⟨sizes.splitLengths (bs.take sizes.sum), ?_, ?_⟩
  · exact List.map_splitLengths_length _ _ hlength.ge
  · rw [List.flatten_splitLengths _ _ hlength.le]
    exact List.take_prefix _ _

theorem exists_chunks_at {sizes rest : List ℕ} {len : ℕ} {bs : List α}
    (h : (sizes ++ [len] ++ rest).sum ≤ bs.length) :
    ∃ (pre : List (List α)) (data : List α) (last : List (List α)),
      pre.map List.length = sizes ∧ data.length = len ∧
      (pre ++ [data] ++ last).map List.length = sizes ++ [len] ++ rest ∧
      (pre ++ [data] ++ last).flatten <+: bs := by
  obtain ⟨chunks, hsizes, hpre⟩ := exists_chunks h
  obtain ⟨front, last, rfl, hfront, -⟩ := List.map_eq_append_iff.mp hsizes
  obtain ⟨pre, single, rfl, hsizes', hsingle⟩ := List.map_eq_append_iff.mp hfront
  obtain ⟨data, rfl, hdata⟩ := List.map_eq_singleton_iff.mp hsingle
  exact ⟨pre, data, last, hsizes', hdata, hsizes, hpre⟩

section Markers
variable {x z : α} {m : ℕ}

/-- A frame of which only the first element can start one. -/
def marker (x z : α) (m : ℕ) : List α := x :: List.replicate m z

theorem marker_length (x z : α) (m : ℕ) : (marker x z m).length = m + 1 := by
  rw [marker, List.length_cons, List.length_replicate]

theorem getElem?_markers {K i : ℕ} (hi : i < (List.replicate K (marker x z m)).flatten.length)
    (hmod : i % (m + 1) ≠ 0) : (List.replicate K (marker x z m)).flatten[i]? = some z := by
  induction K generalizing i with
  | zero => exact absurd hi (Nat.not_lt_zero i)
  | succ K ih =>
    rw [List.replicate_succ, List.flatten_cons] at hi ⊢
    by_cases hfirst : i < m + 1
    · rw [Nat.mod_eq_of_lt hfirst] at hmod
      obtain ⟨j, rfl⟩ := Nat.exists_eq_succ_of_ne_zero hmod
      rw [List.getElem?_append_left (by rwa [marker_length]), marker, List.getElem?_cons_succ,
        List.getElem?_replicate_of_lt (by omega)]
    · rw [List.length_append, marker_length] at hi
      rw [List.getElem?_append_right (by rw [marker_length]; omega), marker_length]
      apply ih (by omega)
      rwa [← Nat.add_mod_right, Nat.sub_add_cancel (not_lt.mp hfirst)]

theorem markers_sync (hz : ∀ w, ok (z :: w) = false) (K T : ℕ) {i : ℕ}
    (hi : i + (m + 1) ≤ ((List.replicate K (marker x z m)).flatten.take T).length)
    (hframe : ok ((((List.replicate K (marker x z m)).flatten.take T).drop i).take (m + 1))
      = true) :
    m + 1 ∣ i := by
  by_contra hnot
  have hlt : i < ((List.replicate K (marker x z m)).flatten.take T).length := by omega
  have hbounds := hlt
  rw [List.length_take] at hbounds
  have hget : ((List.replicate K (marker x z m)).flatten.take T)[i] = z := by
    apply Option.some.inj
    rw [← List.getElem?_eq_getElem, List.getElem?_take_of_lt (by omega)]
    exact getElem?_markers (by omega) fun h => hnot (Nat.dvd_of_mod_eq_zero h)
  rw [List.drop_eq_getElem_cons hlt, hget, List.take_succ_cons, hz] at hframe
  cases hframe

theorem length_of_mem_markers {K : ℕ} : ∀ y ∈ List.replicate K (marker x z m),
    y.length = m + 1 := by
  intro y hy
  rw [List.eq_of_mem_replicate hy, marker_length]

theorem length_markers (x z : α) (m K : ℕ) :
    (List.replicate K (marker x z m)).flatten.length = (m + 1) * K := by
  rw [length_flatten_of_frames length_of_mem_markers, List.length_replicate]

theorem count_markers_lt (count : σ → ℕ) (s₀ : σ) (hcap : m + 1 ≤ cap)
    (hz : ∀ w, ok (z :: w) = false) (hf : ∀ s x, count (f s x) = count s + 1) {K : ℕ}
    (hover : cap < (m + 1) * K) :
    count (scanArrival (m + 1) cap ok f (s₀, []) (List.replicate K (marker x z m)).flatten).1 <
      count s₀ + K := by
  have hlength := length_markers x z m K
  have hlost : count (scanArrival (m + 1) cap ok f (s₀, [])
      (List.replicate K (marker x z m)).flatten).1 <
      count s₀ + ([] ++ (List.replicate K (marker x z m)).flatten).length / (m + 1) := by
    apply count_lt_of_unfit (Nat.succ_pos m) hcap hf (HasRead.start (Nat.succ_pos m))
    · rwa [List.length_nil, Nat.zero_mod, Nat.zero_add, hlength]
    · intro i hi hframe
      rw [List.nil_append, ← List.take_length (l := (List.replicate K (marker x z m)).flatten)]
        at hi hframe
      exact markers_sync hz K _ hi hframe
  rwa [List.nil_append, hlength, Nat.mul_div_cancel_left K (Nat.succ_pos m)] at hlost

theorem fit_of_exact (count : σ → ℕ) (hcap : m + 1 ≤ cap) (hz : ∀ w, ok (z :: w) = false)
    (hf : ∀ s x, count (f s x) = count s + 1) (hok : ok (marker x z m) = true) {sizes : List ℕ}
    (h : ∀ K chunks, chunks.map List.length = sizes →
      chunks.flatten <+: (List.replicate K (marker x z m)).flatten → ∀ front, front <+: chunks →
      (front.foldl (scanArrival (m + 1) cap ok f) (s₀, [])).1 =
        ((List.replicate K (marker x z m)).take (front.flatten.length / (m + 1))).foldl f s₀) :
    Fit (m + 1) cap sizes := by
  by_contra hunfit
  obtain ⟨sizes₁, len, ⟨rest, rfl⟩, hfit, hover⟩ := exists_first_unfit hunfit
  generalize hK : (sizes₁ ++ [len] ++ rest).sum = K
  have hstream := length_markers x z m K
  -- enough markers for all sizes, cut as these say
  have hlong : (sizes₁ ++ [len] ++ rest).sum ≤
    (List.replicate K (marker x z m)).flatten.length := by
    rw [hK, hstream]
    exact Nat.le_mul_of_pos_left K (Nat.succ_pos m)
  obtain ⟨pre, data, last, hsizes₁, rfl, hsizes, hpre⟩ := exists_chunks_at hlong
  have hexact := h K _ hsizes hpre (pre ++ [data]) (List.prefix_append _ _)
  have hflat : (pre ++ [data]).flatten = pre.flatten ++ data := by
    rw [List.flatten_append, List.flatten_singleton]
  have hstart : pre.flatten ++ data <+: (List.replicate K (marker x z m)).flatten := by
    rw [← hflat]
    exact List.IsPrefix.trans ⟨last.flatten, List.flatten_append.symm⟩ hpre
  have hread : HasRead (m + 1) f s₀ pre.flatten
      (pre.foldl (scanArrival (m + 1) cap ok f) (s₀, [])) := by
    apply hasRead_of_fit (Nat.succ_pos m) (hsizes₁ ▸ hfit)
    intro y hy
    have hmem := (division_mono ((List.prefix_append _ data).trans hstart)).subset hy
    rw [division_flatten (Nat.succ_pos m) length_of_mem_markers] at hmem
    rw [List.eq_of_mem_replicate hmem, hok]
  have hshort : count (scanArrival (m + 1) cap ok f
      (pre.foldl (scanArrival (m + 1) cap ok f) (s₀, [])) data).1 <
      count s₀ + (pre.flatten ++ data).length / (m + 1) := by
    apply count_lt_of_unfit (Nat.succ_pos m) hcap hf hread
    · rwa [List.length_flatten, hsizes₁]
    · rw [List.prefix_iff_eq_take.mp hstart]
      intro i hi hframe
      exact markers_sync hz K _ hi hframe
  have hall : (pre.flatten ++ data).length / (m + 1) ≤ K := by
    have hle := hstart.length_le
    rw [hstream] at hle
    exact Nat.div_le_of_le_mul hle
  rw [List.foldl_append, List.foldl_cons, List.foldl_nil, hflat] at hexact
  rw [hexact, count_foldl hf, List.length_take, List.length_replicate, min_eq_left hall] at hshort
  exact lt_irrefl _ hshort

end Markers

section Segments
variable {τ ρ : Type*} {bytes : τ → List α} {encode : ρ → List α} {segment : List α → τ}

theorem exact_records_of_fit (hn : 0 < n) (hencode : ∀ r, (encode r).length = n) {recs : List ρ}
    {gs : List τ} (hok : ∀ r ∈ recs, ok (encode r) = true)
    (hfit : Fit n cap (gs.map fun g => (bytes g).length))
    (hpre : gs.flatMap bytes <+: recs.flatMap encode) :
    ((gs.map bytes).foldl (scanArrival n cap ok f) (s₀, [])).1 =
      ((recs.take ((gs.flatMap bytes).length / n)).map encode).foldl f s₀ := by
  have hframes : ∀ y ∈ recs.map encode, y.length = n ∧ ok y = true := by
    intro y hy
    obtain ⟨r, hr, rfl⟩ := List.mem_map.mp hy
    exact ⟨hencode r, hok r hr⟩
  rw [List.map_take, List.flatMap_def]
  apply exact_of_fit hn (fun y hy => (hframes y hy).1) (fun y hy => (hframes y hy).2)
  · rw [List.map_map]
    exact hfit
  · rw [← List.flatMap_def, ← List.flatMap_def]
    exact hpre

theorem fit_of_exact_records {x z : α} {m : ℕ} (count : σ → ℕ) (s₀ : σ) (hcap : m + 1 ≤ cap)
    (hz : ∀ w, ok (z :: w) = false) (hf : ∀ s x, count (f s x) = count s + 1)
    (hok : ok (marker x z m) = true) {r : ρ} (hr : encode r = marker x z m)
    (hsegment : ∀ p, bytes (segment p) = p) {sizes : List ℕ}
    (h : ∀ K (ps : List (List α)), (ps.map segment).map (fun g => (bytes g).length) = sizes →
      (ps.map segment).flatMap bytes <+: (List.replicate K r).flatMap encode →
      ∀ front, front <+: ps →
      (((front.map segment).map bytes).foldl (scanArrival (m + 1) cap ok f) (s₀, [])).1 =
        (((List.replicate K r).take (((front.map segment).flatMap bytes).length / (m + 1))).map
          encode).foldl f s₀) :
    Fit (m + 1) cap sizes := by
  have hbytes : ∀ ps : List (List α), (ps.map segment).map bytes = ps := by
    intro ps
    rw [List.map_map]
    exact List.map_id'' hsegment ps
  have hlengths : ∀ ps : List (List α),
      (ps.map segment).map (fun g => (bytes g).length) = ps.map List.length := by
    intro ps
    rw [List.map_map]
    exact List.map_congr_left fun p _ => congrArg List.length (hsegment p)
  have hmarkers : ∀ K, (List.replicate K r).map encode = List.replicate K (marker x z m) := by
    intro K
    rw [List.map_replicate, hr]
  apply fit_of_exact count hcap hz hf hok
  intro K ps hsizes hpre front hfront
  have hexact := h K ps (by rw [hlengths, hsizes])
    (by rw [List.flatMap_def, List.flatMap_def, hbytes, hmarkers]; exact hpre) front hfront
  rwa [hbytes, List.map_take, hmarkers, List.flatMap_def, hbytes] at hexact

end Segments

end TradingPipeline.Lib
