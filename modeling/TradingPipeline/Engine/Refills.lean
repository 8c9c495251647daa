import TradingPipeline.Engine.RateCap
import TradingPipeline.Lib.RefillSchedule

/-! # The arithmetic of the refills

A refill should add the whole tokens of the idle time, up to the burst. The market maker
forms the product in 64 bits, narrows the quotient to an `int32_t` and adds it to another
one; the risk gate only wraps the product. Long idle times leave those ranges. Between two
refills nothing is kept of the fraction of a token, so what a bucket earns depends on the
times of the events.
-/
namespace TradingPipeline.Engine
open Lib Book

section Exact

/-- At time `ts` the refill adds what the time since `last` has earned, up to the burst,
whatever the number of tokens was. -/
def ExactAt (rate last : ℕ) (burst : ℤ) (refill : ℕ → ℤ → ℤ) (ts : ℕ) : Prop :=
  ∀ tokens, 0 ≤ tokens → tokens ≤ burst →
    refill ts tokens = min (tokens + (rate * (ts - last) / nsPerSec : ℕ)) burst

/-- The refill is exact at exactly the times that fit, and among those a longer idle time
never yields fewer tokens. -/
structure ExactWhen (rate last : ℕ) (burst : ℤ) (refill : ℕ → ℤ → ℤ) (fits : ℕ → Prop) :
    Prop where
  exact_iff : ∀ ts, last < ts → ts < 2 ^ 64 → (ExactAt rate last burst refill ts ↔ fits ts)
  mono : ∀ ts ts' tokens, last < ts → ts ≤ ts' → ts' < 2 ^ 64 → fits ts → fits ts' →
    0 ≤ tokens → tokens ≤ burst → refill ts tokens ≤ refill ts' tokens

theorem ExactWhen.of_iff {rate last : ℕ} {burst : ℤ} {refill : ℕ → ℤ → ℤ} {fits : ℕ → Prop}
    (h : ∀ ts, last < ts → ts < 2 ^ 64 → (ExactAt rate last burst refill ts ↔ fits ts)) :
    ExactWhen rate last burst refill fits := by
  constructor
  · exact h
  · intro ts ts' tokens hlast hle hlt hfits hfits' h0 hcap
    have hts := (h ts hlast (by omega)).mpr hfits tokens h0 hcap
    have hts' := (h ts' (by omega) hlt).mpr hfits' tokens h0 hcap
    have hearned : rate * (ts - last) / nsPerSec ≤ rate * (ts' - last) / nsPerSec := by
      apply Nat.div_le_div_right
      apply Nat.mul_le_mul_left
      omega
    rw [hts, hts']
    apply min_le_min_right
    exact Int.add_le_add_left (Int.ofNat_le.mpr hearned) tokens

/-- When a bucket of the market maker is refilled exactly: the tokens to add and the burst
make an `int32_t`, or they wrapped to a number that fills the bucket all the same. A bucket
with the refill time 0 is not refilled. -/
def BucketFits (rate burst : ℤ) (last ts : ℕ) : Prop :=
  (last = 0 → rate.toNat * (ts - last) / nsPerSec = 0) ∧
  (last ≠ 0 → ((rate.toNat * (ts - last) / nsPerSec : ℕ) : ℤ) + burst < 2 ^ 31 ∨
    (burst ≤ bucketAdd rate ts last ∧ bucketAdd rate ts last + burst < 2 ^ 31))

/-- When the bucket of the risk gate is refilled exactly: the product is below `2 ^ 64`, or
what it wrapped to fills the bucket all the same. -/
def RiskFits (rate burst last now : ℕ) : Prop :=
  rate * (now - last) < 2 ^ 64 ∨ burst ≤ rate * (now - last) % 2 ^ 64 / nsPerSec

theorem int32_le_self {x : ℤ} (h : 0 ≤ x) : int32 x ≤ x := by
  rw [int32, Int.bmod_def]
  split <;> omega

theorem int32_lt (x : ℤ) : int32 x < 2 ^ 31 := by
  rw [int32, Int.bmod_def]
  split <;> omega

theorem int32_neg_of_le {x : ℤ} (hlo : 2 ^ 31 ≤ x) (hhi : x < 2 ^ 32) : int32 x < 0 := by
  rw [int32, Int.bmod_def]
  split <;> omega

variable {rate burst : ℤ} {last ts : ℕ}

theorem bucketAdd_le (hrate : 0 ≤ rate) (hrate' : rate < 2 ^ 31) :
    bucketAdd rate ts last ≤ (rate.toNat * (ts - last) / nsPerSec : ℕ) := by
  have hcast : uint64 rate = rate.toNat := by
    rw [uint64, Int.emod_eq_of_lt hrate (by omega)]
  have hwrap : (ts - last) * rate.toNat % 2 ^ 64 / nsPerSec ≤
      rate.toNat * (ts - last) / nsPerSec := by
    rw [Nat.mul_comm rate.toNat]
    exact Nat.div_le_div_right (Nat.mod_le _ _)
  rw [bucketAdd, hcast, ← nsPerSec_eq]
  exact (int32_le_self (Int.natCast_nonneg _)).trans (Int.ofNat_le.mpr hwrap)

theorem bucketAdd_of_earned_lt (hrate : 0 ≤ rate) (hrate' : rate < 2 ^ 31) (last ts : ℕ)
    (hlt : rate.toNat * (ts - last) / nsPerSec < 2 ^ 31) :
    bucketAdd rate ts last = (rate.toNat * (ts - last) / nsPerSec : ℕ) := by
  apply And.left
  apply bucketAdd_eq hrate hrate'
  rw [Nat.mul_comm]
  exact (Nat.div_lt_iff_lt_mul nsPerSec_pos).mp hlt

theorem refillBucket_kept (burst : ℤ) (h : last = 0 ∨ bucketAdd rate ts last ≤ 0) (tokens : ℤ) :
    (refillBucket rate burst ts last tokens).2 = tokens := by
  rcases refillBucket_cases rate burst ts last tokens with ⟨_, he⟩ | ⟨_, _, he⟩ | ⟨hne, _, hpos, he⟩
  · rw [he]
  · rw [he]
  · rcases h with h | h
    · exact absurd h hne
    · omega

theorem refillBucket_added (burst : ℤ) (hne : last ≠ 0) (hts : last < ts)
    (hpos : 0 < bucketAdd rate ts last) (tokens : ℤ) : (refillBucket rate burst ts last tokens).2 =
      min (int32 (tokens + bucketAdd rate ts last)) burst := by
  rcases refillBucket_cases rate burst ts last tokens with ⟨h, _⟩ | ⟨_, h, _⟩ | ⟨_, _, _, he⟩
  · exact absurd h hne
  · omega
  · rw [he]

theorem kept_exact_iff {earned : ℤ} (h0 : 0 ≤ earned) (hburst : 0 < burst) :
    (∀ tokens, 0 ≤ tokens → tokens ≤ burst → tokens = min (tokens + earned) burst) ↔
      earned = 0 := by
  constructor
  · intro h
    have hempty := h 0 le_rfl hburst.le
    omega
  · intro hzero tokens _ hcap
    omega

theorem added_exact_iff {add earned : ℤ} (hburst : 0 < burst) (hburst' : burst < 2 ^ 31)
    (hpos : 0 < add) (hadd : add < 2 ^ 31) (hle : add ≤ earned)
    (hsame : earned < 2 ^ 31 → add = earned) :
    (∀ tokens, 0 ≤ tokens → tokens ≤ burst →
      min (int32 (tokens + add)) burst = min (tokens + earned) burst) ↔
      earned + burst < 2 ^ 31 ∨ (burst ≤ add ∧ add + burst < 2 ^ 31) := by
  constructor
  · intro h
    -- an empty bucket tells what is added, a full one that the sum does not wrap
    have hempty := h 0 le_rfl hburst.le
    have hfull := h burst hburst.le le_rfl
    rw [zero_add, int32_eq_self (by omega) hadd] at hempty
    have hsum : add + burst < 2 ^ 31 := by
      by_contra hover
      have hwrapped : int32 (burst + add) < 0 := int32_neg_of_le (by omega) (by omega)
      omega
    omega
  · intro h tokens h0 hcap
    rcases h with hfit | ⟨hfill, hfit⟩
    · rw [hsame (by omega), int32_eq_self (by omega) (by omega)]
    · rw [int32_eq_self (by omega) (by omega)]
      omega

theorem refillBucket_exactAt_iff (hrate : 0 < rate) (hrate' : rate < 2 ^ 31) (hburst : 0 < burst)
    (hburst' : burst < 2 ^ 31) (hts : last < ts) :
    ExactAt rate.toNat last burst (fun ts tokens => (refillBucket rate burst ts last tokens).2) ts ↔
      BucketFits rate burst last ts := by
  have hle : bucketAdd rate ts last ≤ (rate.toNat * (ts - last) / nsPerSec : ℕ) :=
    bucketAdd_le hrate.le hrate'
  have hsame := bucketAdd_of_earned_lt hrate.le hrate' last ts
  unfold ExactAt BucketFits
  generalize rate.toNat * (ts - last) / nsPerSec = earned at hle hsame ⊢
  have hearned : 0 ≤ (earned : ℤ) := Int.natCast_nonneg earned
  by_cases hzero : last = 0
  · simp only [refillBucket_kept burst (.inl hzero), kept_exact_iff hearned hburst]
    constructor
    · intro h
      exact ⟨fun _ => Int.ofNat_eq_zero.mp h, fun hne => absurd hzero hne⟩
    · intro h
      exact Int.ofNat_eq_zero.mpr (h.1 hzero)
  · have hskip : ∀ p : Prop, ((last = 0 → earned = 0) ∧ (last ≠ 0 → p)) ↔ p := fun p =>
      ⟨fun h => h.2 hzero, fun h => ⟨fun h0 => absurd h0 hzero, fun _ => h⟩⟩
    rw [hskip]
    by_cases hpos : 0 < bucketAdd rate ts last
    · simp only [refillBucket_added burst hzero hts hpos]
      exact added_exact_iff hburst hburst' hpos (int32_lt _) hle fun h => hsame (by omega)
    · simp only [refillBucket_kept burst (.inr (not_lt.mp hpos)), kept_exact_iff hearned hburst]
      constructor
      · intro h
        exact .inl (by omega)
      · rintro (hfit | ⟨hfill, -⟩)
        · have := hsame (by omega)
          omega
        · omega

end Exact

section Buckets
variable {D : Type}

/-- The tokens that `refill_buckets` leaves for the symbol, had it held `tokens` before. -/
def Desk.symRefill (p : Params D) (d : Desk D) (ts : ℕ) (tokens : ℤ) : ℤ :=
  (({ d with s := { d.s with tokens := tokens } } : Desk D).refillBuckets p ts).s.tokens

/-- The same for the bucket of all symbols. -/
def Desk.aggRefill (p : Params D) (d : Desk D) (ts : ℕ) (tokens : ℤ) : ℤ :=
  (({ d with aggTokens := tokens } : Desk D).refillBuckets p ts).aggTokens

/-- The tokens that `inline_refill` leaves, had the gate held `tokens` before. -/
def Risk.refillTokens (r : Risk) (now : ℕ) (tokens : ℤ) : ℤ :=
  ({ r with rlTokens := tokens }.inlineRefill now).rlTokens

theorem refillTokens_eq {r : Risk} (hburst : r.rlBurst < 2 ^ 32) {now : ℕ}
    (hlast : r.rlLastNs < now) (hnow : now < 2 ^ 64) (tokens : ℤ) (h0 : 0 ≤ tokens)
    (hcap : tokens ≤ r.rlBurst) :
    r.refillTokens now tokens = min
      (tokens + (r.rlOrdersPerSec * (now - r.rlLastNs) % 2 ^ 64 / nsPerSec : ℕ)) r.rlBurst := by
  have hadd := refillAdd_eq { r with rlTokens := tokens } now
  dsimp only at hadd
  rw [Nat.mul_comm, ← nsPerSec_eq] at hadd
  unfold Risk.refillTokens
  rcases inlineRefill_cases (r := { r with rlTokens := tokens }) h0 hcap hburst now with
    ⟨hp, _⟩ | ⟨_, hkept, he⟩ | ⟨_, _, _, he⟩
  · exact absurd hp (Nat.ne_of_lt (lt_of_lt_of_le hlast (Nat.le_sub_one_of_lt hnow)))
  · have hzero : Risk.refillAdd { r with rlTokens := tokens } now ≤ 0 := by
      rcases hkept with hle | hzero
      · exact absurd hlast (not_lt.mpr hle)
      · exact hzero
    rw [hadd, Int.natCast_nonpos_iff] at hzero
    rw [he, hzero, Nat.cast_zero, add_zero, min_eq_left hcap]
  · rw [he, ← hadd]

theorem refillTokens_exactAt_iff {r : Risk} (hburst : 0 < r.rlBurst) (hburst' : r.rlBurst < 2 ^ 32)
    {now : ℕ} (hlast : r.rlLastNs < now) (hnow : now < 2 ^ 64) :
    ExactAt r.rlOrdersPerSec r.rlLastNs r.rlBurst r.refillTokens now ↔
      RiskFits r.rlOrdersPerSec r.rlBurst r.rlLastNs now := by
  have hrefill := fun tokens => refillTokens_eq hburst' hlast hnow tokens
  unfold ExactAt RiskFits
  generalize r.rlOrdersPerSec * (now - r.rlLastNs) = product at hrefill ⊢
  -- a product that wraps earns more than any burst
  have hlarge : 2 ^ 64 ≤ product → 2 ^ 32 ≤ product / nsPerSec := by
    intro h
    rw [nsPerSec_eq]
    omega
  constructor
  · intro h
    have hempty := h 0 le_rfl (Int.natCast_nonneg _)
    rw [hrefill 0 le_rfl (Int.natCast_nonneg _)] at hempty
    by_cases hfit : product < 2 ^ 64
    · exact .inl hfit
    · have := hlarge (not_lt.mp hfit)
      omega
  · intro h tokens h0 hcap
    rw [hrefill tokens h0 hcap]
    rcases h with hfit | hfill
    · rw [Nat.mod_eq_of_lt hfit]
    · by_cases hfit : product < 2 ^ 64
      · rw [Nat.mod_eq_of_lt hfit]
      · have := hlarge (not_lt.mp hfit)
        omega

/-- The refills of both kinds of buckets are exact at the times that fit, and at no others. -/
theorem refill_exact_iff :
    (∀ (p : Params D) (d : Desk D), 0 < p.perSymbolMsgsPerSec → p.perSymbolMsgsPerSec < 2 ^ 31 →
      0 < p.burstMsgs → p.burstMsgs < 2 ^ 31 →
      ExactWhen p.perSymbolMsgsPerSec.toNat d.s.lastRefillTs p.burstMsgs (d.symRefill p)
        (BucketFits p.perSymbolMsgsPerSec p.burstMsgs d.s.lastRefillTs)) ∧
    (∀ (p : Params D) (d : Desk D), 0 < p.aggregateMsgsPerSec → p.aggregateMsgsPerSec < 2 ^ 31 →
      0 < p.burstMsgs → p.burstMsgs < 2 ^ 31 →
      ExactWhen p.aggregateMsgsPerSec.toNat d.lastAggRefill p.burstMsgs (d.aggRefill p)
        (BucketFits p.aggregateMsgsPerSec p.burstMsgs d.lastAggRefill)) ∧
    (∀ r : Risk, 0 < r.rlOrdersPerSec → r.rlOrdersPerSec < 2 ^ 32 →
      0 < r.rlBurst → r.rlBurst < 2 ^ 32 →
      ExactWhen r.rlOrdersPerSec r.rlLastNs r.rlBurst r.refillTokens
        (RiskFits r.rlOrdersPerSec r.rlBurst r.rlLastNs)) := by
  refine ⟨?_, ?_, ?_⟩
  · intro p d hrate hrate' hburst hburst'
    apply ExactWhen.of_iff
    intro ts hts _
    exact refillBucket_exactAt_iff hrate hrate' hburst hburst' hts
  · intro p d hrate hrate' hburst hburst'
    apply ExactWhen.of_iff
    intro ts hts _
    exact refillBucket_exactAt_iff hrate hrate' hburst hburst' hts
  · intro r _ _ hburst hburst'
    apply ExactWhen.of_iff
    intro now hlast hnow
    exact refillTokens_exactAt_iff hburst hburst' hlast hnow

/-- A desk that was refilled one second after the start of the clock and sent all its tokens. -/
def spentDesk (p : Params ℚ) : Desk ℚ where
  s := { State.init p with tokens := 0, lastRefillTs := 1000000000 }
  fsim := {}
  aggTokens := 0
  lastAggRefill := 1000000000
  submitted := []

/-- A gate that was refilled one second after the start of the clock and is empty. -/
def spentGate : Risk := { Risk.init with rlTokens := 0, rlLastNs := 1000000000 }

/-- With the defaults all three buckets are exact 25 ms after their last refill. -/
theorem refill_exact_iff_defaults :
    ExactAt 100 1000000000 50 ((spentDesk Params.default).symRefill Params.default) 1025000000 ∧
    ExactAt 1000 1000000000 50 ((spentDesk Params.default).aggRefill Params.default) 1025000000 ∧
    ExactAt spentGate.rlOrdersPerSec 1000000000 spentGate.rlBurst spentGate.refillTokens
      1025000000 := by
  obtain ⟨hsym, hagg, hrisk⟩ := @refill_exact_iff ℚ
  refine ⟨?_, ?_, ?_⟩
  · have h := hsym Params.default (spentDesk Params.default) (by decide) (by decide) (by decide)
      (by decide)
    refine (h.exact_iff 1025000000 (by decide) (by decide)).mpr ?_
    unfold BucketFits
    decide +kernel
  · have h := hagg Params.default (spentDesk Params.default) (by decide) (by decide) (by decide)
      (by decide)
    refine (h.exact_iff 1025000000 (by decide) (by decide)).mpr ?_
    unfold BucketFits
    decide +kernel
  · have h := hrisk spentGate (by decide) (by decide) (by decide) (by decide)
    refine (h.exact_iff 1025000000 (by decide) (by decide)).mpr ?_
    unfold RiskFits
    decide +kernel

/-- The defaults, but for a limit of a million messages per second for a symbol. -/
def millionPerSec : Params ℚ := { Params.default with perSymbolMsgsPerSec := 1000000 }

/-- A gate with four billion orders per second, refilled one second after the start. -/
def billionsPerSec : Risk := { Risk.init with rlOrdersPerSec := 4000000000, rlLastNs := 1000000000 }

/-- After 2147 idle seconds the symbol has its burst again, after 2148 it has nothing: the
quotient became negative. At the gate one nanosecond more wraps the product. -/
theorem idle_symbol_stays_empty :
    (spentDesk millionPerSec).symRefill millionPerSec 2148000000000 0 = 50 ∧
    (spentDesk millionPerSec).symRefill millionPerSec 2149000000000 0 = 0 ∧
    ¬ ExactAt 1000000 1000000000 50 ((spentDesk millionPerSec).symRefill millionPerSec)
      2149000000000 ∧
    billionsPerSec.refillTokens 5611686018 0 = 50 ∧
    billionsPerSec.refillTokens 5611686019 0 = 2 := by
  refine ⟨by decide +kernel, by decide +kernel, ?_, by decide +kernel, by decide +kernel⟩
  intro h
  have hzero : (spentDesk millionPerSec).symRefill millionPerSec 2149000000000 0 = 0 := by
    decide +kernel
  have hexact := h 0 le_rfl (by decide)
  rw [hzero, nsPerSec_eq] at hexact
  exact absurd hexact (by decide)

end Buckets

section Schedules
variable {D : Type}

/-- The refills at `ts` and `t` come in this order after the last one, and not even their
whole time fills the bucket. -/
structure BelowCap (rate : ℕ) (burst : ℤ) (b : Bucket) (ts : List ℕ) (t : ℕ) : Prop where
  tokens : 0 ≤ b.tokens
  sorted : (b.last :: (ts ++ [t])).Pairwise (· ≤ ·)
  cap : b.tokens + (rate * (t - b.last) / nsPerSec : ℕ) ≤ burst

variable {rate : ℕ} {burst : ℤ} {b : Bucket} {ts : List ℕ} {t : ℕ}

theorem BelowCap.times (h : BelowCap rate burst b ts t) :
    ts.Pairwise (· ≤ ·) ∧ (∀ u ∈ ts, b.last ≤ u) ∧ (∀ u ∈ ts, u ≤ t) ∧ b.last ≤ t := by
  obtain ⟨hfirst, hrest⟩ := List.pairwise_cons.mp h.sorted
  obtain ⟨hts, _, hlast⟩ := List.pairwise_append.mp hrest
  refine ⟨hts, ?_, ?_, ?_⟩
  · intro u hu
    exact hfirst u (List.mem_append_left [t] hu)
  · intro u hu
    exact hlast u hu t (List.mem_singleton.mpr rfl)
  · exact hfirst t (List.mem_append_right ts (List.mem_singleton.mpr rfl))

theorem BelowCap.budget_le (h : BelowCap rate burst b ts t) :
    b.budget rate nsPerSec t ≤ burst.toNat := by
  have h0 := h.tokens
  have hcap := h.cap
  unfold Bucket.budget
  generalize rate * (t - b.last) / nsPerSec = earned at hcap ⊢
  omega

theorem BelowCap.schedule_iff {σ : Type} {bucket : σ → Bucket} {refill : σ → ℕ → σ} {P : σ → Prop}
    {s : σ} (h : BelowCap rate burst (bucket s) ts t) (hs : P s)
    (hstep : ∀ s u, P s → 0 ≤ (bucket s).tokens → (bucket s).last ≤ u → u ≤ t →
      (bucket s).budget rate nsPerSec u ≤ burst.toNat →
        P (refill s u) ∧ bucket (refill s u) = (bucket s).credit rate nsPerSec u) :
    (bucket ((ts ++ [t]).foldl refill s)).tokens = (bucket (refill s t)).tokens ↔
      (bucket s).FractionsFit rate nsPerSec ts t := by
  obtain ⟨hsorted, hfirst, hlast, hle⟩ := h.times
  have hall : bucket ((ts ++ [t]).foldl refill s) =
      (ts ++ [t]).foldl (Bucket.credit rate nsPerSec) (bucket s) := by
    apply Bucket.foldl_refill bucket refill hstep hs h.tokens h.budget_le
    · exact (List.pairwise_cons.mp h.sorted).2
    · exact (List.pairwise_cons.mp h.sorted).1
    · intro u hu
      rcases List.mem_append.mp hu with hu | hu
      · exact hlast u hu
      · exact (List.mem_singleton.mp hu).le
  have hone := (hstep s t hs h.tokens hle le_rfl h.budget_le).2
  rw [hall, hone, List.foldl_append, List.foldl_cons, List.foldl_nil]
  exact Bucket.schedule_iff nsPerSec_pos hsorted hfirst hlast hle

theorem refillBucket_credit {rate burst : ℤ} (hrate : 0 < rate) (hrate' : rate < 2 ^ 31)
    (hburst : burst < 2 ^ 31) {b : Bucket} {ts : ℕ} (hprimed : b.last ≠ 0) (h0 : 0 ≤ b.tokens)
    (hcap : b.budget rate.toNat nsPerSec ts ≤ burst.toNat) :
    (refillBucket rate burst ts b.last b.tokens).1 ≠ 0 ∧
      Bucket.mk (refillBucket rate burst ts b.last b.tokens).1
        (refillBucket rate burst ts b.last b.tokens).2 = b.credit rate.toNat nsPerSec ts := by
  have hadd := bucketAdd_of_earned_lt hrate.le hrate' b.last ts
  have hmono : ts ≤ b.last → rate.toNat * (ts - b.last) / nsPerSec = 0 := by
    intro h
    rw [Nat.sub_eq_zero_of_le h, Nat.mul_zero, Nat.zero_div]
  unfold Bucket.budget at hcap
  unfold Bucket.credit
  generalize rate.toNat * (ts - b.last) / nsPerSec = earned at hadd hmono hcap ⊢
  have hadd := hadd (by omega)
  rcases refillBucket_cases rate burst ts b.last b.tokens with
    ⟨h, _⟩ | ⟨_, hkept, he⟩ | ⟨_, _, hpos, he⟩
  · exact absurd h hprimed
  · have hzero : earned = 0 := by
      rcases hkept with h | h
      · exact hmono h
      · omega
    rw [he, if_pos hzero]
    exact ⟨hprimed, rfl⟩
  · rw [he, hadd, if_neg (by omega), int32_eq_self (by omega) (by omega), min_eq_left (by omega)]
    refine ⟨?_, rfl⟩
    dsimp only
    omega

/-- Below the cap the gate is credited: its sentinel is the largest time, after which no time
comes that earns anything. -/
theorem inlineRefill_credit {r : Risk} {now : ℕ} (hburst : r.rlBurst < 2 ^ 32)
    (hle : r.rlLastNs ≤ now) (hnow : now < 2 ^ 64) (h0 : 0 ≤ r.rlTokens)
    (hcap : r.bucket.budget r.rlOrdersPerSec nsPerSec now ≤ r.rlBurst) :
    (r.inlineRefill now).bucket = r.bucket.credit r.rlOrdersPerSec nsPerSec now := by
  have hadd := refillAdd_eq r now
  unfold Bucket.budget Risk.bucket at hcap
  unfold Bucket.credit Risk.bucket
  dsimp only at hcap ⊢
  have hprod : (now - r.rlLastNs) * r.rlOrdersPerSec < 2 ^ 64 := by
    have hlt := (Nat.div_lt_iff_lt_mul nsPerSec_pos).mp
      (lt_of_le_of_lt (Nat.le_of_add_left_le hcap) hburst)
    rw [nsPerSec_eq] at hlt
    rw [Nat.mul_comm]
    omega
  have htokens : r.rlTokens ≤ r.rlBurst := by
    have := Nat.le_of_add_right_le hcap
    omega
  rw [Nat.mod_eq_of_lt hprod, Nat.mul_comm, ← nsPerSec_eq] at hadd
  rcases inlineRefill_cases h0 htokens hburst now with ⟨hp, he⟩ | ⟨_, hkept, he⟩ | ⟨_, _, hpos, he⟩
  · have hsame : now = r.rlLastNs := by
      rw [unprimed] at hp
      omega
    rw [he, if_pos (by rw [hsame, Nat.sub_self, Nat.mul_zero, Nat.zero_div]), hsame]
  · have hzero : r.rlOrdersPerSec * (now - r.rlLastNs) / nsPerSec = 0 := by
      rcases hkept with hkept | hkept
      · rw [Nat.sub_eq_zero_of_le hkept, Nat.mul_zero, Nat.zero_div]
      · rwa [hadd, Int.natCast_nonpos_iff] at hkept
    rw [he, if_pos hzero]
  · rw [hadd, Int.natCast_pos] at hpos
    rw [he, if_neg (Nat.ne_of_gt hpos), hadd]
    generalize r.rlOrdersPerSec * (now - r.rlLastNs) / nsPerSec = earned at hcap ⊢
    rw [min_eq_left (by omega)]

/-- Refills at a series of times leave as many tokens as one refill at the last of them exactly
if the fractions of a token that they drop stay below one token. -/
theorem refill_schedule_iff :
    (∀ (p : Params D) (d : Desk D) (ts : List ℕ) (t : ℕ), 0 < p.perSymbolMsgsPerSec →
      p.perSymbolMsgsPerSec < 2 ^ 31 → p.burstMsgs < 2 ^ 31 → d.s.lastRefillTs ≠ 0 →
      BelowCap p.perSymbolMsgsPerSec.toNat p.burstMsgs d.symBucket ts t →
      (((ts ++ [t]).foldl (fun d u => d.refillBuckets p u) d).s.tokens =
        (d.refillBuckets p t).s.tokens ↔
          d.symBucket.FractionsFit p.perSymbolMsgsPerSec.toNat nsPerSec ts t)) ∧
    (∀ (p : Params D) (d : Desk D) (ts : List ℕ) (t : ℕ), 0 < p.aggregateMsgsPerSec →
      p.aggregateMsgsPerSec < 2 ^ 31 → p.burstMsgs < 2 ^ 31 → d.lastAggRefill ≠ 0 →
      BelowCap p.aggregateMsgsPerSec.toNat p.burstMsgs d.aggBucket ts t →
      (((ts ++ [t]).foldl (fun d u => d.refillBuckets p u) d).aggTokens =
        (d.refillBuckets p t).aggTokens ↔
          d.aggBucket.FractionsFit p.aggregateMsgsPerSec.toNat nsPerSec ts t)) ∧
    (∀ (r : Risk) (ts : List ℕ) (t : ℕ), r.rlBurst < 2 ^ 32 → t < 2 ^ 64 →
      BelowCap r.rlOrdersPerSec r.rlBurst r.bucket ts t →
      (((ts ++ [t]).foldl Risk.inlineRefill r).rlTokens = (r.inlineRefill t).rlTokens ↔
        r.bucket.FractionsFit r.rlOrdersPerSec nsPerSec ts t)) := by
  refine ⟨?_, ?_, ?_⟩
  · intro p d ts t hrate hrate' hburst hprimed h
    apply h.schedule_iff (P := fun d => d.s.lastRefillTs ≠ 0) hprimed
    intro d u hd h0 _ _ hcap
    exact refillBucket_credit (b := d.symBucket) hrate hrate' hburst hd h0 hcap
  · intro p d ts t hrate hrate' hburst hprimed h
    apply h.schedule_iff (P := fun d => d.lastAggRefill ≠ 0) hprimed
    intro d u hd h0 _ _ hcap
    exact refillBucket_credit (b := d.aggBucket) hrate hrate' hburst hd h0 hcap
  · intro r ts t hburst ht h
    refine h.schedule_iff
      (P := fun r' => r'.rlOrdersPerSec = r.rlOrdersPerSec ∧ r'.rlBurst = r.rlBurst) ⟨rfl, rfl⟩ ?_
    rintro s u ⟨hrate, hcap⟩ h0 hle hu hbudget
    obtain ⟨last, tokens, hframe⟩ := inlineRefill_frame s u
    rw [← hrate, Int.toNat_natCast, ← hcap] at hbudget
    refine ⟨?_, ?_⟩
    · rw [hframe]
      exact ⟨hrate, hcap⟩
    · rw [← hrate]
      exact inlineRefill_credit (hcap ▸ hburst) hle (lt_of_le_of_lt hu ht) h0 hbudget

/-- With the defaults, refills after 10, 15 and 25 ms leave as many tokens in the three buckets as
one refill after 25 ms. -/
theorem refill_schedule_iff_defaults :
    (([1010000000, 1015000000] ++ [1025000000]).foldl
      (fun (d : Desk ℚ) u => d.refillBuckets Params.default u)
        (spentDesk Params.default)).s.tokens =
      ((spentDesk Params.default).refillBuckets Params.default 1025000000).s.tokens ∧
    (([1010000000, 1015000000] ++ [1025000000]).foldl
      (fun (d : Desk ℚ) u => d.refillBuckets Params.default u)
        (spentDesk Params.default)).aggTokens =
      ((spentDesk Params.default).refillBuckets Params.default 1025000000).aggTokens ∧
    (([1010000000, 1015000000] ++ [1025000000]).foldl Risk.inlineRefill spentGate).rlTokens =
      (spentGate.inlineRefill 1025000000).rlTokens := by
  obtain ⟨hsym, hagg, hrisk⟩ := @refill_schedule_iff ℚ
  have hcap : ∀ rate : ℕ, rate ≤ 1000 → ∀ b : Bucket, b = ⟨1000000000, 0⟩ →
      BelowCap rate 50 b [1010000000, 1015000000] 1025000000 := by
    rintro rate hrate b rfl
    refine ⟨le_rfl, by decide, ?_⟩
    have hdiv : rate * (1025000000 - 1000000000) / nsPerSec ≤ 50 := by
      rw [nsPerSec_eq]
      omega
    exact (zero_add _).trans_le (Int.ofNat_le.mpr hdiv)
  refine ⟨?_, ?_, ?_⟩
  · refine (hsym Params.default (spentDesk Params.default) _ _ (by decide) (by decide) (by decide)
      (by decide) (hcap _ (by decide) _ rfl)).mpr ?_
    unfold Bucket.FractionsFit
    decide +kernel
  · refine (hagg Params.default (spentDesk Params.default) _ _ (by decide) (by decide) (by decide)
      (by decide) (hcap _ (by decide) _ rfl)).mpr ?_
    unfold Bucket.FractionsFit
    decide +kernel
  · refine (hrisk spentGate _ _ (by decide) (by decide) (hcap _ (by decide) _ rfl)).mpr ?_
    unfold Bucket.FractionsFit
    decide +kernel

/-- With the defaults of 100 per second, a refill after 15 ms earns one token and drops half of
another: after 20 ms there is one token, where one refill then earns two. -/
theorem early_refill_loses_token :
    (([1015000000] ++ [1020000000]).foldl (fun (d : Desk ℚ) u => d.refillBuckets Params.default u)
      (spentDesk Params.default)).s.tokens = 1 ∧
    ((spentDesk Params.default).refillBuckets Params.default 1020000000).s.tokens = 2 ∧
    (([1015000000] ++ [1020000000]).foldl Risk.inlineRefill spentGate).rlTokens = 1 ∧
    (spentGate.inlineRefill 1020000000).rlTokens = 2 := by
  decide +kernel

end Schedules

end TradingPipeline.Engine
