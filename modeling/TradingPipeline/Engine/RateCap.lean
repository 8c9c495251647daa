import Mathlib.Data.UInt
import TradingPipeline.Engine.RiskRate
import TradingPipeline.Engine.Sides

/-! # Rate caps

The token bucket of the risk gate and the two of the market maker, seen as buckets of the
library: every call refills and then takes the tokens of what it lets through. The cap on
any stretch of calls follows from the budget at its first one.
-/
namespace TradingPipeline.Engine
open Lib Book

section MarketMakerBuckets
variable {D : Type}

def Desk.symBucket (d : Desk D) : Bucket := ⟨d.s.lastRefillTs, d.s.tokens⟩

def Desk.aggBucket (d : Desk D) : Bucket := ⟨d.lastAggRefill, d.aggTokens⟩

/-- The tokens of a bucket are an `int32_t` and at most the burst. -/
def TokensOk (burst tokens : ℤ) : Prop := -2 ^ 31 ≤ tokens ∧ tokens ≤ burst

theorem neg_le_int32 (x : ℤ) : -2 ^ 31 ≤ int32 x := by
  rw [int32, Int.bmod_def]
  split <;> omega

/-- The tokens that a refill of the market maker adds. -/
def bucketAdd (rate : ℤ) (ts last : ℕ) : ℤ :=
  int32 (((ts - last) * uint64 rate % 2 ^ 64 / 1000000000 : ℕ) : ℤ)

theorem refillBucket_cases (rate burst : ℤ) (ts last : ℕ) (tokens : ℤ) :
    (last = 0 ∧ refillBucket rate burst ts last tokens = (ts, tokens)) ∨
    (last ≠ 0 ∧ (ts ≤ last ∨ bucketAdd rate ts last ≤ 0) ∧
      refillBucket rate burst ts last tokens = (last, tokens)) ∨
    (last ≠ 0 ∧ last < ts ∧ 0 < bucketAdd rate ts last ∧
      refillBucket rate burst ts last tokens =
        (ts, min (int32 (tokens + bucketAdd rate ts last)) burst)) := by
  unfold refillBucket
  by_cases hlast : last = 0
  · exact .inl ⟨hlast, if_pos hlast⟩
  · rw [if_neg hlast]
    by_cases hts : ts > last
    · rw [if_pos hts]
      by_cases hadd : bucketAdd rate ts last > 0
      · exact .inr (.inr ⟨hlast, hts, hadd, if_pos hadd⟩)
      · exact .inr (.inl ⟨hlast, .inr (not_lt.mp hadd), if_neg hadd⟩)
    · rw [if_neg hts]
      exact .inr (.inl ⟨hlast, .inl (not_lt.mp hts), rfl⟩)

theorem refillBucket_ok {rate burst : ℤ} (hburst : 0 ≤ burst) (ts last : ℕ) {tokens : ℤ}
    (h : TokensOk burst tokens) : TokensOk burst (refillBucket rate burst ts last tokens).2 := by
  rcases refillBucket_cases rate burst ts last tokens with ⟨_, he⟩ | ⟨_, _, he⟩ | ⟨_, _, _, he⟩
  · rwa [he]
  · rwa [he]
  · rw [he]
    exact ⟨le_min (neg_le_int32 _) (by omega), min_le_right _ _⟩

theorem bucketAdd_eq {rate : ℤ} (hrate : 0 ≤ rate) (hrate' : rate < 2 ^ 31) {ts last : ℕ}
    (hfit : (ts - last) * rate.toNat < 2 ^ 31 * nsPerSec) :
    bucketAdd rate ts last = (rate.toNat * (ts - last) / nsPerSec : ℕ) ∧
      rate.toNat * (ts - last) / nsPerSec < 2 ^ 31 := by
  have hcast : uint64 rate = rate.toNat := by
    rw [uint64, Int.emod_eq_of_lt hrate (by omega)]
  have hmod : (ts - last) * rate.toNat % 2 ^ 64 = (ts - last) * rate.toNat := by
    refine Nat.mod_eq_of_lt (lt_trans hfit ?_)
    rw [nsPerSec_eq]
    decide
  have hlt : rate.toNat * (ts - last) / nsPerSec < 2 ^ 31 := by
    refine Nat.div_lt_of_lt_mul ?_
    rwa [Nat.mul_comm, Nat.mul_comm nsPerSec]
  refine ⟨?_, hlt⟩
  rw [bucketAdd, hcast, hmod, Nat.mul_comm, ← nsPerSec_eq]
  exact int32_natCast hlt

/-- A sum of tokens may wrap, which only loses tokens. -/
theorem int32_add_toNat_le {tokens burst : ℤ} (hburst : burst < 2 ^ 31) (h : TokensOk burst tokens)
    {add : ℕ} (hadd : add < 2 ^ 31) :
    (min (int32 (tokens + add)) burst).toNat ≤ tokens.toNat + add := by
  obtain ⟨hlo, hhi⟩ := h
  have hwrap : int32 (tokens + add) ≤ max (tokens + add) 0 := by
    rw [int32, Int.bmod_def]
    split <;> omega
  omega

theorem refillBucket_draws {rate burst : ℤ} (hrate : 0 ≤ rate) (hrate' : rate < 2 ^ 31)
    (hburst : burst < 2 ^ 31) {ts last : ℕ} {tokens : ℤ} (h : TokensOk burst tokens)
    (hfit : last ≠ 0 → (ts - last) * rate.toNat < 2 ^ 31 * nsPerSec) :
    Draws rate.toNat nsPerSec ⟨last, tokens⟩ ts 0 ⟨(refillBucket rate burst ts last tokens).1,
      (refillBucket rate burst ts last tokens).2⟩ := by
  have hkept : 0 + tokens.toNat ≤ tokens.toNat + rate.toNat * (ts - last) / nsPerSec := by
    rw [Nat.zero_add]
    exact Nat.le_add_right _ _
  rcases refillBucket_cases rate burst ts last tokens with ⟨hlast, he⟩ | ⟨hlast, hno, he⟩ |
    ⟨hlast, hts, hpos, he⟩
  · rw [he, hlast]
    rw [hlast] at hkept
    exact ⟨hkept, .inr ⟨Nat.zero_le _, rfl⟩⟩
  · rw [he]
    refine ⟨hkept, .inl ⟨rfl, ?_⟩⟩
    rcases hno with hle | hzero
    · dsimp only
      rw [Nat.sub_eq_zero_of_le hle, Nat.mul_zero, Nat.zero_div]
    · rw [(bucketAdd_eq hrate hrate' (hfit hlast)).1, Int.natCast_nonpos_iff] at hzero
      exact hzero
  · obtain ⟨hadd, hlt⟩ := bucketAdd_eq hrate hrate' (hfit hlast)
    rw [he, hadd]
    refine ⟨?_, .inr ⟨Nat.le_of_lt hts, rfl⟩⟩
    rw [Nat.zero_add]
    exact int32_add_toNat_le hburst h hlt

theorem TokensOk.spend {burst tokens : ℤ} (h : TokensOk burst tokens) {n : ℕ}
    (hn : n ≤ tokens.toNat) : TokensOk burst (tokens - n) := by
  obtain ⟨hlo, hhi⟩ := h
  exact ⟨by omega, by omega⟩

end MarketMakerBuckets

section Actions
variable {api : OrderBookApi} {D : Type}

/-- The action calls `on_book_event` for the shard, and the call is not skipped. -/
def LiveCall (g : Dispatcher api D) (shard : Shard) : Action → Prop
  | .event e during => shardForLocate e.stockLocate = some shard ∧ e.type ≠ .other ∧
      (g.controls during).killed shard = false
  | .control _ => False

theorem spends_setDesk_of_ne {g : Dispatcher api D} {shard i : Shard} {locate locate' : ℕ}
    {d : Desk D} (h : Desk.Spends locate [] (g.desk shard) d) (hi : i ≠ shard) :
    Desk.Spends locate' [] (g.desk i) ((g.setDesk shard d).desk i) := by
  have hs : ((g.setDesk shard d).desk i).s = g.states i := Dispatcher.setDesk_states_of_ne g d hi
  exact ⟨h.submitted, by simp, by rw [hs]; simp [Dispatcher.desk], Nat.zero_le _, h.aggTokens,
    Nat.zero_le _, by rw [hs]; rfl, h.lastAggRefill⟩

theorem Desk.Spends.refillBuckets {locate : ℕ} {d d' : Desk D} (h : Desk.Spends locate [] d d')
    (p : Params D) (ts : ℕ) :
    Desk.Spends locate [] (d.refillBuckets p ts) (d'.refillBuckets p ts) := by
  have htokens := h.tokens
  have hagg := h.aggTokens
  rw [List.length_nil, Int.natCast_zero, sub_zero] at htokens hagg
  exact ⟨h.submitted, by simp, by simp [Desk.refillBuckets, htokens, h.lastRefillTs], Nat.zero_le _,
    by simp [Desk.refillBuckets, hagg, h.lastAggRefill], Nat.zero_le _,
    by simp [Desk.refillBuckets, htokens, h.lastRefillTs],
    by simp [Desk.refillBuckets, hagg, h.lastAggRefill]⟩

/-- What an action charges to the buckets: nothing, or one refill and the messages of the
shard it is about. -/
inductive Charge (p : Params D) (g : Dispatcher api D) (a : Action) (t : Dispatcher api D) : Prop
  | free (hno : ∀ shard, ¬LiveCall g shard a)
      (h : ∀ i, Desk.Spends (locateOf i) [] (g.desk i) (t.desk i))
  | call {shard : Shard} {new : List Submit} (hlive : LiveCall g shard a)
      (h : Desk.Spends (locateOf shard) new ((g.desk shard).refillBuckets p a.ts) (t.desk shard))
      (hother : ∀ i, i ≠ shard → (t.states i).tokens = (g.states i).tokens ∧
        (t.states i).lastRefillTs = (g.states i).lastRefillTs)

/-- The rates and the burst are non-negative values of `int32_t`. -/
structure RatesOk (p : Params D) : Prop where
  symbol : 0 ≤ p.perSymbolMsgsPerSec ∧ p.perSymbolMsgsPerSec < 2 ^ 31
  aggregate : 0 ≤ p.aggregateMsgsPerSec ∧ p.aggregateMsgsPerSec < 2 ^ 31
  burst : 0 ≤ p.burstMsgs ∧ p.burstMsgs < 2 ^ 31

structure BucketsOk (p : Params D) (g : Dispatcher api D) : Prop where
  symbol : ∀ i, TokensOk p.burstMsgs (g.states i).tokens
  aggregate : TokensOk p.burstMsgs g.aggTokens

section Draws
variable {p : Params D} {g t : Dispatcher api D}

/-- A live call of the shard is no later than `T`, and the product of its refill is no
larger than an `int32_t` of tokens. -/
def SymbolTimed (p : Params D) (shard : Shard) (T : ℕ) (g : Dispatcher api D) (a : Action) : Prop :=
  LiveCall g shard a → a.ts ≤ T ∧ ((g.states shard).lastRefillTs ≠ 0 →
    (a.ts - (g.states shard).lastRefillTs) * p.perSymbolMsgsPerSec.toNat < 2 ^ 31 * 1000000000)

/-- The same for the calls of all shards and the shared bucket. -/
def AggregateTimed (p : Params D) (T : ℕ) (g : Dispatcher api D) (a : Action) : Prop :=
  ∀ shard, LiveCall g shard a → a.ts ≤ T ∧ (g.lastAggRefill ≠ 0 →
    (a.ts - g.lastAggRefill) * p.aggregateMsgsPerSec.toNat < 2 ^ 31 * 1000000000)

theorem submittedFor_of_spends (shard : Shard) {i : Shard} {new : List Submit} {d : Desk D}
    (h : Desk.Spends (locateOf i) new d (t.desk i)) (hd : d.submitted = g.submitted) :
    t.submittedFor shard = g.submittedFor shard ++ if shard = i then new else [] := by
  have hsub : t.submitted = g.submitted ++ new := by rw [← hd]; exact h.submitted
  rw [Dispatcher.submittedFor, hsub, List.filter_append]
  congr 1
  split
  · rename_i hi
    rw [List.filter_eq_self]
    intro m hm
    rw [decide_eq_true_iff, hi]
    exact h.locate m hm
  · rename_i hi
    rw [List.filter_eq_nil_iff]
    intro m hm
    rw [decide_eq_true_iff, h.locate m hm]
    exact fun heq => hi (locateOf_injective heq).symm

theorem symbol_draws (hp : RatesOk p) (hg : BucketsOk p g) {shard : Shard} {new : List Submit}
    {ts : ℕ} (hfit : (g.states shard).lastRefillTs ≠ 0 →
      (ts - (g.states shard).lastRefillTs) * p.perSymbolMsgsPerSec.toNat < 2 ^ 31 * 1000000000)
    (h : Desk.Spends (locateOf shard) new ((g.desk shard).refillBuckets p ts) (t.desk shard)) :
    Draws p.perSymbolMsgsPerSec.toNat nsPerSec (g.desk shard).symBucket ts new.length
      (t.desk shard).symBucket := by
  rw [← nsPerSec_eq] at hfit
  have hdraw := (refillBucket_draws hp.symbol.1 hp.symbol.2 hp.burst.2
    (hg.symbol shard) hfit).spend h.paid
  have hbucket : (t.desk shard).symBucket = _ :=
    congrArg₂ Bucket.mk h.lastRefillTs h.tokens
  rw [hbucket]
  exact hdraw

theorem aggregate_draws (hp : RatesOk p) (hg : BucketsOk p g) {shard : Shard} {new : List Submit}
    {ts : ℕ} (hfit : g.lastAggRefill ≠ 0 →
      (ts - g.lastAggRefill) * p.aggregateMsgsPerSec.toNat < 2 ^ 31 * 1000000000)
    (h : Desk.Spends (locateOf shard) new ((g.desk shard).refillBuckets p ts) (t.desk shard)) :
    Draws p.aggregateMsgsPerSec.toNat nsPerSec (g.desk shard).aggBucket ts new.length
      (t.desk shard).aggBucket := by
  rw [← nsPerSec_eq] at hfit
  have hrefill := refillBucket_draws hp.aggregate.1 hp.aggregate.2 hp.burst.2 hg.aggregate hfit
  have hdraw := hrefill.spend h.aggPaid
  have hbucket : (t.desk shard).aggBucket = _ :=
    congrArg₂ Bucket.mk h.lastAggRefill h.aggTokens
  rw [hbucket]
  exact hdraw

theorem LiveCall.unique {a : Action} {shard i : Shard} (h : LiveCall g shard a)
    (h' : LiveCall g i a) :
    i = shard := by
  cases a with
  | control c => exact h.elim
  | event e during => exact Option.some.inj (h'.1.symm.trans h.1)

end Draws

variable [DoubleArith D]

theorem Step.charge {p : Params D} {g t : Dispatcher api D} {a : Action} (h : Step p g a t) :
    Charge p g a t := by
  cases h.effect with
  | control c => exact .free (fun _ => id) (fun i => (controls_quiet g [c] i).spends _)
  | @ignored e during hign =>
    refine .free (fun shard hlive => ?_) (fun i => (controls_quiet g during i).spends _)
    obtain ⟨hs, htype, -⟩ := hlive
    rcases hign with hnone | hother
    · rw [hnone] at hs
      cases hs
    · exact htype hother
  | @applied e during shard a g₁ g₂ hs htype ha hg₁ hg₂ =>
    have hshard := printed_spends hg₁ hg₂
    have hkilled := printed_killed hg₁ hg₂
    have hother : ∀ i, i ≠ shard → Desk.Spends (locateOf i) [] (g.desk i) (g₂.desk i) := by
      intro i hi
      have hset : Desk.Spends (locateOf i) [] (g.desk i) (g₁.desk i) := by
        rw [hg₁]
        exact @spends_setDesk_of_ne _ _ (g.setBook shard a) shard i _ _ _
          (spends_onTradePrint (locateOf shard) _ _ _) hi
      rw [hg₂]
      exact hset.trans ((controls_quiet g₁ during i).spends _)
    rcases onBookEvent_spends p (topOfBook (g₂.books shard).book) (locateOf shard) g₂.globalKill
      e.ts (g₂.desk shard) with ⟨hdead, hfree⟩ | ⟨⟨hglobal, hpanic⟩, new, hpaid⟩
    · have hdead' : (g.controls during).killed shard = true := by
        rw [← hkilled, Dispatcher.killed, Bool.or_eq_true]
        exact hdead
      refine .free (fun i hlive => ?_) (fun i => ?_)
      · obtain ⟨hi, -, hlive⟩ := hlive
        rw [hs] at hi
        cases hi
        rw [hdead'] at hlive
        cases hlive
      · by_cases hi : i = shard
        · subst hi
          rw [runStrategy, desk_setDesk]
          exact hshard.trans hfree
        · exact (hother i hi).trans (spends_setDesk_of_ne hfree hi)
    · refine @Charge.call _ _ p g _ _ shard new ⟨hs, htype, ?_⟩ ?_ (fun i hi => ?_)
      · rw [← hkilled, Dispatcher.killed, hglobal, Bool.false_or]
        exact hpanic
      · rw [runStrategy, desk_setDesk]
        exact (hshard.refillBuckets p e.ts).trans hpaid
      · have hsame := hother i hi
        rw [runStrategy, Dispatcher.setDesk_states_of_ne _ _ hi]
        have htokens := hsame.tokens
        rw [List.length_nil, Int.natCast_zero, sub_zero] at htokens
        exact ⟨htokens, hsame.lastRefillTs⟩

section Caps
variable {p : Params D} {g t : Dispatcher api D} {a : Action}

theorem Step.bucketsOk (hp : RatesOk p) (h : Step p g a t) (hg : BucketsOk p g) :
    BucketsOk p t := by
  cases h.charge with
  | free _ h =>
    refine ⟨fun i => ?_, ?_⟩
    · have := (h i).tokens
      simp only [Dispatcher.desk, List.length_nil, Int.natCast_zero, sub_zero] at this
      rw [this]
      exact hg.symbol i
    · have := (h ⟨0, by decide⟩).aggTokens
      simp only [Dispatcher.desk, List.length_nil, Int.natCast_zero, sub_zero] at this
      rw [this]
      exact hg.aggregate
  | @call shard new _ h hother =>
    refine ⟨fun i => ?_, ?_⟩
    · by_cases hi : i = shard
      · subst hi
        have htokens : (t.states i).tokens = _ := h.tokens
        rw [htokens]
        exact (refillBucket_ok hp.burst.1 _ _ (hg.symbol i)).spend h.paid
      · rw [(hother i hi).1]
        exact hg.symbol i
    · have htokens : t.aggTokens = _ := h.aggTokens
      rw [htokens]
      exact (refillBucket_ok hp.burst.1 _ _ hg.aggregate).spend h.aggPaid

theorem runs_bucketsOk (hp : RatesOk p) {as : List Action}
    (hr : Runs (Step p) (Dispatcher.init api p) as g) : BucketsOk p g := by
  refine hr.invariant ?_ (fun _ _ _ hg h => h.bucketsOk hp hg)
  have hburst := hp.burst
  exact ⟨fun _ => ⟨by simp only [Dispatcher.init, State.init]; omega, le_rfl⟩,
    ⟨by simp only [Dispatcher.init]; omega, le_rfl⟩⟩

theorem Step.symbol_budget (hp : RatesOk p) (hg : BucketsOk p g) {shard : Shard} {T : ℕ}
    (h : Step p g a t) (ht : SymbolTimed p shard T g a) :
    (t.submittedFor shard).length +
        (t.desk shard).symBucket.budget p.perSymbolMsgsPerSec.toNat nsPerSec T ≤
      (g.submittedFor shard).length +
        (g.desk shard).symBucket.budget p.perSymbolMsgsPerSec.toNat nsPerSec T := by
  cases h.charge with
  | free _ h =>
    have hsub := submittedFor_of_spends shard (h shard) rfl
    have hbucket : (t.desk shard).symBucket = (g.desk shard).symBucket := by
      have htokens := (h shard).tokens
      rw [List.length_nil, Int.natCast_zero, sub_zero] at htokens
      exact congrArg₂ Bucket.mk (h shard).lastRefillTs htokens
    rw [hsub, ite_self, List.append_nil, hbucket]
  | @call i new hlive h hother =>
    have hsub := submittedFor_of_spends (g := g) shard h rfl
    by_cases hi : shard = i
    · subst hi
      obtain ⟨hts, hfit⟩ := ht hlive
      have hle := (symbol_draws hp hg hfit h).budget_le hts
      rw [hsub, if_pos rfl, List.length_append]
      omega
    · have hbucket : (t.desk shard).symBucket = (g.desk shard).symBucket :=
        congrArg₂ Bucket.mk (hother shard hi).2 (hother shard hi).1
      rw [hsub, if_neg hi, List.append_nil, hbucket]

theorem symbol_rate_cap (hp : RatesOk p) (hg : BucketsOk p g) {shard : Shard} {T : ℕ}
    {u : Dispatcher api D} {as : List Action} (h : Step p g a u) (hlive : LiveCall g shard a)
    (ht : SymbolTimed p shard T g a)
    (hr : Runs (fun g a t => Step p g a t ∧ SymbolTimed p shard T g a) u as t) :
    (t.submittedFor shard).length ≤ (g.submittedFor shard).length +
      (p.burstMsgs.toNat + 1 + p.perSymbolMsgsPerSec.toNat * (T - a.ts) / nsPerSec) := by
  cases h.charge with
  | free hno => exact absurd hlive (hno shard)
  | @call i new hlive' hspend =>
    have hi := hlive.unique hlive'
    subst hi
    have hdraw := symbol_draws hp hg (ht hlive).2 hspend
    have hsub := submittedFor_of_spends (g := g) i hspend rfl
    rw [if_pos rfl] at hsub
    have hrefilled := @refillBucket_ok p.perSymbolMsgsPerSec _ hp.burst.1 a.ts
      (g.states i).lastRefillTs _ (hg.symbol i)
    refine Runs.rate_cap (fun g => (g.submittedFor i).length)
      (fun g => (g.desk i).symBucket) (P := BucketsOk p) (n := new.length) hr
        (h.bucketsOk hp hg) ?_ ?_ ?_ hdraw.recent nsPerSec_pos
    · exact fun s b v hs hb => ⟨hb.1.bucketsOk hp hs, hb.1.symbol_budget hp hs hb.2⟩
    · rw [hsub, List.length_append]
    · have hpaid := hspend.paid
      have htokens : (u.desk i).symBucket.tokens = _ := hspend.tokens
      rw [htokens]
      have hle : ((g.desk i).refillBuckets p a.ts).s.tokens ≤ p.burstMsgs := hrefilled.2
      omega

theorem Step.aggregate_budget (hp : RatesOk p) (hg : BucketsOk p g) {T : ℕ} (shard : Shard)
    (h : Step p g a t) (ht : AggregateTimed p T g a) :
    t.submitted.length +
        (t.desk shard).aggBucket.budget p.aggregateMsgsPerSec.toNat nsPerSec T ≤
      g.submitted.length +
        (g.desk shard).aggBucket.budget p.aggregateMsgsPerSec.toNat nsPerSec T := by
  cases h.charge with
  | free _ h =>
    have hsub : t.submitted = g.submitted ++ [] := (h shard).submitted
    have hbucket : (t.desk shard).aggBucket = (g.desk shard).aggBucket := by
      have htokens := (h shard).aggTokens
      rw [List.length_nil, Int.natCast_zero, sub_zero] at htokens
      exact congrArg₂ Bucket.mk (h shard).lastAggRefill htokens
    rw [hsub, List.append_nil, hbucket]
  | @call i new hlive h hother =>
    have hsub : t.submitted = g.submitted ++ new := h.submitted
    obtain ⟨hts, hfit⟩ := ht i hlive
    have hle := (aggregate_draws hp hg hfit h).budget_le hts
    rw [hsub, List.length_append]
    change _ + (t.desk i).aggBucket.budget _ _ _ ≤ _ + (g.desk i).aggBucket.budget _ _ _
    omega

theorem aggregate_rate_cap (hp : RatesOk p) (hg : BucketsOk p g) {shard : Shard} {T : ℕ}
    {u : Dispatcher api D} {as : List Action} (h : Step p g a u) (hlive : LiveCall g shard a)
    (ht : AggregateTimed p T g a)
    (hr : Runs (fun g a t => Step p g a t ∧ AggregateTimed p T g a) u as t) :
    t.submitted.length ≤ g.submitted.length +
      (p.burstMsgs.toNat + 1 + p.aggregateMsgsPerSec.toNat * (T - a.ts) / nsPerSec) := by
  cases h.charge with
  | free hno => exact absurd hlive (hno shard)
  | @call i new hlive' hspend =>
    have hdraw := aggregate_draws hp hg (ht i hlive').2 hspend
    have hsub : u.submitted = g.submitted ++ new := hspend.submitted
    have hrefilled := @refillBucket_ok p.aggregateMsgsPerSec _ hp.burst.1 a.ts g.lastAggRefill _
      hg.aggregate
    refine Runs.rate_cap (fun g => g.submitted.length) (fun g => (g.desk i).aggBucket)
      (P := BucketsOk p) (n := new.length) hr (h.bucketsOk hp hg) ?_ ?_ ?_ hdraw.recent nsPerSec_pos
    · exact fun s b v hs hb => ⟨hb.1.bucketsOk hp hs, hb.1.aggregate_budget hp hs i hb.2⟩
    · rw [hsub, List.length_append]
    · have hpaid := hspend.aggPaid
      have htokens : (u.desk i).aggBucket.tokens = _ := hspend.aggTokens
      rw [htokens]
      have hle : ((g.desk i).refillBuckets p a.ts).aggTokens ≤ p.burstMsgs := hrefilled.2
      omega

/-- All three buckets cap every stretch of calls that begins with a call that is not
skipped: burst, one token, and what the time from that call to the latest one earns. -/
theorem rate_caps (api : OrderBookApi) {p : Params D} (hp : RatesOk p) :
    (∀ (calls : List RiskCall) (s : Signal) (sigs : List Signal) (T : ℕ),
      (∀ x ∈ s :: sigs, x.parseNs.toNat ≠ 2 ^ 64 - 1 ∧ x.parseNs.toNat ≤ T) →
      ElapsedFits (riskAfter calls) (s :: sigs) →
      (acceptedSignals (riskAfter calls) ((s :: sigs).map .checkAndFill)).length ≤
        (riskAfter calls).rlBurst + 1 +
          (riskAfter calls).rlOrdersPerSec * (T - s.parseNs.toNat) / 1000000000) ∧
    (∀ (shard : Shard) (before as : List Action) (g u t : Dispatcher api D) (a : Action) (T : ℕ),
      Runs (Step p) (Dispatcher.init api p) before g → Step p g a u → LiveCall g shard a →
      SymbolTimed p shard T g a →
      Runs (fun g a t => Step p g a t ∧ SymbolTimed p shard T g a) u as t →
      (t.submittedFor shard).length ≤ (g.submittedFor shard).length +
        (p.burstMsgs.toNat + 1 + p.perSymbolMsgsPerSec.toNat * (T - a.ts) / 1000000000)) ∧
    ∀ (shard : Shard) (before as : List Action) (g u t : Dispatcher api D) (a : Action) (T : ℕ),
      Runs (Step p) (Dispatcher.init api p) before g → Step p g a u → LiveCall g shard a →
      AggregateTimed p T g a →
      Runs (fun g a t => Step p g a t ∧ AggregateTimed p T g a) u as t →
      t.submitted.length ≤ g.submitted.length +
        (p.burstMsgs.toNat + 1 + p.aggregateMsgsPerSec.toNat * (T - a.ts) / 1000000000) := by
  rw [← nsPerSec_eq]
  refine ⟨fun calls s sigs T hts hfit => ?_, ?_, ?_⟩
  · exact risk_rate_cap (riskAfter_riskInv calls) hts hfit
  · intro shard before as g u t a T hbefore h hlive ht hr
    exact symbol_rate_cap hp (runs_bucketsOk hp hbefore) h hlive ht hr
  · intro shard before as g u t a T hbefore h hlive ht hr
    exact aggregate_rate_cap hp (runs_bucketsOk hp hbefore) h hlive ht hr

end Caps

section Samples

instance (g : Dispatcher api D) (shard : Shard) (a : Action) : Decidable (LiveCall g shard a) :=
  match a with
  | .control _ => isFalse id
  | .event _ _ => inferInstanceAs (Decidable (_ ∧ _))

instance (p : Params D) (shard : Shard) (T : ℕ) (g : Dispatcher api D) (a : Action) :
    Decidable (SymbolTimed p shard T g a) :=
  inferInstanceAs (Decidable (LiveCall g shard a → _))

instance (p : Params D) (T : ℕ) (g : Dispatcher api D) (a : Action) :
    Decidable (AggregateTimed p T g a) :=
  inferInstanceAs (Decidable (∀ shard, LiveCall g shard a → _))

/-- Two messages at once, two per second and shard, three per second in all. -/
def slowRates : Params ℚ :=
  { Params.default with
    emaAlpha := 1, perSymbolMsgsPerSec := 2, aggregateMsgsPerSec := 3, burstMsgs := 2 }

def eventAt (seconds : ℕ) (e : Event) : Action := .event { e with ts := seconds * 1000000000 } []

/-- The ask moves away twice, one second and two seconds after both sides were quoted. In between
an event comes with the time stamp of the first. -/
def askMoves : List Action :=
  [eventAt 2 { addEvent 2 'S' 10 0 with type := .delete }, eventAt 2 (addEvent 3 'S' 10 12200),
    eventAt 1 (addEvent 4 'B' 10 9000), eventAt 3 { addEvent 3 'S' 10 0 with type := .delete },
    eventAt 3 (addEvent 5 'S' 10 14200)]

def slowSignals : List Signal :=
  [sampleSignal .buy 1 1000000000, sampleSignal .buy 1 1200000000, sampleSignal .buy 1 2100000000,
    sampleSignal .buy 1 3200000000]

/-- Three of four orders pass the risk gate, and both quotes are sent three times: every bucket
is refilled twice. -/
theorem rate_caps_askMoves :
    (acceptedSignals (riskAfter [.setLimits 1 1]) (slowSignals.map .checkAndFill)).length = 3 ∧
    (acceptedSignals (riskAfter [.setLimits 1 1]) (slowSignals.map .checkAndFill)).length ≤ 4 ∧
    ∃ g u t : Dispatcher demoApi ℚ,
      Runs (Step slowRates) (Dispatcher.init demoApi slowRates)
        [eventAt 1 (addEvent 1 'B' 10 10000)] g ∧
      Step slowRates g (eventAt 1 (addEvent 2 'S' 10 10200)) u ∧
      Runs (Step slowRates) u askMoves t ∧
      (t.submittedFor aapl).length = 6 ∧ (t.submittedFor aapl).length ≤ 7 ∧
      t.submitted.length = 6 ∧ t.submitted.length ≤ 9 := by
  obtain ⟨hrisk, hsymbol, haggregate⟩ := rate_caps demoApi (p := slowRates)
    ⟨by decide, by decide, by decide⟩
  have htimes : ∀ x ∈ slowSignals, x.parseNs.toNat ≠ 2 ^ 64 - 1 ∧ x.parseNs.toNat ≤ 3200000000 := by
    decide +kernel
  have hfit : ElapsedFits (riskAfter [.setLimits 1 1]) slowSignals := by
    simp only [ElapsedFits, slowSignals]
    decide +kernel
  have hrun : ∃ g ∈ step slowRates (Dispatcher.init demoApi slowRates)
        (eventAt 1 (addEvent 1 'B' 10 10000)),
      ∃ u ∈ step slowRates g (eventAt 1 (addEvent 2 'S' 10 10200)),
      ∃ t ∈ askMoves.foldlM (guarded (step slowRates) fun g a _ =>
          SymbolTimed slowRates aapl 3000000000 g a ∧ AggregateTimed slowRates 3000000000 g a) u,
        (LiveCall g aapl (eventAt 1 (addEvent 2 'S' 10 10200)) ∧
          SymbolTimed slowRates aapl 3000000000 g (eventAt 1 (addEvent 2 'S' 10 10200)) ∧
          AggregateTimed slowRates 3000000000 g (eventAt 1 (addEvent 2 'S' 10 10200))) ∧
        (g.submittedFor aapl = [] ∧ g.submitted = []) ∧
        (t.submittedFor aapl).length = 6 ∧ t.submitted.length = 6 := by
    decide +kernel
  obtain ⟨g, hg, u, hu, t, ht, ⟨hlive, hsym, hagg⟩, ⟨hnone, hnone'⟩, hsix, hall⟩ := hrun
  have hbefore : Runs (Step slowRates) (Dispatcher.init demoApi slowRates)
      [eventAt 1 (addEvent 1 'B' 10 10000)] g := Runs.single hg
  have hr := Runs.of_guarded ht
  have hcap := hsymbol aapl _ askMoves g u t _ 3000000000 hbefore hu hlive hsym
    (hr.mono fun _ _ _ h => ⟨h.1, h.2.1⟩)
  have hcap' := haggregate aapl _ askMoves g u t _ 3000000000 hbefore hu hlive hagg
    (hr.mono fun _ _ _ h => ⟨h.1, h.2.2⟩)
  rw [hnone] at hcap
  rw [hnone'] at hcap'
  exact ⟨by decide +kernel, hrisk [.setLimits 1 1] _ _ 3200000000 htimes hfit, g, u, t, hbefore, hu,
    hr.mono fun _ _ _ h => h.1, hsix, hcap, hall, hcap'⟩

end Samples

/-- A signal whose time stamp is the sentinel of `rl_last_ns`. -/
def sentinelSignal : Signal := sampleSignal .buy 1 (2 ^ 64 - 1)

def earlierSignal : Signal := sampleSignal .buy 1 (2 ^ 64 - 1000000001)

def sentinelSignals : List Signal :=
  [earlierSignal, sentinelSignal, earlierSignal, sentinelSignal, earlierSignal, sentinelSignal]

/-- A refill at the time that is also the sentinel leaves the bucket unprimed: going back
and forth by one second earns the token of that second again and again. -/
theorem sentinel_exceeds_cap :
    (riskAfter [.setLimits 1 1]).rlBurst = 1 ∧ (riskAfter [.setLimits 1 1]).rlOrdersPerSec = 1 ∧
    (∀ x ∈ sentinelSignals, x.parseNs.toNat ≤ sentinelSignal.parseNs.toNat) ∧
    ElapsedFits (riskAfter [.setLimits 1 1]) sentinelSignals ∧
    (acceptedSignals (riskAfter [.setLimits 1 1])
      (sentinelSignals.map .checkAndFill)).length = 4 ∧
    1 + 1 + 1 * (sentinelSignal.parseNs.toNat - earlierSignal.parseNs.toNat) / 1000000000 = 3 := by
  refine ⟨by decide, by decide, by decide +kernel, ?_, by decide +kernel, by decide +kernel⟩
  simp only [ElapsedFits, sentinelSignals]
  decide +kernel

end Actions

end TradingPipeline.Engine
