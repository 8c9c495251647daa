import TradingPipeline.Engine.Sides

/-! # Own quotes never cross unless one message can be sent and not two

The two prices of one run of the strategy satisfy `bid < ask`, but each side is replaced
on its own. When the buckets pay for two messages, both sides end at the prices of that run
or empty, and when they pay for none, both stay as they are. When they pay for exactly one,
one side moves and the other stays behind.
-/
namespace TradingPipeline.Engine
open Lib Book

variable {api : OrderBookApi} {D : Type}

def NotCrossed (g : Dispatcher api D) : Prop :=
  ∀ shard, (g.states shard).restingBid ≠ 0 → (g.states shard).restingAsk ≠ 0 →
    (g.states shard).restingBid < (g.states shard).restingAsk

section Frames
variable {g : Dispatcher api D}

theorem NotCrossed.controls (h : NotCrossed g) (cs : List Control) :
    NotCrossed (g.controls cs) := by
  intro shard
  obtain ⟨b, hb⟩ := (g.controls_frame cs).2.2.2 shard
  rw [hb]
  exact h shard

theorem NotCrossed.setDesk (h : NotCrossed g) {shard : Shard} {d : Desk D}
    (hd : d.s.restingBid ≠ 0 → d.s.restingAsk ≠ 0 → d.s.restingBid < d.s.restingAsk) :
    NotCrossed (g.setDesk shard d) := by
  intro i
  by_cases hi : i = shard
  · subst hi
    rw [Dispatcher.setDesk_states_self]
    exact hd
  · rw [Dispatcher.setDesk_states_of_ne _ _ hi]
    exact h i

end Frames

section Paying

/-- `n` messages were paid for, and a side was left with the resting price `r`. -/
structure Desk.Settles (n : ℕ) (side : Side) (r : ℤ) (d d' : Desk D) : Prop where
  tokens : d'.s.tokens = d.s.tokens - n
  aggTokens : d'.aggTokens = d.aggTokens - n
  self : d'.s.resting side = r
  other : ∀ side', side' ≠ side → d'.s.resting side' = d.s.resting side'

def Desk.Affords (d : Desk D) (n : ℕ) : Prop := (n : ℤ) ≤ d.s.tokens ∧ (n : ℤ) ≤ d.aggTokens

namespace Desk

theorem Quiet.settles {d d' : Desk D} (h : d.Quiet d') (side : Side) :
    Settles 0 side (d.s.resting side) d d' := by
  have hresting : ∀ side, d'.s.resting side = d.s.resting side :=
    fun side => congrArg Prod.fst (h.side side)
  exact ⟨by rw [h.tokens]; simp, by rw [h.aggTokens]; simp, hresting side, fun s _ => hresting s⟩

theorem Sent.settles {side : Side} {m : Submit} {v : ℤ × RestingQuote} {d d' : Desk D}
    (h : Sent side m v d d') : Settles 1 side v.1 d d' :=
  ⟨h.tokens, h.aggTokens, congrArg Prod.fst h.self, fun s hs => congrArg Prod.fst (h.other s hs)⟩

theorem Affords.canSend {d : Desk D} {n : ℕ} (h : d.Affords n) (hn : 0 < n) : d.canSend := by
  obtain ⟨htokens, hagg⟩ := h
  exact ⟨by omega, by omega⟩

theorem Affords.mono {d : Desk D} {n m : ℕ} (h : d.Affords n) (hm : m ≤ n) : d.Affords m := by
  obtain ⟨htokens, hagg⟩ := h
  exact ⟨by omega, by omega⟩

theorem Settles.affords {n m : ℕ} {side : Side} {r : ℤ} {d d' : Desk D} (h : Settles n side r d d')
    (hd : d.Affords (n + m)) : d'.Affords m := by
  obtain ⟨htokens, hagg⟩ := hd
  have h₁ := h.tokens
  have h₂ := h.aggTokens
  exact ⟨by push_cast at htokens; omega, by push_cast at hagg; omega⟩

theorem cancelBlocked_settles (locate ts : ℕ) (side : Side) (block : Bool) {d : Desk D}
    (h : d.Affords (block && d.s.resting side ≠ 0).toNat) :
    Settles (block && d.s.resting side ≠ 0).toNat side (if block then 0 else d.s.resting side) d
      (d.cancelBlocked locate ts side block) := by
  rcases cancelBlocked_cases locate ts side block d with ⟨hq, hwhy⟩ | ⟨hblock, hne, hs⟩
  · have hnone : (block && decide (d.s.resting side ≠ 0)) = false := by
      by_contra hsome
      rw [Bool.not_eq_false] at hsome
      have hcan := h.canSend (by rw [hsome]; exact one_pos)
      rw [Bool.and_eq_true, decide_eq_true_iff] at hsome
      rcases hwhy hcan with hb | hz
      · rw [hb] at hsome
        exact Bool.noConfusion hsome.1
      · exact hsome.2 hz
    have hresting : (if block then 0 else d.s.resting side) = d.s.resting side := by
      cases block with
      | false => rfl
      | true => simpa using Eq.symm (by simpa using hnone)
    rw [hnone, hresting]
    exact hq.settles side
  · subst hblock
    have hone : (true && decide (d.s.resting side ≠ 0)) = true := by simp [hne]
    rw [hone]
    exact hs.settles

theorem quoteSide_settles (p : Params D) (top : TopOfBook) (locate ts : ℕ) (side : Side) (px : ℤ)
    (wanted : Bool) {d : Desk D} (h : d.Affords wanted.toNat) :
    Settles wanted.toNat side (if wanted then px else d.s.resting side) d
      (d.quoteSide p top locate ts side px wanted) := by
  rcases quoteSide_cases p top locate ts side px wanted d with ⟨hq, hwhy⟩ | ⟨hwanted, qa, hs⟩
  · have hnone : wanted = false := by
      by_contra hsome
      rw [Bool.not_eq_false] at hsome
      rw [hsome] at h hwhy
      exact Bool.noConfusion (hwhy (h.canSend one_pos))
    subst hnone
    exact hq.settles side
  · subst hwanted
    exact hs.settles

end Desk

end Paying

theorem settled_price {p : Params D} (hthr : p.requoteThresholdTicks ≤ 1) (block : Bool)
    (px resting : ℤ) :
    (if requoteNeeded p px resting && !block then px else if block then 0 else resting) = 0 ∨
      (if requoteNeeded p px resting && !block then px else if block then 0 else resting) = px := by
  cases block with
  | true => exact .inl (by simp)
  | false =>
    by_cases hneed : requoteNeeded p px resting = true
    · exact .inr (by simp [hneed])
    · right
      simp only [hneed, Bool.false_and, Bool.false_eq_true, ↓reduceIte]
      simp only [requoteNeeded, Bool.or_eq_true, decide_eq_true_iff, not_or, ge_iff_le, not_le]
        at hneed
      have hclose := abs_lt.mp (lt_of_lt_of_le hneed.2 hthr)
      omega

variable [DoubleArith D]

/-- The strategy wants to withdraw or to replace the quote of a side. -/
def wantsMessage (p : Params D) (s : State D) (px : ℤ) (side : Side) : Bool :=
  if blocked p s.inventory side then s.resting side ≠ 0 else requoteNeeded p px (s.resting side)

/-- The messages that the buckets of a shard pay for at a time: those of the emptier bucket, once
both are refilled. -/
def messagesPaid (p : Params D) (g : Dispatcher api D) (shard : Shard) (ts : ℕ) : ℤ :=
  min (refillBucket p.perSymbolMsgsPerSec p.burstMsgs ts (g.states shard).lastRefillTs
      (g.states shard).tokens).2
    (refillBucket p.aggregateMsgsPerSec p.burstMsgs ts g.lastAggRefill g.aggTokens).2

/-- An event that gets as far as quoting, in a shard that is not killed and with two sides in its
book, finds no message paid for or at least two. -/
def PaysBothOrNone (p : Params D) (g : Dispatcher api D) : Action → Prop
  | .control _ => True
  | .event e during => ∀ shard ∈ shardForLocate e.stockLocate,
      (g.controls during).killed shard = false → ∀ a ∈ applyToBook (g.books shard) e,
      (topOfBook a.book).TwoSided →
        messagesPaid p g shard e.ts ≤ 0 ∨ 2 ≤ messagesPaid p g shard e.ts

instance (p : Params D) (g : Dispatcher api D) (a : Action) : Decidable (PaysBothOrNone p g a) :=
  match a with
  | .control _ => isTrue trivial
  | .event e during => inferInstanceAs (Decidable (∀ shard ∈ shardForLocate e.stockLocate,
      (g.controls during).killed shard = false → ∀ a ∈ applyToBook (g.books shard) e,
      (topOfBook a.book).TwoSided → _))

theorem wantsMessage_toNat (p : Params D) (s : State D) (px : ℤ) (side : Side) :
    (wantsMessage p s px side).toNat =
      (blocked p s.inventory side && s.resting side ≠ 0).toNat +
        (requoteNeeded p px (s.resting side) && !blocked p s.inventory side).toNat := by
  unfold wantsMessage
  cases blocked p s.inventory side <;> simp

theorem requote_settles {p : Params D} (hthr : p.requoteThresholdTicks ≤ 1) (top : TopOfBook)
    (locate ts : ℕ) (bidPx askPx : ℤ) {d : Desk D}
    (h : d.Affords ((wantsMessage p d.s bidPx .buy).toNat + (wantsMessage p d.s askPx .sell).toNat))
    (side : Side) :
    (requote p top locate ts bidPx askPx d).s.resting side = 0 ∨
      (requote p top locate ts bidPx askPx d).s.resting side = sidePx bidPx askPx side := by
  rw [wantsMessage_toNat, wantsMessage_toNat] at h
  unfold requote
  dsimp only
  generalize hbuy : blocked p d.s.inventory .buy = blockBuy at h ⊢
  generalize hsell : blocked p d.s.inventory .sell = blockSell at h ⊢
  have hhard := d.countHardBand_quiet (blockBuy || blockSell)
  generalize d.countHardBand (blockBuy || blockSell) = d₀ at hhard ⊢
  have hresting : ∀ side, d₀.s.resting side = d.s.resting side :=
    fun side => congrArg Prod.fst (hhard.side side)
  have hafford : d₀.Affords ((blockBuy && d₀.s.resting .buy ≠ 0).toNat +
      ((blockSell && d₀.s.resting .sell ≠ 0).toNat +
        ((requoteNeeded p bidPx d.s.restingBid && !blockBuy).toNat +
          (requoteNeeded p askPx d.s.restingAsk && !blockSell).toNat))) := by
    obtain ⟨htokens, hagg⟩ := h
    rw [hresting, hresting]
    rw [← hhard.tokens] at htokens
    rw [← hhard.aggTokens] at hagg
    simp only [State.resting, Nat.cast_add] at htokens hagg ⊢
    exact ⟨by push_cast; linarith, by push_cast; linarith⟩
  have h₁ := Desk.cancelBlocked_settles locate ts .buy blockBuy
    (hafford.mono (Nat.le_add_right _ _))
  have hafford₁ := h₁.affords hafford
  generalize d₀.cancelBlocked locate ts .buy blockBuy = d₁ at h₁ hafford₁ ⊢
  rw [← h₁.other .sell (by decide)] at hafford₁
  have h₂ := Desk.cancelBlocked_settles locate ts .sell blockSell
    (hafford₁.mono (Nat.le_add_right _ _))
  have hafford₂ := h₂.affords hafford₁
  generalize d₁.cancelBlocked locate ts .sell blockSell = d₂ at h₂ hafford₂ ⊢
  have h₃ := Desk.quoteSide_settles p top locate ts .buy bidPx _
    (hafford₂.mono (Nat.le_add_right _ _))
  have hafford₃ := h₃.affords hafford₂
  generalize d₂.quoteSide p top locate ts .buy bidPx _ = d₃ at h₃ hafford₃ ⊢
  have h₄ := Desk.quoteSide_settles p top locate ts .sell askPx _ hafford₃
  generalize d₃.quoteSide p top locate ts .sell askPx _ = d₄ at h₄ ⊢
  have hlast := congrArg Prod.fst (d₄.countQuotedBoth_quiet.side side)
  change d₄.countQuotedBoth.s.resting side = d₄.s.resting side at hlast
  rw [hlast]
  cases side with
  | buy =>
    rw [h₄.other .buy (by decide), h₃.self, h₂.other .buy (by decide), h₁.self, hresting]
    exact settled_price hthr blockBuy bidPx _
  | sell =>
    rw [h₄.self, h₃.other .sell (by decide), h₂.self, h₁.other .sell (by decide), hresting]
    exact settled_price hthr blockSell askPx _

theorem requote_unpaid (p : Params D) (top : TopOfBook) (locate ts : ℕ) (bidPx askPx : ℤ)
    {d : Desk D} (h : d.s.tokens ≤ 0 ∨ d.aggTokens ≤ 0) (side : Side) :
    (requote p top locate ts bidPx askPx d).s.resting side = d.s.resting side := by
  obtain ⟨l, hspends⟩ := requote_spends p top locate ts bidPx askPx d
  have hnil : l = [] := by
    have hpaid := hspends.paid
    have haggPaid := hspends.aggPaid
    exact List.eq_nil_of_length_eq_zero (by omega)
  have hsub := hspends.submitted
  rw [hnil, List.append_nil] at hsub
  obtain ⟨l', hsent, hmove⟩ := requote_sideMove p top locate ts bidPx askPx d side
  have hnil' : l' = [] := by
    rw [Desk.sentOn, hsub, Desk.sentOn] at hsent
    exact List.append_right_eq_self.mp hsent.symm
  rw [hnil'] at hmove
  generalize hnew : (requote p top locate ts bidPx askPx d).side side = new at hmove
  cases hmove with
  | kept => exact congrArg Prod.fst hnew

theorem onBookEvent_notCrossed {p : Params D} (hthr : p.requoteThresholdTicks ≤ 1)
    (top : TopOfBook) (locate : ℕ) (globalKill : Bool) (ts : ℕ) {d : Desk D}
    (hpaid : globalKill = false → d.s.panic = false → top.TwoSided →
      (d.refillBuckets p ts).s.tokens ≤ 0 ∨ (d.refillBuckets p ts).aggTokens ≤ 0 ∨
        (d.refillBuckets p ts).Affords 2)
    (h : d.s.restingBid ≠ 0 → d.s.restingAsk ≠ 0 → d.s.restingBid < d.s.restingAsk) :
    (onBookEvent p top locate globalKill ts d).s.restingBid ≠ 0 →
      (onBookEvent p top locate globalKill ts d).s.restingAsk ≠ 0 →
      (onBookEvent p top locate globalKill ts d).s.restingBid <
        (onBookEvent p top locate globalKill ts d).s.restingAsk := by
  have hcases := onBookEvent_cases p top locate globalKill ts d
  generalize onBookEvent p top locate globalKill ts d = d' at hcases ⊢
  have hquiet : ∀ d₁ : Desk D, (d.refillBuckets p ts).Quiet d₁ →
      ∀ side, d₁.s.resting side = d.s.resting side := by
    intro d₁ hq side
    have hrefill : (d.refillBuckets p ts).s.resting side = d.s.resting side := by cases side <;> rfl
    exact (congrArg Prod.fst (hq.side side)).trans hrefill
  have hsame : ∀ d₁ : Desk D, (∀ side, d₁.s.resting side = d.s.resting side) →
      d₁.s.restingBid ≠ 0 → d₁.s.restingAsk ≠ 0 → d₁.s.restingBid < d₁.s.restingAsk := by
    intro d₁ hd₁
    have hbid : d₁.s.restingBid = d.s.restingBid := hd₁ .buy
    have hask : d₁.s.restingAsk = d.s.restingAsk := hd₁ .sell
    rw [hbid, hask]
    exact h
  have hflat : ∀ d₁ : Desk D, d₁.flatten.s.restingBid = 0 := by
    intro d₁
    have hside : d₁.flatten.s.restingBid = (flatSide (d₁.side .buy)).1 :=
      congrArg Prod.fst (flatten_side d₁ .buy)
    rw [hside, flatSide_resting]
  cases hcases with
  | killed => exact fun hbid => absurd (hflat _) hbid
  | panicked => exact fun hbid => absurd (hflat _) hbid
  | skipped _ _ hq => exact hsame d' (hquiet d' hq)
  | @requoted d₁ bidPx askPx hk hp hq hkept hpx hpos hlt htop =>
    have htokens := hpaid hk hp htop
    rw [← hq.tokens, ← hq.aggTokens, ← or_assoc] at htokens
    rcases htokens with hnone | htwo
    · refine hsame _ fun side => ?_
      rw [requote_unpaid p top locate ts bidPx askPx hnone, hquiet d₁ hq]
    · have hafford : d₁.Affords ((wantsMessage p d₁.s bidPx .buy).toNat +
          (wantsMessage p d₁.s askPx .sell).toNat) := by
        have hboth : d₁.Affords 2 := by
          rw [Desk.Affords, hq.tokens, hq.aggTokens]
          exact htwo
        exact hboth.mono (Nat.add_le_add (Bool.toNat_le _) (Bool.toNat_le _))
      have hbid := requote_settles hthr top locate ts bidPx askPx hafford .buy
      have hask := requote_settles hthr top locate ts bidPx askPx hafford .sell
      intro hbid' hask'
      have hbid : (requote p top locate ts bidPx askPx d₁).s.restingBid = bidPx :=
        hbid.resolve_left hbid'
      have hask : (requote p top locate ts bidPx askPx d₁).s.restingAsk = askPx :=
        hask.resolve_left hask'
      rw [hbid, hask]
      exact hlt

theorem onTradePrint_notCrossed (e : Event) (info : Option OrderInfo) {d : Desk D}
    (h : d.s.restingBid ≠ 0 → d.s.restingAsk ≠ 0 → d.s.restingBid < d.s.restingAsk) :
    (onTradePrint api e info d).s.restingBid ≠ 0 → (onTradePrint api e info d).s.restingAsk ≠ 0 →
      (onTradePrint api e info d).s.restingBid < (onTradePrint api e info d).s.restingAsk := by
  have hside : ∀ side, (onTradePrint api e info d).s.resting side = 0 ∨
      (onTradePrint api e info d).s.resting side = d.s.resting side :=
    fun side => (@onTradePrint_side api _ _ e info d side).resting
  intro hbid hask
  have hbid' : (onTradePrint api e info d).s.restingBid = d.s.restingBid :=
    (hside .buy).resolve_left hbid
  have hask' : (onTradePrint api e info d).s.restingAsk = d.s.restingAsk :=
    (hside .sell).resolve_left hask
  rw [hbid', hask']
  exact h (hbid' ▸ hbid) (hask' ▸ hask)

section Runs
variable {p : Params D} {g t : Dispatcher api D} {a : Action}

theorem Step.notCrossed (hthr : p.requoteThresholdTicks ≤ 1) (h : Step p g a t)
    (hpaid : PaysBothOrNone p g a) (hg : NotCrossed g) : NotCrossed t := by
  cases h.effect with
  | control c => exact hg.controls [c]
  | ignored during => exact hg.controls during
  | @applied e during shard b g₁ g₂ hs htype hb hg₁ hg₂ =>
    have h₁ : NotCrossed g₁ := by
      rw [hg₁]
      exact NotCrossed.setDesk (g := g.setBook shard b) hg (onTradePrint_notCrossed e _ (hg shard))
    have h₂ : NotCrossed g₂ := hg₂ ▸ h₁.controls during
    refine h₂.setDesk (onBookEvent_notCrossed hthr _ _ _ _ (fun hkill hpanic htop => ?_) (h₂ shard))
    have hbook : (g₂.books shard).book = b.book := by
      rw [hg₂, (g₁.controls_frame during).2.1, hg₁]
      simp [Dispatcher.setDesk, Dispatcher.setBook]
    -- neither the print nor the controls touch the buckets or let the shard go
    have hsame := printed_spends hg₁ hg₂
    have hlive : (g.controls during).killed shard = false := by
      rw [← printed_killed hg₁ hg₂, Dispatcher.killed, Bool.or_eq_false_iff]
      exact ⟨hkill, hpanic⟩
    have htokens : (g₂.desk shard).s.tokens = (g.desk shard).s.tokens := by simpa using hsame.tokens
    have hagg : (g₂.desk shard).aggTokens = (g.desk shard).aggTokens := by
      simpa using hsame.aggTokens
    have hrefill : messagesPaid p g shard e.ts = min ((g₂.desk shard).refillBuckets p e.ts).s.tokens
        ((g₂.desk shard).refillBuckets p e.ts).aggTokens := by
      simp only [messagesPaid, Desk.refillBuckets, htokens, hagg, hsame.lastRefillTs,
        hsame.lastAggRefill]
      rfl
    rw [hbook] at htop
    have hpaid := hpaid shard hs hlive b hb htop
    rw [hrefill] at hpaid
    simp only [Desk.Affords]
    omega

/-- With a requote threshold of one tick the two quotes of a shard never cross in a run none of
whose events can send one message and not two. -/
theorem own_quotes_never_cross (hthr : p.requoteThresholdTicks ≤ 1) {as : List Action}
    (hg : NotCrossed g) (hr : Runs (fun g a t => Step p g a t ∧ PaysBothOrNone p g a) g as t) :
    NotCrossed t :=
  hr.invariant hg (fun _ _ _ hu h => h.1.notCrossed hthr h.2 hu)

end Runs

section Samples

theorem init_notCrossed (api : OrderBookApi) (p : Params D) : NotCrossed (Dispatcher.init api p) :=
  fun _ h => absurd rfl h

/-- Three messages in all, and prices that follow the mid at once. -/
def threeMessages : Params ℚ := { Params.default with emaAlpha := 1, burstMsgs := 3 }

/-- Both sides are quoted, the only ask leaves the book and a much higher one arrives. -/
def marketRises : List Action :=
  [.event (addEvent 1 'B' 10 10000) [], .event (addEvent 2 'S' 10 10200) [],
    .event { addEvent 2 'S' 10 0 with type := .delete } [], .event (addEvent 3 'S' 10 12200) []]

def fourMessages : Params ℚ := { threeMessages with burstMsgs := 4 }

/-- Lower offers arrive when all messages are spent. -/
def marketTurns : List Action := marketRises ++ [.event (addEvent 4 'S' 10 11000) []]

/-- A fourth message lets both quotes follow the market up, and nothing is left to follow it
down. -/
theorem own_quotes_never_cross_marketTurns : ∃ t : Dispatcher demoApi ℚ,
    Runs (fun g a t => Step fourMessages g a t ∧ PaysBothOrNone fourMessages g a)
      (Dispatcher.init demoApi fourMessages) marketTurns t ∧
    (t.states aapl).restingBid = 110 ∧ (t.states aapl).restingAsk = 112 ∧ NotCrossed t := by
  have hrun : ∃ t ∈ marketTurns.foldlM
        (guarded (step fourMessages) fun g a _ => PaysBothOrNone fourMessages g a)
        (Dispatcher.init demoApi fourMessages),
      (t.states aapl).restingBid = 110 ∧ (t.states aapl).restingAsk = 112 := by decide +kernel
  obtain ⟨t, ht, hbid, hask⟩ := hrun
  have hr : Runs (fun g a t => Step fourMessages g a t ∧ PaysBothOrNone fourMessages g a)
      (Dispatcher.init demoApi fourMessages) marketTurns t := Runs.of_guarded ht
  exact ⟨t, hr, hbid, hask, own_quotes_never_cross (by decide) (init_notCrossed _ _) hr⟩

/-- The last token goes to the bid, which moves from 100 to 110; the ask stays at 102. -/
theorem stale_ask_crosses :
    1 ≤ threeMessages.halfSpreadTicks ∧ threeMessages.requoteThresholdTicks = 1 ∧
    ∃ t : Dispatcher demoApi ℚ,
      Runs (Step threeMessages) (Dispatcher.init demoApi threeMessages) marketRises t ∧
      (t.states aapl).restingBid = 110 ∧ (t.states aapl).restingAsk = 102 := by
  have hrun : ∃ t ∈ marketRises.foldlM (step threeMessages) (Dispatcher.init demoApi threeMessages),
      (t.states aapl).restingBid = 110 ∧ (t.states aapl).restingAsk = 102 := by decide +kernel
  obtain ⟨t, ht, hvalues⟩ := hrun
  exact ⟨by decide, by decide, t, Runs.of_foldlM ht, hvalues⟩

end Samples

end TradingPipeline.Engine
