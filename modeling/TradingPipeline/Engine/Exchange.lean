import TradingPipeline.Engine.FairValue
import TradingPipeline.Engine.Phantom

/-! # The orders at the exchange

The exchange reads the orders of `ORDER_TO_EXC`: one with a quantity rests at its price,
one without removes the order that rests there, and a simulated fill takes its quantity
off. The strategy knows of one order per side at most. It loses track in two ways: a new
price is sent without a cancel of the old order, and the first fill of an order is taken
for its end. Neither happens while the mids stay in a range too narrow to reach the requote
threshold and no trade ends inside a quote.
-/
namespace TradingPipeline.Engine
open Lib Book

structure LiveOrder where
  price : ℕ
  qty : ℕ
  deriving DecidableEq, Repr

/-- `WIRE_MSG_NEW` and `WIRE_MSG_CANCEL`, told apart by the quantity. -/
def receive (live : List LiveOrder) (o : OrderRing.Submission) : List LiveOrder :=
  if o.qty = 0 then live.eraseP (fun r => r.price = o.price) else live ++ [⟨o.price, o.qty⟩]

/-- A fill of `n` at a price: the first order there is reduced, or gone. -/
def execute (price : ℕ) (n : ℤ) : List LiveOrder → List LiveOrder
  | [] => []
  | o :: live =>
    if o.price = price then
      if o.qty ≤ n then live else { o with qty := (o.qty - n).toNat } :: live
    else o :: execute price n live

def executeFill (live : List LiveOrder) : Option Fill → List LiveOrder
  | none => live
  | some f => execute (UInt32.ofInt f.px).toNat f.qty live

/-- The pipeline and, for each side of each shard, the orders of ours that rest. -/
structure Market (api : OrderBookApi) (D : Type) where
  pipe : Pipeline api D
  live : Shard → Side → List LiveOrder

variable {api : OrderBookApi} {D : Type}

def sentSince (q t : Pipeline api D) (shard : Shard) (side : Side) : List Sending :=
  (t.sentOn shard side).drop (q.sentOn shard side).length

/-- The exchange after the fill of an event and the orders that it made the engine send. -/
def Market.liveAfter (m : Market api D) (a : Action) (t : Pipeline api D) (shard : Shard)
    (side : Side) : List LiveOrder :=
  ((sentSince m.pipe t shard side).filter Sending.stored).foldl
    (fun live x => receive live x.call.signal.submission)
    (executeFill (m.live shard side) ((a.fill m.pipe.engine shard).filter fun f => f.side = side))

/-- At most one order of ours rests on a side, at the price that `State` has for it. -/
def OneLive (m : Market api D) : Prop :=
  ∀ shard side, (m.live shard side).length ≤ 1 ∧
    ∀ o ∈ m.live shard side,
      o.price = (UInt32.ofInt ((m.pipe.engine.states shard).resting side)).toNat

/-- No shard is killed, and every message was accepted and stored. -/
structure Undisturbed (t : Pipeline api D) : Prop where
  alive : ∀ shard, t.engine.killed shard = false
  stored : ∀ x ∈ t.gateway.log, x.accepted = true ∧ x.stored = true

/-- The trade that the event prints, if any, does not end inside a quote. -/
def WholePrints (g : Dispatcher api D) : Action → Prop
  | .control _ => True
  | .event e _ => ∀ shard ∈ shardForLocate e.stockLocate, ∀ pr ∈ tradePrint (g.books shard) e,
      ¬pr.TakesPart ((g.sims shard).quote pr.side)

instance : Fintype Side where
  elems := {.buy, .sell}
  complete side := by cases side <;> decide

instance (t : Pipeline api D) : Decidable (Undisturbed t) :=
  decidable_of_iff ((∀ shard, t.engine.killed shard = false) ∧
    ∀ x ∈ t.gateway.log, x.accepted = true ∧ x.stored = true)
    ⟨fun h => ⟨h.1, h.2⟩, fun h => ⟨h.1, h.2⟩⟩

instance (g : Dispatcher api D) (a : Action) : Decidable (WholePrints g a) :=
  match a with
  | .control _ => isTrue trivial
  | .event e _ => inferInstanceAs (Decidable (∀ shard ∈ shardForLocate e.stockLocate,
      ∀ pr ∈ tradePrint (g.books shard) e, ¬pr.TakesPart ((g.sims shard).quote pr.side)))

theorem printedFill_eq (a : ItchBookAdapter api) (e : Event) (d : Desk D) :
    printedFill api e (tradeInfo a e) d =
      (tradePrint a e).bind fun pr => (d.fsim.onTrade pr.side pr.px pr.qty e.ts).1 := by
  unfold tradePrint
  cases tradeInfo a e <;> rfl

theorem WholePrints.fill_qty {g : Dispatcher api D} {a : Action} (h : WholePrints g a)
    {shard : Shard} {x : Fill} (hx : x ∈ a.fill g shard) :
    x.qty = ((g.sims shard).quote x.side).qty := by
  cases a with
  | control c => cases hx
  | event e during =>
    simp only [Action.fill] at hx
    split at hx
    · rename_i hconcerns
      rw [printedFill_eq] at hx
      obtain ⟨pr, hpr, hx⟩ := Option.bind_eq_some_iff.mp hx
      have hside : x.side = pr.side := by
        by_contra hne
        exact (onTrade_other (g.desk shard).fsim hne pr.px pr.qty e.ts).2 x hx rfl
      have hout := pr.onTrade_outcome (g.desk shard).fsim e.ts
      rw [hx, Option.map_some] at hout
      rw [hside]
      generalize x.qty = n at hout ⊢
      generalize (((g.desk shard).fsim.onTrade pr.side pr.px pr.qty e.ts).2.quote pr.side).qty = m
        at hout
      cases hout with
      | all => rfl
      | part hpart => exact absurd hpart (h shard hconcerns.1 pr hpr)
    · cases hx

section Agreement

/-- What the strategy believes of a side is what rests there. -/
structure Agrees (p : Params D) (v : ℤ × RestingQuote) (live : List LiveOrder) : Prop where
  empty : v.1 = 0 → live = []
  quote : v.1 ≠ 0 → v.2.px = v.1 ∧ v.2.qty = p.quoteQty
  single : live = [] ∨ ∃ o, live = [o] ∧ o.price = (UInt32.ofInt v.1).toNat ∧
    o.qty = (UInt32.ofInt p.quoteQty).toNat ∧ o.qty ≠ 0

variable {p : Params D} {old mid new : ℤ × RestingQuote} {live : List LiveOrder}

theorem agrees_empty (v : RestingQuote) : Agrees p (0, v) [] :=
  ⟨fun _ => rfl, fun h => absurd rfl h, .inl rfl⟩

theorem ofInt_toNat_le {z : ℤ} (hz : 0 ≤ z) : ((UInt32.ofInt z).toNat : ℤ) ≤ z := by
  have hmod : ((UInt32.ofInt z).toNat : ℤ) = z % 2 ^ 32 := by
    rw [UInt32.ofInt, UInt32.toNat_ofNat']
    omega
  omega

theorem Agrees.fill (h : Agrees p old live) {n : ℤ} (hn : 0 < n) (hwhole : n = old.2.qty) :
    execute (UInt32.ofInt old.2.px).toNat n live = [] := by
  by_cases hzero : old.1 = 0
  · rw [h.empty hzero]
    rfl
  obtain ⟨hpx, hqty⟩ := h.quote hzero
  rcases h.single with hnone | ⟨o, ho, hprice, hoqty, -⟩
  · rw [hnone]
    rfl
  · have hprice' : o.price = (UInt32.ofInt old.2.px).toNat := by rw [hprice, hpx]
    have hle : (o.qty : ℤ) ≤ n := by
      rw [hwhole, hqty, hoqty]
      exact ofInt_toNat_le (by omega)
    rw [ho, execute, if_pos hprice', if_pos hle]

theorem Agrees.trade {f : Option Fill} {side : Side} (h : Agrees p old live)
    (hmove : TradeMove old (filledOn side f) mid)
    (hwhole : ∀ x ∈ f, x.side = side → x.qty = old.2.qty ∧ x.px = old.2.px) :
    Agrees p mid (executeFill live (f.filter fun x => x.side = side)) := by
  generalize hfilled : filledOn side f = filled at hmove
  cases hmove with
  | @passed q hpx hqty =>
    rw [filledOn, Option.map_eq_none_iff] at hfilled
    rw [hfilled]
    refine ⟨h.empty, fun hne => ?_, h.single⟩
    dsimp only at hne ⊢
    rw [hpx, hqty]
    exact h.quote hne
  | @filled n q hn =>
    obtain ⟨x, hx, hxn⟩ := Option.map_eq_some_iff.mp hfilled
    obtain ⟨hxf, hside⟩ := Option.filter_eq_some_iff.mp hx
    obtain ⟨hxqty, hxpx⟩ := hwhole x hxf (by simpa using hside)
    have hgone : executeFill live (f.filter fun x => x.side = side) = [] := by
      rw [hx, executeFill, hxpx]
      exact h.fill (by omega) hxqty
    rw [hgone]
    exact agrees_empty q

theorem Agrees.move {locate ts : ℕ} {side : Side} {px : ℤ} {l : List Sending}
    (h : Agrees p mid live) (hpx : 0 < px)
    (hmove : SideMove p locate ts side px mid (l.map Sending.call) new)
    (hstored : ∀ x ∈ l, x.stored = true)
    (hclose : ∀ x ∈ l, x.call.qty ≠ 0 → mid.1 ≠ 0 → |x.call.px - mid.1| < p.requoteThresholdTicks) :
    Agrees p new ((l.filter Sending.stored).foldl
      (fun live x => receive live x.call.signal.submission) live) := by
  rw [List.filter_eq_self.mpr hstored]
  generalize hcalls : l.map Sending.call = calls at hmove
  cases hmove with
  | kept =>
    rw [List.map_eq_nil_iff.mp hcalls]
    exact h
  | cancelled hne =>
    obtain ⟨x, rfl, hx⟩ := List.map_eq_singleton_iff.mp hcalls
    have hgone : receive live x.call.signal.submission = [] := by
      have hcancel : x.call.signal.submission.qty = 0 := by
        rw [hx]
        rfl
      rw [receive, if_pos hcancel, hx]
      rcases h.single with hnone | ⟨o, ho, hprice, -⟩
      · rw [hnone]
        rfl
      · rw [ho]
        exact List.eraseP_cons_of_pos (decide_eq_true hprice)
    rw [List.foldl_cons, List.foldl_nil, hgone]
    exact agrees_empty _
  | quoted qa hneed =>
    obtain ⟨x, rfl, hx⟩ := List.map_eq_singleton_iff.mp hcalls
    have hlive : live = [] := by
      rcases h.single with hnone | ⟨o, -, -, hoqty, hne⟩
      · exact hnone
      · refine h.empty (by_contra fun hresting => ?_)
        have hqty : x.call.qty ≠ 0 := by
          rw [hx]
          intro hzero
          rw [hoqty, show p.quoteQty = 0 from hzero] at hne
          exact absurd rfl hne
        have hlt := hclose x (List.mem_singleton.mpr rfl) hqty hresting
        rw [hx] at hlt
        simp only [requoteNeeded, hresting, decide_false, Bool.false_or, decide_eq_true_iff]
          at hneed
        exact absurd hlt (not_lt.mpr hneed)
    rw [List.foldl_cons, List.foldl_nil, hlive, hx]
    refine ⟨fun h0 => absurd h0 (ne_of_gt hpx), fun _ => ⟨rfl, rfl⟩, ?_⟩
    unfold receive
    split
    · exact .inl rfl
    · rename_i hqty
      exact .inr ⟨_, rfl, rfl, rfl, hqty⟩

end Agreement

variable [DoubleArith D]

def Market.start (api : OrderBookApi) (p : Params D) (risk : Risk) (oms : OrderRing.Oms) :
    Market api D := ⟨Pipeline.start api p risk oms, fun _ _ => []⟩

def Market.step (p : Params D) (m : Market api D) (a : Action × List ℕ) : Option (Market api D) :=
  (m.pipe.step p a).map fun t => ⟨t, m.liveAfter a.1 t⟩

/-- A step without disturbance, without a print that ends inside a quote and with the mids of
all books in their ranges. -/
def TrackedStep (p : Params D) (lo hi : Shard → ℚ) (m : Market api D) (a : Action × List ℕ)
    (t : Market api D) : Prop :=
  m.step p a = some t ∧ Undisturbed t.pipe ∧ WholePrints m.pipe.engine a.1 ∧
    ∀ shard, MidIn (lo shard) (hi shard) (topOfBook (t.pipe.engine.books shard).book)

section Runs
variable {p : Params D} {m t : Market api D} {a : Action × List ℕ} {F : IeeeArith D} {K : ℚ}
  {lo hi : Shard → ℚ}

/-- What the strategy believes is what rests, and all its prices are near the mids. -/
structure TrackInv (F : IeeeArith D) (p : Params D) (K : ℚ) (lo hi : Shard → ℚ)
    (m : Market api D) : Prop where
  price : ∀ shard, PriceInv F p K (lo shard) (hi shard) shard m.pipe.engine
  near : ∀ shard side, (m.pipe.engine.side shard side).1 ≠ 0 →
    QuotedNear p K (lo shard) (hi shard) side (m.pipe.engine.side shard side).1
  agrees : ∀ shard side, Agrees p (m.pipe.engine.side shard side) (m.live shard side)

omit [DoubleArith D] in
theorem QuotedNear.close {lo hi : ℚ} {side : Side} {px px' : ℤ}
    (h : QuotedNear p K lo hi side px) (h' : QuotedNear p K lo hi side px')
    (hwide : hi - lo + 2 * (skewOf p K + 2) < p.requoteThresholdTicks) :
    |px - px'| < p.requoteThresholdTicks := by
  have hcast : |(px : ℚ) - px'| < p.requoteThresholdTicks := by
    rw [abs_lt]
    constructor <;> linarith [h.lower, h.upper, h'.lower, h'.upper]
  exact_mod_cast hcast

omit [DoubleArith D] in
theorem SideMove.quotedNear {mid new : ℤ × RestingQuote} {locate ts : ℕ} {side : Side} {px : ℤ}
    {l : List Sending} {low high : ℚ} (hqty : 0 < p.quoteQty)
    (hmove : SideMove p locate ts side px mid (l.map Sending.call) new)
    (hmid : mid.1 ≠ 0 → QuotedNear p K low high side mid.1)
    (hquoted : ∀ x ∈ l, x.call.qty ≠ 0 → QuotedNear p K low high side x.call.px)
    (hnew : new.1 ≠ 0) : QuotedNear p K low high side new.1 := by
  generalize hcall : l.map Sending.call = calls at hmove
  cases hmove with
  | kept => exact hmid hnew
  | cancelled => exact absurd rfl hnew
  | quoted =>
    obtain ⟨x, rfl, hx⟩ := List.map_eq_singleton_iff.mp hcall
    have hnear := hquoted x (List.mem_singleton.mpr rfl)
    rw [hx] at hnear
    exact hnear (ne_of_gt hqty)

theorem TrackedStep.inv (hD : ExactProducts D) (hp : Tame F p K)
    (hr : ∀ shard, MidRange (lo shard) (hi shard))
    (hwide : ∀ shard, hi shard - lo shard + 2 * (skewOf p K + 2) < p.requoteThresholdTicks)
    (h : TrackedStep p lo hi m a t) (hm : TrackInv F p K lo hi m) : TrackInv F p K lo hi t := by
  obtain ⟨hstep, hcalm, hwhole, hmid⟩ := h
  obtain ⟨u, hu, rfl⟩ := Option.map_eq_some_iff.mp hstep
  have hprice : ∀ shard, PriceInv F p K (lo shard) (hi shard) shard u.engine := fun shard =>
    step_priceInv hD hp (hr shard) (hm.price shard) ⟨(PipelineStep.log hu).1, hmid shard⟩
  have hside : ∀ shard side,
      ((u.engine.side shard side).1 ≠ 0 →
        QuotedNear p K (lo shard) (hi shard) side (u.engine.side shard side).1) ∧
      Agrees p (u.engine.side shard side) (m.liveAfter a.1 u shard side) := by
    intro shard side
    have hnear := hm.near shard side
    have hold := hm.agrees shard side
    obtain ⟨l, hl, hcalls, hsends⟩ := PipelineStep.sends hu shard side
    have hstored : ∀ x ∈ l, x.stored = true := by
      intro x hx
      have hmem : x ∈ u.sentOn shard side := hl ▸ List.mem_append_right _ hx
      exact (hcalm.stored x (List.mem_filter.mp hmem).1).2
    have hquoted : ∀ x ∈ l, x.call.qty ≠ 0 →
        QuotedNear p K (lo shard) (hi shard) side x.call.px := by
      intro x hx
      refine (hprice shard).quotes side x.call ?_
      rw [hcalls]
      exact List.mem_append_right _ (List.mem_map_of_mem hx)
    have hfill : ∀ x ∈ a.1.fill m.pipe.engine shard, x.side = side →
        x.qty = (m.pipe.engine.side shard side).2.qty ∧
          x.px = (m.pipe.engine.side shard side).2.px := by
      intro x hx hside
      subst hside
      exact ⟨hwhole.fill_qty hx, (Action.fill_spec hx).1⟩
    have hnew : sentSince m.pipe u shard side = l := by rw [sentSince, hl, List.drop_left]
    rw [Market.liveAfter, hnew]
    cases hsends with
    | idle hsame hother =>
      rw [hsame, Action.fill_eq_none hother]
      exact ⟨hnear, hold⟩
    | flattened _ hkilled =>
      rw [hcalm.alive shard] at hkilled
      cases hkilled
    | @ran mid px l htrade hlive hpx hmove =>
      have hmidNear : mid.1 ≠ 0 → QuotedNear p K (lo shard) (hi shard) side mid.1 := by
        intro hne
        have hsame := htrade.resting.resolve_left hne
        rw [hsame] at hne ⊢
        exact hnear hne
      exact ⟨hmove.quotedNear hp.quoteQty hmidNear hquoted,
        (hold.trade htrade hfill).move hpx hmove hstored fun x hx hqty hne =>
          (hquoted x hx hqty).close (hmidNear hne) (hwide shard)⟩
  exact ⟨hprice, fun shard side => (hside shard side).1, fun shard side => (hside shard side).2⟩

theorem trackInv_start (hp : Tame F p K) (risk : Risk) (oms : OrderRing.Oms) :
    TrackInv F p K lo hi (Market.start api p risk oms) where
  price shard := priceInv_init hp shard
  near shard side h := by cases side <;> exact absurd rfl h
  agrees shard side := by cases side <;> exact agrees_empty _

/-- As long as no trade ends inside a quote and the mids of each shard stay in a range whose
width, with the reach of the skews on both sides, is below the requote threshold, at most one
order rests per side, at the price that the strategy believes in. -/
theorem one_live_order (hD : ExactProducts D) (hp : Tame F p K)
    (hr : ∀ shard, MidRange (lo shard) (hi shard))
    (hwide : ∀ shard, hi shard - lo shard + 2 * (skewOf p K + 2) < p.requoteThresholdTicks)
    {risk : Risk} {oms : OrderRing.Oms} {as : List (Action × List ℕ)}
    (hrun : Runs (TrackedStep p lo hi) (Market.start api p risk oms) as m) : OneLive m := by
  have hinv : TrackInv F p K lo hi m :=
    hrun.invariant (trackInv_start hp risk oms) fun _ _ _ hm h => h.inv hD hp hr hwide hm
  intro shard side
  rcases (hinv.agrees shard side).single with hnone | ⟨o, ho, hprice, -⟩
  · rw [hnone]
    exact ⟨Nat.zero_le _, fun o ho => absurd ho List.not_mem_nil⟩
  · rw [ho]
    exact ⟨le_rfl, fun o' ho' => List.mem_singleton.mp ho' ▸ hprice⟩

end Runs

section Samples

/-- Quotes are replaced from 60 ticks on. -/
def wideThreshold : Params ℚ := { Params.default with requoteThresholdTicks := 60 }

theorem tame_wideThreshold : Tame ieeeRat wideThreshold (31 / 1000) := by
  have h := tame_default ieeeRat
  exact ⟨h.1, h.2, h.3, h.4, h.5, h.6, h.7, h.8, h.9, h.10, h.11, h.12, h.13⟩

/-- Both sides are quoted, a better bid moves the mid, and a trade takes the queue and all of the
strategy's own bid, which is placed anew. -/
def bidTaken : List (Action × List ℕ) := twoSidedEvents ++
  [(.event (addEvent 3 'B' 10 10100) [], []), (.event (addEvent 4 'B' 200 10000) [], []),
    (.event (executeEvent 4 200) [], [])]

theorem one_live_order_bidTaken : ∃ t : Market demoApi ℚ,
    Runs (TrackedStep wideThreshold (fun _ => 101) (fun _ => 203 / 2))
      (Market.start demoApi wideThreshold Risk.init emptyOms) bidTaken t ∧
    (t.pipe.engine.states aapl).inventory = 100 ∧
    t.live aapl .buy = [⟨98, 100⟩] ∧ t.live aapl .sell = [⟨102, 100⟩] ∧ OneLive t := by
  have hrun : ∃ t ∈ bidTaken.foldlM (guarded (Market.step wideThreshold) fun m a t =>
          Undisturbed t.pipe ∧ WholePrints m.pipe.engine a.1 ∧
          ∀ shard, MidIn 101 (203 / 2) (topOfBook (t.pipe.engine.books shard).book))
        (Market.start demoApi wideThreshold Risk.init emptyOms),
      (t.pipe.engine.states aapl).inventory = 100 ∧
      t.live aapl .buy = [⟨98, 100⟩] ∧ t.live aapl .sell = [⟨102, 100⟩] := by decide +kernel
  obtain ⟨t, ht, hinv, hbid, hask⟩ := hrun
  have hr : Runs (TrackedStep wideThreshold (fun _ => 101) (fun _ => 203 / 2)) _ _ t :=
    Runs.of_guarded ht
  have hwide : ∀ shard : Shard, (203 / 2 : ℚ) - 101 + 2 * (skewOf wideThreshold (31 / 1000) + 2) <
      wideThreshold.requoteThresholdTicks := by
    intro shard
    norm_num [skewOf, wideThreshold, Params.default]
  have hrange : ∀ shard : Shard, MidRange 101 (203 / 2) := fun _ =>
    ⟨by norm_num, by norm_num, by norm_num⟩
  exact ⟨t, hr, hinv, hbid, hask,
    one_live_order exactProducts_rat tame_wideThreshold hrange hwide hr⟩

/-- Orders at 99 and 101 ticks, which make the strategy quote there. -/
def twoSidedAt99 : List (Action × List ℕ) :=
  [(.event (addEvent 1 'B' 10 9900) [], []), (.event (addEvent 2 'S' 10 10100) [], [])]

/-- A better bid joins the book, and the strategy's own bid moves from 99 to 98. -/
def bidMoves : List (Action × List ℕ) := twoSidedAt99 ++ [(.event (addEvent 3 'B' 10 10000) [], [])]

/-- A trade takes the queue and a part of the bid that the strategy quotes. -/
def bidTrades : List (Action × List ℕ) := twoSidedAt99 ++
  [(.event (executeEvent 1 10) [], []), (.event (addEvent 3 'B' 50 9900) [], []),
    (.event (executeEvent 3 40) [], [])]

/-- Without a kill, a refusal or a full ring: after a requote the old order rests beside the
new one, and after a partial fill the rest of the order is no longer known. -/
theorem requote_leaves_two_orders :
    (∃ m ∈ bidMoves.foldlM (Market.step Params.default)
        (Market.start demoApi (Params.default : Params Float) Risk.init emptyOms),
      Undisturbed m.pipe ∧ m.live aapl .buy = [⟨99, 100⟩, ⟨98, 100⟩] ∧
        (m.pipe.engine.states aapl).resting .buy = 98) ∧
    ∃ m ∈ bidTrades.foldlM (Market.step Params.default)
        (Market.start demoApi (Params.default : Params Float) Risk.init emptyOms),
      Undisturbed m.pipe ∧ m.live aapl .buy = [⟨99, 60⟩, ⟨98, 100⟩] := by
  decide +kernel

end Samples

end TradingPipeline.Engine
