import TradingPipeline.Engine.Dispatcher
import TradingPipeline.Book.ListBook
import Mathlib.Algebra.Order.Group.Abs
import Mathlib.Algebra.Order.Group.Int

/-! # The inventory bound

The strategy and its fill simulator do not agree on what is quoted: a partial fill
clears the strategy's resting price while the simulator keeps the rest of the quote.
What bounds the inventory is therefore an invariant over both, per side: the
inventory in the direction of the side plus the simulated quantity still open there.
-/
namespace TradingPipeline.Engine
open Lib Book DoubleArith

variable {api : OrderBookApi} {D : Type}

/-- The inventory counted in the direction in which a fill of the side moves it. -/
def towards : Side → ℤ → ℤ
  | .buy, x => x
  | .sell, x => -x

/-- No side can be filled beyond an inventory of `L`. -/
def Bounded (L inv : ℤ) (f : FillSim) : Prop :=
  ∀ side, 0 ≤ (f.quote side).qty ∧ towards side inv + (f.quote side).qty ≤ L

theorem Bounded.abs_inventory_le {L inv : ℤ} {f : FillSim} (h : Bounded L inv f) : |inv| ≤ L := by
  obtain ⟨hb, hb'⟩ := h .buy
  obtain ⟨ha, ha'⟩ := h .sell
  simp only [towards] at hb' ha'
  exact abs_le.mpr ⟨by omega, by omega⟩

theorem Bounded.setQuote {L inv : ℤ} {f : FillSim} (h : Bounded L inv f) {side : Side}
    {q : RestingQuote} (hq : 0 ≤ q.qty) (hL : towards side inv + q.qty ≤ L) :
    Bounded L inv (f.setQuote q side) := by
  intro side'
  by_cases hs : side' = side
  · subst hs
    simpa using ⟨hq, hL⟩
  · rw [FillSim.quote_setQuote_of_ne f q hs]
    exact h side'

theorem Bounded.onCancel {L inv : ℤ} {f : FillSim} (h : Bounded L inv f) (side : Side) :
    Bounded L inv (f.onCancel side) := by
  obtain ⟨hq, hL⟩ := h side
  exact h.setQuote le_rfl (by simp; omega)

theorem Bounded.flatten {L : ℤ} {d : Desk D} (h : Bounded L d.s.inventory d.fsim) :
    Bounded L d.flatten.s.inventory d.flatten.fsim := by
  have hside : ∀ (d : Desk D) side, Bounded L d.s.inventory d.fsim →
      Bounded L (d.flattenSide side).s.inventory (d.flattenSide side).fsim := by
    intro d side h
    rw [(d.flattenSide_kept side).inventory, Desk.flattenSide]
    split
    · exact h.onCancel side
    · exact h
  exact hside _ .sell (hside d .buy h)

theorem Bounded.cancelBlocked {L : ℤ} {d : Desk D} (h : Bounded L d.s.inventory d.fsim)
    (locate ts : ℕ) (side : Side) (block : Bool) :
    Bounded L (d.cancelBlocked locate ts side block).s.inventory
      (d.cancelBlocked locate ts side block).fsim := by
  rw [(d.cancelBlocked_kept locate ts side block).inventory, Desk.cancelBlocked]
  split
  · split
    · rename_i d' hd
      obtain ⟨-, -, rfl⟩ := Desk.tryConsumeMsg_eq_some hd
      exact h.onCancel side
    · exact h
  · exact h

theorem Bounded.quoteSide {p : Params D} {M : ℤ} {d : Desk D}
    (h : Bounded (M + p.quoteQty) d.s.inventory d.fsim) (hQ : 0 < p.quoteQty) (top : TopOfBook)
    (locate ts : ℕ) (side : Side) (px : ℤ) {wanted : Bool}
    (hw : wanted = true → towards side d.s.inventory ≤ M) :
    Bounded (M + p.quoteQty) (d.quoteSide p top locate ts side px wanted).s.inventory
      (d.quoteSide p top locate ts side px wanted).fsim := by
  rw [(d.quoteSide_kept p top locate ts side px wanted).inventory, Desk.quoteSide]
  split
  · rename_i hwanted
    have hroom := hw hwanted
    split
    · rename_i d' hd
      obtain ⟨-, -, rfl⟩ := Desk.tryConsumeMsg_eq_some hd
      refine h.setQuote ?_ ?_
      · exact hQ.le
      · exact Int.add_le_add_right hroom _
    · exact h
  · exact h

def InventoryInv (p : Params D) (g : Dispatcher api D) : Prop :=
  ∀ shard, Bounded (p.maxInventory + p.quoteQty) (g.states shard).inventory (g.sims shard)

theorem InventoryInv.setDesk {p : Params D} {g : Dispatcher api D} (h : InventoryInv p g)
    {shard : Shard}
    {d : Desk D} (hd : Bounded (p.maxInventory + p.quoteQty) d.s.inventory d.fsim) :
    InventoryInv p (g.setDesk shard d) := by
  intro i
  by_cases hi : i = shard
  · subst hi
    rwa [Dispatcher.setDesk_states_self, Dispatcher.setDesk_sims_self]
  · rw [g.setDesk_states_of_ne d hi, g.setDesk_sims_of_ne d hi]
    exact h i

theorem InventoryInv.controls {p : Params D} {g : Dispatcher api D} (h : InventoryInv p g)
    (cs : List Control) :
    InventoryInv p (g.controls cs) := by
  obtain ⟨hsims, -, -, hstates⟩ := g.controls_frame cs
  intro i
  obtain ⟨b, hb⟩ := hstates i
  rw [hsims, hb]
  exact h i

variable [DoubleArith D]

theorem applyFillPnl_inventory (s : State D) (f : Fill) :
    (applyFillPnl s f).inventory = int32 (s.inventory + towards f.side f.qty) := by
  have hsigned : int32 (s.inventory + f.signedQty) =
      int32 (s.inventory + towards f.side f.qty) := by
    unfold Fill.signedQty
    cases f.side with
    | buy => exact int32_add_int32 _ _
    | sell => simp [int32_neg_int32, int32_add_int32, towards]
  rw [← hsigned]
  simp only [applyFillPnl]
  split <;> rfl

theorem onFill_inventory (s : State D) (f : Fill) :
    (onFill s f).inventory = int32 (s.inventory + towards f.side f.qty) := by
  have hkept := State.kept_setResting (applyFillPnl s f) 0 f.side
  rw [← applyFillPnl_inventory, ← hkept.inventory]
  rfl

theorem Bounded.fill {L inv n : ℤ} (hL : L < 2 ^ 31) {f : FillSim} (h : Bounded L inv f)
    {side : Side} {q : RestingQuote} (hn : 0 ≤ n) (hq : 0 ≤ q.qty)
    (hsum : n + q.qty = (f.quote side).qty) :
    Bounded L (int32 (inv + towards side n)) (f.setQuote q side) := by
  have hinv : int32 (inv + towards side n) = inv + towards side n := by
    have hb := h .buy
    have ha := h .sell
    apply int32_eq_self <;> cases side <;> simp only [towards, FillSim.quote] at * <;> omega
  rw [hinv]
  intro side'
  by_cases hs : side' = side
  · subst hs
    have hside := h side'
    rw [FillSim.quote_setQuote_self]
    refine ⟨hq, ?_⟩
    cases side' <;> simp only [towards] at * <;> omega
  · have hside := h side'
    rw [FillSim.quote_setQuote_of_ne f q hs]
    refine ⟨hside.1, ?_⟩
    cases side <;> cases side' <;>
      first | exact absurd rfl hs | (simp only [towards] at *; omega)

variable (api) in
theorem Bounded.onTradePrint {L : ℤ} (hL : L < 2 ^ 31) {d : Desk D}
    (h : Bounded L d.s.inventory d.fsim) (e : Event) (info : Option OrderInfo) :
    Bounded L (onTradePrint api e info d).s.inventory (onTradePrint api e info d).fsim := by
  cases info with
  | none => exact h
  | some info =>
    simp only [Engine.onTradePrint]
    generalize (if e.type = .executeWithPrice then _ else _ : ℤ) = tp
    rcases d.fsim.onTrade_cases info.side tp (api.toQuantity e.qty) e.ts with
      heq | ⟨n, q, -, hn, hq, hsum, heq⟩
    · rw [heq]
      exact h
    · rw [heq]
      by_cases h0 : n = 0
      · subst h0
        have hside := h info.side
        exact h.setQuote hq (by omega)
      · rw [if_neg h0]
        have hfill := h.fill hL hn hq hsum
        change Bounded L (onFill d.s _).inventory _
        rwa [onFill_inventory]

section Bands
variable {p : Params D}

theorem beyondBand_eq (hD : ExactProducts D) {a : ℤ} {k : ℕ} {inv : ℤ} (ha : |a| < 2 ^ 21)
    (hk : k ≤ 21) (hM : 0 ≤ p.maxInventory) (hM' : p.maxInventory < 2 ^ 31)
    (hlo : 0 ≤ a) (hhi : (a * p.maxInventory).tdiv (2 ^ k) < 2 ^ 31) (hinv : |inv| < 2 ^ 31) :
    beyondBand p (lit (a / 2 ^ k)) inv = decide (|inv| > (a * p.maxInventory).tdiv (2 ^ k)) := by
  have hnn : 0 ≤ (a * p.maxInventory).tdiv (2 ^ k) :=
    Int.tdiv_nonneg (Int.mul_nonneg hlo hM) (by positivity)
  have hval := hD a p.maxInventory k ha (by rwa [abs_of_nonneg hM]) hk (by omega) hhi
  have habs : 0 ≤ |inv| := abs_nonneg inv
  rw [beyondBand, hval, int32_eq_self (by omega) hinv]

/-- With a hard band of 1.0, a side is quoted only while the inventory towards it is at
most `max_inventory`. -/
theorem beyondBand_hard (hD : ExactProducts D) (hhard : p.hardBandFrac = lit 1)
    (hM : 0 ≤ p.maxInventory) (hM' : p.maxInventory < 2 ^ 31) {inv : ℤ} (hinv : |inv| < 2 ^ 31) :
    beyondBand p p.hardBandFrac inv = decide (|inv| > p.maxInventory) := by
  have h := beyondBand_eq hD (a := 1) (k := 0) (by norm_num) (by norm_num) hM hM' (by norm_num)
    (by simpa using hM') hinv
  simpa [hhard] using h

theorem beyondBand_panic (hD : ExactProducts D) (hpanic : p.panicBandFrac = lit (3 / 2))
    (hM : 0 ≤ p.maxInventory) (hM' : p.maxInventory ≤ 1431655765) {inv : ℤ}
    (hinv : 2 * |inv| ≤ 3 * p.maxInventory) : beyondBand p p.panicBandFrac inv = false := by
  have hdiv : (3 * p.maxInventory).tdiv 2 = 3 * p.maxInventory / 2 :=
    Int.tdiv_eq_ediv_of_nonneg (by omega)
  have hlit : (3 : ℚ) / 2 = (3 : ℤ) / 2 ^ 1 := by norm_num
  have habs : |inv| ≤ 3 * p.maxInventory / 2 := by omega
  rw [hpanic, hlit, beyondBand_eq hD (by norm_num) (by norm_num) hM (by omega) (by norm_num)
    (by rw [pow_one, hdiv]; omega) (by omega), pow_one, hdiv]
  exact decide_eq_false (by omega)

end Bands

section Strategy
variable {p : Params D} (hD : ExactProducts D) (hhard : p.hardBandFrac = lit 1)
  (hM : 0 ≤ p.maxInventory) (hQ : 0 < p.quoteQty) (hMQ : p.maxInventory + p.quoteQty < 2 ^ 31)
include hD hhard hM hQ hMQ

theorem towards_le_of_not_blocked {inv : ℤ} (hinv : |inv| ≤ p.maxInventory + p.quoteQty)
    {side : Side} (hb : blocked p inv side = false) : towards side inv ≤ p.maxInventory := by
  have hband := beyondBand_hard hD hhard hM (by omega) (lt_of_le_of_lt hinv hMQ)
  cases side with
  | buy =>
    simp only [blocked, hband, Bool.and_eq_false_iff, decide_eq_false_iff_not, not_lt] at hb
    rcases hb with hb | hb
    · exact (le_abs_self inv).trans hb
    · exact hb.trans hM
  | sell =>
    simp only [blocked, hband, Bool.and_eq_false_iff, decide_eq_false_iff_not, not_lt] at hb
    rcases hb with hb | hb
    · exact (neg_le_abs inv).trans hb
    · exact (Int.neg_nonpos_of_nonneg hb).trans hM

theorem Bounded.requote {d : Desk D}
    (h : Bounded (p.maxInventory + p.quoteQty) d.s.inventory d.fsim) (top : TopOfBook)
    (locate ts : ℕ) (bidPx askPx : ℤ) :
    Bounded (p.maxInventory + p.quoteQty) (requote p top locate ts bidPx askPx d).s.inventory
      (requote p top locate ts bidPx askPx d).fsim := by
  have hroom : ∀ side (wanted : Bool), (wanted && !blocked p d.s.inventory side) = true →
      towards side d.s.inventory ≤ p.maxInventory := by
    intro side wanted hw
    simp only [Bool.and_eq_true, Bool.not_eq_true'] at hw
    exact towards_le_of_not_blocked hD hhard hM hQ hMQ h.abs_inventory_le hw.2
  have k₁ := d.countHardBand_kept (blocked p d.s.inventory .buy || blocked p d.s.inventory .sell)
  have k₂ := k₁.trans (Desk.cancelBlocked_kept locate ts .buy (blocked p d.s.inventory .buy) _)
  have k₃ := k₂.trans (Desk.cancelBlocked_kept locate ts .sell (blocked p d.s.inventory .sell) _)
  have k₄ := k₃.trans (Desk.quoteSide_kept p top locate ts .buy bidPx
    (requoteNeeded p bidPx d.s.restingBid && !blocked p d.s.inventory .buy) _)
  simp only [Engine.requote, (Desk.countQuotedBoth_kept _).inventory, Desk.countQuotedBoth_fsim]
  refine Bounded.quoteSide ?_ hQ top locate ts .sell askPx ?_
  · refine Bounded.quoteSide ?_ hQ top locate ts .buy bidPx ?_
    · refine Bounded.cancelBlocked ?_ locate ts .sell _
      refine Bounded.cancelBlocked ?_ locate ts .buy _
      rw [k₁.inventory, Desk.countHardBand_fsim]
      exact h
    · rw [k₃.inventory]
      exact hroom .buy _
  · rw [k₄.inventory]
    exact hroom .sell _

theorem Bounded.onTopOfBook {d : Desk D}
    (h : Bounded (p.maxInventory + p.quoteQty) d.s.inventory d.fsim) (top : TopOfBook)
    (locate ts : ℕ) :
    Bounded (p.maxInventory + p.quoteQty) (onTopOfBook p top locate ts d).s.inventory
      (onTopOfBook p top locate ts d).fsim := by
  have hema := updateEma_kept p (lit (1 / 2) * ofInt (top.bestBidPrice + top.bestAskPrice)) d.s
  rw [← hema.inventory] at h
  simp only [Engine.onTopOfBook]
  split
  · exact Bounded.flatten h
  · split
    · exact h
    · exact Bounded.requote hD hhard hM hQ hMQ h top locate ts _ _

theorem Bounded.onBookEvent {d : Desk D}
    (h : Bounded (p.maxInventory + p.quoteQty) d.s.inventory d.fsim) (top : TopOfBook)
    (locate : ℕ) (globalKill : Bool) (ts : ℕ) :
    Bounded (p.maxInventory + p.quoteQty) (onBookEvent p top locate globalKill ts d).s.inventory
      (onBookEvent p top locate globalKill ts d).fsim := by
  simp only [Engine.onBookEvent]
  split
  · exact Bounded.flatten h
  · split
    · exact h
    · split
      · exact h
      · have hrefill : Bounded (p.maxInventory + p.quoteQty) (d.refillBuckets p ts).s.inventory
            (d.refillBuckets p ts).fsim := h
        exact hrefill.onTopOfBook hD hhard hM hQ hMQ top locate ts

theorem step_inventoryInv {g t : Dispatcher api D} {a : Action} (h : InventoryInv p g)
    (hstep : Step p g a t) : InventoryInv p t := by
  cases hstep.effect with
  | control c => exact h.controls [c]
  | ignored during _ => exact h.controls during
  | @applied e during shard a g₁ g₂ hs ht ha h₁ h₂ =>
    have hL : p.maxInventory + p.quoteQty < 2 ^ 31 := hMQ
    have hg₁ : InventoryInv p g₁ := by
      rw [h₁]
      exact InventoryInv.setDesk h (Bounded.onTradePrint api hL (d := g.desk shard) (h shard) e _)
    have hg₂ : InventoryInv p g₂ := h₂ ▸ hg₁.controls during
    exact hg₂.setDesk (Bounded.onBookEvent hD hhard hM hQ hMQ (hg₂ shard) _ _ _ _)

end Strategy

/-- Inventory 0 and no quote on either side, in every shard; the books, the buckets and
the flags are arbitrary. -/
def Flat (g : Dispatcher api D) : Prop :=
  ∀ shard, (g.states shard).inventory = 0 ∧
    ∀ side, (g.states shard).resting side = 0 ∧ ((g.sims shard).quote side).qty = 0

theorem onFill_panic (s : State D) (f : Fill) : (onFill s f).panic = s.panic := by
  have hpnl : (applyFillPnl s f).panic = s.panic := by
    simp only [applyFillPnl]
    split <;> rfl
  rw [← hpnl]
  exact (State.kept_setResting (applyFillPnl s f) 0 f.side).panic

theorem onTradePrint_panic (e : Event) (info : Option OrderInfo) (d : Desk D) :
    (onTradePrint api e info d).s.panic = d.s.panic := by
  cases info with
  | none => rfl
  | some info =>
    simp only [onTradePrint]
    split
    · exact onFill_panic ..
    · rfl

theorem applyEvent_panic {p : Params D} {g t : Dispatcher api D} {e : Event}
    {during : List Control} (hstep : applyEvent p g e during = some t)
    (hband : ∀ shard info, beyondBand p p.panicBandFrac
      (onTradePrint api e info (g.desk shard)).s.inventory = false) (shard : Shard) :
    (t.states shard).panic =
      during.foldl (fun flag c => c.panic shard flag) (g.states shard).panic := by
  have heffect := Step.effect (a := .event e during) hstep
  cases heffect with
  | ignored => exact g.controls_panic during shard
  | @applied _ _ i a g₁ g₂ hs ht ha h₁ h₂ =>
    subst h₁ h₂
    generalize hinfo : tradeInfo (g.books i) e = info
    generalize hg₁ : (g.setBook i a).setDesk i (onTradePrint api e info (g.desk i)) = g₁
    have hflag : ∀ j, (g₁.states j).panic = (g.states j).panic := by
      intro j
      subst hg₁
      by_cases hj : j = i
      · subst hj
        rw [Dispatcher.setDesk_states_self]
        exact onTradePrint_panic e info _
      · rw [Dispatcher.setDesk_states_of_ne _ _ hj]
        rfl
    rw [← hflag, ← g₁.controls_panic during shard]
    by_cases hi : shard = i
    · subst hi
      obtain ⟨b, hb⟩ := (g₁.controls_frame during).2.2.2 shard
      have hinv : ((g₁.controls during).states shard).inventory =
          (onTradePrint api e info (g.desk shard)).s.inventory := by
        rw [hb, ← hg₁, Dispatcher.setDesk_states_self]
      rw [runStrategy, Dispatcher.setDesk_states_self]
      refine (onBookEvent_kept ?_ _ _ _ _).panic
      exact (congrArg (beyondBand p p.panicBandFrac) hinv).trans (hband shard info)
    · rw [runStrategy, Dispatcher.setDesk_states_of_ne _ _ hi]

/-- The inventory never exceeds `max_inventory + quote_qty`. Hence the panic band is out
of reach when a quote is at most half of `max_inventory`, as long as the band itself,
1.5 times `max_inventory`, is a value of `int32_t`. -/
theorem inventory_bounded {p : Params D} (hD : ExactProducts D)
    (hhard : p.hardBandFrac = lit 1) (hM : 0 ≤ p.maxInventory) (hQ : 0 < p.quoteQty)
    (hMQ : p.maxInventory + p.quoteQty < 2 ^ 31) {g t : Dispatcher api D} {as : List Action}
    (hg : Flat g) (hr : Runs (Step p) g as t) :
    (∀ shard, |(t.states shard).inventory| ≤ p.maxInventory + p.quoteQty) ∧
    (2 * p.quoteQty ≤ p.maxInventory → p.panicBandFrac = lit (3 / 2) →
      p.maxInventory ≤ 1431655765 → ∀ e during u, applyEvent p t e during = some u →
      ∀ shard, (u.states shard).panic =
        during.foldl (fun flag c => c.panic shard flag) (t.states shard).panic) := by
  have hinit : InventoryInv p g := by
    intro shard side
    obtain ⟨hinv, hside⟩ := hg shard
    rw [hinv, (hside side).2]
    exact ⟨le_rfl, by cases side <;> simp only [towards] <;> omega⟩
  have ht : InventoryInv p t :=
    hr.invariant hinit fun _ _ _ => step_inventoryInv hD hhard hM hQ hMQ
  refine ⟨fun shard => (ht shard).abs_inventory_le, ?_⟩
  intro hhalf hpanic hmax e during u hu
  refine applyEvent_panic hu fun shard info => ?_
  have hb := (Bounded.onTradePrint api hMQ (d := t.desk shard) (ht shard) e info).abs_inventory_le
  exact beyondBand_panic hD hpanic hM hmax (by omega)

def aapl : Shard := ⟨7, by decide⟩

def addEvent (ref : ℕ) (side : Char) (shares itchPx : ℕ) : Event where
  ts := 1
  orderId := ref
  aux := 0
  price := itchPx
  qty := shares
  stockLocate := locateOf aapl
  type := .add
  side := side

def executeEvent (ref shares : ℕ) : Event :=
  { addEvent ref 'B' shares 0 with type := .execute }

abbrev demoApi : OrderBookApi := listBookApi 100000

theorem flat_init (api : OrderBookApi) (p : Params D) : Flat (Dispatcher.init api p) := by
  intro shard
  refine ⟨rfl, ?_⟩
  intro side
  cases side <;> exact ⟨rfl, rfl⟩

/-- Both sides are quoted, at 99 and 101 ticks behind 100 shares each, more shares join the bid, and
an execution takes the queue and the whole bid. -/
def bidTakenRun : List Action :=
  [.event (addEvent 1 'B' 100 9900) [], .event (addEvent 2 'S' 100 10100) [],
    .event (addEvent 3 'B' 200 9900) [], .event (executeEvent 3 200) []]

theorem inventory_bounded_bidTakenRun : ∃ t : Dispatcher demoApi ℚ,
    Runs (Step Params.default) (Dispatcher.init demoApi Params.default) bidTakenRun t ∧
    (t.states aapl).inventory = 100 ∧ |(t.states aapl).inventory| ≤ 600 ∧
    ∀ e u, applyEvent Params.default t e [] = some u → (u.states aapl).panic = false := by
  have hrun : ∃ t ∈ bidTakenRun.foldlM (step Params.default)
      (Dispatcher.init demoApi (Params.default (D := ℚ))),
      (t.states aapl).inventory = 100 ∧ (t.states aapl).panic = false := by decide +kernel
  obtain ⟨t, ht, hinv, hpanic⟩ := hrun
  have hr := Runs.of_foldlM ht
  obtain ⟨hbound, hkeeps⟩ := inventory_bounded exactProducts_rat rfl (by decide) (by decide)
    (by decide) (flat_init _ _) hr
  refine ⟨t, hr, hinv, hbound aapl, fun e u hu => ?_⟩
  exact (hkeeps (by decide) rfl (by decide) e [] u hu aapl).trans hpanic

/-- `max_inventory` so large that 1.5 times it is no value of `int32_t`. -/
def wideParams : Params ℚ := { Params.default with maxInventory := 1431655766 }

/-- The conversion of the panic band overflows, and the strategy panics with an empty
inventory on the first event that finds both sides of the book. -/
theorem panic_on_empty_inventory :
    0 ≤ wideParams.maxInventory ∧ 0 < wideParams.quoteQty ∧ wideParams.hardBandFrac = lit 1 ∧
    wideParams.panicBandFrac = lit (3 / 2) ∧
    wideParams.maxInventory + wideParams.quoteQty < 2 ^ 31 ∧
    2 * wideParams.quoteQty ≤ wideParams.maxInventory ∧
    Flat (Dispatcher.init demoApi wideParams) ∧
    ∃ g t : Dispatcher demoApi ℚ,
      Runs (Step wideParams) (Dispatcher.init demoApi wideParams)
        [.event (addEvent 1 'B' 10 10000) []] g ∧
      applyEvent wideParams g (addEvent 2 'S' 10 10200) [] = some t ∧
      (g.states aapl).panic = false ∧ (t.states aapl).panic = true := by
  have hrun : ∃ g ∈ step wideParams (Dispatcher.init demoApi wideParams)
        (.event (addEvent 1 'B' 10 10000) []),
      ∃ t ∈ applyEvent wideParams g (addEvent 2 'S' 10 10200) [],
        (g.states aapl).panic = false ∧ (t.states aapl).panic = true := by
    decide +kernel
  obtain ⟨g, hg, t, ht, hflags⟩ := hrun
  exact ⟨by decide, by decide, rfl, rfl, by decide, by decide, flat_init _ _,
    g, t, Runs.single hg, ht, hflags⟩

end TradingPipeline.Engine
