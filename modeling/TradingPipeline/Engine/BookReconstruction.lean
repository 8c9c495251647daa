import TradingPipeline.Book.Refinement
import TradingPipeline.Engine.Inventory

/-! # The book of a shard under the order stream

Over every stream of order messages of one shard, the dispatcher keeps the shard's
book equal to the live orders that the messages define.
-/
namespace TradingPipeline.Engine
open Lib Book

variable {api : OrderBookApi} {D : Type} [DoubleArith D]

/-- What a message does to the live orders. -/
def referenceStep (live : List LiveOrder) (e : Event) : List LiveOrder :=
  match e.type with
  | .add | .addMpid =>
    LiveOrders.add live ⟨⟨sideFromChar e.side, (e.price / 100 : ℕ), e.qty⟩, e.orderId⟩
  | .execute | .executeWithPrice | .cancelPartial => LiveOrders.take live e.orderId e.qty
  | .delete => LiveOrders.remove live e.orderId
  | .replace => LiveOrders.replace live e.orderId e.aux (e.price / 100 : ℕ) e.qty
  | .other => live

/-- What the stream promises of a message that meets the live orders `live`. -/
def Admissible (api : OrderBookApi) (poolSize : ℕ) (live : List LiveOrder) (e : Event) : Prop :=
  match e.type with
  | .add | .addMpid =>
    Represents.Introduces api poolSize live e.orderId (sideFromChar e.side) e.qty e.price
  | .execute | .executeWithPrice | .cancelPartial => 0 < e.qty ∧ e.qty < 2 ^ 31
  | .replace => ∀ o ∈ live, o.ref = e.orderId →
    Represents.Introduces api poolSize (LiveOrders.remove live e.orderId) e.aux o.side e.qty e.price
  | .delete | .other => True

/-- Every message of the stream keeps its promise when its turn comes. -/
def AdmissibleStream (api : OrderBookApi) (poolSize : ℕ) : List LiveOrder → List Event → Prop
  | _, [] => True
  | live, e :: es =>
    Admissible api poolSize live e ∧ AdmissibleStream api poolSize (referenceStep live e) es

omit [DoubleArith D] in
theorem applyToBook_represents {laws : OrderBookLaws api} {poolSize : ℕ}
    {a : ItchBookAdapter api} {live : List LiveOrder} (h : Represents laws poolSize a live)
    {e : Event} (he : Admissible api poolSize live e) :
    ∃ a', applyToBook a e = some a' ∧ Represents laws poolSize a' (referenceStep live e) := by
  unfold applyToBook
  unfold referenceStep
  unfold Admissible at he
  cases htype : e.type with
  | add | addMpid =>
    simp only [htype] at he ⊢
    exact h.addOrder he
  | execute | executeWithPrice | cancelPartial =>
    simp only [htype] at he ⊢
    exact h.takeShares e.orderId he.2
  | delete => exact h.onDelete e.orderId
  | replace =>
    simp only [htype] at he ⊢
    exact h.onReplace e.orderId e.aux he
  | other => exact ⟨a, rfl, h⟩

theorem applyEvent_books (p : Params D) {g : Dispatcher api D} {shard : Shard} {e : Event}
    {a' : ItchBookAdapter api} (hs : shardForLocate e.stockLocate = some shard)
    (ha' : applyToBook (g.books shard) e = some a') (during : List Control) :
    ∃ t, applyEvent p g e during = some t ∧ t.books shard = a' := by
  simp only [applyEvent, hs]
  split
  · next hother =>
    refine ⟨_, rfl, ?_⟩
    rw [applyToBook, hother] at ha'
    rw [(g.controls_frame during).2.1]
    exact Option.some.inj ha'
  · rw [ha']
    refine ⟨_, rfl, ?_⟩
    simp only [runStrategy, Dispatcher.setDesk, (Dispatcher.controls_frame _ during).2.1,
      Dispatcher.setBook, Function.update_self]

theorem applyEvent_book {laws : OrderBookLaws api} {poolSize : ℕ} (p : Params D)
    {g : Dispatcher api D} {shard : Shard} {live : List LiveOrder}
    (h : Represents laws poolSize (g.books shard) live) {e : Event}
    (hs : shardForLocate e.stockLocate = some shard) (he : Admissible api poolSize live e)
    (during : List Control) :
    ∃ t, applyEvent p g e during = some t ∧
      Represents laws poolSize (t.books shard) (referenceStep live e) := by
  obtain ⟨a', ha', hrep⟩ := applyToBook_represents h he
  obtain ⟨t, ht, hbooks⟩ := applyEvent_books p hs ha' during
  exact ⟨t, ht, by rwa [hbooks]⟩

def eventsOf (as : List Action) : List Event :=
  as.filterMap fun
    | .event e _ => some e
    | .control _ => none

theorem run_book {laws : OrderBookLaws api} {poolSize : ℕ} (p : Params D) {g : Dispatcher api D}
    {shard : Shard} {live : List LiveOrder} {as : List Action}
    (h : Represents laws poolSize (g.books shard) live)
    (hs : ∀ e ∈ eventsOf as, shardForLocate e.stockLocate = some shard)
    (hadm : AdmissibleStream api poolSize live (eventsOf as)) :
    ∃ t, Runs (Step p) g as t ∧
      Represents laws poolSize (t.books shard) ((eventsOf as).foldl referenceStep live) := by
  induction as generalizing g live with
  | nil => exact ⟨g, .nil, h⟩
  | cons a as ih =>
    cases a with
    | control c =>
      have hc : Represents laws poolSize ((g.control c).books shard) live := by
        rw [(g.control_frame c).2.1]
        exact h
      obtain ⟨t, hr, hrep⟩ := ih hc hs hadm
      exact ⟨t, (Runs.single rfl).trans hr, hrep⟩
    | event e during =>
      obtain ⟨hfirst, hrest⟩ := hadm
      obtain ⟨u, hu, hu'⟩ := applyEvent_book p h (hs e (by simp [eventsOf])) hfirst during
      obtain ⟨t, hr, hrep⟩ := ih hu' (fun e' he' => hs e' (List.mem_cons_of_mem e he')) hrest
      have hstep : Step p g (.event e during) u := hu
      exact ⟨t, (Runs.single hstep).trans hr, hrep⟩

/-- Every admissible stream of one shard goes through, and afterwards the orders that
are reached through the table and rest in the book are exactly the live orders. -/
theorem book_reconstructed (laws : OrderBookLaws api) (p : Params D) (shard : Shard)
    {as : List Action} (hs : ∀ e ∈ eventsOf as, shardForLocate e.stockLocate = some shard)
    (hadm : AdmissibleStream api kPoolPerBook [] (eventsOf as)) :
    ∃ t, Runs (Step p) (Dispatcher.init api p) as t ∧
      (∀ o, Rests laws (t.books shard) o ↔ o ∈ (eventsOf as).foldl referenceStep []) ∧
      ∀ hd ∈ laws.resting (t.books shard).book,
        ∃ o ∈ (eventsOf as).foldl referenceStep [],
          (t.books shard).liveOrders.handle ((t.books shard).liveOrders.find o.ref) = some hd := by
  have hinit : Represents laws kPoolPerBook ((Dispatcher.init api p).books shard) [] :=
    Represents.create laws (by decide)
  obtain ⟨t, hr, hrep⟩ := run_book p hinit hs hadm
  exact ⟨t, hr, hrep.rests_iff, fun hd hmem => hrep.reached hmem⟩

/-- The replacement of an order of `AAPL` by another. -/
def replaceEvent (oldRef newRef shares itchPx : ℕ) : Event :=
  { addEvent oldRef 'B' shares itchPx with type := .replace, aux := newRef }

def replaceRun : List Action :=
  [.event (addEvent 1 'B' 100 10000) [], .event (addEvent 2 'S' 70 10200) [],
    .event (replaceEvent 1 3 50 10100) []]

def demoLaws : OrderBookLaws demoApi := listBookLaws (by decide)

theorem book_reconstructed_replace : ∃ t : Dispatcher demoApi ℚ,
    Runs (Step Params.default) (Dispatcher.init demoApi Params.default) replaceRun t ∧
    ∀ o, Rests demoLaws (t.books aapl) o ↔
      o ∈ [(⟨⟨.sell, 102, 70⟩, 2⟩ : LiveOrder), ⟨⟨.buy, 101, 50⟩, 3⟩] := by
  have hs : ∀ e ∈ eventsOf replaceRun, shardForLocate e.stockLocate = some aapl := by decide
  have hadm : AdmissibleStream demoApi kPoolPerBook [] (eventsOf replaceRun) := by
    refine ⟨?_, ?_, ?_, trivial⟩
    · exact ⟨by decide, by decide, by decide, by decide, by decide, by decide, by decide, by decide⟩
    · exact ⟨by decide, by decide, by decide, by decide, by decide, by decide, by decide, by decide⟩
    · intro o ho href
      rcases List.mem_cons.mp ho with rfl | ho
      · exact ⟨by decide, by decide, by decide, by decide, by decide, by decide, by decide,
          by decide⟩
      · obtain rfl := List.mem_singleton.mp ho
        exact absurd href (by decide)
  obtain ⟨t, hr, hrests, -⟩ := book_reconstructed demoLaws (Params.default (D := ℚ)) aapl hs hadm
  exact ⟨t, hr, hrests⟩

end TradingPipeline.Engine
