import TradingPipeline.Engine.BookReconstruction

/-! # Orders outside the price range of the book

The book has levels for tick prices below `MAX_LEVEL` only. The adapter does not keep an order
without a level, and with it loses the side: when such an order is replaced by one that has a
level, the adapter cannot add it.
-/
namespace TradingPipeline.Engine
open Lib Book

variable {api : OrderBookApi} {D : Type} [DoubleArith D]

/-- The tick price has a level in the book. -/
def OnLevel (api : OrderBookApi) (px : ℤ) : Prop := 0 < px ∧ px < api.maxLevel

instance (api : OrderBookApi) : DecidablePred (OnLevel api) :=
  fun _ => inferInstanceAs (Decidable (_ ∧ _))

def visible (api : OrderBookApi) (live : List LiveOrder) : List LiveOrder :=
  live.filter fun o => OnLevel api o.px

/-- What the stream promises of an order that it introduces, at any 32-bit price. -/
structure Enters (api : OrderBookApi) (poolSize : ℕ) (live : List LiveOrder) (ref : ℕ)
    (side : Side) (shares itchPx : ℕ) : Prop where
  isRef : LiveOrderTable.IsRef ref
  notLive : ∀ o ∈ live, o.ref ≠ ref
  room : OnLevel api (itchPx / 100 : ℕ) → (visible api live).length < poolSize
  shares_pos : 0 < shares
  shares_lt : shares < 2 ^ 31
  px_lt : itchPx < 2 ^ 32
  noCross : OnLevel api (itchPx / 100 : ℕ) →
    ∀ o ∈ visible api live, crosses side (itchPx / 100 : ℕ) o.toOrderFields = false

/-- What the stream promises of a message that meets the live orders `live`. -/
def Promised (api : OrderBookApi) (poolSize : ℕ) (live : List LiveOrder) (e : Event) : Prop :=
  match e.type with
  | .add | .addMpid => Enters api poolSize live e.orderId (sideFromChar e.side) e.qty e.price
  | .execute | .executeWithPrice | .cancelPartial => 0 < e.qty ∧ e.qty < 2 ^ 31
  | .replace => ∀ o ∈ live, o.ref = e.orderId →
    Enters api poolSize (LiveOrders.remove live e.orderId) e.aux o.side e.qty e.price
  | .delete | .other => True

/-- The message replaces a live order without a level by one that has a level. -/
def Returns (api : OrderBookApi) (live : List LiveOrder) (e : Event) : Prop :=
  e.type = .replace ∧ (∃ o ∈ live, o.ref = e.orderId ∧ ¬OnLevel api o.px) ∧
    OnLevel api (e.price / 100 : ℕ)

instance (api : OrderBookApi) (live : List LiveOrder) : DecidablePred (Returns api live) :=
  fun _ => inferInstanceAs (Decidable (_ ∧ _))

/-- Each message has a property when its turn comes. -/
def Along (P : List LiveOrder → Event → Prop) : List LiveOrder → List Event → Prop
  | _, [] => True
  | live, e :: es => P live e ∧ Along P (referenceStep live e) es

section Visible
variable {live : List LiveOrder}

theorem mem_visible {o : LiveOrder} : o ∈ visible api live ↔ o ∈ live ∧ OnLevel api o.px := by
  rw [visible, List.mem_filter, decide_eq_true_iff]

theorem visible_remove (ref : ℕ) :
    visible api (LiveOrders.remove live ref) = LiveOrders.remove (visible api live) ref := by
  rw [visible, visible, LiveOrders.remove, LiveOrders.remove, List.filter_filter,
    List.filter_filter]
  exact List.filter_congr fun o _ => Bool.and_comm _ _

theorem visible_take (ref : ℕ) (shares : ℤ) :
    visible api (LiveOrders.take live ref shares) =
      LiveOrders.take (visible api live) ref shares := by
  rw [visible, visible, LiveOrders.take, LiveOrders.take, List.filter_filterMap,
    List.filterMap_filter]
  refine List.filterMap_congr fun o _ => ?_
  split
  · split
    · by_cases hl : OnLevel api o.px <;> simp [hl]
    · simp
  · by_cases hl : OnLevel api o.px <;> simp [hl]

theorem visible_add_on {o : LiveOrder} (h : OnLevel api o.px) :
    visible api (LiveOrders.add live o) = LiveOrders.add (visible api live) o := by
  simp [visible, LiveOrders.add, h]

theorem visible_add_off {o : LiveOrder} (h : ¬OnLevel api o.px) :
    visible api (LiveOrders.add live o) = visible api live := by
  simp [visible, LiveOrders.add, h]

/-- No visible order shares its reference with an order without a level. -/
theorem visible_absent (hlive : (live.map (·.ref)).Nodup) {o : LiveOrder} (ho : o ∈ live)
    (hl : ¬OnLevel api o.px) : ∀ x ∈ visible api live, x.ref ≠ o.ref := by
  intro x hx href
  obtain ⟨hx, hxl⟩ := mem_visible.mp hx
  rw [List.inj_on_of_nodup_map hlive hx ho href] at hxl
  exact hl hxl

end Visible

section Adapter
variable {laws : OrderBookLaws api} {poolSize : ℕ} {a : ItchBookAdapter api}
  {live : List LiveOrder} {ref : ℕ} {side : Side} {shares itchPx : ℕ}

theorem Enters.introduces (h : Enters api poolSize live ref side shares itchPx)
    (hl : OnLevel api (itchPx / 100 : ℕ)) :
    Represents.Introduces api poolSize (visible api live) ref side shares itchPx where
  isRef := h.isRef
  notLive o ho := h.notLive o (mem_visible.mp ho).1
  room := h.room hl
  shares_pos := h.shares_pos
  shares_lt := h.shares_lt
  px_pos := Int.natCast_pos.mp hl.1
  px_lt := hl.2
  noCross := h.noCross hl

omit [DoubleArith D] in
theorem addOrder_off (laws : OrderBookLaws api) (hpx : itchPx < 2 ^ 32)
    (hl : ¬OnLevel api (itchPx / 100 : ℕ)) (a : ItchBookAdapter api) (ref : ℕ) (side : Side)
    (shares : ℕ) : a.addOrder ref side shares itchPx = some a := by
  have hticks : toTicks api itchPx = (itchPx / 100 : ℕ) := laws.toPriceTicks_eq _ (by omega)
  have hint : int32 (itchPx / 100 : ℕ) = (itchPx / 100 : ℕ) := int32_natCast (by omega)
  have hrange : ¬inBookRange api (itchPx / 100 : ℕ) = true := by
    rw [inBookRange, hint, Bool.and_eq_true, decide_eq_true_iff, decide_eq_true_iff]
    exact hl
  rw [ItchBookAdapter.addOrder]
  simp only [hticks, hrange, if_false, Bool.false_eq_true]

theorem Represents.addVisible (h : Represents laws poolSize a (visible api live))
    (he : Enters api poolSize live ref side shares itchPx) :
    ∃ a', a.addOrder ref side shares itchPx = some a' ∧
      Represents laws poolSize a'
        (visible api (LiveOrders.add live ⟨⟨side, (itchPx / 100 : ℕ), shares⟩, ref⟩)) := by
  by_cases hl : OnLevel api (itchPx / 100 : ℕ)
  · obtain ⟨a', ha', hrep⟩ := h.addOrder (he.introduces hl)
    exact ⟨a', ha', by rwa [visible_add_on hl]⟩
  · exact ⟨a, addOrder_off laws he.px_lt hl a ref side shares, by rwa [visible_add_off hl]⟩

theorem Represents.replaceVisible (h : Represents laws poolSize a (visible api live))
    (hlive : (live.map (·.ref)).Nodup) {oldRef newRef : ℕ}
    (he : ∀ o ∈ live, o.ref = oldRef →
      Enters api poolSize (LiveOrders.remove live oldRef) newRef o.side shares itchPx)
    (hret : ¬((∃ o ∈ live, o.ref = oldRef ∧ ¬OnLevel api o.px) ∧
      OnLevel api (itchPx / 100 : ℕ))) :
    ∃ a', a.onReplace oldRef newRef shares itchPx = some a' ∧
      Represents laws poolSize a'
        (visible api (LiveOrders.replace live oldRef newRef (itchPx / 100 : ℕ) shares)) := by
  by_cases hold : ∃ o ∈ live, o.ref = oldRef
  · obtain ⟨o, ho, rfl⟩ := hold
    rw [LiveOrders.replace_of_mem hlive ho]
    by_cases hl : OnLevel api o.px
    · obtain ⟨a₁, hrest, hcall⟩ := h.onReplace_live (mem_visible.mpr ⟨ho, hl⟩)
      rw [← visible_remove] at hrest
      obtain ⟨a', ha', hrep⟩ := Represents.addVisible hrest (he o ho rfl)
      exact ⟨a', by rw [hcall, ha'], hrep⟩
    · -- the order was never kept, and its successor has no level either
      have hoff : ¬OnLevel api (itchPx / 100 : ℕ) := fun hon => hret ⟨⟨o, ho, rfl, hl⟩, hon⟩
      have habs := visible_absent hlive ho hl
      refine ⟨a, h.onReplace_absent habs _ _ _, ?_⟩
      rw [visible_add_off hoff, visible_remove, LiveOrders.remove_of_absent habs]
      exact h
  · have habs : ∀ o ∈ live, o.ref ≠ oldRef := fun o ho href => hold ⟨o, ho, href⟩
    refine ⟨a, h.onReplace_absent (fun o ho => habs o (mem_visible.mp ho).1) _ _ _, ?_⟩
    rwa [LiveOrders.replace_of_absent habs]

theorem applyToBook_visible (h : Represents laws poolSize a (visible api live))
    (hlive : (live.map (·.ref)).Nodup) {e : Event} (he : Promised api poolSize live e)
    (hret : ¬Returns api live e) :
    ∃ a', applyToBook a e = some a' ∧
      Represents laws poolSize a' (visible api (referenceStep live e)) := by
  unfold applyToBook referenceStep
  unfold Promised at he
  cases htype : e.type with
  | add | addMpid =>
    simp only [htype] at he ⊢
    exact Represents.addVisible h he
  | execute | executeWithPrice | cancelPartial =>
    simp only [htype] at he ⊢
    rw [visible_take]
    exact h.takeShares e.orderId he.2
  | delete =>
    simp only [visible_remove]
    exact h.onDelete e.orderId
  | replace =>
    simp only [htype] at he ⊢
    exact Represents.replaceVisible h hlive he fun hr => hret ⟨htype, hr.1, hr.2⟩
  | other => exact ⟨a, rfl, h⟩

theorem applyToBook_returns (h : Represents laws poolSize a (visible api live))
    (hlive : (live.map (·.ref)).Nodup) {e : Event} (hret : Returns api live e) :
    applyToBook a e = some a := by
  obtain ⟨htype, ⟨o, ho, href, hl⟩, -⟩ := hret
  simp only [applyToBook, htype]
  rw [← href]
  exact h.onReplace_absent (visible_absent hlive ho hl) _ _ _

end Adapter

section Streams
variable {P : List LiveOrder → Event → Prop} {poolSize : ℕ} {live : List LiveOrder}

theorem Along.of_prefix {es es' : List Event} (h : Along P live es) (hpre : es' <+: es) :
    Along P live es' := by
  induction es' generalizing live es with
  | nil => trivial
  | cons e es' ih =>
    obtain ⟨rest, rfl⟩ := hpre
    exact ⟨h.1, ih h.2 (List.prefix_append _ _)⟩

theorem take_refs (live : List LiveOrder) (ref : ℕ) (shares : ℤ) :
    ((LiveOrders.take live ref shares).map (·.ref)).Sublist (live.map (·.ref)) := by
  induction live with
  | nil => exact List.Sublist.refl _
  | cons o live ih =>
    rw [LiveOrders.take, List.filterMap_cons]
    split
    · exact ih.cons _
    · next x hx =>
      have href : x.ref = o.ref := by
        split at hx
        · split at hx
          · exact (Option.some.inj hx) ▸ rfl
          · cases hx
        · exact (Option.some.inj hx) ▸ rfl
      rw [List.map_cons, List.map_cons, href]
      exact ih.cons_cons _

theorem add_refs (h : (live.map (·.ref)).Nodup) {o : LiveOrder} (ho : ∀ x ∈ live, x.ref ≠ o.ref) :
    ((LiveOrders.add live o).map (·.ref)).Nodup := by
  rw [LiveOrders.add, List.map_append, List.nodup_append]
  refine ⟨h, by simp, ?_⟩
  intro r hr r' hr'
  obtain ⟨x, hx, rfl⟩ := List.mem_map.mp hr
  rw [List.map_singleton, List.mem_singleton] at hr'
  exact hr' ▸ ho x hx

theorem remove_refs (h : (live.map (·.ref)).Nodup) (ref : ℕ) :
    ((LiveOrders.remove live ref).map (·.ref)).Nodup :=
  h.sublist (List.filter_sublist.map _)

theorem referenceStep_refs (h : (live.map (·.ref)).Nodup) {e : Event}
    (he : Promised api poolSize live e) : ((referenceStep live e).map (·.ref)).Nodup := by
  unfold referenceStep
  unfold Promised at he
  cases htype : e.type with
  | add | addMpid =>
    simp only [htype] at he
    exact add_refs h he.notLive
  | execute | executeWithPrice | cancelPartial => exact h.sublist (take_refs _ _ _)
  | delete => exact remove_refs h _
  | replace =>
    simp only [htype] at he ⊢
    by_cases hold : ∃ o ∈ live, o.ref = e.orderId
    · obtain ⟨o, ho, href⟩ := hold
      have hnew := (he o ho href).notLive
      rw [← href] at hnew ⊢
      rw [LiveOrders.replace_of_mem h ho]
      exact add_refs (remove_refs h _) hnew
    · rw [LiveOrders.replace_of_absent fun o ho href => hold ⟨o, ho, href⟩]
      exact h
  | other => exact h

end Streams

section Runs
variable {laws : OrderBookLaws api} {poolSize : ℕ} {p : Params D} {g : Dispatcher api D}
  {shard : Shard} {live : List LiveOrder} {as : List Action}

/-- The actions go through, and afterwards an order rests in the shard's book exactly if it is
live with a level, and nothing else rests there. -/
def Complete (laws : OrderBookLaws api) (p : Params D) (shard : Shard) (g : Dispatcher api D)
    (live : List LiveOrder) (as : List Action) : Prop :=
  ∃ t, Runs (Step p) g as t ∧
    (∀ o, Rests laws (t.books shard) o ↔
      o ∈ (eventsOf as).foldl referenceStep live ∧ OnLevel api o.px) ∧
    ∀ hd ∈ laws.resting (t.books shard).book,
      ∃ o ∈ (eventsOf as).foldl referenceStep live,
        (t.books shard).liveOrders.handle ((t.books shard).liveOrders.find o.ref) = some hd

theorem Represents.complete_nil (h : Represents laws poolSize (g.books shard) (visible api live)) :
    Complete laws p shard g live [] := by
  refine ⟨g, .nil, fun o => (h.rests_iff o).trans mem_visible, fun hd hmem => ?_⟩
  obtain ⟨o, ho, hhandle⟩ := h.reached hmem
  exact ⟨o, (mem_visible.mp ho).1, hhandle⟩

theorem complete_cons {a : Action} {u : Dispatcher api D} (hstep : Step p g a u) :
    Complete laws p shard g live (a :: as) ↔
      Complete laws p shard u ((eventsOf [a]).foldl referenceStep live) as := by
  have hevents : (eventsOf (a :: as)).foldl referenceStep live =
      (eventsOf as).foldl referenceStep ((eventsOf [a]).foldl referenceStep live) := by
    rw [← List.foldl_append, eventsOf, eventsOf, eventsOf, ← List.filterMap_append,
      List.singleton_append]
  unfold Complete
  rw [hevents]
  constructor
  · rintro ⟨t, hr, hrest⟩
    obtain ⟨v, hv, hr⟩ := hr.cons_inv
    obtain rfl : v = u := Option.some.inj (hv.symm.trans hstep)
    exact ⟨t, hr, hrest⟩
  · rintro ⟨t, hr, hrest⟩
    exact ⟨t, (Runs.single hstep).trans hr, hrest⟩

/-- The state before a run, with the visible orders in the book of the shard. -/
structure Ready (laws : OrderBookLaws api) (poolSize : ℕ) (g : Dispatcher api D) (shard : Shard)
    (live : List LiveOrder) : Prop where
  book : Represents laws poolSize (g.books shard) (visible api live)
  refs : (live.map (·.ref)).Nodup

theorem ready_init (laws : OrderBookLaws api) (p : Params D) (shard : Shard) :
    Ready laws kPoolPerBook (Dispatcher.init api p) shard [] :=
  ⟨Represents.create laws (by decide), List.nodup_nil⟩

omit [DoubleArith D] in
theorem Ready.control (h : Ready laws poolSize g shard live) (c : Control) :
    Ready laws poolSize (g.control c) shard live := by
  refine ⟨?_, h.refs⟩
  rw [(g.control_frame c).2.1]
  exact h.book

theorem Ready.event (h : Ready laws poolSize g shard live) {e : Event}
    (hs : shardForLocate e.stockLocate = some shard) (he : Promised api poolSize live e)
    (hret : ¬Returns api live e) (during : List Control) :
    ∃ u, Step p g (.event e during) u ∧ Ready laws poolSize u shard (referenceStep live e) := by
  obtain ⟨a', ha', hrep⟩ := applyToBook_visible h.book h.refs he hret
  obtain ⟨u, hu, hbooks⟩ := applyEvent_books p hs ha' during
  exact ⟨u, hu, by rwa [hbooks], referenceStep_refs h.refs he⟩

theorem Ready.complete (h : Ready laws poolSize g shard live)
    (hs : ∀ e ∈ eventsOf as, shardForLocate e.stockLocate = some shard)
    (hprom : Along (Promised api poolSize) live (eventsOf as))
    (hret : Along (fun live e => ¬Returns api live e) live (eventsOf as)) :
    Complete laws p shard g live as := by
  induction as generalizing g live with
  | nil => exact Represents.complete_nil h.book
  | cons a as ih =>
    cases a with
    | control c =>
      have hstep : Step p g (.control c) (g.control c) := rfl
      exact (complete_cons hstep).mpr (ih (h.control c) hs hprom hret)
    | event e during =>
      obtain ⟨u, hu, hready⟩ := h.event (p := p) (hs e List.mem_cons_self) hprom.1 hret.1 during
      exact (complete_cons hu).mpr
        (ih hready (fun e' he' => hs e' (List.mem_cons_of_mem e he')) hprom.2 hret.2)

/-- After an order has come back, the book lacks it. -/
theorem Ready.not_complete (h : Ready laws poolSize g shard live) {e : Event}
    (hs : shardForLocate e.stockLocate = some shard) (he : Promised api poolSize live e)
    (hret : Returns api live e) (during : List Control) :
    ¬Complete laws p shard g live [.event e during] := by
  obtain ⟨u, hu, hbooks⟩ := applyEvent_books p hs (applyToBook_returns h.book h.refs hret) during
  have hstep : Step p g (.event e during) u := hu
  rw [complete_cons hstep]
  rintro ⟨t, hr, hrests, -⟩
  obtain rfl := hr.nil_inv
  obtain ⟨htype, ⟨o, ho, href, hl⟩, hon⟩ := hret
  have hnew : Enters api poolSize
    (LiveOrders.remove live e.orderId) e.aux o.side e.qty e.price := by
    simp only [Promised, htype] at he
    exact he o ho href
  let x : LiveOrder := ⟨⟨o.side, (e.price / 100 : ℕ), e.qty⟩, e.aux⟩
  have hstepped : referenceStep live e = LiveOrders.add (LiveOrders.remove live e.orderId) x := by
    simp only [referenceStep, htype]
    rw [← href, LiveOrders.replace_of_mem h.refs ho]
  have hx : x ∈ (eventsOf []).foldl referenceStep
      ((eventsOf [.event e during]).foldl referenceStep live) := by
    change x ∈ referenceStep live e
    rw [hstepped]
    exact List.mem_append_right _ (List.mem_singleton.mpr rfl)
  have hrest := (hrests x).mpr ⟨hx, hon⟩
  rw [hbooks, h.book.rests_iff] at hrest
  obtain ⟨hmem, -⟩ := mem_visible.mp hrest
  -- the new reference was not live, and the book was left as it was
  by_cases hold : x.ref = e.orderId
  · have heq : x = o := List.inj_on_of_nodup_map h.refs hmem ho (hold.trans href.symm)
    have hxl : OnLevel api x.px := hon
    rw [heq] at hxl
    exact hl hxl
  · refine hnew.notLive x (List.mem_filter.mpr ⟨hmem, ?_⟩) rfl
    simpa using hold

theorem Ready.never_returns (h : Ready laws poolSize g shard live)
    (hs : ∀ e ∈ eventsOf as, shardForLocate e.stockLocate = some shard)
    (hprom : Along (Promised api poolSize) live (eventsOf as))
    (hall : ∀ pre, pre <+: as → Complete laws p shard g live pre) :
    Along (fun live e => ¬Returns api live e) live (eventsOf as) := by
  induction as generalizing g live with
  | nil => trivial
  | cons a as ih =>
    cases a with
    | control c =>
      have hstep : Step p g (.control c) (g.control c) := rfl
      refine ih (h.control c) hs hprom fun pre hpre => ?_
      exact (complete_cons hstep).mp (hall _ ((List.prefix_cons_inj _).mpr hpre))
    | event e during =>
      have hfirst : shardForLocate e.stockLocate = some shard := hs e List.mem_cons_self
      have hret : ¬Returns api live e := fun hret =>
        h.not_complete hfirst hprom.1 hret during (hall _ ⟨as, rfl⟩)
      obtain ⟨u, hu, hready⟩ := h.event (p := p) hfirst hprom.1 hret during
      refine ⟨hret, ih hready (fun e' he' => hs e' (List.mem_cons_of_mem e he')) hprom.2 ?_⟩
      intro pre hpre
      exact (complete_cons hu).mp (hall _ ((List.prefix_cons_inj _).mpr hpre))

end Runs

theorem eventsOf_prefix {as bs : List Action} (h : as <+: bs) : eventsOf as <+: eventsOf bs :=
  h.filterMap _

/-- Over every stream of one shard that keeps its promises, at any prices: the book is complete
after every part of the stream, exactly when no message replaces a live order without a level
by one that has a level. -/
theorem book_complete_iff (laws : OrderBookLaws api) (p : Params D) (shard : Shard)
    {as : List Action} (hs : ∀ e ∈ eventsOf as, shardForLocate e.stockLocate = some shard)
    (hprom : Along (Promised api kPoolPerBook) [] (eventsOf as)) :
    (∀ pre, pre <+: as → Complete laws p shard (Dispatcher.init api p) [] pre) ↔
      Along (fun live e => ¬Returns api live e) [] (eventsOf as) := by
  have hready := ready_init laws p shard
  constructor
  · exact hready.never_returns hs hprom
  · intro hret pre hpre
    have hevents := eventsOf_prefix hpre
    exact hready.complete (fun e he => hs e (hevents.subset he)) (hprom.of_prefix hevents)
      (hret.of_prefix hevents)

section Samples

/-- An order leaves the price range by a replacement, and a stub quote never enters it. -/
def leavingRun : List Action :=
  [.event (addEvent 1 'B' 100 10000) [], .event (addEvent 2 'S' 70 1999999900) [],
    .event (replaceEvent 1 3 50 99) []]

theorem leavingRun_promised : Along (Promised demoApi kPoolPerBook) [] (eventsOf leavingRun) := by
  refine ⟨?_, ?_, ?_, trivial⟩
  · exact ⟨by decide, by decide, by decide, by decide, by decide, by decide, by decide⟩
  · exact ⟨by decide, by decide, by decide, by decide, by decide, by decide, by decide⟩
  · intro o ho href
    rcases List.mem_cons.mp ho with rfl | ho
    · exact ⟨by decide, by decide, by decide, by decide, by decide, by decide, by decide⟩
    · obtain rfl := List.mem_singleton.mp ho
      exact absurd href (by decide)

theorem book_complete_iff_leavingRun :
    Complete demoLaws (Params.default (D := ℚ)) aapl (Dispatcher.init demoApi Params.default) []
      leavingRun := by
  have hs : ∀ e ∈ eventsOf leavingRun, shardForLocate e.stockLocate = some aapl := by decide
  refine (book_complete_iff demoLaws _ aapl hs leavingRun_promised).mpr ?_ _ (List.prefix_refl _)
  exact ⟨by decide, by decide, by decide, trivial⟩

/-- A bid below the lowest level is replaced by one at a dollar. -/
def returningRun : List Action :=
  [.event (addEvent 1 'B' 100 99) [], .event (replaceEvent 1 3 50 10000) []]

/-- The order of the second message is live with a level, and does not rest in the book. -/
theorem returning_order_lost : ∃ t : Dispatcher demoApi ℚ,
    Runs (Step Params.default) (Dispatcher.init demoApi Params.default) returningRun t ∧
      (⟨⟨.buy, 100, 50⟩, 3⟩ : LiveOrder) ∈ (eventsOf returningRun).foldl referenceStep [] ∧
      OnLevel demoApi 100 ∧ ¬Rests demoLaws (t.books aapl) ⟨⟨.buy, 100, 50⟩, 3⟩ := by
  have hs : shardForLocate (addEvent 1 'B' 100 99).stockLocate = some aapl := by decide
  have hstart := ready_init demoLaws (Params.default (D := ℚ)) aapl
  have hadd : Promised demoApi kPoolPerBook [] (addEvent 1 'B' 100 99) :=
    ⟨by decide, by decide, by decide, by decide, by decide, by decide, by decide⟩
  obtain ⟨u, hu, hready⟩ := hstart.event (p := Params.default) hs hadd (by decide) []
  have hignored := applyToBook_returns hready.book hready.refs
    (e := replaceEvent 1 3 50 10000) (by decide)
  have hs' : shardForLocate (replaceEvent 1 3 50 10000).stockLocate = some aapl := hs
  obtain ⟨t, ht, hbooks⟩ := applyEvent_books Params.default hs' hignored []
  refine ⟨t, (Runs.single hu).snoc ht, by decide, by decide, ?_⟩
  rw [hbooks, hready.book.rests_iff]
  decide

end Samples

end TradingPipeline.Engine
