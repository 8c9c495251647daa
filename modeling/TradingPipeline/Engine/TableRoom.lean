import Mathlib.Combinatorics.Enumerative.DoubleCounting
import TradingPipeline.Engine.StaleHandles

/-! # Room in the table of live orders

`insert` probes without a bound. As long as no add crosses, every handle in the table belongs
to an order of its own that rests in the book, and the pool of the book is at most half as
large as the table: there is always a slot that ends the loop.
-/
namespace TradingPipeline.Engine
open Lib Book

variable {api : OrderBookApi}

def liveSlots {H : Type} (t : LiveOrderTable H) : Finset ℕ :=
  (Finset.range t.size).filter fun i => (t.slots i).handle.isSome

theorem insertIndex_of_room {H : Type} {t : LiveOrderTable H} (hm : t.Marked)
    (hroom : (liveSlots t).card < t.size) (ref : ℕ) : ∃ i, t.insertIndex ref = some i := by
  obtain ⟨i, hi, hfree⟩ : ∃ i < t.size, (t.slots i).handle = none := by
    by_contra hno
    have hfull : ∀ i < t.size, (t.slots i).handle ≠ none := fun i hi h => hno ⟨i, hi, h⟩
    have hall : liveSlots t = Finset.range t.size := by
      apply Finset.filter_true_of_mem
      intro i hi
      exact Option.isSome_iff_ne_none.mpr (hfull i (Finset.mem_range.mp hi))
    rw [hall, Finset.card_range] at hroom
    exact lt_irrefl _ hroom
  have htakes : (t.cell i).takes ref = true := by
    unfold LiveOrderTable.cell
    rw [hfree]
    dsimp only
    split <;> rfl
  obtain ⟨j, hj, hreach⟩ := exists_offset hi (t.start_lt ref)
  rw [hm.insertIndex_eq]
  rcases probe_cases (fun i => (t.cell i).takes ref) t.size (t.start_lt ref) with
    ⟨-, hnone⟩ | ⟨k, -, hsome, -⟩
  · have := hnone j hj
    rw [hreach, htakes] at this
    cases this
  · exact ⟨_, hsome⟩

/-- No add along the messages finds an order to trade with. -/
def NeverCrosses (laws : MatchingLaws api) : ItchBookAdapter api → List Event → Prop
  | _, [] => True
  | a, e :: es =>
    (∀ ad ∈ addition a e, ∀ h ∈ laws.resting ad.adapter.book,
      crosses ad.cmd.side ad.cmd.px (api.fields ad.adapter.book h) = false) ∧
    ∀ a' ∈ applyToBook a e, NeverCrosses laws a' es

instance NeverCrosses.decidable (laws : MatchingLaws api) :
    (a : ItchBookAdapter api) → (es : List Event) → Decidable (NeverCrosses laws a es)
  | _, [] => .isTrue trivial
  | a, e :: es =>
    have := fun a' => NeverCrosses.decidable laws a' es
    inferInstanceAs (Decidable ((∀ ad ∈ addition a e, ∀ h ∈ laws.resting ad.adapter.book,
      crosses ad.cmd.side ad.cmd.px (api.fields ad.adapter.book h) = false) ∧
      ∀ a' ∈ applyToBook a e, NeverCrosses laws a' es))

theorem NeverCrosses.of_prefix {laws : MatchingLaws api} {a : ItchBookAdapter api}
    {front es : List Event} (hfront : front <+: es) (h : NeverCrosses laws a es) :
    NeverCrosses laws a front := by
  induction front generalizing a es with
  | nil => trivial
  | cons e front ih =>
    obtain ⟨rest, rfl⟩ := hfront
    rw [List.cons_append] at h
    exact ⟨h.1, fun a' ha' => ih (List.prefix_append front rest) (h.2 a' ha')⟩

/-- The adapter along the messages: at least twice as many slots as the pool has orders, and
handles that belong to resting orders, one each. -/
structure HasRoom (laws : PoolLaws api) (poolSize : ℕ) (a : ItchBookAdapter api) : Prop where
  marked : a.liveOrders.Marked
  size_ge : 2 * poolSize ≤ a.liveOrders.size
  size_le : a.liveOrders.size ≤ 2 ^ 32
  own : ∃ owner, Owned.NoStale laws.toMatchingLaws ⟨a, owner⟩
  capacity : laws.capacity a.book = poolSize
  resting_le : (laws.resting a.book).card ≤ poolSize

section Steps
variable {laws : PoolLaws api} {poolSize : ℕ} {a m : ItchBookAdapter api}

theorem HasRoom.liveSlots_le (h : HasRoom laws poolSize a) :
    (liveSlots a.liveOrders).card ≤ (laws.resting a.book).card := by
  obtain ⟨owner, hstale⟩ := h.own
  apply Finset.card_le_card_of_forall_subsingleton
    fun i x => (a.liveOrders.slots i).handle = some x
  · intro i hi
    obtain ⟨hlt, hsome⟩ := Finset.mem_filter.mp hi
    obtain ⟨x, hx⟩ := Option.isSome_iff_exists.mp hsome
    exact ⟨x, (hstale.resting i (Finset.mem_range.mp hlt) x hx).1, hx⟩
  · rintro x - i ⟨hi, hx⟩ j ⟨hj, hx'⟩
    have hi := Finset.mem_range.mp (Finset.mem_filter.mp hi).1
    have hj := Finset.mem_range.mp (Finset.mem_filter.mp hj).1
    exact hstale.distinct i hi j hj x hx hx'

theorem HasRoom.room (h : HasRoom laws poolSize a) (hpos : 1 ≤ poolSize) :
    (liveSlots a.liveOrders).card < a.liveOrders.size := by
  have hslots := h.liveSlots_le
  have hresting := h.resting_le
  have hsize := h.size_ge
  omega

theorem hasRoom_create (laws : PoolLaws api) (hpool : poolSize < 2 ^ 31) :
    HasRoom laws poolSize (ItchBookAdapter.create api poolSize) where
  marked := LiveOrderTable.create_marked _
  size_ge := by
    obtain ⟨k, hsize, hle, -⟩ := LiveOrderTable.create_size (H := api.OrderPointer) (poolSize * 2)
    change 2 * poolSize ≤ (LiveOrderTable.create (poolSize * 2)).size
    omega
  size_le := LiveOrderTable.create_size_le (by omega)
  own := ⟨_, create_noStale laws.toMatchingLaws poolSize⟩
  capacity := laws.capacity_create poolSize
  resting_le := by
    change (laws.resting (api.create poolSize)).card ≤ poolSize
    rw [laws.resting_create]
    exact Nat.zero_le _

theorem Clears.hasRoom (hm : Clears a m) (h : HasRoom laws poolSize a) :
    HasRoom laws poolSize m := by
  obtain ⟨owner, hstale⟩ := h.own
  have hown := (hm.noStale hstale).1
  cases hm with
  | nothing => exact h
  | reduced hi hh hq =>
    refine ⟨h.marked, h.size_ge, h.size_le, ⟨owner, hown⟩, ?_, ?_⟩
    · rw [laws.capacity_setQuantity, h.capacity]
    · rw [laws.setQuantity _ _ (hstale.resting _ hi _ hh).1 _ hq]
      exact h.resting_le
  | @erased i x hi hh =>
    refine ⟨h.marked.erase i, h.size_ge, h.size_le, ⟨owner, hown⟩, ?_, ?_⟩
    · rw [laws.capacity_cancel, h.capacity]
    · apply le_trans (Finset.card_le_card ?_) h.resting_le
      intro y hy
      exact ((laws.cancel _ _ (hstale.resting i hi x hh).1 y).mp hy).2

theorem HasRoom.resting_lt (h : HasRoom laws poolSize a) {cmd : AddCommand}
    {x : api.OrderPointer} {book : api.OrderBook}
    (hcross : ∀ x ∈ laws.resting a.book, crosses cmd.side cmd.px (api.fields a.book x) = false)
    (hadd : api.processAdd a.book cmd = (some x, book)) :
    (laws.resting a.book).card < poolSize := by
  by_contra hfull
  have hnone := laws.add_full a.book cmd (by rw [h.capacity]; exact not_lt.mp hfull) hcross
  rw [hadd] at hnone
  cases hnone

theorem resting_card_add_le {book book' : api.OrderBook} {cmd : AddCommand}
    {x : api.OrderPointer} (hadd : api.processAdd book cmd = (some x, book')) :
    (laws.resting book').card ≤ (laws.resting book).card + 1 := by
  classical
  have hsub : laws.resting book' ⊆ insert x (laws.resting book) := by
    intro y hy
    rcases ((laws.add_some _ _ _ _ hadd).2 y).mp hy with rfl | ⟨hmem, -⟩
    · exact Finset.mem_insert_self _ _
    · exact Finset.mem_insert_of_mem hmem
  exact (Finset.card_le_card hsub).trans (Finset.card_insert_le x _)

theorem Addition.hasRoom {ref : ℕ} {cmd : AddCommand} (h : HasRoom laws poolSize a)
    (hpos : 1 ≤ poolSize) (href : LiveOrderTable.IsRef ref)
    (hcross : ∀ x ∈ laws.resting a.book, crosses cmd.side cmd.px (api.fields a.book x) = false) :
    ∃ a', Addition.run ⟨a, ref, cmd⟩ = some a' ∧ HasRoom laws poolSize a' := by
  classical
  obtain ⟨owner, hstale⟩ := h.own
  have hspares : Addition.Spares laws.toMatchingLaws ⟨a, ref, cmd⟩ := by
    apply Addition.Spares.of_noCross
    intro i hi x hx
    exact hcross x (hstale.resting i hi x hx).1
  have hremoved : ∀ x, x ∉ laws.removed a.book cmd := by
    intro x hx
    obtain ⟨hmem, hcr⟩ := laws.removed_crosses _ _ x hx
    rw [hcross x hmem] at hcr
    cases hcr
  have hcapacity := laws.capacity_add a.book cmd
  rcases hadd : api.processAdd a.book cmd with ⟨_ | x, book⟩
  · have hrun : Addition.run ⟨a, ref, cmd⟩ = some { a with book := book } := by
      simp only [Addition.run, hadd]
    have hnone := laws.add_none _ _ _ hadd
    rw [hadd, h.capacity] at hcapacity
    refine ⟨_, hrun, h.marked, h.size_ge, h.size_le, ?_, hcapacity, ?_⟩
    · exact ⟨_, (Addition.noStale_iff hstale hrun).1.mpr hspares⟩
    · apply le_trans (Finset.card_le_card ?_) h.resting_le
      intro y hy
      exact ((hnone y).mp hy).1
  · obtain ⟨k, hindex⟩ := insertIndex_of_room h.marked (h.room hpos) ref
    have hrun : Addition.run ⟨a, ref, cmd⟩ = some ⟨book, { a.liveOrders with
        slots := Function.update a.liveOrders.slots k ⟨ref, some x⟩ }⟩ := by
      simp only [Addition.run, hadd, LiveOrderTable.insert_eq, hindex, Option.map_some]
    have hbelow := h.resting_lt hcross hadd
    rw [hadd, h.capacity] at hcapacity
    refine ⟨_, hrun, h.marked.put k href x, h.size_ge, h.size_le, ?_, hcapacity, ?_⟩
    · exact ⟨_, (Addition.noStale_iff hstale hrun).1.mpr hspares⟩
    · exact (resting_card_add_le hadd).trans hbelow

theorem applyToBook_hasRoom (h : HasRoom laws poolSize a) (hpos : 1 ≤ poolSize) {e : Event}
    (href : LiveOrderTable.IsRef (newRef e))
    (hcross : ∀ ad ∈ addition a e, ∀ x ∈ laws.resting ad.adapter.book,
      crosses ad.cmd.side ad.cmd.px (api.fields ad.adapter.book x) = false) :
    ∃ a', applyToBook a e = some a' ∧ HasRoom laws poolSize a' := by
  obtain ⟨m, hclears, hcases⟩ := applyToBook_eq h.size_le e
  have hm := hclears.hasRoom h
  rcases hcases with ⟨-, heq⟩ | ⟨cmd, hsome, heq⟩
  · exact ⟨m, heq, hm⟩
  · rw [heq]
    exact Addition.hasRoom hm hpos href (hcross _ hsome)

theorem applyAll_hasRoom (h : HasRoom laws poolSize a) (hpos : 1 ≤ poolSize) {es : List Event}
    (hrefs : ∀ e ∈ es, LiveOrderTable.IsRef (newRef e))
    (hcross : NeverCrosses laws.toMatchingLaws a es) :
    ∃ a', es.foldlM applyToBook a = some a' ∧ HasRoom laws poolSize a' := by
  induction es generalizing a with
  | nil => exact ⟨a, rfl, h⟩
  | cons e es ih =>
    obtain ⟨a', happly, hroom⟩ := applyToBook_hasRoom h hpos (hrefs e List.mem_cons_self) hcross.1
    obtain ⟨u, hrest, hu⟩ := ih hroom
      (fun e he => hrefs e (List.mem_cons_of_mem _ he)) (hcross.2 a' happly)
    refine ⟨u, ?_, hu⟩
    rw [List.foldlM_cons, happly]
    exact hrest

end Steps

/-- As long as no add crosses, every call of the adapter returns: there are never more handles
in the table than orders in the book, fewer than slots, and `insert` ends for every key. -/
theorem table_insert_ends (laws : PoolLaws api) {poolSize : ℕ} (hpos : 1 ≤ poolSize)
    (hpool : poolSize < 2 ^ 31) (es : List Event)
    (hrefs : ∀ e ∈ es, LiveOrderTable.IsRef (newRef e))
    (hcross : NeverCrosses laws.toMatchingLaws (ItchBookAdapter.create api poolSize) es) :
    ∀ front, front <+: es → ∃ a, front.foldlM applyToBook (.create api poolSize) = some a ∧
      (liveSlots a.liveOrders).card ≤ (laws.resting a.book).card ∧
      (laws.resting a.book).card ≤ poolSize ∧
      (liveSlots a.liveOrders).card < a.liveOrders.size ∧
      ∀ ref h, ∃ t, a.liveOrders.insert ref h = some t := by
  intro front hfront
  obtain ⟨a, hrun, hroom⟩ := applyAll_hasRoom (hasRoom_create laws hpool) hpos
    (fun e he => hrefs e (hfront.subset he)) (hcross.of_prefix hfront)
  refine ⟨a, hrun, hroom.liveSlots_le, hroom.resting_le, hroom.room hpos, ?_⟩
  intro ref h
  obtain ⟨i, hi⟩ := insertIndex_of_room hroom.marked (hroom.room hpos) ref
  exact ⟨_, by rw [LiveOrderTable.insert_eq, hi, Option.map_some]⟩

/-- A pool of one order: the second add is refused until the first order is deleted. Reference 2
is used again after its replacement. -/
def fullPoolEvents : List Event :=
  [bookEvent .add 1 100 10100 'S', bookEvent .add 2 60 10100 'S', bookEvent .delete 1 0 0 ' ',
    bookEvent .add 2 60 10100 'S', ⟨0, 2, 3, 10200, 40, 1, .replace, ' '⟩,
    bookEvent .executeWithPrice 3 40 10200 ' ', bookEvent .add 2 10 10100 'B']

theorem table_insert_ends_fullPoolEvents :
    ∃ a, fullPoolEvents.foldlM applyToBook (.create (matchingBookApi 1000) 1) = some a ∧
      (liveSlots a.liveOrders).card ≤ ((matchingPoolLaws 1000).resting a.book).card ∧
      ((matchingPoolLaws 1000).resting a.book).card ≤ 1 ∧
      (liveSlots a.liveOrders).card < a.liveOrders.size ∧
      ∀ ref h, ∃ t, a.liveOrders.insert ref h = some t :=
  table_insert_ends (matchingPoolLaws 1000) le_rfl (by decide) fullPoolEvents (by decide)
    (by decide +kernel) fullPoolEvents (List.prefix_refl _)

end TradingPipeline.Engine
