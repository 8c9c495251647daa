import TradingPipeline.Book.ListBook
import Mathlib.Data.Finset.Card

/-! # What the book should hold

The displayed book as the messages define it: the live orders in order of arrival.
Next to it stands what the adapter relies on in the book library, for streams in
which no add crosses the other side.
-/
namespace TradingPipeline.Book
open Lib

structure OrderFields where
  side : Side
  px : ℤ
  qty : ℤ
  deriving DecidableEq, Repr

structure LiveOrder extends OrderFields where
  ref : ℕ
  deriving DecidableEq, Repr

/-- The incoming order would trade against the resting one. -/
def crosses (side : Side) (px : ℤ) (o : OrderFields) : Bool :=
  match side, o.side with
  | .buy, .sell => o.px ≤ px
  | .sell, .buy => px ≤ o.px
  | _, _ => false

namespace LiveOrders

def add (l : List LiveOrder) (o : LiveOrder) : List LiveOrder := l ++ [o]

/-- Take shares off an order, which goes when nothing remains. -/
def take (l : List LiveOrder) (ref : ℕ) (shares : ℤ) : List LiveOrder :=
  l.filterMap fun o =>
    if o.ref = ref then
      if shares < o.qty then some { o with qty := o.qty - shares } else none
    else some o

def remove (l : List LiveOrder) (ref : ℕ) : List LiveOrder := l.filter fun o => o.ref ≠ ref

/-- Remove the old order and insert the new one on the same side. -/
def replace (l : List LiveOrder) (oldRef newRef : ℕ) (px qty : ℤ) : List LiveOrder :=
  match l.find? fun o => o.ref = oldRef with
  | none => l
  | some o => add (remove l oldRef) ⟨⟨o.side, px, qty⟩, newRef⟩

variable {l : List LiveOrder}

theorem find?_ref (hl : (l.map (·.ref)).Nodup) {o : LiveOrder} (ho : o ∈ l) :
    l.find? (fun x => x.ref = o.ref) = some o := by
  cases hf : l.find? (fun x => x.ref = o.ref) with
  | none =>
    have hno := List.find?_eq_none.mp hf o ho
    simp at hno
  | some x =>
    have hx := List.mem_of_find?_eq_some hf
    have href : x.ref = o.ref := by simpa using List.find?_some hf
    rw [List.inj_on_of_nodup_map hl hx ho href]

theorem replace_of_mem (hl : (l.map (·.ref)).Nodup) {o : LiveOrder} (ho : o ∈ l) (newRef : ℕ)
    (px qty : ℤ) :
    replace l o.ref newRef px qty = add (remove l o.ref) ⟨⟨o.side, px, qty⟩, newRef⟩ := by
  rw [replace, find?_ref hl ho]

theorem replace_of_absent {oldRef : ℕ} (h : ∀ o ∈ l, o.ref ≠ oldRef) (newRef : ℕ) (px qty : ℤ) :
    replace l oldRef newRef px qty = l := by
  have hnone : l.find? (fun o => o.ref = oldRef) = none := by
    apply List.find?_eq_none.mpr
    intro o ho
    simpa using h o ho
  rw [replace, hnone]

theorem remove_of_absent {ref : ℕ} (h : ∀ o ∈ l, o.ref ≠ ref) : remove l ref = l := by
  apply List.filter_eq_self.mpr
  intro o ho
  simpa using h o ho

end LiveOrders

def OrderBookApi.fields (api : OrderBookApi) (b : api.OrderBook) (h : api.OrderPointer) :
    OrderFields :=
  ⟨api.getSide b h, api.getPrice b h, api.getQuantity b h⟩

/-- What the adapter assumes of the book library: which orders rest, and that each call
does to them what it says and nothing else. -/
structure OrderBookLaws (api : OrderBookApi) where
  resting : api.OrderBook → Finset api.OrderPointer
  capacity : api.OrderBook → ℕ
  maxLevel_lt : api.maxLevel < 2 ^ 31
  toQuantity_eq : ∀ n, n < 2 ^ 31 → api.toQuantity n = n
  toPriceTicks_eq : ∀ n, n < 2 ^ 31 → api.toPriceTicks n = n
  resting_create : ∀ n, resting (api.create n) = ∅
  capacity_create : ∀ n, capacity (api.create n) = n
  /-- a limit order that does not cross is rested under a new handle -/
  add : ∀ b (c : AddCommand), (resting b).card < capacity b → 0 < c.qty → 0 < c.px →
    c.px < api.maxLevel → (∀ h ∈ resting b, crosses c.side c.px (api.fields b h) = false) →
    ∃ h b', api.processAdd b c = (some h, b') ∧ h ∉ resting b ∧
      (∀ x, x ∈ resting b' ↔ x = h ∨ x ∈ resting b) ∧
      api.fields b' h = ⟨c.side, c.px, c.qty⟩ ∧
      (∀ x ∈ resting b, api.fields b' x = api.fields b x) ∧ capacity b' = capacity b
  /-- a cancel removes exactly the order of the handle -/
  cancel : ∀ b, ∀ h ∈ resting b,
    (∀ x, x ∈ resting (api.processCancel b h) ↔ x ≠ h ∧ x ∈ resting b) ∧
    (∀ x ∈ resting b, x ≠ h → api.fields (api.processCancel b h) x = api.fields b x) ∧
    capacity (api.processCancel b h) = capacity b
  /-- a new quantity is written to the order of the handle and to no other -/
  setQuantity : ∀ b, ∀ h ∈ resting b, ∀ q, 0 < q →
    resting (api.setQuantity b h q) = resting b ∧
    api.fields (api.setQuantity b h q) h = { api.fields b h with qty := q } ∧
    (∀ x ∈ resting b, x ≠ h → api.fields (api.setQuantity b h q) x = api.fields b x) ∧
    capacity (api.setQuantity b h q) = capacity b

theorem ListBook.find_mem (b : ListBook) {o : RestingOrder} (ho : o ∈ b.orders) :
    b.find o.handle = some o := by
  cases hf : b.find o.handle with
  | none =>
    have hno := List.find?_eq_none.mp hf o ho
    simp at hno
  | some o' =>
    have hmem := List.mem_of_find?_eq_some hf
    have hh : o'.handle = o.handle := by simpa using List.find?_some hf
    rw [List.inj_on_of_nodup_map b.nodup hmem ho hh]

namespace ListBook

def fields (b : ListBook) (h : ℕ) : OrderFields :=
  ⟨((b.find h).map (·.side)).getD .buy, ((b.find h).map (·.px)).getD 0,
    ((b.find h).map (·.qty)).getD 0⟩

theorem fields_mem (b : ListBook) {o : RestingOrder} (ho : o ∈ b.orders) :
    b.fields o.handle = ⟨o.side, o.px, o.qty⟩ := by
  rw [fields, b.find_mem ho]
  rfl

def resting (b : ListBook) : Finset ℕ := (b.orders.map (·.handle)).toFinset

theorem mem_resting {b : ListBook} {h : ℕ} : h ∈ b.resting ↔ ∃ o ∈ b.orders, o.handle = h := by
  simp [resting]

theorem card_resting (b : ListBook) : b.resting.card = b.orders.length := by
  rw [resting, List.toFinset_card_of_nodup b.nodup, List.length_map]

theorem add_spec {b : ListBook} (c : AddCommand) (hroom : b.resting.card < b.capacity) :
    ∃ h b', b.add c = (some h, b') ∧ h ∉ b.resting ∧
      (∀ x, x ∈ b'.resting ↔ x = h ∨ x ∈ b.resting) ∧ b'.fields h = ⟨c.side, c.px, c.qty⟩ ∧
      (∀ x ∈ b.resting, b'.fields x = b.fields x) ∧ b'.capacity = b.capacity := by
  rw [b.card_resting] at hroom
  have horders : (b.add c).2.orders = b.orders ++ [⟨b.next, c.side, c.px, c.qty⟩] := by
    simp [add, hroom]
  refine ⟨b.next, (b.add c).2, by simp [add, hroom], ?_, ?_, ?_, ?_, by simp [add, hroom]⟩
  · intro hmem
    obtain ⟨o, ho, hh⟩ := mem_resting.mp hmem
    exact (b.fresh o ho).ne hh
  · intro x
    simp only [mem_resting, horders, List.mem_append, List.mem_singleton, or_and_right,
      exists_or, exists_eq_left]
    rw [or_comm, eq_comm]
  · exact (b.add c).2.fields_mem (o := ⟨b.next, c.side, c.px, c.qty⟩) (by simp [horders])
  · intro x hx
    obtain ⟨o, ho, rfl⟩ := mem_resting.mp hx
    rw [b.fields_mem ho, (b.add c).2.fields_mem (by simp [horders, ho])]

theorem cancel_spec (b : ListBook) (h : ℕ) :
    (∀ x, x ∈ (b.cancel h).resting ↔ x ≠ h ∧ x ∈ b.resting) ∧
      ∀ x ∈ b.resting, x ≠ h → (b.cancel h).fields x = b.fields x := by
  have hmem : ∀ o, o ∈ (b.cancel h).orders ↔ o ∈ b.orders ∧ o.handle ≠ h := by
    intro o
    simp [cancel]
  constructor
  · intro x
    constructor
    · intro hx
      obtain ⟨o, ho, rfl⟩ := mem_resting.mp hx
      obtain ⟨ho, hne⟩ := (hmem o).mp ho
      exact ⟨hne, mem_resting.mpr ⟨o, ho, rfl⟩⟩
    · rintro ⟨hne, hx⟩
      obtain ⟨o, ho, rfl⟩ := mem_resting.mp hx
      exact mem_resting.mpr ⟨o, (hmem o).mpr ⟨ho, hne⟩, rfl⟩
  · intro x hx hne
    obtain ⟨o, ho, rfl⟩ := mem_resting.mp hx
    rw [b.fields_mem ho, (b.cancel h).fields_mem ((hmem o).mpr ⟨ho, hne⟩)]

theorem setQty_spec {b : ListBook} {h : ℕ} (hh : h ∈ b.resting) (q : ℤ) :
    (b.setQty h q).resting = b.resting ∧
      (b.setQty h q).fields h = { b.fields h with qty := q } ∧
      ∀ x ∈ b.resting, x ≠ h → (b.setQty h q).fields x = b.fields x := by
  have hfields : ∀ o ∈ b.orders, (b.setQty h q).fields o.handle =
      ⟨(withQuantity h q o).side, (withQuantity h q o).px, (withQuantity h q o).qty⟩ := by
    intro o ho
    rw [← withQuantity_handle h q o]
    exact (b.setQty h q).fields_mem (List.mem_map_of_mem ho)
  refine ⟨?_, ?_, ?_⟩
  · simp only [resting, setQty, List.map_map, Function.comp_def, withQuantity_handle]
  · obtain ⟨o, ho, rfl⟩ := mem_resting.mp hh
    rw [hfields o ho, b.fields_mem ho]
    simp [withQuantity]
  · intro x hx hne
    obtain ⟨o, ho, rfl⟩ := mem_resting.mp hx
    rw [hfields o ho, b.fields_mem ho]
    simp [withQuantity, hne]

end ListBook

def listBookLaws {maxLevel : ℤ} (hmax : maxLevel < 2 ^ 31) :
    OrderBookLaws (listBookApi maxLevel) where
  resting := ListBook.resting
  capacity := ListBook.capacity
  maxLevel_lt := hmax
  toQuantity_eq := by
    intro n hn
    simp only [listBookApi, int32_natCast hn]
  toPriceTicks_eq := by
    intro n hn
    simp only [listBookApi, int32_natCast hn]
  resting_create := fun _ => rfl
  capacity_create := fun _ => rfl
  add := fun _ c hroom _ _ _ _ => ListBook.add_spec c hroom
  cancel := fun b h _ => ⟨(b.cancel_spec h).1, (b.cancel_spec h).2, rfl⟩
  setQuantity := fun b _ hh q _ =>
    ⟨(b.setQty_spec hh q).1, (b.setQty_spec hh q).2.1, (b.setQty_spec hh q).2.2, rfl⟩

end TradingPipeline.Book
