import TradingPipeline.Book.Reference
import TradingPipeline.Lib.Scan

/-! # A book that matches

What the adapter can rely on when an add crosses the other side: the library trades the add
against resting orders, removes those it fills completely and may hand out their memory
again. A `ListBook` that matches by price and time and reuses the smallest free handle is an
instance.
-/
namespace TradingPipeline.Book
open Lib

/-- The book library under adds that may cross. -/
structure MatchingLaws (api : OrderBookApi) where
  resting : api.OrderBook → Finset api.OrderPointer
  /-- the resting orders that an add fills completely -/
  removed : api.OrderBook → AddCommand → Finset api.OrderPointer
  resting_create : ∀ n, resting (api.create n) = ∅
  removed_crosses : ∀ b c, ∀ h ∈ removed b c,
    h ∈ resting b ∧ crosses c.side c.px (api.fields b h) = true
  /-- what is left of the add rests under a new handle or under that of a removed order -/
  add_some : ∀ b c h b', api.processAdd b c = (some h, b') →
    (h ∈ resting b → h ∈ removed b c) ∧
    ∀ x, x ∈ resting b' ↔ x = h ∨ (x ∈ resting b ∧ x ∉ removed b c)
  /-- nothing is left to rest -/
  add_none : ∀ b c b', api.processAdd b c = (none, b') →
    ∀ x, x ∈ resting b' ↔ x ∈ resting b ∧ x ∉ removed b c
  cancel : ∀ b, ∀ h ∈ resting b,
    ∀ x, x ∈ resting (api.processCancel b h) ↔ x ≠ h ∧ x ∈ resting b
  setQuantity : ∀ b, ∀ h ∈ resting b, ∀ q, 0 < q → resting (api.setQuantity b h q) = resting b

/-- A matching library with a pool: a full pool refuses an add that has nothing to trade with. -/
structure PoolLaws (api : OrderBookApi) extends MatchingLaws api where
  capacity : api.OrderBook → ℕ
  capacity_create : ∀ n, capacity (api.create n) = n
  capacity_add : ∀ b c, capacity (api.processAdd b c).2 = capacity b
  capacity_cancel : ∀ b h, capacity (api.processCancel b h) = capacity b
  capacity_setQuantity : ∀ b h q, capacity (api.setQuantity b h q) = capacity b
  add_full : ∀ b c, capacity b ≤ (resting b).card →
    (∀ h ∈ resting b, crosses c.side c.px (api.fields b h) = false) → (api.processAdd b c).1 = none

def AddCommand.takes (c : AddCommand) (o : RestingOrder) : Bool :=
  crosses c.side c.px ⟨o.side, o.px, o.qty⟩

/-- The best price comes first: the lowest for a buyer, the highest for a seller. -/
def AddCommand.priority (c : AddCommand) (o : RestingOrder) : ℕ :=
  match c.side with
  | .buy => o.px.toNat
  | .sell => (2 ^ 31 - o.px).toNat

/-- Trade `qty` shares against the orders, the first of those with the best price at each turn:
the orders that remain, and the shares left. -/
def fill (c : AddCommand) : ℕ → List RestingOrder → ℤ → List RestingOrder × ℤ
  | 0, os, qty => (os, qty)
  | turns + 1, os, qty =>
    if qty ≤ 0 then (os, qty)
    else
      match firstMin c.takes c.priority os with
      | none => (os, qty)
      | some o =>
        if qty < o.qty then (os.map (ListBook.withQuantity o.handle (o.qty - qty)), 0)
        else fill c turns (os.filter fun x => x.handle ≠ o.handle) (qty - o.qty)

section Fill
variable {c : AddCommand} {os : List RestingOrder}

theorem fill_handles (c : AddCommand) (turns : ℕ) (os : List RestingOrder) (qty : ℤ) :
    ((fill c turns os qty).1.map (·.handle)).Sublist (os.map (·.handle)) := by
  induction turns generalizing os qty with
  | zero => exact List.Sublist.refl _
  | succ turns ih =>
    rw [fill]
    split
    · exact List.Sublist.refl _
    · split
      · exact List.Sublist.refl _
      · split
        · simp [List.map_map, Function.comp_def, ListBook.withQuantity_handle]
        · exact (ih _ _).trans (List.filter_sublist.map _)

theorem fill_removes {turns : ℕ} {qty : ℤ} (hos : (os.map (·.handle)).Nodup) {o : RestingOrder}
    (ho : o ∈ os) (hgone : o.handle ∉ (fill c turns os qty).1.map (·.handle)) :
    c.takes o = true := by
  induction turns generalizing os qty with
  | zero => exact absurd (List.mem_map_of_mem ho) hgone
  | succ turns ih =>
    rw [fill] at hgone
    split at hgone
    · exact absurd (List.mem_map_of_mem ho) hgone
    · split at hgone
      · exact absurd (List.mem_map_of_mem ho) hgone
      · next best hbest =>
        obtain ⟨hmem, htakes, -⟩ := firstMin_some hbest
        split at hgone
        · refine absurd ?_ hgone
          simp only [List.map_map, Function.comp_def, ListBook.withQuantity_handle]
          exact List.mem_map_of_mem ho
        · by_cases hh : o.handle = best.handle
          · rw [List.inj_on_of_nodup_map hos ho hmem hh]
            exact htakes
          · exact ih (hos.sublist (List.filter_sublist.map _))
              (List.mem_filter.mpr ⟨ho, by simpa using hh⟩) hgone

theorem fill_of_noCross (turns : ℕ) (qty : ℤ) (h : ∀ o ∈ os, c.takes o = false) :
    fill c turns os qty = (os, qty) := by
  cases turns with
  | zero => rfl
  | succ turns =>
    rw [fill]
    split
    · rfl
    · split
      · rfl
      · next o hbest =>
        obtain ⟨hmem, htakes, -⟩ := firstMin_some hbest
        rw [h o hmem] at htakes
        cases htakes

end Fill

namespace ListBook

/-- The book with orders that rest under some of its handles. -/
def withOrders (b : ListBook) (os : List RestingOrder)
    (h : (os.map (·.handle)).Sublist (b.orders.map (·.handle))) : ListBook where
  orders := os
  next := b.next
  capacity := b.capacity
  fresh := by
    intro o ho
    obtain ⟨o', ho', heq⟩ := List.mem_map.mp (h.subset (List.mem_map_of_mem ho))
    exact heq ▸ b.fresh o' ho'
  nodup := b.nodup.sublist h

def freeHandle (b : ListBook) : ℕ :=
  ((List.range b.next).find? fun n => n ∉ b.orders.map (·.handle)).getD b.next

theorem freeHandle_notMem (b : ListBook) : b.freeHandle ∉ b.orders.map (·.handle) := by
  unfold freeHandle
  cases hf : (List.range b.next).find? fun n => n ∉ b.orders.map (·.handle) with
  | some n => simpa using List.find?_some hf
  | none =>
    intro hmem
    obtain ⟨o, ho, heq⟩ := List.mem_map.mp hmem
    exact absurd heq (b.fresh o ho).ne

def rest (b : ListBook) (side : Side) (px qty : ℤ) : ListBook where
  orders := b.orders ++ [⟨b.freeHandle, side, px, qty⟩]
  next := max b.next (b.freeHandle + 1)
  capacity := b.capacity
  fresh := by
    intro o ho
    rcases List.mem_append.mp ho with ho | ho
    · exact lt_max_of_lt_left (b.fresh o ho)
    · rw [List.mem_singleton.mp ho]
      exact lt_max_of_lt_right (Nat.lt_succ_self _)
  nodup := by
    rw [List.map_append, List.nodup_append]
    refine ⟨b.nodup, by simp, ?_⟩
    rintro x hx y hy rfl
    rw [List.map_singleton, List.mem_singleton] at hy
    have hfree : x = b.freeHandle := hy
    exact b.freeHandle_notMem (hfree ▸ hx)

def afterTrades (b : ListBook) (c : AddCommand) : ListBook :=
  b.withOrders (fill c b.orders.length b.orders c.qty).1 (fill_handles ..)

def matchAdd (b : ListBook) (c : AddCommand) : Option ℕ × ListBook :=
  let left := (fill c b.orders.length b.orders c.qty).2
  let b := b.afterTrades c
  if 0 < left ∧ b.orders.length < b.capacity then
    (some b.freeHandle, b.rest c.side c.px left)
  else (none, b)

def filled (b : ListBook) (c : AddCommand) : Finset ℕ := b.resting \ (b.afterTrades c).resting

theorem mem_afterTrades (b : ListBook) (c : AddCommand) (x : ℕ) :
    x ∈ (b.afterTrades c).resting ↔ x ∈ b.resting ∧ x ∉ b.filled c := by
  have hsub : (b.afterTrades c).resting ⊆ b.resting := by
    intro x hx
    exact List.mem_toFinset.mpr ((fill_handles ..).subset (List.mem_toFinset.mp hx))
  rw [filled, Finset.mem_sdiff]
  constructor
  · exact fun hx => ⟨hsub hx, fun h => h.2 hx⟩
  · rintro ⟨hx, hnot⟩
    by_contra hgone
    exact hnot ⟨hx, hgone⟩

theorem filled_crosses {b : ListBook} {c : AddCommand} {h : ℕ} (hh : h ∈ b.filled c) :
    h ∈ b.resting ∧ crosses c.side c.px (b.fields h) = true := by
  obtain ⟨hmem, hgone⟩ := Finset.mem_sdiff.mp hh
  obtain ⟨o, ho, rfl⟩ := mem_resting.mp hmem
  refine ⟨hmem, ?_⟩
  rw [b.fields_mem ho]
  exact fill_removes b.nodup ho fun hx => hgone (List.mem_toFinset.mpr hx)

theorem mem_rest (b : ListBook) (side : Side) (px qty : ℤ) (x : ℕ) :
    x ∈ (b.rest side px qty).resting ↔ x = b.freeHandle ∨ x ∈ b.resting := by
  simp only [resting, rest, List.map_append, List.map_singleton, List.mem_toFinset,
    List.mem_append, List.mem_singleton]
  exact or_comm

theorem matchAdd_some {b b' : ListBook} {c : AddCommand} {h : ℕ}
    (hadd : b.matchAdd c = (some h, b')) :
    (h ∈ b.resting → h ∈ b.filled c) ∧
      ∀ x, x ∈ b'.resting ↔ x = h ∨ (x ∈ b.resting ∧ x ∉ b.filled c) := by
  unfold matchAdd at hadd
  simp only [] at hadd
  split at hadd
  · obtain ⟨hfree, rfl⟩ := Prod.mk.inj hadd
    obtain rfl := Option.some.inj hfree
    constructor
    · intro hold
      by_contra hnot
      have hafter := (b.mem_afterTrades c _).mpr ⟨hold, hnot⟩
      exact (b.afterTrades c).freeHandle_notMem (List.mem_toFinset.mp hafter)
    · intro x
      rw [mem_rest, mem_afterTrades]
  · cases hadd

theorem matchAdd_none {b b' : ListBook} {c : AddCommand} (hadd : b.matchAdd c = (none, b')) :
    ∀ x, x ∈ b'.resting ↔ x ∈ b.resting ∧ x ∉ b.filled c := by
  unfold matchAdd at hadd
  simp only [] at hadd
  split at hadd
  · cases hadd
  · cases hadd
    exact b.mem_afterTrades c

theorem matchAdd_full {b : ListBook} {c : AddCommand} (hfull : b.capacity ≤ b.resting.card)
    (hcross : ∀ h ∈ b.resting, crosses c.side c.px (b.fields h) = false) :
    (b.matchAdd c).1 = none := by
  have htakes : ∀ o ∈ b.orders, c.takes o = false := by
    intro o ho
    have h := hcross o.handle (mem_resting.mpr ⟨o, ho, rfl⟩)
    rwa [b.fields_mem ho] at h
  have horders : (b.afterTrades c).orders = b.orders := by
    simp only [afterTrades, withOrders, fill_of_noCross _ _ htakes]
  have hno : ¬ (b.afterTrades c).orders.length < (b.afterTrades c).capacity := by
    rw [horders, ← b.card_resting]
    exact not_lt.mpr hfull
  unfold matchAdd
  dsimp only
  rw [if_neg fun h => hno h.2]

theorem matchAdd_capacity (b : ListBook) (c : AddCommand) :
    (b.matchAdd c).2.capacity = b.capacity := by
  unfold matchAdd
  dsimp only
  split <;> rfl

end ListBook

/-- The library as a list book that matches. -/
def matchingBookApi (maxLevel : ℤ) : OrderBookApi :=
  { listBookApi maxLevel with processAdd := ListBook.matchAdd }

instance (maxLevel : ℤ) : DecidableEq (matchingBookApi maxLevel).OrderPointer :=
  inferInstanceAs (DecidableEq ℕ)

def matchingBookLaws (maxLevel : ℤ) : MatchingLaws (matchingBookApi maxLevel) where
  resting := ListBook.resting
  removed := ListBook.filled
  resting_create _ := rfl
  removed_crosses _ _ _ hh := ListBook.filled_crosses hh
  add_some _ _ _ _ hadd := ListBook.matchAdd_some hadd
  add_none _ _ _ hadd := ListBook.matchAdd_none hadd
  cancel b h _ := (b.cancel_spec h).1
  setQuantity _ _ hh q _ := (ListBook.setQty_spec hh q).1

def matchingPoolLaws (maxLevel : ℤ) : PoolLaws (matchingBookApi maxLevel) where
  toMatchingLaws := matchingBookLaws maxLevel
  capacity := ListBook.capacity
  capacity_create _ := rfl
  capacity_add := ListBook.matchAdd_capacity
  capacity_cancel _ _ := rfl
  capacity_setQuantity _ _ _ := rfl
  add_full _ _ hfull hcross := ListBook.matchAdd_full hfull hcross

end TradingPipeline.Book
