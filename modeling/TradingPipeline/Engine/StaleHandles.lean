import TradingPipeline.Book.MatchingBook
import TradingPipeline.Book.TableInvariant
import TradingPipeline.Engine.Dispatcher

/-! # Handles of orders that have left the book

The adapter learns from the library which order an add became, not which orders it removed.
The slots of the removed orders keep their handles, which dangle or denote another order once
the memory is used again.
-/
namespace TradingPipeline.Engine
open Lib Book

variable {api : OrderBookApi}

/-- An add that the adapter passes to the library, with the adapter at that point. -/
structure Addition (api : OrderBookApi) where
  adapter : ItchBookAdapter api
  ref : ℕ
  cmd : AddCommand

/-- The add that `addOrder` makes, if the price has a level. -/
def additionOf (a : ItchBookAdapter api) (ref : ℕ) (side : Side) (shares itchPx : ℕ) :
    Option (Addition api) :=
  let px := toTicks api itchPx
  if inBookRange api px then
    some ⟨a, ref, ⟨px, api.toOrderId ref, api.toQuantity shares, side⟩⟩
  else none

def addition (a : ItchBookAdapter api) (e : Event) : Option (Addition api) :=
  match e.type with
  | .add | .addMpid => additionOf a e.orderId (sideFromChar e.side) e.qty e.price
  | .replace =>
    let idx := a.liveOrders.find e.orderId
    if idx < 0 then none
    else
      (a.liveOrders.handle idx).bind fun h =>
        (a.eraseOrder idx).bind fun m => additionOf m e.aux (api.getSide a.book h) e.qty e.price
  | _ => none

/-- What becomes of the adapter. -/
def Addition.run (ad : Addition api) : Option (ItchBookAdapter api) :=
  match api.processAdd ad.adapter.book ad.cmd with
  | (some h, book) => (ad.adapter.liveOrders.insert ad.ref h).map fun live => ⟨book, live⟩
  | (none, book) => some { ad.adapter with book := book }

theorem addOrder_eq (a : ItchBookAdapter api) (ref : ℕ) (side : Side) (shares itchPx : ℕ) :
    (additionOf a ref side shares itchPx = none ∧ a.addOrder ref side shares itchPx = some a) ∨
      ∃ cmd, additionOf a ref side shares itchPx = some ⟨a, ref, cmd⟩ ∧
        a.addOrder ref side shares itchPx = Addition.run ⟨a, ref, cmd⟩ := by
  unfold ItchBookAdapter.addOrder additionOf
  by_cases hrange : inBookRange api (toTicks api itchPx) = true
  · simp only [if_pos hrange]
    exact .inr ⟨_, rfl, rfl⟩
  · simp only [if_neg hrange]
    exact .inl ⟨trivial, trivial⟩

/-- What a message does to table and book before an add. -/
inductive Clears (a : ItchBookAdapter api) : ItchBookAdapter api → Prop
  | nothing : Clears a a
  | reduced {i h q} (hi : i < a.liveOrders.size) (hh : (a.liveOrders.slots i).handle = some h)
      (hq : 0 < q) : Clears a { a with book := api.setQuantity a.book h q }
  | erased {i h} (hi : i < a.liveOrders.size) (hh : (a.liveOrders.slots i).handle = some h) :
      Clears a ⟨api.processCancel a.book h, a.liveOrders.erase (i : ℕ)⟩

section Messages
variable {a : ItchBookAdapter api}

theorem find_slot (hsize : a.liveOrders.size ≤ 2 ^ 32) {ref : ℕ}
    (hfound : ¬a.liveOrders.find ref < 0) :
    ∃ i < a.liveOrders.size, ∃ h, a.liveOrders.find ref = i ∧ (a.liveOrders.slots i).key = ref ∧
      (a.liveOrders.slots i).handle = some h := by
  rcases a.liveOrders.find_cases ref with hneg | ⟨i, hi, hfind, hkey, hsome⟩
  · rw [hneg] at hfound
    exact absurd (by decide) hfound
  · obtain ⟨h, hh⟩ := Option.isSome_iff_exists.mp hsome
    refine ⟨i, hi, h, ?_, hkey, hh⟩
    rw [hfind] at hfound ⊢
    apply int32_natCast
    simp only [int32, Int.bmod_def] at hfound
    split at hfound <;> omega

theorem eraseOrder_slot {i : ℕ} {h : api.OrderPointer}
    (hh : (a.liveOrders.slots i).handle = some h) :
    a.eraseOrder i = some ⟨api.processCancel a.book h, a.liveOrders.erase (i : ℕ)⟩ := by
  have hhandle : a.liveOrders.handle i = some h := hh
  rw [ItchBookAdapter.eraseOrder, hhandle, Option.map_some]

theorem takeShares_clears (hsize : a.liveOrders.size ≤ 2 ^ 32) (ref shares : ℕ) :
    ∃ m, a.takeShares ref shares = some m ∧ Clears a m := by
  unfold ItchBookAdapter.takeShares
  by_cases hneg : a.liveOrders.find ref < 0
  · exact ⟨a, if_pos hneg, .nothing⟩
  · obtain ⟨i, hi, o, hfind, -, hh⟩ := find_slot hsize hneg
    have hhandle : a.liveOrders.handle i = some o := hh
    rw [if_neg hneg, hfind, ItchBookAdapter.decrementOrErase, hhandle]
    simp only [Option.bind_some]
    split
    · next hpos => exact ⟨_, rfl, .reduced hi hh hpos⟩
    · exact ⟨_, eraseOrder_slot hh, .erased hi hh⟩

/-- The reference under which a message adds an order. -/
def newRef (e : Event) : ℕ := if e.type = .replace then e.aux else e.orderId

theorem applyToBook_eq (hsize : a.liveOrders.size ≤ 2 ^ 32) (e : Event) :
    ∃ m, Clears a m ∧ ((addition a e = none ∧ applyToBook a e = some m) ∨
      ∃ cmd, addition a e = some ⟨m, newRef e, cmd⟩ ∧
        applyToBook a e = Addition.run ⟨m, newRef e, cmd⟩) := by
  unfold applyToBook addition newRef
  cases htype : e.type with
  | add | addMpid =>
    exact ⟨a, .nothing, addOrder_eq a e.orderId (sideFromChar e.side) e.qty e.price⟩
  | cancelPartial | execute | executeWithPrice =>
    obtain ⟨m, hm, hclears⟩ := takeShares_clears hsize e.orderId e.qty
    exact ⟨m, hclears, .inl ⟨rfl, hm⟩⟩
  | delete =>
    unfold ItchBookAdapter.onDelete
    by_cases hneg : a.liveOrders.find e.orderId < 0
    · exact ⟨a, .nothing, .inl ⟨rfl, if_pos hneg⟩⟩
    · obtain ⟨i, hi, o, hfind, -, hh⟩ := find_slot hsize hneg
      rw [hfind] at hneg
      simp only [hfind, if_neg hneg]
      exact ⟨_, .erased hi hh, .inl ⟨trivial, eraseOrder_slot hh⟩⟩
  | replace =>
    simp only [ItchBookAdapter.onReplace]
    by_cases hneg : a.liveOrders.find e.orderId < 0
    · rw [if_pos hneg, if_pos hneg]
      exact ⟨a, .nothing, .inl ⟨rfl, rfl⟩⟩
    · obtain ⟨i, hi, o, hfind, -, hh⟩ := find_slot hsize hneg
      have hhandle : a.liveOrders.handle i = some o := hh
      rw [hfind] at hneg
      simp only [hfind, if_neg hneg, hhandle, Option.bind_some, eraseOrder_slot hh]
      exact ⟨_, .erased hi hh, addOrder_eq _ e.aux (api.getSide a.book o) e.qty e.price⟩
  | other => exact ⟨a, .nothing, .inl ⟨rfl, rfl⟩⟩

end Messages

/-- The adapter, and for each handle the reference of the order that was last given it. -/
structure Owned (api : OrderBookApi) where
  adapter : ItchBookAdapter api
  owner : api.OrderPointer → ℕ

section Owners
variable [DecidableEq api.OrderPointer]

/-- The order of an add becomes the owner of the handle that the add returns. -/
def Addition.owners (ad : Addition api) (owner : api.OrderPointer → ℕ) : api.OrderPointer → ℕ :=
  match (api.processAdd ad.adapter.book ad.cmd).1 with
  | some h => Function.update owner h ad.ref
  | none => owner

def Owned.apply (s : Owned api) (e : Event) : Option (Owned api) :=
  (applyToBook s.adapter e).map fun a =>
    ⟨a, match addition s.adapter e with
      | some ad => ad.owners s.owner
      | none => s.owner⟩

def Owned.create (api : OrderBookApi) (poolSize : ℕ) : Owned api :=
  ⟨ItchBookAdapter.create api poolSize, fun _ => 0⟩

end Owners

/-- Every handle in the table denotes an order that rests under the reference of its slot, and
no two slots share a handle. -/
structure Owned.NoStale (laws : MatchingLaws api) (s : Owned api) : Prop where
  resting : ∀ i < s.adapter.liveOrders.size, ∀ h, (s.adapter.liveOrders.slots i).handle = some h →
    h ∈ laws.resting s.adapter.book ∧ s.owner h = (s.adapter.liveOrders.slots i).key
  distinct : ∀ i < s.adapter.liveOrders.size, ∀ j < s.adapter.liveOrders.size, ∀ h,
    (s.adapter.liveOrders.slots i).handle = some h →
    (s.adapter.liveOrders.slots j).handle = some h → i = j

/-- A reference that is found leads to its own order, which rests. -/
def Owned.LeadsToOwn (laws : MatchingLaws api) (s : Owned api) : Prop :=
  ∀ ref, 0 ≤ s.adapter.liveOrders.find ref →
    ∃ h, s.adapter.liveOrders.handle (s.adapter.liveOrders.find ref) = some h ∧
      h ∈ laws.resting s.adapter.book ∧ s.owner h = ref

/-- Each order that the add fills completely has no slot, or that which the add overwrites. -/
def Addition.Spares (laws : MatchingLaws api) (ad : Addition api) : Prop :=
  ∀ i < ad.adapter.liveOrders.size, ∀ h ∈ (ad.adapter.liveOrders.slots i).handle,
    h ∈ laws.removed ad.adapter.book ad.cmd →
      (api.processAdd ad.adapter.book ad.cmd).1.isSome ∧
        ad.adapter.liveOrders.insertIndex ad.ref = some i

theorem Addition.Spares.of_noCross {laws : MatchingLaws api} {ad : Addition api}
    (h : ∀ i < ad.adapter.liveOrders.size, ∀ x ∈ (ad.adapter.liveOrders.slots i).handle,
      crosses ad.cmd.side ad.cmd.px (api.fields ad.adapter.book x) = false) : ad.Spares laws := by
  intro i hi x hx hgone
  have hcross := (laws.removed_crosses _ _ x hgone).2
  rw [h i hi x hx] at hcross
  cases hcross

section Sound
variable {laws : MatchingLaws api} {owner : api.OrderPointer → ℕ} {a m : ItchBookAdapter api}

theorem Owned.NoStale.leadsToOwn {s : Owned api} (hs : s.NoStale laws)
    (hsize : s.adapter.liveOrders.size ≤ 2 ^ 32) : s.LeadsToOwn laws := by
  intro ref hfound
  obtain ⟨i, hi, h, hfind, hkey, hh⟩ := find_slot hsize (Int.not_lt.mpr hfound)
  obtain ⟨hrest, howner⟩ := hs.resting i hi h hh
  rw [hfind]
  exact ⟨h, hh, hrest, howner.trans hkey⟩

theorem Clears.noStale (hm : Clears a m) (hs : Owned.NoStale laws ⟨a, owner⟩) :
    Owned.NoStale laws ⟨m, owner⟩ ∧ m.liveOrders.size = a.liveOrders.size := by
  cases hm with
  | nothing => exact ⟨hs, rfl⟩
  | reduced hi hh hq =>
    refine ⟨⟨?_, hs.distinct⟩, rfl⟩
    intro j hj x hx
    rw [laws.setQuantity _ _ (hs.resting _ hi _ hh).1 _ hq]
    exact hs.resting j hj x hx
  | @erased i h hi hh =>
    -- the slots that are left
    have hkeep : ∀ j x, ((a.liveOrders.erase (i : ℕ)).slots j).handle = some x →
        j ≠ i ∧ (a.liveOrders.erase (i : ℕ)).slots j = a.liveOrders.slots j := by
      intro j x hx
      by_cases hji : j = i
      · subst hji
        simp [LiveOrderTable.erase] at hx
      · exact ⟨hji, Function.update_of_ne hji _ _⟩
    refine ⟨⟨?_, ?_⟩, rfl⟩
    · intro j hj x hx
      obtain ⟨hji, hslot⟩ := hkeep j x hx
      rw [hslot] at hx ⊢
      obtain ⟨hrest, howner⟩ := hs.resting j hj x hx
      refine ⟨(laws.cancel _ _ (hs.resting i hi h hh).1 x).mpr ⟨?_, hrest⟩, howner⟩
      rintro rfl
      exact hji (hs.distinct j hj i hi x hx hh)
    · intro j hj k hk x hx hx'
      obtain ⟨-, hslot⟩ := hkeep j x hx
      obtain ⟨-, hslot'⟩ := hkeep k x hx'
      rw [hslot] at hx
      rw [hslot'] at hx'
      exact hs.distinct j hj k hk x hx hx'

/-- A handle of a table is the one that was put last or stood there before. -/
theorem handle_put_cases {H : Type} {slots : ℕ → Slot H} {k ref i : ℕ} {h x : H}
    (hx : (Function.update slots k ⟨ref, some h⟩ i).handle = some x) :
    (i = k ∧ x = h) ∨ (i ≠ k ∧ (slots i).handle = some x) := by
  by_cases hik : i = k
  · subst hik
    rw [Function.update_self] at hx
    exact .inl ⟨rfl, (Option.some.inj hx).symm⟩
  · rw [Function.update_of_ne hik] at hx
    exact .inr ⟨hik, hx⟩

theorem noStale_put_iff [DecidableEq api.OrderPointer] {ad : Addition api} {h : api.OrderPointer}
    {book : api.OrderBook} {k : ℕ} (hs : Owned.NoStale laws ⟨ad.adapter, owner⟩)
    (hadd : api.processAdd ad.adapter.book ad.cmd = (some h, book))
    (hindex : ad.adapter.liveOrders.insertIndex ad.ref = some k) :
    Owned.NoStale laws ⟨⟨book, { ad.adapter.liveOrders with
      slots := Function.update ad.adapter.liveOrders.slots k ⟨ad.ref, some h⟩ }⟩,
      Function.update owner h ad.ref⟩ ↔ ad.Spares laws := by
  obtain ⟨hnew, hresting⟩ := laws.add_some _ _ _ _ hadd
  have hk := ad.adapter.liveOrders.insertIndex_lt hindex
  simp only [Addition.Spares, hadd, hindex, Option.isSome_some, true_and, Option.some.injEq]
  constructor
  · -- a handle that was removed and is still there would be that of slot `k`
    intro hs' i hi x hx hgone
    by_contra hne
    have hslot : (Function.update ad.adapter.liveOrders.slots k ⟨ad.ref, some h⟩ i).handle =
        some x := by
      rw [Function.update_of_ne (Ne.symm hne)]
      exact hx
    rcases (hresting x).mp (hs'.resting i hi x hslot).1 with rfl | ⟨-, hkept⟩
    · exact hne (hs'.distinct k hk i hi x (by simp) hslot)
    · exact hkept hgone
  · intro hspares
    -- the other handles are neither removed nor given out again
    have hother : ∀ i < ad.adapter.liveOrders.size, ∀ x, i ≠ k →
        (ad.adapter.liveOrders.slots i).handle = some x →
        x ∈ laws.resting book ∧ x ≠ h ∧ owner x = (ad.adapter.liveOrders.slots i).key := by
      intro i hi x hik hx
      obtain ⟨hrest, howner⟩ := hs.resting i hi x hx
      have hkept : x ∉ laws.removed ad.adapter.book ad.cmd :=
        fun hgone => hik (hspares i hi x hx hgone).symm
      refine ⟨(hresting x).mpr (.inr ⟨hrest, hkept⟩), ?_, howner⟩
      rintro rfl
      exact hkept (hnew hrest)
    constructor
    · intro i hi x hx
      rcases handle_put_cases hx with ⟨rfl, rfl⟩ | ⟨hik, hx⟩
      · exact ⟨(hresting x).mpr (.inl rfl), by simp⟩
      · obtain ⟨hrest, hxh, howner⟩ := hother i hi x hik hx
        simp only [Function.update_of_ne hik, Function.update_of_ne hxh]
        exact ⟨hrest, howner⟩
    · intro i hi j hj x hx hx'
      rcases handle_put_cases hx with ⟨rfl, rfl⟩ | ⟨hik, hx⟩ <;>
        rcases handle_put_cases hx' with ⟨hjk, hxh⟩ | ⟨hjk, hx'⟩
      · exact hjk.symm
      · exact absurd rfl (hother j hj _ hjk hx').2.1
      · exact absurd hxh (hother i hi x hik hx).2.1
      · exact hs.distinct i hi j hj x hx hx'

/-- After an add, no handle is stale exactly if no slot keeps the handle of an order that the
add filled. -/
theorem Addition.noStale_iff [DecidableEq api.OrderPointer] {ad : Addition api}
    {a' : ItchBookAdapter api} (hs : Owned.NoStale laws ⟨ad.adapter, owner⟩)
    (hrun : ad.run = some a') :
    (Owned.NoStale laws ⟨a', ad.owners owner⟩ ↔ ad.Spares laws) ∧
      a'.liveOrders.size = ad.adapter.liveOrders.size := by
  unfold Addition.run at hrun
  unfold Addition.owners
  rcases hadd : api.processAdd ad.adapter.book ad.cmd with ⟨_ | h, book⟩
  · have hresting := laws.add_none _ _ _ hadd
    rw [hadd] at hrun
    cases hrun
    simp only [Addition.Spares, hadd, Option.isSome_none, Bool.false_eq_true, false_and]
    refine ⟨⟨fun hs' i hi x hx => ?_, fun hspares => ⟨?_, hs.distinct⟩⟩, trivial⟩
    · exact ((hresting x).mp (hs'.resting i hi x hx).1).2
    · intro i hi x hx
      obtain ⟨hrest, howner⟩ := hs.resting i hi x hx
      exact ⟨(hresting x).mpr ⟨hrest, hspares i hi x hx⟩, howner⟩
  · simp only [hadd, LiveOrderTable.insert_eq] at hrun
    cases hindex : ad.adapter.liveOrders.insertIndex ad.ref with
    | none => simp [hindex] at hrun
    | some k =>
      simp only [hindex, Option.map_some] at hrun
      cases hrun
      exact ⟨noStale_put_iff hs hadd hindex, rfl⟩

end Sound

section Runs
variable [DecidableEq api.OrderPointer] {laws : MatchingLaws api}

/-- No add along the messages leaves a slot with the handle of an order that it filled. -/
def SparesAll (laws : MatchingLaws api) : ItchBookAdapter api → List Event → Prop
  | _, [] => True
  | a, e :: es => ∀ a' ∈ applyToBook a e,
    (∀ ad ∈ addition a e, ad.Spares laws) ∧ SparesAll laws a' es

instance (ad : Addition api) : Decidable (ad.Spares laws) :=
  inferInstanceAs (Decidable (∀ i < _, ∀ h ∈ _, _ → _))

instance SparesAll.decidable (laws : MatchingLaws api) :
    (a : ItchBookAdapter api) → (es : List Event) → Decidable (SparesAll laws a es)
  | _, [] => .isTrue trivial
  | a, e :: es =>
    have := fun a' => SparesAll.decidable laws a' es
    inferInstanceAs (Decidable (∀ a' ∈ applyToBook a e,
      (∀ ad ∈ addition a e, ad.Spares laws) ∧ SparesAll laws a' es))

/-- In every state along the messages, no handle is stale. -/
def NeverStale (laws : MatchingLaws api) (s : Owned api) (es : List Event) : Prop :=
  ∀ front, front <+: es → ∀ t, front.foldlM Owned.apply s = some t →
    t.NoStale laws ∧ t.LeadsToOwn laws

theorem apply_of_applyToBook {s : Owned api} {e : Event} {a' : ItchBookAdapter api}
    (h : applyToBook s.adapter e = some a') : ∃ t, s.apply e = some t ∧ t.adapter = a' :=
  ⟨_, by rw [Owned.apply, h, Option.map_some], rfl⟩

theorem applyToBook_of_apply {s t : Owned api} {e : Event} (h : s.apply e = some t) :
    applyToBook s.adapter e = some t.adapter := by
  obtain ⟨a', happly, rfl⟩ := Option.map_eq_some_iff.mp h
  exact happly

theorem Owned.apply_noStale_iff {s t : Owned api} {e : Event} (hs : s.NoStale laws)
    (hsize : s.adapter.liveOrders.size ≤ 2 ^ 32) (h : s.apply e = some t) :
    (t.NoStale laws ↔ ∀ ad ∈ addition s.adapter e, ad.Spares laws) ∧
      t.adapter.liveOrders.size ≤ 2 ^ 32 := by
  obtain ⟨a', happly, rfl⟩ := Option.map_eq_some_iff.mp h
  obtain ⟨m, hclears, hcases⟩ := applyToBook_eq hsize e
  obtain ⟨hm, hmsize⟩ := hclears.noStale hs
  rcases hcases with ⟨hnone, heq⟩ | ⟨cmd, hsome, hrun⟩
  · rw [happly] at heq
    cases heq
    simp only [hnone]
    exact ⟨⟨fun _ _ h => (nomatch h), fun _ => hm⟩, hmsize ▸ hsize⟩
  · rw [happly] at hrun
    obtain ⟨hiff, hsize'⟩ := Addition.noStale_iff hm hrun.symm
    simp only [hsome]
    refine ⟨hiff.trans ⟨fun h ad had => Option.some.inj had ▸ h, fun h => h _ rfl⟩, ?_⟩
    rw [hsize', hmsize]
    exact hsize

theorem neverStale_iff {s : Owned api} (hs : s.NoStale laws)
    (hsize : s.adapter.liveOrders.size ≤ 2 ^ 32) (es : List Event) :
    NeverStale laws s es ↔ SparesAll laws s.adapter es := by
  induction es generalizing s with
  | nil =>
    refine ⟨fun _ => trivial, ?_⟩
    rintro - front hfront t ht
    rw [List.prefix_nil.mp hfront] at ht
    cases ht
    exact ⟨hs, hs.leadsToOwn hsize⟩
  | cons e es ih =>
    constructor
    · intro h a' ha'
      obtain ⟨t, ht, rfl⟩ := apply_of_applyToBook ha'
      obtain ⟨hiff, htsize⟩ := Owned.apply_noStale_iff hs hsize ht
      have htstale : t.NoStale laws := (h [e] (by simp) t (by simpa using ht)).1
      refine ⟨hiff.mp htstale, (ih htstale htsize).mp fun front hfront u hu => ?_⟩
      refine h (e :: front) (List.cons_prefix_cons.mpr ⟨rfl, hfront⟩) u ?_
      rw [List.foldlM_cons, ht]
      exact hu
    · intro h front hfront u hu
      cases front with
      | nil =>
        cases hu
        exact ⟨hs, hs.leadsToOwn hsize⟩
      | cons e' front =>
        obtain ⟨rfl, htail⟩ := List.cons_prefix_cons.mp hfront
        rw [List.foldlM_cons] at hu
        obtain ⟨t, ht, hu⟩ := Option.bind_eq_some_iff.mp hu
        obtain ⟨hspares, hrest⟩ := h t.adapter (applyToBook_of_apply ht)
        obtain ⟨hiff, htsize⟩ := Owned.apply_noStale_iff hs hsize ht
        exact (ih (hiff.mpr hspares) htsize).mpr hrest front htail u hu

end Runs

theorem create_noStale (laws : MatchingLaws api) (poolSize : ℕ) :
    (Owned.create api poolSize).NoStale laws :=
  ⟨fun _ _ _ hh => (nomatch hh), fun _ _ _ _ _ hh => (nomatch hh)⟩

/-- The adapter never holds a stale handle exactly if no add leaves a slot with the handle of an
order that it filled. -/
theorem stale_handles_iff [DecidableEq api.OrderPointer] (laws : MatchingLaws api) {poolSize : ℕ}
    (hpool : poolSize < 2 ^ 31) (es : List Event) :
    NeverStale laws (Owned.create api poolSize) es ↔
      SparesAll laws (ItchBookAdapter.create api poolSize) es :=
  neverStale_iff (create_noStale laws poolSize)
    (LiveOrderTable.create_size_le (by omega)) es

def bookEvent (type : MsgType) (orderId qty price : ℕ) (side : Char) : Event :=
  ⟨0, orderId, 0, price, qty, 1, type, side⟩

/-- The buy order takes 60 of the 100 shares that are offered. -/
def partlyFilledEvents : List Event :=
  [bookEvent .add 1 100 10100 'S', bookEvent .add 2 60 10100 'B', bookEvent .delete 1 0 0 ' ']

theorem stale_handles_iff_partlyFilledEvents : 2 < 2 ^ 31 ∧
    NeverStale (matchingBookLaws 1000) (Owned.create (matchingBookApi 1000) 2)
      partlyFilledEvents :=
  ⟨by decide, (stale_handles_iff (matchingBookLaws 1000) (by decide) _).mpr (by decide +kernel)⟩

/-- Order 2 buys all that order 1 offers, and order 3 comes to rest where order 1 was. -/
def filledEvents : List Event :=
  [bookEvent .add 1 100 10100 'S', bookEvent .add 2 100 10100 'B', bookEvent .add 3 50 10300 'S']

def handleOf {maxLevel : ℤ} (a : ItchBookAdapter (matchingBookApi maxLevel)) (ref : ℕ) : Option ℕ :=
  if a.liveOrders.find ref < 0 then none else a.liveOrders.handle (a.liveOrders.find ref)

/-- Reference 1, whose order is gone, leads to order 3, and its deletion cancels that. -/
theorem filled_order_stays_live :
    (filledEvents.foldlM applyToBook (ItchBookAdapter.create (matchingBookApi 1000) 2)).map
      (fun a => (a.book.orders, handleOf a 1, handleOf a 3)) =
      some ([⟨0, .sell, 103, 50⟩], some 0, some 0) ∧
    ((filledEvents ++ [bookEvent .delete 1 0 0 ' ']).foldlM applyToBook
      (ItchBookAdapter.create (matchingBookApi 1000) 2)).map
      (fun a => (a.book.orders, handleOf a 1, handleOf a 3)) = some ([], none, some 0) ∧
    ¬NeverStale (matchingBookLaws 1000) (Owned.create (matchingBookApi 1000) 2) filledEvents := by
  refine ⟨by decide +kernel, by decide +kernel, fun h => ?_⟩
  have hspares := (neverStale_iff (create_noStale (matchingBookLaws 1000) 2)
    (LiveOrderTable.create_size_le (by decide)) _).mp h
  revert hspares
  decide +kernel

end TradingPipeline.Engine
