import TradingPipeline.Book.Adapter
import TradingPipeline.Book.Reference
import TradingPipeline.Book.TableInvariant

/-! # The adapter keeps the book of the messages

The adapter's table and book are described together by one list that pairs every live
order with its handle. Each operation of the adapter does to this list what the
message does to the live orders.
-/
namespace TradingPipeline.Book
open Lib

variable {api : OrderBookApi} (laws : OrderBookLaws api) (poolSize : ℕ)

/-- Table and book hold exactly the given orders under the given handles. -/
structure Joint (a : ItchBookAdapter api) (ps : List (LiveOrder × api.OrderPointer)) : Prop where
  valid : a.liveOrders.Valid
  size_ge : poolSize ≤ a.liveOrders.size
  capacity : laws.capacity a.book = poolSize
  refs : (ps.map (·.1.ref)).Nodup
  handles : (ps.map (·.2)).Nodup
  holds : ∀ k v, Holds a.liveOrders.size a.liveOrders.cell k v ↔ ∃ p ∈ ps, p.1.ref = k ∧ p.2 = v
  resting : ∀ h, h ∈ laws.resting a.book ↔ ∃ p ∈ ps, p.2 = h
  fields : ∀ p ∈ ps, api.fields a.book p.2 = p.1.toOrderFields

/-- The adapter stands for the live orders of the messages. -/
def Represents (a : ItchBookAdapter api) (live : List LiveOrder) : Prop :=
  ∃ ps, live = ps.map (·.1) ∧ Joint laws poolSize a ps

variable {laws poolSize}

/-- The entry of one reference with another quantity. -/
def withQty {H : Type} (ref : ℕ) (q : ℤ) (r : LiveOrder × H) : LiveOrder × H :=
  if r.1.ref = ref then ({ r.1 with qty := q }, r.2) else r

@[simp] theorem withQty_ref {H : Type} (ref : ℕ) (q : ℤ) (r : LiveOrder × H) :
    (withQty ref q r).1.ref = r.1.ref := by
  unfold withQty
  split <;> rfl

@[simp] theorem withQty_handle {H : Type} (ref : ℕ) (q : ℤ) (r : LiveOrder × H) :
    (withQty ref q r).2 = r.2 := by
  unfold withQty
  split <;> rfl

namespace Joint
variable {a : ItchBookAdapter api} {ps : List (LiveOrder × api.OrderPointer)}

theorem eq_of_ref_eq (h : Joint laws poolSize a ps) {p q : LiveOrder × api.OrderPointer}
    (hp : p ∈ ps) (hq : q ∈ ps) (href : p.1.ref = q.1.ref) : p = q :=
  List.inj_on_of_nodup_map h.refs hp hq href

theorem eq_of_handle_eq (h : Joint laws poolSize a ps) {p q : LiveOrder × api.OrderPointer}
    (hp : p ∈ ps) (hq : q ∈ ps) (hh : p.2 = q.2) : p = q :=
  List.inj_on_of_nodup_map h.handles hp hq hh

theorem mem_resting (h : Joint laws poolSize a ps) {p : LiveOrder × api.OrderPointer}
    (hp : p ∈ ps) : p.2 ∈ laws.resting a.book := (h.resting p.2).mpr ⟨p, hp, rfl⟩

theorem find_mem (h : Joint laws poolSize a ps) {p : LiveOrder × api.OrderPointer} (hp : p ∈ ps) :
    ∃ i < a.liveOrders.size, a.liveOrders.find p.1.ref = i ∧
      a.liveOrders.cell i = .full p.1.ref p.2 ∧ a.liveOrders.handle i = some p.2 := by
  obtain ⟨i, hi, hfind, hcell⟩ :=
    h.valid.find_of_holds ((h.holds p.1.ref p.2).mpr ⟨p, hp, rfl, rfl⟩)
  exact ⟨i, hi, hfind, hcell, (LiveOrderTable.cell_eq_full.mp hcell).2⟩

theorem find_absent (h : Joint laws poolSize a ps) {ref : ℕ} (habs : ∀ p ∈ ps, p.1.ref ≠ ref) :
    a.liveOrders.find ref = -1 := by
  apply h.valid.find_of_absent
  intro v hv
  obtain ⟨p, hp, href, -⟩ := (h.holds ref v).mp hv
  exact habs p hp href

theorem card_resting (h : Joint laws poolSize a ps) : (laws.resting a.book).card = ps.length := by
  classical
  have hset : laws.resting a.book = (ps.map (·.2)).toFinset := by
    ext x
    simp only [h.resting, List.mem_toFinset, List.mem_map]
  rw [hset, List.toFinset_card_of_nodup h.handles, List.length_map]

theorem eraseOrder (h : Joint laws poolSize a ps) {p : LiveOrder × api.OrderPointer} (hp : p ∈ ps)
    {i : ℕ} (hi : i < a.liveOrders.size) (hcell : a.liveOrders.cell i = .full p.1.ref p.2) :
    ∃ a', a.eraseOrder i = some a' ∧
      Joint laws poolSize a' (ps.filter fun q => q.1.ref ≠ p.1.ref) := by
  have hhandle : a.liveOrders.handle i = some p.2 := (LiveOrderTable.cell_eq_full.mp hcell).2
  refine ⟨⟨api.processCancel a.book p.2, a.liveOrders.erase i⟩, ?_, ?_⟩
  · rw [ItchBookAdapter.eraseOrder, hhandle, Option.map_some]
  obtain ⟨hvalid, hsize, hholds⟩ := h.valid.erase_full hi hcell
  obtain ⟨hrest, hfields, hcap⟩ := laws.cancel a.book p.2 (h.mem_resting hp)
  have hne : ∀ q ∈ ps, q.1.ref ≠ p.1.ref ↔ q.2 ≠ p.2 := by
    intro q hq
    constructor
    · intro href hh
      exact href (by rw [h.eq_of_handle_eq hq hp hh])
    · intro hh href
      exact hh (by rw [h.eq_of_ref_eq hq hp href])
  constructor
  · exact hvalid
  · exact hsize ▸ h.size_ge
  · exact hcap.trans h.capacity
  · exact h.refs.sublist (List.filter_sublist.map _)
  · exact h.handles.sublist (List.filter_sublist.map _)
  · intro k v
    rw [hholds, h.holds]
    constructor
    · rintro ⟨hk, q, hq, rfl, rfl⟩
      exact ⟨q, List.mem_filter.mpr ⟨hq, by simpa using hk⟩, rfl, rfl⟩
    · rintro ⟨q, hq, rfl, rfl⟩
      obtain ⟨hq, hk⟩ := List.mem_filter.mp hq
      exact ⟨by simpa using hk, q, hq, rfl, rfl⟩
  · intro x
    rw [hrest, h.resting]
    constructor
    · rintro ⟨hx, q, hq, rfl⟩
      exact ⟨q, List.mem_filter.mpr ⟨hq, by simpa using (hne q hq).mpr hx⟩, rfl⟩
    · rintro ⟨q, hq, rfl⟩
      obtain ⟨hq, hk⟩ := List.mem_filter.mp hq
      exact ⟨(hne q hq).mp (by simpa using hk), q, hq, rfl⟩
  · intro q hq
    obtain ⟨hq, hk⟩ := List.mem_filter.mp hq
    rw [hfields q.2 (h.mem_resting hq) ((hne q hq).mp (by simpa using hk))]
    exact h.fields q hq

theorem setQuantity (h : Joint laws poolSize a ps) {p : LiveOrder × api.OrderPointer} (hp : p ∈ ps)
    {q : ℤ} (hq : 0 < q) :
    Joint laws poolSize { a with book := api.setQuantity a.book p.2 q }
      (ps.map (withQty p.1.ref q)) := by
  obtain ⟨hrest, hself, hother, hcap⟩ := laws.setQuantity a.book p.2 (h.mem_resting hp) q hq
  constructor
  · exact h.valid
  · exact h.size_ge
  · exact hcap.trans h.capacity
  · simpa only [List.map_map, Function.comp_def, withQty_ref] using h.refs
  · simpa only [List.map_map, Function.comp_def, withQty_handle] using h.handles
  · intro k v
    rw [h.holds]
    simp only [List.mem_map, exists_exists_and_eq_and, withQty_ref, withQty_handle]
  · intro x
    rw [hrest, h.resting]
    simp only [List.mem_map, exists_exists_and_eq_and, withQty_handle]
  · intro r' hr'
    obtain ⟨r, hr, rfl⟩ := List.mem_map.mp hr'
    rw [withQty_handle]
    by_cases href : r.1.ref = p.1.ref
    · obtain rfl := h.eq_of_ref_eq hr hp href
      rw [hself, h.fields r hr]
      simp [withQty]
    · have hh : r.2 ≠ p.2 := fun hh => href (by rw [h.eq_of_handle_eq hr hp hh])
      rw [hother r.2 (h.mem_resting hr) hh, h.fields r hr]
      simp [withQty, href]

theorem addOrder (h : Joint laws poolSize a ps) {ref : ℕ} (href : LiveOrderTable.IsRef ref)
    (hnew : ∀ p ∈ ps, p.1.ref ≠ ref) (hroom : ps.length < poolSize) {side : Side}
    {shares itchPx : ℕ} (hshares : 0 < shares) (hshares' : shares < 2 ^ 31)
    (hpx : 0 < itchPx / 100) (hpx' : ((itchPx / 100 : ℕ) : ℤ) < api.maxLevel)
    (hcross : ∀ p ∈ ps, crosses side (itchPx / 100 : ℕ) p.1.toOrderFields = false) :
    ∃ a' hd, a.addOrder ref side shares itchPx = some a' ∧
      Joint laws poolSize a'
        (ps ++ [(⟨⟨side, (itchPx / 100 : ℕ), shares⟩, ref⟩, hd)]) := by
  have hlevel := laws.maxLevel_lt
  have hticks : toTicks api itchPx = (itchPx / 100 : ℕ) := laws.toPriceTicks_eq _ (by omega)
  have hqty : api.toQuantity shares = shares := laws.toQuantity_eq _ hshares'
  have hrange : inBookRange api (itchPx / 100 : ℕ) = true := by
    rw [inBookRange, int32_eq_self (by omega) (by omega)]
    simpa using ⟨by omega, hpx'⟩
  obtain ⟨hd, b', hadd, hfresh, hrest, hself, hother, hcap⟩ :=
    laws.add a.book ⟨(itchPx / 100 : ℕ), api.toOrderId ref, shares, side⟩
      (by rw [h.card_resting, h.capacity]; exact hroom) (by simpa using hshares)
      (Int.natCast_pos.mpr hpx) hpx' (by
        intro x hx
        obtain ⟨p, hp, rfl⟩ := (h.resting x).mp hx
        rw [h.fields p hp]
        exact hcross p hp)
  have habs : ∀ v, ¬Holds a.liveOrders.size a.liveOrders.cell ref v := by
    intro v hv
    obtain ⟨p, hp, hp', -⟩ := (h.holds ref v).mp hv
    exact hnew p hp hp'
  have hfree := h.valid.probing.exists_not_full (ps.map (·.1.ref)).toFinset
    (by
      have hle := List.toFinset_card_le (ps.map (·.1.ref))
      rw [List.length_map] at hle
      have := h.size_ge
      omega)
    (by
      intro k v hk
      obtain ⟨p, hp, rfl, -⟩ := (h.holds k v).mp hk
      exact List.mem_toFinset.mpr (List.mem_map_of_mem hp))
  obtain ⟨t', hins, hvalid, hsize, hholds⟩ := h.valid.insert_new href habs hfree hd
  refine ⟨⟨b', t'⟩, hd, ?_, ?_⟩
  · rw [ItchBookAdapter.addOrder]
    simp only [hticks, hrange, hqty, hadd, hins, ↓reduceIte, Option.map_some]
  have hne : ∀ p ∈ ps, p.2 ≠ hd := by
    intro p hp heq
    exact hfresh (heq ▸ h.mem_resting hp)
  constructor
  · exact hvalid
  · exact hsize ▸ h.size_ge
  · exact hcap.trans h.capacity
  · rw [List.map_append, List.nodup_append]
    refine ⟨h.refs, by simp, ?_⟩
    intro r hr r' hr'
    obtain ⟨p, hp, rfl⟩ := List.mem_map.mp hr
    rw [List.map_singleton, List.mem_singleton] at hr'
    exact hr' ▸ hnew p hp
  · rw [List.map_append, List.nodup_append]
    refine ⟨h.handles, by simp, ?_⟩
    intro r hr r' hr'
    obtain ⟨p, hp, rfl⟩ := List.mem_map.mp hr
    rw [List.map_singleton, List.mem_singleton] at hr'
    exact hr' ▸ hne p hp
  · intro k v
    rw [hholds, h.holds]
    simp only [List.mem_append, List.mem_singleton, or_and_right, exists_or, exists_eq_left]
    rw [or_comm, eq_comm (a := k), eq_comm (a := v)]
  · intro x
    rw [hrest, h.resting]
    simp only [List.mem_append, List.mem_singleton, or_and_right, exists_or, exists_eq_left]
    rw [or_comm, eq_comm (a := x)]
  · intro q hq
    rcases List.mem_append.mp hq with hq | hq
    · rw [hother q.2 (h.mem_resting hq)]
      exact h.fields q hq
    · obtain rfl := List.mem_singleton.mp hq
      exact hself

end Joint

namespace Represents
variable {a : ItchBookAdapter api} {live : List LiveOrder}

theorem entry_or_absent (ps : List (LiveOrder × api.OrderPointer)) (ref : ℕ) :
    (∃ p ∈ ps, p.1.ref = ref) ∨ ∀ p ∈ ps, p.1.ref ≠ ref := by
  by_cases h : ∃ p ∈ ps, p.1.ref = ref
  · exact .inl h
  · exact .inr fun p hp href => h ⟨p, hp, href⟩

theorem takeShares (h : Represents laws poolSize a live) (ref : ℕ) {shares : ℕ}
    (hshares : shares < 2 ^ 31) :
    ∃ a', a.takeShares ref shares = some a' ∧
      Represents laws poolSize a' (LiveOrders.take live ref shares) := by
  obtain ⟨ps, rfl, hj⟩ := h
  rcases entry_or_absent ps ref with ⟨p, hp, rfl⟩ | habs
  · obtain ⟨i, hi, hfind, hcell, hhandle⟩ := hj.find_mem hp
    have hqty : api.getQuantity a.book p.2 = p.1.qty := congrArg OrderFields.qty (hj.fields p hp)
    have hidx : ¬((i : ℤ) < 0) := by omega
    rw [ItchBookAdapter.takeShares]
    simp only [hfind, if_neg hidx, ItchBookAdapter.decrementOrErase, hhandle, Option.bind_some,
      hqty, laws.toQuantity_eq shares hshares]
    split
    · rename_i hpos
      have hlt : (shares : ℤ) < p.1.qty := by omega
      refine ⟨_, rfl, _, ?_, hj.setQuantity hp hpos⟩
      rw [LiveOrders.take, List.filterMap_map, List.map_map, ← List.filterMap_eq_map]
      apply List.filterMap_congr
      intro q hq
      by_cases href : q.1.ref = p.1.ref
      · obtain rfl := hj.eq_of_ref_eq hq hp href
        simp [withQty, hlt]
      · simp [withQty, href]
    · rename_i hneg
      have hle : ¬(shares : ℤ) < p.1.qty := by omega
      obtain ⟨a', ha', hj'⟩ := hj.eraseOrder hp hi hcell
      refine ⟨a', ha', _, ?_, hj'⟩
      rw [LiveOrders.take, List.filterMap_map, ← List.filterMap_eq_filter, List.map_filterMap]
      apply List.filterMap_congr
      intro q hq
      by_cases href : q.1.ref = p.1.ref
      · obtain rfl := hj.eq_of_ref_eq hq hp href
        simp [hle, Option.guard]
      · simp [href, Option.guard]
  · refine ⟨a, ?_, ps, ?_, hj⟩
    · rw [ItchBookAdapter.takeShares, hj.find_absent habs]
      rfl
    · rw [LiveOrders.take, List.filterMap_map, ← List.filterMap_eq_map]
      apply List.filterMap_congr
      intro q hq
      simp [habs q hq]

theorem map_filter_ref (ps : List (LiveOrder × api.OrderPointer)) (ref : ℕ) :
    LiveOrders.remove (ps.map (·.1)) ref = (ps.filter fun q => q.1.ref ≠ ref).map (·.1) := by
  rw [LiveOrders.remove, List.filter_map]
  rfl

theorem remove_absent {ps : List (LiveOrder × api.OrderPointer)} {ref : ℕ}
    (habs : ∀ p ∈ ps, p.1.ref ≠ ref) :
    LiveOrders.remove (ps.map (·.1)) ref = ps.map (·.1) := by
  refine LiveOrders.remove_of_absent fun o ho => ?_
  obtain ⟨p, hp, rfl⟩ := List.mem_map.mp ho
  exact habs p hp

theorem onDelete (h : Represents laws poolSize a live) (ref : ℕ) :
    ∃ a', a.onDelete ref = some a' ∧
      Represents laws poolSize a' (LiveOrders.remove live ref) := by
  obtain ⟨ps, rfl, hj⟩ := h
  rcases entry_or_absent ps ref with ⟨p, hp, rfl⟩ | habs
  · obtain ⟨i, hi, hfind, hcell, -⟩ := hj.find_mem hp
    obtain ⟨a', ha', hj'⟩ := hj.eraseOrder hp hi hcell
    refine ⟨a', ?_, _, map_filter_ref ps p.1.ref, hj'⟩
    have hidx : ¬((i : ℤ) < 0) := by omega
    rw [ItchBookAdapter.onDelete]
    simp only [hfind, if_neg hidx, ha']
  · refine ⟨a, ?_, ps, remove_absent habs, hj⟩
    rw [ItchBookAdapter.onDelete, hj.find_absent habs]
    rfl

/-- What the stream promises of an order it introduces into the live orders `live`. -/
structure Introduces (api : OrderBookApi) (poolSize : ℕ) (live : List LiveOrder) (ref : ℕ)
    (side : Side) (shares itchPx : ℕ) : Prop where
  isRef : LiveOrderTable.IsRef ref
  notLive : ∀ o ∈ live, o.ref ≠ ref
  room : live.length < poolSize
  shares_pos : 0 < shares
  shares_lt : shares < 2 ^ 31
  px_pos : 0 < itchPx / 100
  px_lt : ((itchPx / 100 : ℕ) : ℤ) < api.maxLevel
  noCross : ∀ o ∈ live, crosses side (itchPx / 100 : ℕ) o.toOrderFields = false

theorem addOrder (h : Represents laws poolSize a live) {ref : ℕ} {side : Side}
    {shares itchPx : ℕ} (hi : Introduces api poolSize live ref side shares itchPx) :
    ∃ a', a.addOrder ref side shares itchPx = some a' ∧
      Represents laws poolSize a'
        (LiveOrders.add live ⟨⟨side, (itchPx / 100 : ℕ), shares⟩, ref⟩) := by
  obtain ⟨ps, rfl, hj⟩ := h
  obtain ⟨a', hd, ha', hj'⟩ := hj.addOrder hi.isRef
    (fun p hp => hi.notLive p.1 (List.mem_map_of_mem hp))
    (by simpa using hi.room) hi.shares_pos hi.shares_lt hi.px_pos hi.px_lt
    (fun p hp => hi.noCross p.1 (List.mem_map_of_mem hp))
  exact ⟨a', ha', _, by simp [LiveOrders.add], hj'⟩

theorem refs_nodup (h : Represents laws poolSize a live) : (live.map (·.ref)).Nodup := by
  obtain ⟨ps, rfl, hj⟩ := h
  rw [List.map_map]
  exact hj.refs

theorem onReplace_live (h : Represents laws poolSize a live) {o : LiveOrder} (ho : o ∈ live) :
    ∃ a', Represents laws poolSize a' (LiveOrders.remove live o.ref) ∧
      ∀ newRef shares itchPx,
        a.onReplace o.ref newRef shares itchPx = a'.addOrder newRef o.side shares itchPx := by
  obtain ⟨ps, rfl, hj⟩ := h
  obtain ⟨p, hp, rfl⟩ := List.mem_map.mp ho
  obtain ⟨i, hi', hfind, hcell, hhandle⟩ := hj.find_mem hp
  obtain ⟨a', ha', hj'⟩ := hj.eraseOrder hp hi' hcell
  refine ⟨a', ⟨_, map_filter_ref ps p.1.ref, hj'⟩, fun newRef shares itchPx => ?_⟩
  have hside : api.getSide a.book p.2 = p.1.side := congrArg OrderFields.side (hj.fields p hp)
  have hidx : ¬((i : ℤ) < 0) := by omega
  rw [ItchBookAdapter.onReplace]
  simp only [hfind, if_neg hidx, hhandle, Option.bind_some, ha', hside]

theorem onReplace_absent (h : Represents laws poolSize a live) {oldRef : ℕ}
    (habs : ∀ o ∈ live, o.ref ≠ oldRef) (newRef shares itchPx : ℕ) :
    a.onReplace oldRef newRef shares itchPx = some a := by
  obtain ⟨ps, rfl, hj⟩ := h
  rw [ItchBookAdapter.onReplace,
    hj.find_absent fun p hp => habs p.1 (List.mem_map_of_mem hp)]
  rfl

theorem onReplace (h : Represents laws poolSize a live) (oldRef newRef : ℕ) {shares itchPx : ℕ}
    (hi : ∀ o ∈ live, o.ref = oldRef →
      Introduces api poolSize (LiveOrders.remove live oldRef) newRef o.side shares itchPx) :
    ∃ a', a.onReplace oldRef newRef shares itchPx = some a' ∧
      Represents laws poolSize a'
        (LiveOrders.replace live oldRef newRef (itchPx / 100 : ℕ) shares) := by
  by_cases hlive : ∃ o ∈ live, o.ref = oldRef
  · obtain ⟨o, ho, rfl⟩ := hlive
    obtain ⟨a₁, hrest, hcall⟩ := h.onReplace_live ho
    obtain ⟨a', ha', hrep⟩ := hrest.addOrder (hi o ho rfl)
    exact ⟨a', by rw [hcall, ha'], by rwa [LiveOrders.replace_of_mem h.refs_nodup ho]⟩
  · have habs : ∀ o ∈ live, o.ref ≠ oldRef := fun o ho href => hlive ⟨o, ho, href⟩
    exact ⟨a, h.onReplace_absent habs _ _ _, by rwa [LiveOrders.replace_of_absent habs]⟩

theorem create (laws : OrderBookLaws api) {poolSize : ℕ} (hpool : poolSize ≤ 2 ^ 30) :
    Represents laws poolSize (ItchBookAdapter.create api poolSize) [] := by
  obtain ⟨hvalid, hsize, hempty⟩ := LiveOrderTable.create_valid (H := api.OrderPointer)
    (show poolSize * 2 ≤ 2 ^ 31 by omega)
  refine ⟨[], rfl, hvalid, ?_, laws.capacity_create poolSize, List.nodup_nil, List.nodup_nil,
    ?_, ?_, ?_⟩
  · change poolSize ≤ (LiveOrderTable.create (poolSize * 2) : LiveOrderTable api.OrderPointer).size
    omega
  · intro k v
    have hk := hempty k v
    constructor
    · intro h
      exact absurd h hk
    · rintro ⟨p, hp, -⟩
      cases hp
  · intro h
    simp [ItchBookAdapter.create, laws.resting_create]
  · intro p hp
    cases hp

end Represents

/-- The order is reached through the table and rests in the book with these fields. -/
def Rests (laws : OrderBookLaws api) (a : ItchBookAdapter api) (o : LiveOrder) : Prop :=
  ∃ (idx : ℕ) (h : api.OrderPointer), a.liveOrders.find o.ref = idx ∧
    a.liveOrders.handle idx = some h ∧ h ∈ laws.resting a.book ∧
    api.fields a.book h = o.toOrderFields

theorem Represents.rests_iff {a : ItchBookAdapter api} {live : List LiveOrder}
    (h : Represents laws poolSize a live) (o : LiveOrder) : Rests laws a o ↔ o ∈ live := by
  obtain ⟨ps, rfl, hj⟩ := h
  constructor
  · rintro ⟨idx, hd, hfind, hhandle, -, hfields⟩
    rcases entry_or_absent ps o.ref with ⟨p, hp, href⟩ | habs
    · obtain ⟨i, -, hfind', -, hhandle'⟩ := hj.find_mem hp
      rw [href, hfind] at hfind'
      obtain rfl : idx = i := by omega
      obtain rfl := Option.some.inj (hhandle.symm.trans hhandle')
      have heq : o = p.1 := by
        have hf := hj.fields p hp
        rw [hfields] at hf
        cases o
        cases hp1 : p.1
        simp_all
      exact heq ▸ List.mem_map_of_mem hp
    · rw [hj.find_absent habs] at hfind
      omega
  · intro ho
    obtain ⟨p, hp, rfl⟩ := List.mem_map.mp ho
    obtain ⟨i, -, hfind, -, hhandle⟩ := hj.find_mem hp
    exact ⟨i, p.2, hfind, hhandle, hj.mem_resting hp, hj.fields p hp⟩

/-- Nothing rests in the book that the table does not lead to. -/
theorem Represents.reached {a : ItchBookAdapter api} {live : List LiveOrder}
    (h : Represents laws poolSize a live) {hd : api.OrderPointer} (hr : hd ∈ laws.resting a.book) :
    ∃ o ∈ live, a.liveOrders.handle (a.liveOrders.find o.ref) = some hd := by
  obtain ⟨ps, rfl, hj⟩ := h
  obtain ⟨p, hp, rfl⟩ := (hj.resting hd).mp hr
  obtain ⟨i, -, hfind, -, hhandle⟩ := hj.find_mem hp
  exact ⟨p.1, List.mem_map_of_mem hp, by rw [hfind, hhandle]⟩

end TradingPipeline.Book
