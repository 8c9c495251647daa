import TradingPipeline.Lib.InsertionMap
import Mathlib.Algebra.Order.Ring.Int

/-! # The pending orders of the control service

The service keeps the orders it has observed until their acks. Its table is a JavaScript
`Map`: a walk in insertion order removes orders older than five minutes and orders beyond
the size limit, and stops at the first other one. An order whose sequence number is
pending already, as after a reconnect, takes the old place with the new timestamp. A
timestamp is `none` where `Number.isFinite` fails.
-/
namespace TradingPipeline.ControlService
open Lib

def maxPendingOrders : ℕ := 100000

/-- `5 * 60 * 1e9`. -/
def pendingOrderTtlNs : ℤ := 300000000000

def symbols : List (ℕ × String) :=
  [(13, "AAPL"), (347, "AMD"), (2020, "DIA"), (2679, "EWZ"), (2741, "FB"), (3461, "GOOGL"),
    (4190, "INTC"), (4321, "IWM"), (5294, "MSFT"), (5336, "MU"), (6562, "QQQ"), (7159, "SH"),
    (7457, "SPY"), (7468, "SQQQ"), (7888, "TNA"), (7939, "TQQQ"), (8000, "TSLA"),
    (8036, "TVIX"), (8757, "XLK")]

def symbolName (locate : ℕ) : String :=
  (symbols.lookup locate).getD ("LOC-" ++ toString locate)

def nsDelta (later earlier : Option ℤ) : Option ℤ := do
  let l ← later
  let e ← earlier
  if l < e then none else some (l - e)

structure OrderEvent where
  seq : ℕ
  symbolId : ℕ
  side : Char
  qty : ℕ
  price : ℤ
  msgType : Char
  ts : Option ℤ
  clientSendTs : Option ℤ
  deriving DecidableEq, Repr

structure AckEvent where
  seq : ℕ
  flag : ℕ
  ts : Option ℤ
  recvTs : Option ℤ
  deriving DecidableEq, Repr

structure PendingOrder where
  seq : ℕ
  symbolId : ℕ
  symbol : String
  side : Char
  qty : ℕ
  price : ℤ
  msgType : Char
  ts : Option ℤ
  clientSendTs : Option ℤ
  deriving DecidableEq, Repr

/-- The payload of an `order_ack` record. -/
structure OrderAckAudit where
  seq : ℕ
  symbolId : ℕ
  symbol : String
  side : Char
  qty : ℕ
  price : ℤ
  msgType : Char
  orderObserveTs : Option ℤ
  clientSendTs : Option ℤ
  ackObserveTs : Option ℤ
  serverRecvTs : Option ℤ
  ackFlag : ℕ
  observerRoundTripNs : Option ℤ
  clientSendToAckObserveNs : Option ℤ
  clientSendToServerRecvNs : Option ℤ
  deriving DecidableEq, Repr

abbrev PendingOrders := InsertionMap ℕ PendingOrder

def OrderEvent.pending (event : OrderEvent) : PendingOrder where
  seq := event.seq
  symbolId := event.symbolId
  symbol := symbolName event.symbolId
  side := event.side
  qty := event.qty
  price := event.price
  msgType := event.msgType
  ts := event.ts
  clientSendTs := event.clientSendTs

/-- `order.ts < cutoff`, where both are finite. -/
def isOld (cutoff : Option ℤ) (order : PendingOrder) : Bool :=
  match cutoff, order.ts with
  | some cutoff, some ts => ts < cutoff
  | _, _ => false

def pruneLoop (cutoff : Option ℤ) : List (ℕ × PendingOrder) → PendingOrders → PendingOrders
  | [], m => m
  | (seq, order) :: rest, m =>
    if isOld cutoff order then pruneLoop cutoff rest (m.delete seq)
    else if m.size ≤ maxPendingOrders then m
    else pruneLoop cutoff rest (m.delete seq)

def prunePendingOrders (m : PendingOrders) (nowTs : Option ℤ) : PendingOrders :=
  if m.size = 0 then m
  else pruneLoop (nowTs.map (· - pendingOrderTtlNs)) m.entries m

def rememberOrder (m : PendingOrders) (event : OrderEvent) : PendingOrders :=
  prunePendingOrders (m.set event.seq event.pending) event.ts

/-- The table and the audit record that is written, if the order was pending. -/
def emitOrderAckAudit (m : PendingOrders) (ack : AckEvent) : PendingOrders × Option OrderAckAudit :=
  match m.get? ack.seq with
  | none => (m, none)
  | some order =>
    (m.delete ack.seq, some
      { seq := ack.seq
        symbolId := order.symbolId
        symbol := order.symbol
        side := order.side
        qty := order.qty
        price := order.price
        msgType := order.msgType
        orderObserveTs := order.ts
        clientSendTs := order.clientSendTs
        ackObserveTs := ack.ts
        serverRecvTs := ack.recvTs
        ackFlag := ack.flag
        observerRoundTripNs := nsDelta ack.ts order.ts
        clientSendToAckObserveNs := nsDelta ack.ts order.clientSendTs
        clientSendToServerRecvNs := nsDelta ack.recvTs order.clientSendTs })

/-- The events that reach the table. -/
inductive Event
  | order (e : OrderEvent)
  | ack (a : AckEvent)
  deriving DecidableEq, Repr

def Event.ts : Event → Option ℤ
  | .order e => e.ts
  | .ack a => a.ts

def handle (m : PendingOrders) : Event → PendingOrders
  | .order e => rememberOrder m e
  | .ack a => (emitOrderAckAudit m a).1

def run (events : List Event) : PendingOrders := events.foldl handle .empty

section Prune

def oldAt (nowTs : Option ℤ) (entry : ℕ × PendingOrder) : Bool :=
  isOld (nowTs.map (· - pendingOrderTtlNs)) entry.2

theorem pruneLoop_entries (cutoff : Option ℤ) {es : List (ℕ × PendingOrder)} {m : PendingOrders}
    (h : m.entries = es) :
    (pruneLoop cutoff es m).entries = trim (fun e => isOld cutoff e.2) maxPendingOrders es := by
  induction es generalizing m with
  | nil => exact h
  | cons e es ih =>
    obtain ⟨seq, order⟩ := e
    have hdelete := ih (InsertionMap.entries_delete_head h)
    have hsize : m.size = es.length + 1 := congrArg List.length h
    rw [pruneLoop, trim, hsize]
    by_cases hold : isOld cutoff order = true
    · rw [if_pos hold, if_pos hold]
      exact hdelete
    · rw [if_neg hold, if_neg hold]
      by_cases hle : es.length + 1 ≤ maxPendingOrders
      · rw [if_pos hle, if_pos hle]
        exact h
      · rw [if_neg hle, if_neg hle]
        exact hdelete

theorem rememberOrder_entries (m : PendingOrders) (event : OrderEvent) :
    (rememberOrder m event).entries =
      trim (oldAt event.ts) maxPendingOrders (m.set event.seq event.pending).entries := by
  unfold rememberOrder prunePendingOrders
  split
  · next hzero =>
    rw [List.length_eq_zero_iff.mp hzero]
    rfl
  · exact pruneLoop_entries _ rfl

theorem oldAt_eq_false_iff {nowTs : Option ℤ} {entry : ℕ × PendingOrder} :
    oldAt nowTs entry = false ↔
      ∀ ts ∈ entry.2.ts, ∀ now ∈ nowTs, now - pendingOrderTtlNs ≤ ts := by
  unfold oldAt isOld
  cases nowTs with
  | none => simp
  | some now =>
    cases entry.2.ts with
    | none => simp
    | some ts => simp

theorem oldAt_of_earlier {nowTs : Option ℤ} {a b : ℕ × PendingOrder} {s : ℤ} (hs : s ∈ a.2.ts)
    (hle : ∀ t ∈ b.2.ts, s ≤ t) (hb : oldAt nowTs b = true) : oldAt nowTs a = true := by
  by_contra ha
  have ha := oldAt_eq_false_iff.mp (Bool.not_eq_true _ ▸ ha)
  have hfalse : oldAt nowTs b = false :=
    oldAt_eq_false_iff.mpr fun t ht now hnow => (ha s hs now hnow).trans (hle t ht)
  exact Bool.false_ne_true (hfalse.symm.trans hb)

theorem mem_emitOrderAckAudit {m : PendingOrders} {ack : AckEvent} {e : ℕ × PendingOrder}
    (he : e ∈ m.entries) (hne : e.1 ≠ ack.seq) : e ∈ (emitOrderAckAudit m ack).1.entries := by
  unfold emitOrderAckAudit
  split
  · exact he
  · exact InsertionMap.mem_delete.mpr ⟨he, hne⟩

theorem emitOrderAckAudit_sublist (m : PendingOrders) (ack : AckEvent) :
    (emitOrderAckAudit m ack).1.entries.Sublist m.entries := by
  unfold emitOrderAckAudit
  split
  · exact List.Sublist.refl _
  · exact List.filter_sublist

end Prune

section Table

def NonDecreasing (events : List Event) : Prop :=
  events.Pairwise fun a b => ∀ s ∈ a.ts, ∀ t ∈ b.ts, s ≤ t

/-- The size limit takes the order out at one of the events. -/
def EvictedIn (m : PendingOrders) (events : List Event) (entry : ℕ × PendingOrder) : Prop :=
  ∃ mid event rest, events = mid ++ .order event :: rest ∧
    Evicted (oldAt event.ts) maxPendingOrders
      ((mid.foldl handle m).set event.seq event.pending).entries entry

/-- The order was not acknowledged or replaced. -/
def Untouched (seq : ℕ) (events : List Event) : Prop :=
  ∀ ev ∈ events, match ev with
    | .order e => e.seq ≠ seq
    | .ack a => a.seq ≠ seq

theorem EvictedIn.cons {m : PendingOrders} {ev : Event} {events : List Event}
    {entry : ℕ × PendingOrder} (h : EvictedIn (handle m ev) events entry) :
    EvictedIn m (ev :: events) entry := by
  obtain ⟨mid, event, rest, rfl, h⟩ := h
  exact ⟨ev :: mid, event, rest, rfl, h⟩

theorem mem_handle_order {m : PendingOrders} {event : OrderEvent} {entry : ℕ × PendingOrder}
    (hset : entry ∈ (m.set event.seq event.pending).entries)
    (hold : oldAt event.ts entry = false) (events : List Event) :
    entry ∈ (handle m (.order event)).entries ∨ EvictedIn m (.order event :: events) entry := by
  rcases mem_trim_or maxPendingOrders hset hold with h | h
  · rw [← rememberOrder_entries] at h
    exact .inl h
  · exact .inr ⟨[], event, events, rfl, h⟩

theorem mem_foldl_handle {entry : ℕ × PendingOrder} {events : List Event} {m : PendingOrders}
    (hin : entry ∈ m.entries) (hfree : Untouched entry.1 events)
    (hold : ∀ event, .order event ∈ events → oldAt event.ts entry = false) :
    entry ∈ (events.foldl handle m).entries ∨ EvictedIn m events entry := by
  induction events generalizing m with
  | nil => exact .inl hin
  | cons ev events ih =>
    obtain ⟨hev, hfree⟩ := List.forall_mem_cons.mp hfree
    have hlater := fun hin' => ih (m := handle m ev) hin' hfree
      fun event he => hold event (List.mem_cons_of_mem _ he)
    cases ev with
    | ack a => exact (hlater (mem_emitOrderAckAudit hin (Ne.symm hev))).imp_right EvictedIn.cons
    | order event =>
      have hset : entry ∈ (m.set event.seq event.pending).entries :=
        InsertionMap.mem_set.mpr (.inr ⟨hin, Ne.symm hev⟩)
      rcases mem_handle_order hset (hold event List.mem_cons_self) events with h | h
      · exact (hlater h).imp_right EvictedIn.cons
      · exact .inr h

/-- What the table promises after an order was remembered. -/
structure BoundedAfter (pre : List Event) (e : OrderEvent) : Prop where
  size : (run (pre ++ [.order e])).size ≤ maxPendingOrders
  age : ∀ entry ∈ (run (pre ++ [.order e])).entries, ∀ ts ∈ entry.2.ts, ∀ now ∈ e.ts,
    now - pendingOrderTtlNs ≤ ts
  held : ∀ before o after, pre ++ [.order e] = before ++ .order o :: after →
    Untouched o.seq after → ∀ now ∈ e.ts, (∀ ts ∈ o.ts, now - pendingOrderTtlNs ≤ ts) →
    (run (pre ++ [.order e])).get? o.seq = some o.pending ∨
      EvictedIn (run before) (.order o :: after) (o.seq, o.pending)

def PendingBounded (events : List Event) : Prop :=
  ∀ pre e, pre ++ [.order e] <+: events → BoundedAfter pre e

/-- No walk is stopped by a young order that stands before an old one. -/
def WalksUnblocked (events : List Event) : Prop :=
  ∀ pre e, pre ++ [.order e] <+: events →
    ¬ Blocked (oldAt e.ts) maxPendingOrders ((run pre).set e.seq e.pending).entries

variable {events pre : List Event} {e : OrderEvent}

theorem run_order (pre : List Event) (e : OrderEvent) :
    (run (pre ++ [.order e])).entries =
      trim (oldAt e.ts) maxPendingOrders ((run pre).set e.seq e.pending).entries := by
  rw [run, List.foldl_append]
  exact rememberOrder_entries _ e

theorem size_run_order_le (pre : List Event) (e : OrderEvent) :
    (run (pre ++ [.order e])).size ≤ maxPendingOrders := by
  rw [InsertionMap.size, run_order]
  exact length_trim_le _

theorem age_iff (pre : List Event) (e : OrderEvent) :
    (∀ entry ∈ (run (pre ++ [.order e])).entries, ∀ ts ∈ entry.2.ts, ∀ now ∈ e.ts,
      now - pendingOrderTtlNs ≤ ts) ↔
    ¬ Blocked (oldAt e.ts) maxPendingOrders ((run pre).set e.seq e.pending).entries := by
  rw [← trim_clean_iff, run_order]
  exact forall₂_congr fun entry _ => oldAt_eq_false_iff.symm

theorem NonDecreasing.le_last (h : NonDecreasing (pre ++ [.order e])) {ev : Event}
    (hev : ev ∈ pre ++ [.order e]) : ∀ s ∈ ev.ts, ∀ t ∈ e.ts, s ≤ t := by
  rcases List.mem_append.mp hev with hev | hev
  · exact (List.pairwise_append.mp h).2.2 ev hev (.order e) (List.mem_singleton_self _)
  · obtain rfl := List.mem_singleton.mp hev
    intro s hs t ht
    exact le_of_eq (Option.mem_unique hs ht)

theorem oldAt_of_le {entry : ℕ × PendingOrder} {nowTs laterTs : Option ℤ} {later : ℤ}
    (hlater : later ∈ laterTs) (hle : ∀ now ∈ nowTs, ∀ t ∈ laterTs, now ≤ t)
    (hyoung : ∀ ts ∈ entry.2.ts, later - pendingOrderTtlNs ≤ ts) :
    oldAt nowTs entry = false := by
  refine oldAt_eq_false_iff.mpr fun ts hts now hnow => ?_
  have hnow := hle now hnow later hlater
  have hts := hyoung ts hts
  omega

theorem held_or_evicted (h : NonDecreasing (pre ++ [.order e])) {before after : List Event}
    {o : OrderEvent} (heq : pre ++ [.order e] = before ++ .order o :: after)
    (hfree : Untouched o.seq after) {now : ℤ} (hnow : now ∈ e.ts)
    (hyoung : ∀ ts ∈ o.ts, now - pendingOrderTtlNs ≤ ts) :
    (run (pre ++ [.order e])).get? o.seq = some o.pending ∨
      EvictedIn (run before) (.order o :: after) (o.seq, o.pending) := by
  have hold : ∀ event, .order event ∈ Event.order o :: after →
      oldAt event.ts (o.seq, o.pending) = false := by
    intro event hev
    have hin : Event.order event ∈ pre ++ [.order e] := heq ▸ List.mem_append_right _ hev
    exact oldAt_of_le hnow (h.le_last hin) hyoung
  have hset : (o.seq, o.pending) ∈ ((run before).set o.seq o.pending).entries :=
    InsertionMap.mem_set.mpr (.inl rfl)
  rw [InsertionMap.get?_eq_some_iff, heq, run, List.foldl_append, List.foldl_cons]
  rcases mem_handle_order hset (hold o List.mem_cons_self) after with hin | hev
  · have hlater := fun event he => hold event (List.mem_cons_of_mem _ he)
    exact (mem_foldl_handle hin hfree hlater).imp_right EvictedIn.cons
  · exact .inr hev

theorem boundedAfter_iff (h : NonDecreasing (pre ++ [.order e])) :
    BoundedAfter pre e ↔
      ¬ Blocked (oldAt e.ts) maxPendingOrders ((run pre).set e.seq e.pending).entries := by
  rw [← age_iff]
  refine ⟨BoundedAfter.age, fun hage => ⟨size_run_order_le pre e, hage, ?_⟩⟩
  exact fun before o after heq hfree now hnow hyoung =>
    held_or_evicted h heq hfree hnow hyoung

/-- Over non-decreasing timestamps the table keeps its promises after every order exactly if
no walk meets a young order before an old one. The size limit and the orders that have to
be held are never at stake. -/
theorem pendingBounded_iff (h : NonDecreasing events) :
    PendingBounded events ↔ WalksUnblocked events :=
  forall₃_congr fun _ _ hpre => boundedAfter_iff (h.sublist hpre.sublist)

def observedOrder (seq : ℕ) (ts : ℤ) : OrderEvent :=
  ⟨seq, 13, 'B', 100, 10000, 'N', some ts, some ts⟩

/-- Sequence number 1 comes back after 290 s, as after a reconnect, and keeps its place
before number 2. At 302 s number 2 is older than five minutes. -/
def resetEvents : List Event :=
  [observedOrder 1 0, observedOrder 2 1000000000, observedOrder 1 290000000000,
    observedOrder 3 302000000000].map .order

theorem pendingBounded_iff_resetEvents :
    NonDecreasing resetEvents ∧ (PendingBounded resetEvents ↔ WalksUnblocked resetEvents) := by
  have h : NonDecreasing resetEvents := by
    unfold NonDecreasing
    decide
  exact ⟨h, pendingBounded_iff h⟩

theorem reset_order_shields_old : NonDecreasing resetEvents ∧
    ((run resetEvents).entries.map fun entry => (entry.1, entry.2.ts)) =
      [(1, some 290000000000), (2, some 1000000000), (3, some 302000000000)] ∧
    ¬ PendingBounded resetEvents := by
  refine ⟨by unfold NonDecreasing; decide, by decide +kernel, fun h => ?_⟩
  have hlast := h (resetEvents.take 3) (observedOrder 3 302000000000) (List.prefix_refl _)
  have hin : (2, (observedOrder 2 1000000000).pending) ∈ (run resetEvents).entries := by
    decide +kernel
  have hage := hlast.age _ hin 1000000000 rfl 302000000000 rfl
  exact absurd hage (by decide)

end Table

section Fresh
variable {events : List Event}

def Event.entry : Event → Option (ℕ × PendingOrder)
  | .order e => some (e.seq, e.pending)
  | .ack _ => none

theorem Event.entry_eq_some {ev : Event} {x : ℕ × PendingOrder} (h : ev.entry = some x) :
    ∃ o, ev = .order o ∧ x = (o.seq, o.pending) := by
  cases ev with
  | order o => exact ⟨o, rfl, (Option.some.inj h).symm⟩
  | ack a => exact absurd h (by simp [Event.entry])

/-- No order comes with a sequence number that is pending. -/
def FreshSeqs (events : List Event) : Prop :=
  ∀ pre e, pre ++ [.order e] <+: events → e.seq ∉ (run pre).entries.map Prod.fst

theorem run_sublist (h : FreshSeqs events) :
    (run events).entries.Sublist (events.filterMap Event.entry) := by
  induction events using List.reverseRecOn with
  | nil => exact List.Sublist.refl _
  | append_singleton pre ev ih =>
    have hpre : FreshSeqs pre := fun p e hp => h p e (hp.trans (List.prefix_append _ _))
    rw [List.filterMap_append]
    cases ev with
    | order e =>
      have hfresh := h pre e (List.prefix_refl _)
      rw [run_order]
      refine (trim_suffix _).sublist.trans ?_
      rw [InsertionMap.entries_set_of_fresh hfresh]
      exact (ih hpre).append (List.Sublist.refl _)
    | ack a =>
      rw [run, List.foldl_append]
      refine (emitOrderAckAudit_sublist (run pre) a).trans ((ih hpre).trans ?_)
      exact List.sublist_append_left _ _

/-- Where no pending sequence number comes back, the table is in the order of the
timestamps and no walk is stopped too early. -/
theorem pendingBounded_of_fresh (h : NonDecreasing events) (hfresh : FreshSeqs events)
    (hts : ∀ e, .order e ∈ events → e.ts.isSome) : PendingBounded events := by
  intro pre e hpre
  have hsorted : NonDecreasing (pre ++ [.order e]) := h.sublist hpre.sublist
  refine (boundedAfter_iff hsorted).mpr (not_blocked_of_pairwise ?_)
  have hrun := run_sublist fun p o hp => hfresh p o (hp.trans ((List.prefix_append _ _).trans hpre))
  have hentries : ((run pre).set e.seq e.pending).entries.Sublist
      ((pre ++ [Event.order e]).filterMap Event.entry) := by
    rw [InsertionMap.entries_set_of_fresh (hfresh pre e hpre), List.filterMap_append]
    exact hrun.append (List.Sublist.refl _)
  refine List.Pairwise.sublist hentries (List.pairwise_filterMap.mpr ?_)
  refine List.Pairwise.imp_of_mem ?_ hsorted
  intro a b ha _ hab x hx y hy hold
  obtain ⟨o, rfl, rfl⟩ := Event.entry_eq_some hx
  obtain ⟨o', rfl, rfl⟩ := Event.entry_eq_some hy
  obtain ⟨s, hs⟩ := Option.isSome_iff_exists.mp (hts o (hpre.subset ha))
  exact oldAt_of_earlier hs (fun t ht => hab s hs t ht) hold

end Fresh

end TradingPipeline.ControlService
