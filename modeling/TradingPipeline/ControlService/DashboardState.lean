import TradingPipeline.ControlService.PendingOrders
import TradingPipeline.Telemetry.Reports
import Mathlib.Algebra.BigOperators.Group.Finset.Basic
import Mathlib.Data.List.Sort

/-! # The state behind the dashboard

The control service folds the telemetry events into one object and takes snapshots of it for
the dashboards. A snapshot says what the events so far say: one row for each symbol that an event
has named, with the prices that its last orders left, the last statistics of the engine, and
the last twenty orders and acks.
-/
namespace TradingPipeline.Dashboard
open Lib ControlService Telemetry

structure SymbolRow where
  locate : ℕ
  symbol : String
  ourBidPx : ℤ
  ourAskPx : ℤ
  orders : ℕ
  lastOrderSeq : ℕ
  deriving DecidableEq

/-- An entry of `mm_stats` with the event's timestamp. -/
structure MmStats where
  locate : ℕ
  stats : ShardStats
  ts : ℤ
  deriving DecidableEq

structure Latency where
  p50 : ℕ
  p90 : ℕ
  p99 : ℕ
  max : ℕ
  n : ℕ
  label : String
  ts : ℤ
  deriving DecidableEq

structure Health where
  ts : ℕ
  counters : Counters
  deriving DecidableEq

inductive TelemetryEvent
  | feed (ts seq msgCount payloadBytes : ℕ)
  | order (event : OrderEvent)
  | ack (event : AckEvent)
  | health (event : Health)
  | mmStats (ts : ℤ) (symbols : List (ℕ × ShardStats))
  | latStats (event : Latency)
  | other (type : String)

structure Feed where
  lastSeq : ℕ
  packets : ℕ
  messages : ℕ
  deriving DecidableEq

structure State where
  requestedGlobalKill : Bool
  latestHealth : Option Health
  recentOrders : List (OrderEvent × String)
  recentAcks : List AckEvent
  symbols : InsertionMap ℕ SymbolRow
  feed : Feed
  latency : Option Latency
  mmStats : InsertionMap ℕ MmStats
  pendingOrders : PendingOrders

def init : State where
  requestedGlobalKill := false
  latestHealth := none
  recentOrders := []
  recentAcks := []
  symbols := .empty
  feed := ⟨0, 0, 0⟩
  latency := none
  mmStats := .empty
  pendingOrders := .empty

section Handler

def freshRow (locate : ℕ) : SymbolRow := ⟨locate, symbolName locate, 0, 0, 0, 0⟩

/-- The row that `upsertSymbol` returns. -/
def rowOf (symbols : InsertionMap ℕ SymbolRow) (locate : ℕ) : SymbolRow :=
  (symbols.get? locate).getD (freshRow locate)

def upsertSymbol (symbols : InsertionMap ℕ SymbolRow) (locate : ℕ) : InsertionMap ℕ SymbolRow :=
  if symbols.get? locate = none then symbols.set locate (freshRow locate) else symbols

def SymbolRow.onOrder (row : SymbolRow) (event : OrderEvent) : SymbolRow :=
  let row := { row with orders := row.orders + 1, lastOrderSeq := event.seq }
  if event.msgType = 'N' then
    if event.side = 'B' then { row with ourBidPx := event.price }
    else if event.side = 'S' then { row with ourAskPx := event.price }
    else row
  else if event.msgType = 'C' then
    if event.side = 'B' then { row with ourBidPx := 0 }
    else if event.side = 'S' then { row with ourAskPx := 0 }
    else row
  else if event.msgType = 'F' then { row with ourBidPx := 0, ourAskPx := 0 }
  else row

def State.onMmStats (ts : ℤ) (s : State) (entry : ℕ × ShardStats) : State :=
  { s with
    mmStats := s.mmStats.set entry.1 ⟨entry.1, entry.2, ts⟩
    symbols := upsertSymbol s.symbols entry.1 }

def handleTelemetryEvent (s : State) : TelemetryEvent → State
  | .feed _ seq msgCount _ =>
    { s with feed := ⟨seq, s.feed.packets + 1, s.feed.messages + msgCount⟩ }
  | .order event =>
    let row := (rowOf s.symbols event.symbolId).onOrder event
    { s with
      symbols := s.symbols.set event.symbolId row
      recentOrders := ((event, row.symbol) :: s.recentOrders).take 20
      pendingOrders := rememberOrder s.pendingOrders event }
  | .ack event =>
    { s with
      recentAcks := (event :: s.recentAcks).take 20
      pendingOrders := (emitOrderAckAudit s.pendingOrders event).1 }
  | .health event =>
    { s with
      latestHealth := some event
      feed := ⟨s.feed.lastSeq, event.counters.feedPackets.toNat,
        event.counters.feedMessages.toNat⟩ }
  | .mmStats ts symbols => symbols.foldl (State.onMmStats ts) s
  | .latStats event => { s with latency := some event }
  | .other _ => s

end Handler

section Snapshot

structure Totals where
  activeQuotes : ℕ
  orders : ℕ
  realizedPnlTicks : ℤ
  unrealizedPnlTicks : ℤ
  fills : ℕ
  deriving DecidableEq

def Totals.add (mmStats : InsertionMap ℕ MmStats) (acc : Totals) (row : SymbolRow) : Totals :=
  let acc := { acc with
    activeQuotes := acc.activeQuotes + (if row.ourBidPx = 0 then 0 else 1) +
      (if row.ourAskPx = 0 then 0 else 1)
    orders := acc.orders + row.orders }
  match mmStats.get? row.locate with
  | none => acc
  | some mm =>
    { acc with
      realizedPnlTicks := acc.realizedPnlTicks + mm.stats.realizedPnlTicks.toInt
      unrealizedPnlTicks := acc.unrealizedPnlTicks + mm.stats.unrealizedPnlTicks.toInt
      fills := acc.fills + mm.stats.totalFills.toNat }

structure Snapshot where
  requestedGlobalKill : Bool
  latestHealth : Option Health
  recentOrders : List (OrderEvent × String)
  recentAcks : List AckEvent
  feed : Feed
  symbols : List (SymbolRow × Option MmStats)
  totals : Totals
  latency : Option Latency
  deriving DecidableEq

def State.rows (s : State) : List SymbolRow :=
  (s.symbols.entries.map Prod.snd).insertionSort fun a b => a.locate ≤ b.locate

def snapshotState (s : State) : Snapshot where
  requestedGlobalKill := s.requestedGlobalKill
  latestHealth := s.latestHealth
  recentOrders := s.recentOrders
  recentAcks := s.recentAcks
  feed := s.feed
  symbols := s.rows.map fun row => (row, s.mmStats.get? row.locate)
  totals := s.rows.foldl (Totals.add s.mmStats) ⟨0, 0, 0, 0, 0⟩
  latency := s.latency

end Snapshot

section History

def TelemetryEvent.orders : TelemetryEvent → List OrderEvent
  | .order event => [event]
  | .feed .. | .ack _ | .health _ | .mmStats .. | .latStats _ | .other _ => []

def TelemetryEvent.acks : TelemetryEvent → List AckEvent
  | .ack event => [event]
  | .feed .. | .order _ | .health _ | .mmStats .. | .latStats _ | .other _ => []

/-- The entries of the engine's statistics. -/
def TelemetryEvent.statistics : TelemetryEvent → List MmStats
  | .mmStats ts symbols => symbols.map fun entry => ⟨entry.1, entry.2, ts⟩
  | .feed .. | .order _ | .ack _ | .health _ | .latStats _ | .other _ => []

def TelemetryEvent.healths : TelemetryEvent → List Health
  | .health event => [event]
  | .feed .. | .order _ | .ack _ | .mmStats .. | .latStats _ | .other _ => []

def TelemetryEvent.latencies : TelemetryEvent → List Latency
  | .latStats event => [event]
  | .feed .. | .order _ | .ack _ | .health _ | .mmStats .. | .other _ => []

/-- The sequence number and the message count of a feed event. -/
def TelemetryEvent.feeds : TelemetryEvent → List (ℕ × ℕ)
  | .feed _ seq msgCount _ => [(seq, msgCount)]
  | .order _ | .ack _ | .health _ | .mmStats .. | .latStats _ | .other _ => []

def TelemetryEvent.named : TelemetryEvent → List ℕ
  | .order event => [event.symbolId]
  | .mmStats _ symbols => symbols.map Prod.fst
  | .feed .. | .ack _ | .health _ | .latStats _ | .other _ => []

section All
variable (h : List TelemetryEvent) (e : TelemetryEvent)

def orders : List OrderEvent := h.flatMap TelemetryEvent.orders
def acks : List AckEvent := h.flatMap TelemetryEvent.acks
def statistics : List MmStats := h.flatMap TelemetryEvent.statistics
def named : List ℕ := h.flatMap TelemetryEvent.named
def healths : List Health := h.flatMap TelemetryEvent.healths
def latencies : List Latency := h.flatMap TelemetryEvent.latencies
def feeds : List (ℕ × ℕ) := h.flatMap TelemetryEvent.feeds

/-- The feed events since the last health event. -/
def feedsSince : List (ℕ × ℕ) :=
  (h.reverse.takeWhile fun e => e.healths = []).flatMap TelemetryEvent.feeds

theorem orders_snoc : orders (h ++ [e]) = orders h ++ e.orders := by simp [orders]
theorem acks_snoc : acks (h ++ [e]) = acks h ++ e.acks := by simp [acks]
theorem statistics_snoc : statistics (h ++ [e]) = statistics h ++ e.statistics := by
  simp [statistics]
theorem named_snoc : named (h ++ [e]) = named h ++ e.named := by simp [named]
theorem healths_snoc : healths (h ++ [e]) = healths h ++ e.healths := by simp [healths]
theorem latencies_snoc : latencies (h ++ [e]) = latencies h ++ e.latencies := by simp [latencies]
theorem feeds_snoc : feeds (h ++ [e]) = feeds h ++ e.feeds := by simp [feeds]

theorem feedsSince_snoc :
    feedsSince (h ++ [e]) = if e.healths = [] then e.feeds ++ feedsSince h else [] := by
  rw [feedsSince, List.reverse_append, List.reverse_singleton, List.singleton_append,
    List.takeWhile_cons]
  split
  · next hnil => rw [if_pos (of_decide_eq_true hnil), List.flatMap_cons, feedsSince]
  · next hne => rw [if_neg (fun hnil => hne (decide_eq_true hnil)), List.flatMap_nil]

end All

/-- What an order does to our price on a side: a new order sets it, a cancel of the side or a
flush clears it. -/
def effect (side : Char) (event : OrderEvent) : Option ℤ :=
  if event.msgType = 'N' ∧ event.side = side then some event.price
  else if event.msgType = 'C' ∧ event.side = side ∨ event.msgType = 'F' then some 0
  else none

/-- The price that the last order with an effect has left. -/
def priceAfter (side : Char) (es : List OrderEvent) : ℤ := (es.filterMap (effect side)).getLastD 0

/-- The row of a symbol with the orders `own`. -/
def rowWith (locate : ℕ) (own : List OrderEvent) : SymbolRow where
  locate := locate
  symbol := symbolName locate
  ourBidPx := priceAfter 'B' own
  ourAskPx := priceAfter 'S' own
  orders := own.length
  lastOrderSeq := (own.getLast?.map OrderEvent.seq).getD 0

def rowAfter (locate : ℕ) (es : List OrderEvent) : SymbolRow :=
  rowWith locate (es.filter fun e => e.symbolId = locate)

def statsAfter (locate : ℕ) (ms : List MmStats) : Option MmStats :=
  (ms.filter fun m => m.locate = locate).getLast?

/-- The rows and the statistics are those of the symbols named in `ls`, after the orders `es` and
the entries `ms`. -/
structure Describes (es : List OrderEvent) (ms : List MmStats) (ls : List ℕ) (s : State) :
    Prop where
  symbols : ∀ locate,
    s.symbols.get? locate = if locate ∈ ls then some (rowAfter locate es) else none
  mmStats : ∀ locate, s.mmStats.get? locate = statsAfter locate ms
  named : ∀ e ∈ es, e.symbolId ∈ ls

theorem get?_upsertSymbol (symbols : InsertionMap ℕ SymbolRow) (locate l : ℕ) :
    (upsertSymbol symbols locate).get? l =
      if l = locate then some (rowOf symbols locate) else symbols.get? l := by
  unfold upsertSymbol rowOf
  split
  · next hnone => rw [InsertionMap.get?_set, hnone, Option.getD_none]
  · next hsome =>
    obtain ⟨row, hrow⟩ := Option.ne_none_iff_exists'.mp hsome
    split
    · next heq => rw [heq, hrow, Option.getD_some]
    · rfl

theorem priceAfter_snoc (side : Char) (es : List OrderEvent) (e : OrderEvent) :
    priceAfter side (es ++ [e]) = (effect side e).getD (priceAfter side es) := by
  unfold priceAfter
  rw [List.filterMap_append]
  cases heffect : effect side e with
  | none => rw [List.filterMap_cons_none heffect, List.filterMap_nil, List.append_nil,
    Option.getD_none]
  | some px =>
    rw [List.filterMap_cons_some heffect, List.filterMap_nil, List.getLastD_concat,
      Option.getD_some]

theorem rowAfter_snoc_of_ne {locate : ℕ} {e : OrderEvent} (h : e.symbolId ≠ locate)
    (es : List OrderEvent) : rowAfter locate (es ++ [e]) = rowAfter locate es := by
  unfold rowAfter
  rw [List.filter_append, List.filter_cons_of_neg (by simpa using h), List.filter_nil,
    List.append_nil]

theorem rowAfter_snoc (es : List OrderEvent) (e : OrderEvent) :
    rowAfter e.symbolId (es ++ [e]) = (rowAfter e.symbolId es).onOrder e := by
  rw [rowAfter, rowAfter, List.filter_append, List.filter_cons_of_pos (by simp), List.filter_nil]
  generalize es.filter (fun x => x.symbolId = e.symbolId) = own
  rw [rowWith, priceAfter_snoc, priceAfter_snoc, List.length_append, List.getLast?_concat]
  unfold SymbolRow.onOrder effect rowWith
  by_cases hN : e.msgType = 'N'
  · by_cases hB : e.side = 'B'
    · simp [hN, hB]
    · by_cases hS : e.side = 'S'
      · simp [hN, hS]
      · simp [hN, hB, hS]
  · by_cases hC : e.msgType = 'C'
    · by_cases hB : e.side = 'B'
      · simp [hC, hB]
      · by_cases hS : e.side = 'S'
        · simp [hC, hS]
        · simp [hC, hB, hS]
    · by_cases hF : e.msgType = 'F'
      · simp [hF]
      · simp [hN, hC, hF]

theorem rowAfter_of_unnamed {locate : ℕ} {es : List OrderEvent}
    (h : ∀ e ∈ es, e.symbolId ≠ locate) : rowAfter locate es = freshRow locate := by
  have hnil : es.filter (fun e => e.symbolId = locate) = [] :=
    List.filter_eq_nil_iff.mpr fun e he => by simpa using h e he
  unfold rowAfter
  rw [hnil]
  rfl

theorem statsAfter_snoc (locate : ℕ) (ms : List MmStats) (m : MmStats) :
    statsAfter locate (ms ++ [m]) =
      if locate = m.locate then some m else statsAfter locate ms := by
  unfold statsAfter
  rw [List.filter_append]
  split
  · next heq => rw [List.filter_cons_of_pos (by simp [heq]), List.filter_nil, List.getLast?_concat]
  · next hne =>
    rw [List.filter_cons_of_neg (by simpa using Ne.symm hne), List.filter_nil, List.append_nil]

end History

section Describes
variable {es : List OrderEvent} {ms : List MmStats} {ls : List ℕ} {s : State}

theorem Describes.init : Describes [] [] [] init :=
  ⟨fun _ => rfl, fun _ => rfl, List.forall_mem_nil _⟩

theorem Describes.rowOf_eq (h : Describes es ms ls s) (locate : ℕ) :
    rowOf s.symbols locate = rowAfter locate es := by
  rw [rowOf, h.symbols]
  split
  · rfl
  · next hnot =>
    have hno : ∀ e ∈ es, e.symbolId ≠ locate := fun e he heq => hnot (heq ▸ h.named e he)
    rw [rowAfter_of_unnamed hno]
    rfl

theorem Describes.order (h : Describes es ms ls s) (e : OrderEvent) :
    Describes (es ++ [e]) ms (ls ++ [e.symbolId]) (handleTelemetryEvent s (.order e)) where
  symbols := by
    intro locate
    change (s.symbols.set e.symbolId _).get? locate = _
    rw [InsertionMap.get?_set, h.rowOf_eq, ← rowAfter_snoc]
    by_cases heq : locate = e.symbolId
    · subst heq
      simp
    · rw [if_neg heq, h.symbols, rowAfter_snoc_of_ne (Ne.symm heq)]
      simp [heq]
  mmStats := h.mmStats
  named := by
    refine List.forall_mem_append.mpr ⟨fun x hx => ?_, ?_⟩
    · exact List.mem_append_left _ (h.named x hx)
    · exact List.forall_mem_singleton.mpr (List.mem_append_right _ (List.mem_singleton_self _))

theorem Describes.onMmStats (h : Describes es ms ls s) (ts : ℤ) (entry : ℕ × ShardStats) :
    Describes es (ms ++ [⟨entry.1, entry.2, ts⟩]) (ls ++ [entry.1]) (s.onMmStats ts entry) where
  symbols := by
    intro locate
    change (upsertSymbol s.symbols entry.1).get? locate = _
    rw [get?_upsertSymbol, h.rowOf_eq, h.symbols]
    by_cases heq : locate = entry.1
    · subst heq
      simp
    · simp [heq]
  mmStats := by
    intro locate
    change (s.mmStats.set entry.1 _).get? locate = _
    rw [InsertionMap.get?_set, h.mmStats, statsAfter_snoc]
  named := fun e he => List.mem_append_left _ (h.named e he)

theorem Describes.mmStats_event (h : Describes es ms ls s) (ts : ℤ)
    (symbols : List (ℕ × ShardStats)) :
    Describes es (ms ++ symbols.map fun entry => ⟨entry.1, entry.2, ts⟩)
      (ls ++ symbols.map Prod.fst) (handleTelemetryEvent s (.mmStats ts symbols)) := by
  unfold handleTelemetryEvent
  induction symbols generalizing ms ls s with
  | nil => simpa using h
  | cons entry symbols ih =>
    have hrest := ih (h.onMmStats ts entry)
    rw [List.append_assoc, List.append_assoc] at hrest
    exact hrest

end Describes

def run (h : List TelemetryEvent) : State := h.foldl handleTelemetryEvent init

theorem run_snoc (h : List TelemetryEvent) (e : TelemetryEvent) :
    run (h ++ [e]) = handleTelemetryEvent (run h) e := by
  rw [run, List.foldl_append]
  rfl

theorem run_describes (h : List TelemetryEvent) :
    Describes (orders h) (statistics h) (named h) (run h) := by
  induction h using List.reverseRecOn with
  | nil => exact .init
  | append_singleton h e ih =>
    rw [run_snoc, orders_snoc, statistics_snoc, named_snoc]
    cases e with
    | order event =>
      have hnext := ih.order event
      rwa [← List.append_nil (statistics h)] at hnext
    | mmStats ts symbols =>
      have hnext := ih.mmStats_event ts symbols
      rwa [← List.append_nil (orders h)] at hnext
    | feed | ack | health | latStats | other =>
      rw [TelemetryEvent.orders, TelemetryEvent.statistics, TelemetryEvent.named, List.append_nil,
        List.append_nil, List.append_nil]
      exact ⟨ih.symbols, ih.mmStats, ih.named⟩

/-- The counters of the feed: those of the last health event and what came since. -/
def feedAfter (h : List TelemetryEvent) : Feed where
  lastSeq := ((feeds h).getLast?.map Prod.fst).getD 0
  packets := ((healths h).getLast?.map fun e => e.counters.feedPackets.toNat).getD 0 +
    (feedsSince h).length
  messages := ((healths h).getLast?.map fun e => e.counters.feedMessages.toNat).getD 0 +
    ((feedsSince h).map Prod.snd).sum

theorem feedAfter_snoc_quiet (h : List TelemetryEvent) {e : TelemetryEvent}
    (hhealths : e.healths = [])
    (hfeeds : e.feeds = []) : feedAfter (h ++ [e]) = feedAfter h := by
  simp only [feedAfter, feeds_snoc, healths_snoc, feedsSince_snoc, hhealths, hfeeds, if_true,
    List.append_nil, List.nil_append]

/-- The parts of the state that keep the last of something. -/
structure Latest (hs : List Health) (ls : List Latency) (es : List OrderEvent) (as : List AckEvent)
    (s : State) : Prop where
  latestHealth : s.latestHealth = hs.getLast?
  latency : s.latency = ls.getLast?
  recentOrders : s.recentOrders = (es.reverse.take 20).map fun e => (e, symbolName e.symbolId)
  recentAcks : s.recentAcks = as.reverse.take 20

theorem onMmStats_frame (ts : ℤ) (symbols : List (ℕ × ShardStats)) (s : State) :
    symbols.foldl (State.onMmStats ts) s =
      { s with
        symbols := (symbols.foldl (State.onMmStats ts) s).symbols
        mmStats := (symbols.foldl (State.onMmStats ts) s).mmStats } := by
  induction symbols generalizing s with
  | nil => rfl
  | cons entry symbols ih => exact ih (s.onMmStats ts entry)

theorem rowAfter_onOrder_symbol (row : SymbolRow) (e : OrderEvent) :
    (row.onOrder e).symbol = row.symbol := by
  unfold SymbolRow.onOrder
  dsimp only
  repeat' split
  all_goals rfl

theorem take_cons_take {α : Type*} (n : ℕ) (a : α) (as : List α) :
    (a :: as.take n).take n = (a :: as).take n := by
  cases n with
  | zero => rfl
  | succ n => rw [List.take_succ_cons, List.take_succ_cons, List.take_take,
    Nat.min_eq_left (Nat.le_succ n)]

theorem recent_snoc (es : List OrderEvent) (e : OrderEvent) :
    ((e, symbolName e.symbolId) ::
        (es.reverse.take 20).map fun e => (e, symbolName e.symbolId)).take 20 =
      ((es ++ [e]).reverse.take 20).map fun e => (e, symbolName e.symbolId) := by
  rw [List.reverse_append, List.reverse_singleton, List.singleton_append, List.map_take,
    List.map_take, take_cons_take, List.map_cons]

theorem run_feed (h : List TelemetryEvent) : (run h).feed = feedAfter h := by
  induction h using List.reverseRecOn with
  | nil => rfl
  | append_singleton h e ih =>
    rw [run_snoc]
    cases e with
    | feed ts seq msgCount payloadBytes =>
      simp only [handleTelemetryEvent, ih, feedAfter, feeds_snoc, healths_snoc, feedsSince_snoc,
        TelemetryEvent.feeds, TelemetryEvent.healths, if_true, List.append_nil,
        List.getLast?_concat, List.singleton_append, List.length_cons, List.map_cons,
        List.sum_cons, Option.map_some, Option.getD_some]
      congr 1
      omega
    | health event =>
      simp only [handleTelemetryEvent, ih, feedAfter, feeds_snoc, healths_snoc, feedsSince_snoc,
        TelemetryEvent.feeds, TelemetryEvent.healths, List.append_nil, List.getLast?_concat,
        List.cons_ne_nil, if_false, List.length_nil, List.map_nil, List.sum_nil, Option.map_some,
        Option.getD_some, Nat.add_zero]
    | mmStats ts symbols =>
      rw [feedAfter_snoc_quiet h rfl rfl, handleTelemetryEvent, onMmStats_frame]
      exact ih
    | order | ack | latStats | other =>
      rw [feedAfter_snoc_quiet h rfl rfl]
      exact ih

theorem run_latest (h : List TelemetryEvent) :
    Latest (healths h) (latencies h) (orders h) (acks h) (run h) := by
  induction h using List.reverseRecOn with
  | nil => exact ⟨rfl, rfl, rfl, rfl⟩
  | append_singleton h e ih =>
    obtain ⟨hhealth, hlatency, horders, hacks⟩ := ih
    rw [run_snoc, healths_snoc, latencies_snoc, orders_snoc, acks_snoc]
    cases e with
    | order event =>
      refine ⟨?_, ?_, ?_, ?_⟩
      · rwa [TelemetryEvent.healths, List.append_nil]
      · rwa [TelemetryEvent.latencies, List.append_nil]
      · change ((event, _) :: (run h).recentOrders).take 20 = _
        rw [rowAfter_onOrder_symbol, (run_describes h).rowOf_eq, horders]
        exact recent_snoc (orders h) event
      · rwa [TelemetryEvent.acks, List.append_nil]
    | ack event =>
      refine ⟨?_, ?_, ?_, ?_⟩
      · rwa [TelemetryEvent.healths, List.append_nil]
      · rwa [TelemetryEvent.latencies, List.append_nil]
      · rwa [TelemetryEvent.orders, List.append_nil]
      · change (event :: (run h).recentAcks).take 20 = _
        rw [hacks, take_cons_take, TelemetryEvent.acks, List.reverse_append]
        rfl
    | health event =>
      refine ⟨?_, ?_, ?_, ?_⟩
      · rw [TelemetryEvent.healths, List.getLast?_concat]
        rfl
      · rwa [TelemetryEvent.latencies, List.append_nil]
      · rwa [TelemetryEvent.orders, List.append_nil]
      · rwa [TelemetryEvent.acks, List.append_nil]
    | latStats event =>
      refine ⟨?_, ?_, ?_, ?_⟩
      · rwa [TelemetryEvent.healths, List.append_nil]
      · rw [TelemetryEvent.latencies, List.getLast?_concat]
        rfl
      · rwa [TelemetryEvent.orders, List.append_nil]
      · rwa [TelemetryEvent.acks, List.append_nil]
    | mmStats ts symbols =>
      rw [handleTelemetryEvent, onMmStats_frame, TelemetryEvent.healths, TelemetryEvent.latencies,
        TelemetryEvent.orders, TelemetryEvent.acks, List.append_nil, List.append_nil,
        List.append_nil, List.append_nil]
      exact ⟨hhealth, hlatency, horders, hacks⟩
    | feed | other =>
      rw [TelemetryEvent.healths, TelemetryEvent.latencies, TelemetryEvent.orders,
        TelemetryEvent.acks, List.append_nil, List.append_nil, List.append_nil, List.append_nil]
      exact ⟨hhealth, hlatency, horders, hacks⟩

section Rows
variable {es : List OrderEvent} {ms : List MmStats} {ls : List ℕ} {s : State}

theorem Describes.mem_entries (h : Describes es ms ls s) {locate : ℕ} {row : SymbolRow} :
    (locate, row) ∈ s.symbols.entries ↔ locate ∈ ls ∧ row = rowAfter locate es := by
  rw [← InsertionMap.get?_eq_some_iff, h.symbols]
  split
  · next hin => simp [hin, eq_comm]
  · next hnot => simp [hnot]

theorem Describes.keys (h : Describes es ms ls s) :
    s.symbols.entries.map (fun e => e.2.locate) = s.symbols.entries.map Prod.fst := by
  refine List.map_congr_left fun e he => ?_
  rw [(h.mem_entries.mp he).2]
  rfl

theorem Describes.mem_rows (h : Describes es ms ls s) {row : SymbolRow} :
    row ∈ s.rows ↔ row.locate ∈ ls ∧ row = rowAfter row.locate es := by
  rw [State.rows, List.mem_insertionSort, List.mem_map]
  constructor
  · rintro ⟨⟨locate, row⟩, he, rfl⟩
    obtain ⟨hin, hrow⟩ := h.mem_entries.mp he
    have hlocate : row.locate = locate := by
      rw [hrow]
      rfl
    dsimp only
    rw [hlocate]
    exact ⟨hin, hrow⟩
  · intro hrow
    exact ⟨(row.locate, row), h.mem_entries.mpr hrow, rfl⟩

theorem Describes.rows_increasing (h : Describes es ms ls s) :
    s.rows.Pairwise fun a b => a.locate < b.locate := by
  have hperm : s.rows.Perm (s.symbols.entries.map Prod.snd) := List.perm_insertionSort _ _
  have hnodup : (s.rows.map SymbolRow.locate).Nodup := by
    refine (hperm.map SymbolRow.locate).nodup_iff.mpr ?_
    rw [List.map_map]
    exact h.keys ▸ s.symbols.nodup
  have hsorted : s.rows.Pairwise fun a b => a.locate ≤ b.locate :=
    List.pairwise_insertionSort _ _
  refine (hsorted.and (List.pairwise_map.mp hnodup)).imp ?_
  rintro a b ⟨hle, hne⟩
  omega

theorem Describes.sum_rows {M : Type*} [AddCommMonoid M] (h : Describes es ms ls s)
    (f : SymbolRow → M) : (s.rows.map f).sum = ∑ l ∈ ls.toFinset, f (rowAfter l es) := by
  have hperm : s.rows.Perm (s.symbols.entries.map Prod.snd) := List.perm_insertionSort _ _
  have hkeys : (s.symbols.entries.map Prod.fst).toFinset = ls.toFinset := by
    ext l
    rw [List.mem_toFinset, List.mem_toFinset, List.mem_map]
    constructor
    · rintro ⟨e, he, rfl⟩
      exact (h.mem_entries.mp he).1
    · intro hl
      exact ⟨(l, rowAfter l es), h.mem_entries.mpr ⟨hl, rfl⟩, rfl⟩
  rw [(hperm.map f).sum_eq, ← hkeys, List.sum_toFinset _ s.symbols.nodup, List.map_map,
    List.map_map]
  refine congrArg List.sum (List.map_congr_left fun e he => ?_)
  rw [Function.comp_apply, Function.comp_apply, (h.mem_entries.mp he).2]

theorem Describes.sum_orders (h : Describes es ms ls s) :
    ∑ l ∈ ls.toFinset, (rowAfter l es).orders = es.length := by
  have hmem : ∀ l ∈ (es.map OrderEvent.symbolId : Multiset ℕ), l ∈ ls.toFinset := by
    intro l hl
    obtain ⟨e, he, rfl⟩ := List.mem_map.mp (Multiset.mem_coe.mp hl)
    exact List.mem_toFinset.mpr (h.named e he)
  have hsum := Multiset.sum_count_eq_card hmem
  rw [Multiset.coe_card, List.length_map] at hsum
  rw [← hsum]
  refine Finset.sum_congr rfl fun l _ => ?_
  rw [Multiset.coe_count, List.count_eq_countP, List.countP_map, List.countP_eq_length_filter]
  exact congrArg List.length (List.filter_congr fun x _ => (beq_eq_decide _ _).symm)

end Rows

section Totals

def SymbolRow.quotes (row : SymbolRow) : ℕ :=
  (if row.ourBidPx = 0 then 0 else 1) + (if row.ourAskPx = 0 then 0 else 1)

/-- A number of the last statistics of a symbol, zero if there are none. -/
def statOf {M : Type} [Zero M] (f : ShardStats → M) (mm : Option MmStats) : M :=
  (mm.map fun m => f m.stats).getD 0

/-- The sums over the symbols named. -/
def totalsAfter (h : List TelemetryEvent) : Totals where
  activeQuotes := ∑ l ∈ (named h).toFinset, (rowAfter l (orders h)).quotes
  orders := (orders h).length
  realizedPnlTicks := ∑ l ∈ (named h).toFinset,
    statOf (fun m => m.realizedPnlTicks.toInt) (statsAfter l (statistics h))
  unrealizedPnlTicks := ∑ l ∈ (named h).toFinset,
    statOf (fun m => m.unrealizedPnlTicks.toInt) (statsAfter l (statistics h))
  fills := ∑ l ∈ (named h).toFinset,
    statOf (fun m => m.totalFills.toNat) (statsAfter l (statistics h))

theorem Totals.add_eq (mmStats : InsertionMap ℕ MmStats) (acc : Totals) (row : SymbolRow) :
    Totals.add mmStats acc row =
      ⟨acc.activeQuotes + row.quotes, acc.orders + row.orders,
        acc.realizedPnlTicks +
          statOf (fun m => m.realizedPnlTicks.toInt) (mmStats.get? row.locate),
        acc.unrealizedPnlTicks +
          statOf (fun m => m.unrealizedPnlTicks.toInt) (mmStats.get? row.locate),
        acc.fills + statOf (fun m => m.totalFills.toNat) (mmStats.get? row.locate)⟩ := by
  unfold Totals.add SymbolRow.quotes statOf
  cases mmStats.get? row.locate with
  | none => simp [Nat.add_assoc]
  | some mm => simp [Nat.add_assoc]

theorem foldl_add (mmStats : InsertionMap ℕ MmStats) (rows : List SymbolRow) (acc : Totals) :
    rows.foldl (Totals.add mmStats) acc =
      ⟨acc.activeQuotes + (rows.map SymbolRow.quotes).sum,
        acc.orders + (rows.map SymbolRow.orders).sum,
        acc.realizedPnlTicks + (rows.map fun row =>
          statOf (fun m => m.realizedPnlTicks.toInt) (mmStats.get? row.locate)).sum,
        acc.unrealizedPnlTicks + (rows.map fun row =>
          statOf (fun m => m.unrealizedPnlTicks.toInt) (mmStats.get? row.locate)).sum,
        acc.fills + (rows.map fun row =>
          statOf (fun m => m.totalFills.toNat) (mmStats.get? row.locate)).sum⟩ := by
  induction rows generalizing acc with
  | nil => simp
  | cons row rows ih =>
    rw [List.foldl_cons, ih, Totals.add_eq]
    simp only [List.map_cons, List.sum_cons, add_assoc]

theorem totals_eq {h : List TelemetryEvent} {s : State}
    (hd : Describes (orders h) (statistics h) (named h) s) :
    s.rows.foldl (Totals.add s.mmStats) ⟨0, 0, 0, 0, 0⟩ = totalsAfter h := by
  have hstat : ∀ {M : Type} [AddCommMonoid M] (f : ShardStats → M),
      (s.rows.map fun row => statOf f (s.mmStats.get? row.locate)).sum =
        ∑ l ∈ (named h).toFinset, statOf f (statsAfter l (statistics h)) := by
    intro M _ f
    rw [hd.sum_rows]
    refine Finset.sum_congr rfl fun l _ => ?_
    rw [hd.mmStats]
    rfl
  rw [foldl_add, hd.sum_rows, hd.sum_rows, hd.sum_orders, hstat, hstat, hstat]
  simp only [zero_add, totalsAfter]

end Totals

/-- What a snapshot says about the events before it. -/
structure Shows (h : List TelemetryEvent) (snap : Snapshot) : Prop where
  /-- One row for each symbol named, in the order of the locates. -/
  increasing : snap.symbols.Pairwise fun a b => a.1.locate < b.1.locate
  symbols : ∀ row mm, (row, mm) ∈ snap.symbols ↔ row.locate ∈ named h ∧
    row = rowAfter row.locate (orders h) ∧ mm = statsAfter row.locate (statistics h)
  totals : snap.totals = totalsAfter h
  feed : snap.feed = feedAfter h
  latest : snap.latestHealth = (healths h).getLast? ∧ snap.latency = (latencies h).getLast?
  recentOrders : snap.recentOrders =
    ((orders h).reverse.take 20).map fun e => (e, symbolName e.symbolId)
  recentAcks : snap.recentAcks = (acks h).reverse.take 20

theorem shows_snapshot {h : List TelemetryEvent} {s : State} {kill : Bool}
    (hs : s = { run h with requestedGlobalKill := kill }) : Shows h (snapshotState s) := by
  subst hs
  have hd : Describes (orders h) (statistics h) (named h)
      { run h with requestedGlobalKill := kill } := by
    have hrun := run_describes h
    exact ⟨hrun.symbols, hrun.mmStats, hrun.named⟩
  have hlatest := run_latest h
  refine ⟨?_, ?_, ?_, run_feed h, ⟨hlatest.latestHealth, hlatest.latency⟩, hlatest.recentOrders,
    hlatest.recentAcks⟩
  · exact List.pairwise_map.mpr hd.rows_increasing
  · intro row mm
    rw [snapshotState, List.mem_map]
    constructor
    · rintro ⟨r, hr, heq⟩
      obtain ⟨rfl, rfl⟩ := Prod.mk.inj heq
      obtain ⟨hin, hrow⟩ := hd.mem_rows.mp hr
      exact ⟨hin, hrow, hd.mmStats r.locate⟩
    · rintro ⟨hin, hrow, rfl⟩
      exact ⟨row, hd.mem_rows.mpr ⟨hin, hrow⟩, by rw [hd.mmStats]⟩
  · exact totals_eq hd

end TradingPipeline.Dashboard
