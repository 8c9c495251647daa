import TradingPipeline.Lib.BoundedFrames
import TradingPipeline.Observer.Streams

/-! # The observer and the sizes of the segments

A captured segment may be larger than a `StreamBuffer`. The observer counts every record of
every stream exactly if each segment fits the buffer beside the unfinished record in front of
it; one that does not costs at least one record.
-/
namespace TradingPipeline.Observer
open Lib OrderSession

section Reports

/-- The counter and the events once the orders were observed. -/
def OrderReports.after (r : OrderReports) (os : List WireOrder) : OrderReports :=
  ⟨r.orders + .ofNat os.length, r.events ++ os⟩

/-- The counters and the events once the acknowledgements were observed. -/
def AckReports.after (r : AckReports) (as : List WireAck) : AckReports where
  acks := r.acks + .ofNat as.length
  ackOk := r.ackOk + .ofNat (as.countP (·.flag = AckFlag.ok.code))
  ackBadCsum := r.ackBadCsum + .ofNat (as.countP (·.flag = AckFlag.badCsum.code))
  ackSeqGap := r.ackSeqGap + .ofNat (as.countP (·.flag = AckFlag.seqGap.code))
  lastAckSeq := (as.getLast?.map (·.seq)).getD r.lastAckSeq
  events := r.events ++ as

theorem OrderReports.length_report (r : OrderReports) (frame : List UInt8) :
    (r.report frame).events.length = r.events.length + 1 := List.length_append

theorem AckReports.length_report (r : AckReports) (frame : List UInt8) :
    (r.report frame).events.length = r.events.length + 1 := List.length_append

theorem OrderReports.foldl_report (r : OrderReports) (os : List WireOrder) :
    (os.map WireOrder.bytes).foldl OrderReports.report r = r.after os := by
  induction os using List.reverseRecOn with
  | nil => simp [after]
  | append_singleton os w ih =>
    simp only [List.map_append, List.map_singleton, List.foldl_append, List.foldl_cons,
      List.foldl_nil, ih, report, after, WireOrder.ofBytes_bytes, List.length_append,
      List.length_singleton, UInt64.ofNat_add, List.append_assoc, UInt64.add_assoc]
    rfl

theorem ofNat_countP_append (c : UInt64) (p : WireAck → Bool) (as : List WireAck) (a : WireAck) :
    (if p a then c + .ofNat (as.countP p) + 1 else c + .ofNat (as.countP p)) =
      c + .ofNat ((as ++ [a]).countP p) := by
  rw [List.countP_append, List.countP_singleton, UInt64.ofNat_add, ← UInt64.add_assoc]
  split
  · rfl
  · exact (UInt64.add_zero _).symm

theorem AckReports.foldl_report (r : AckReports) (as : List WireAck) :
    (as.map WireAck.bytes).foldl AckReports.report r = r.after as := by
  induction as using List.reverseRecOn with
  | nil => simp [after]
  | append_singleton as a ih =>
    rw [List.map_append, List.map_singleton, List.foldl_append, List.foldl_cons, List.foldl_nil, ih]
    simp only [report, after, WireAck.ofBytes_bytes, ← ofNat_countP_append, decide_eq_true_eq,
      List.length_append, List.length_singleton, UInt64.ofNat_add, List.append_assoc,
      UInt64.add_assoc, List.getLast?_append, List.getLast?_singleton, Option.some_or,
      Option.map_some, Option.getD_some]
    rfl

end Reports

section Directions
variable {g : TcpSegment} {gs : List TcpSegment} {o : WireObserver}

/-- A segment in the middle of a connection, of any size. -/
structure TcpSegment.Bare (g : TcpSegment) : Prop where
  syn : g.syn = false
  fin : g.fin = false
  rst : g.rst = false

theorem TcpSegment.Bare.flags (hg : g.Bare) : (g.syn || g.fin || g.rst) = false := by
  rw [hg.syn, hg.fin, hg.rst]
  rfl

theorem StreamBuffer.appendBytes_eq_arrived {s : StreamBuffer} {data : List UInt8}
    (hne : data ≠ []) : (s.appendBytes data).bytes = arrived streamCapacity s.bytes data := by
  by_cases hover : streamCapacity < s.bytes.length + data.length
  · rw [appendBytes, if_neg hne, dif_pos hover, arrived, if_pos hover]
  · rw [appendBytes, if_neg hne, dif_neg hover, arrived, if_neg hover]

theorem onSegment_orders (hg : g.Bare) (o : WireObserver) :
    ((o.onSegment g).orders, (o.onSegment g).orderStream.bytes) =
      scanArrival wireOrderSize streamCapacity orderLike OrderReports.report
        (o.orders, o.orderStream.bytes) g.orderBytes := by
  simp only [WireObserver.onSegment, hg.flags, Bool.false_and, Bool.false_eq_true, if_false,
    scanArrival, TcpSegment.orderBytes]
  by_cases hnil : g.payload = []
  · simp only [hnil, ite_self, if_true]
  · by_cases hdest : g.dest = orderPort
    · simp only [hnil, hdest, if_true, if_false, WireObserver.drainOrders,
        StreamBuffer.appendBytes_eq_arrived hnil]
    · by_cases hsource : g.source = orderPort
      · simp only [hnil, hdest, hsource, if_true, if_false, WireObserver.drainAcks]
      · simp only [hnil, hdest, hsource, if_true, if_false]

theorem onSegment_acks (hg : g.Bare) (o : WireObserver) :
    ((o.onSegment g).acks, (o.onSegment g).ackStream.bytes) =
      scanArrival wireAckSize streamCapacity ackLike AckReports.report
        (o.acks, o.ackStream.bytes) g.ackBytes := by
  simp only [WireObserver.onSegment, hg.flags, Bool.false_and, Bool.false_eq_true, if_false,
    scanArrival, TcpSegment.ackBytes]
  by_cases hnil : g.payload = []
  · simp only [hnil, ite_self, if_true]
  · by_cases hdest : g.dest = orderPort
    · simp only [hnil, hdest, if_true, if_false, WireObserver.drainOrders]
    · by_cases hsource : g.source = orderPort
      · simp only [hnil, hdest, hsource, if_true, if_false, WireObserver.drainAcks,
          StreamBuffer.appendBytes_eq_arrived hnil]
      · simp only [hnil, hdest, hsource, if_true, if_false]

theorem foldl_onSegment_orders (hgs : ∀ g ∈ gs, g.Bare) (o : WireObserver) :
    ((gs.foldl WireObserver.onSegment o).orders,
      (gs.foldl WireObserver.onSegment o).orderStream.bytes) =
      (gs.map TcpSegment.orderBytes).foldl
        (scanArrival wireOrderSize streamCapacity orderLike OrderReports.report)
        (o.orders, o.orderStream.bytes) := by
  induction gs generalizing o with
  | nil => rfl
  | cons g gs ih =>
    obtain ⟨hg, hgs⟩ := List.forall_mem_cons.mp hgs
    rw [List.foldl_cons, List.map_cons, List.foldl_cons, ← onSegment_orders hg]
    exact ih hgs _

theorem foldl_onSegment_acks (hgs : ∀ g ∈ gs, g.Bare) (o : WireObserver) :
    ((gs.foldl WireObserver.onSegment o).acks,
      (gs.foldl WireObserver.onSegment o).ackStream.bytes) =
      (gs.map TcpSegment.ackBytes).foldl
        (scanArrival wireAckSize streamCapacity ackLike AckReports.report)
        (o.acks, o.ackStream.bytes) := by
  induction gs generalizing o with
  | nil => rfl
  | cons g gs ih =>
    obtain ⟨hg, hgs⟩ := List.forall_mem_cons.mp hgs
    rw [List.foldl_cons, List.map_cons, List.foldl_cons, ← onSegment_acks hg]
    exact ih hgs _

end Directions

section Exact

/-- Whenever orders arrive in segments with these numbers of bytes, from a cleared stream on, the
reports after each segment are those of the orders completed so far. -/
def OrdersExact (sizes : List ℕ) : Prop :=
  ∀ (o : WireObserver) (os : List WireOrder) (gs : List TcpSegment), o.orderStream.bytes = [] →
    (∀ w ∈ os, orderLike w.bytes = true) → (∀ g ∈ gs, g.Bare) →
    gs.map (fun g => g.orderBytes.length) = sizes →
    gs.flatMap TcpSegment.orderBytes <+: os.flatMap WireOrder.bytes →
    ∀ front, front <+: gs → (front.foldl WireObserver.onSegment o).orders =
      o.orders.after (os.take ((front.flatMap TcpSegment.orderBytes).length / wireOrderSize))

/-- The same for the acknowledgements. -/
def AcksExact (sizes : List ℕ) : Prop :=
  ∀ (o : WireObserver) (as : List WireAck) (gs : List TcpSegment), o.ackStream.bytes = [] →
    (∀ a ∈ as, a.msgType = wireMsgAck) → (∀ g ∈ gs, g.Bare) →
    gs.map (fun g => g.ackBytes.length) = sizes →
    gs.flatMap TcpSegment.ackBytes <+: as.flatMap WireAck.bytes →
    ∀ front, front <+: gs → (front.foldl WireObserver.onSegment o).acks =
      o.acks.after (as.take ((front.flatMap TcpSegment.ackBytes).length / wireAckSize))

/-- An order in which no other byte looks like the type of one. -/
def plainOrder : WireOrder := ⟨wireMsgNew, 0, 0, 0, 0, 0, 0, 0, 0, 0⟩

def plainAck : WireAck := ⟨wireMsgAck, 0, 0, 0, 0, 0⟩

def orderSegment (payload : List UInt8) : TcpSegment :=
  ⟨49152, orderPort, false, false, false, payload⟩

def ackSegment (payload : List UInt8) : TcpSegment :=
  ⟨orderPort, 49152, false, false, false, payload⟩

theorem orderSegment_bytes (payload : List UInt8) : (orderSegment payload).orderBytes = payload :=
  if_pos rfl

theorem ackSegment_bytes (payload : List UInt8) : (ackSegment payload).ackBytes = payload := rfl

theorem orderSegments_bare (ps : List (List UInt8)) : ∀ g ∈ ps.map orderSegment, g.Bare := by
  intro g hg
  obtain ⟨p, -, rfl⟩ := List.mem_map.mp hg
  exact ⟨rfl, rfl, rfl⟩

theorem ackSegments_bare (ps : List (List UInt8)) : ∀ g ∈ ps.map ackSegment, g.Bare := by
  intro g hg
  obtain ⟨p, -, rfl⟩ := List.mem_map.mp hg
  exact ⟨rfl, rfl, rfl⟩

theorem plainOrder_bytes : plainOrder.bytes = marker wireMsgNew 0 35 := by decide

theorem plainAck_bytes : plainAck.bytes = marker wireMsgAck 0 23 := by decide

theorem orderLike_zero (w : List UInt8) : orderLike (0 :: w) = false := rfl

theorem ackLike_zero (w : List UInt8) : ackLike (0 :: w) = false := rfl

theorem ordersExact_iff (sizes : List ℕ) :
    OrdersExact sizes ↔ Fit wireOrderSize streamCapacity sizes := by
  constructor
  · intro h
    have hlike : orderLike (marker wireMsgNew 0 35) = true := by decide
    refine fit_of_exact_records (fun r : OrderReports => r.events.length) clearedObserver.orders
      (by decide) orderLike_zero OrderReports.length_report hlike plainOrder_bytes
      orderSegment_bytes ?_
    intro K ps hsizes hpre front hfront
    have hexact := h clearedObserver (List.replicate K plainOrder) (ps.map orderSegment) rfl
      (fun w hw => by rw [List.eq_of_mem_replicate hw]; decide) (orderSegments_bare ps)
      hsizes hpre (front.map orderSegment) (hfront.map _)
    have hfold := foldl_onSegment_orders (orderSegments_bare front) clearedObserver
    rw [← OrderReports.foldl_report] at hexact
    exact (congrArg Prod.fst hfold).symm.trans hexact
  · intro hfit o os gs hclear hos hgs hsizes hpre front hfront
    have hfold := congrArg Prod.fst
      (foldl_onSegment_orders (fun g hg => hgs g (hfront.subset hg)) o)
    rw [hclear] at hfold
    refine hfold.trans ?_
    rw [← OrderReports.foldl_report]
    apply exact_records_of_fit (by decide) WireOrder.bytes_length hos
    · exact hfit.of_prefix (hsizes ▸ hfront.map _)
    · exact (hfront.flatMap _).trans hpre

theorem acksExact_iff (sizes : List ℕ) :
    AcksExact sizes ↔ Fit wireAckSize streamCapacity sizes := by
  constructor
  · intro h
    have hlike : ackLike (marker wireMsgAck 0 23) = true := by decide
    refine fit_of_exact_records (fun r : AckReports => r.events.length) clearedObserver.acks
      (by decide) ackLike_zero AckReports.length_report hlike plainAck_bytes ackSegment_bytes ?_
    intro K ps hsizes hpre front hfront
    have hexact := h clearedObserver (List.replicate K plainAck) (ps.map ackSegment) rfl
      (fun a ha => by rw [List.eq_of_mem_replicate ha]; rfl) (ackSegments_bare ps)
      hsizes hpre (front.map ackSegment) (hfront.map _)
    have hfold := foldl_onSegment_acks (ackSegments_bare front) clearedObserver
    rw [← AckReports.foldl_report] at hexact
    exact (congrArg Prod.fst hfold).symm.trans hexact
  · intro hfit o as gs hclear has hgs hsizes hpre front hfront
    have hfold := congrArg Prod.fst
      (foldl_onSegment_acks (fun g hg => hgs g (hfront.subset hg)) o)
    have hok : ∀ a ∈ as, ackLike a.bytes = true := by
      intro a ha
      rw [ackLike, WireAck.ofBytes_bytes, decide_eq_true_iff]
      exact has a ha
    rw [hclear] at hfold
    refine hfold.trans ?_
    rw [← AckReports.foldl_report]
    apply exact_records_of_fit (by decide) WireAck.bytes_length hok
    · exact hfit.of_prefix (hsizes ▸ hfront.map _)
    · exact (hfront.flatMap _).trans hpre

/-- The observer is exact on every stream that is cut into segments of the given sizes exactly
if each segment fits its buffer beside the unfinished record in front of it. -/
theorem observer_exact_iff (sizes : List ℕ) :
    (OrdersExact sizes ↔ Fit wireOrderSize streamCapacity sizes) ∧
    (AcksExact sizes ↔ Fit wireAckSize streamCapacity sizes) :=
  ⟨ordersExact_iff sizes, acksExact_iff sizes⟩

theorem plainOrders_lost {K : ℕ} (hover : streamCapacity < wireOrderSize * K) :
    (clearedObserver.onSegment
      (orderSegment ((List.replicate K plainOrder).flatMap WireOrder.bytes))).orders.events.length <
      K := by
  have hmarkers : (List.replicate K plainOrder).flatMap WireOrder.bytes =
      (List.replicate K (marker wireMsgNew 0 35)).flatten := by
    rw [List.flatMap_def, List.map_replicate, plainOrder_bytes]
  have hcap : 35 + 1 ≤ streamCapacity := by decide
  have hlost := count_markers_lt (x := wireMsgNew) (fun r : OrderReports => r.events.length)
    clearedObserver.orders hcap orderLike_zero OrderReports.length_report hover
  have hfold := congrArg Prod.fst (onSegment_orders
    (g := orderSegment (List.replicate K (marker wireMsgNew 0 35)).flatten) ⟨rfl, rfl, rfl⟩
    clearedObserver)
  rw [orderSegment_bytes] at hfold
  rw [hmarkers]
  refine lt_of_eq_of_lt (congrArg (fun r : OrderReports => r.events.length) hfold) ?_
  rw [show clearedObserver.orders.events.length + K = K from Nat.zero_add K] at hlost
  exact hlost

/-- 228 orders in one segment, which is sixteen bytes longer than the buffer: the first of them
is lost. -/
theorem large_segment_loses_order :
    ((List.replicate 228 plainOrder).flatMap WireOrder.bytes).length = 8208 ∧
    (clearedObserver.onSegment (orderSegment
      ((List.replicate 228 plainOrder).flatMap WireOrder.bytes))).orders.events.length < 228 ∧
    ¬OrdersExact [8208] := by
  refine ⟨?_, plainOrders_lost (by decide), ?_⟩
  · rw [List.flatMap_def, length_flatten_of_frames (orderFrames _), List.length_map,
      List.length_replicate, wireOrderSize]
  · rw [ordersExact_iff]
    intro hfit
    exact absurd (hfit [] 8208 List.prefix_rfl) (by decide)

end Exact

end TradingPipeline.Observer
