import TradingPipeline.Order.Acks

/-! # The readers of the order session's byte streams

The wire observer follows both directions of the session in TCP segments. Unlike the two ends it
looks for the next record byte by byte, and it drops what it holds when a segment does
not fit its buffer. On a stream of records none of this shows: all readers see the records of
the stream, whichever way it was cut.
-/
namespace TradingPipeline.Observer
open Lib OrderSession

def orderPort : UInt16 := 5001
def wireMsgFlush : UInt8 := 70

/-- The size of the array in a `StreamBuffer`. -/
def streamCapacity : ℕ := 8192

/-- The first `used` bytes of a `StreamBuffer`. -/
structure StreamBuffer where
  bytes : List UInt8
  fits : bytes.length ≤ streamCapacity

def StreamBuffer.empty : StreamBuffer := ⟨[], Nat.zero_le _⟩

/-- `append_bytes`. What does not fit behind the bytes held replaces them, and of more than
the whole buffer holds only the end is kept. -/
def StreamBuffer.appendBytes (s : StreamBuffer) (data : List UInt8) : StreamBuffer :=
  if data = [] then s
  else if h : streamCapacity < s.bytes.length + data.length then
    ⟨data.drop (data.length - streamCapacity), by rw [List.length_drop]; omega⟩
  else ⟨s.bytes ++ data, by rw [List.length_append]; omega⟩

/-- The order events that were emitted, and their counter. -/
structure OrderReports where
  orders : UInt64
  events : List WireOrder
  deriving DecidableEq, Repr

def OrderReports.report (r : OrderReports) (frame : List UInt8) : OrderReports :=
  ⟨r.orders + 1, r.events ++ [WireOrder.ofBytes frame]⟩

/-- The ACK events that were emitted, and the counters that go with them. -/
structure AckReports where
  acks : UInt64
  ackOk : UInt64
  ackBadCsum : UInt64
  ackSeqGap : UInt64
  lastAckSeq : UInt64
  events : List WireAck
  deriving DecidableEq, Repr

def AckReports.report (r : AckReports) (frame : List UInt8) : AckReports :=
  let ack := WireAck.ofBytes frame
  { acks := r.acks + 1
    lastAckSeq := ack.seq
    ackOk := if ack.flag = AckFlag.ok.code then r.ackOk + 1 else r.ackOk
    ackBadCsum := if ack.flag = AckFlag.badCsum.code then r.ackBadCsum + 1 else r.ackBadCsum
    ackSeqGap := if ack.flag = AckFlag.seqGap.code then r.ackSeqGap + 1 else r.ackSeqGap
    events := r.events ++ [ack] }

def orderLike (frame : List UInt8) : Bool :=
  let t := (WireOrder.ofBytes frame).msgType
  t = wireMsgNew ∨ t = wireMsgCancel ∨ t = wireMsgFlush

def ackLike (frame : List UInt8) : Bool := (WireAck.ofBytes frame).msgType = wireMsgAck

/-- The two streams of the session and what was reported from them. -/
structure WireObserver where
  orderStream : StreamBuffer
  ackStream : StreamBuffer
  orders : OrderReports
  acks : AckReports

def WireObserver.drainOrders (o : WireObserver) : WireObserver :=
  let s := o.orderStream
  let r := scanFrames wireOrderSize orderLike OrderReports.report s.bytes.length o.orders s.bytes
  { o with
    orders := r.1
    orderStream := ⟨r.2, (scanFrames_length_le _ _ _).trans s.fits⟩ }

def WireObserver.drainAcks (o : WireObserver) : WireObserver :=
  let s := o.ackStream
  let r := scanFrames wireAckSize ackLike AckReports.report s.bytes.length o.acks s.bytes
  { o with
    acks := r.1
    ackStream := ⟨r.2, (scanFrames_length_le _ _ _).trans s.fits⟩ }

structure TcpSegment where
  source : UInt16
  dest : UInt16
  syn : Bool
  fin : Bool
  rst : Bool
  payload : List UInt8

/-- The TCP branch of the observer's loop. -/
def WireObserver.onSegment (o : WireObserver) (g : TcpSegment) : WireObserver :=
  let o := if (g.syn || g.fin || g.rst) && (g.source == orderPort || g.dest == orderPort) then
      { o with orderStream := .empty, ackStream := .empty }
    else o
  if g.payload = [] then o
  else if g.dest = orderPort then
    { o with orderStream := o.orderStream.appendBytes g.payload }.drainOrders
  else if g.source = orderPort then
    { o with ackStream := o.ackStream.appendBytes g.payload }.drainAcks
  else o

section Segments
variable {o o₀ : WireObserver} {g : TcpSegment} {gs : List TcpSegment}

def TcpSegment.orderBytes (g : TcpSegment) : List UInt8 :=
  if g.dest = orderPort then g.payload else []

def TcpSegment.ackBytes (g : TcpSegment) : List UInt8 :=
  if g.dest = orderPort then [] else if g.source = orderPort then g.payload else []

/-- A segment in the middle of a connection, short enough for the buffer beside a part of a
record. -/
structure TcpSegment.Plain (g : TcpSegment) : Prop where
  syn : g.syn = false
  fin : g.fin = false
  rst : g.rst = false
  short : g.payload.length ≤ streamCapacity - 35

/-- From `o₀` on, the observer has read `os` in one direction and `as` in the other. -/
structure WireObserver.Has (o₀ : WireObserver) (os as : List UInt8) (o : WireObserver) : Prop where
  orders : HasRead wireOrderSize OrderReports.report o₀.orders os (o.orders, o.orderStream.bytes)
  acks : HasRead wireAckSize AckReports.report o₀.acks as (o.acks, o.ackStream.bytes)

theorem StreamBuffer.appendBytes_bytes {s : StreamBuffer} {data : List UInt8}
    (hne : data ≠ []) (h : s.bytes.length + data.length ≤ streamCapacity) :
    (s.appendBytes data).bytes = s.bytes ++ data := by
  rw [appendBytes, if_neg hne, dif_neg (Nat.not_lt.mpr h)]

theorem WireObserver.Has.readOrders {os as p : List UInt8} (h : o₀.Has os as o) (hne : p ≠ [])
    (hp : p.length ≤ streamCapacity - 35)
    (hok : ∀ x ∈ division wireOrderSize (os ++ p), orderLike x = true) :
    o₀.Has (os ++ p) as { o with orderStream := o.orderStream.appendBytes p }.drainOrders := by
  have hroom : o.orderStream.bytes.length + p.length ≤ streamCapacity := by
    have hlt := h.orders.length_lt
    simp only [wireOrderSize, streamCapacity] at hlt hp ⊢
    omega
  refine ⟨?_, h.acks⟩
  simp only [drainOrders, StreamBuffer.appendBytes_bytes hne hroom]
  exact h.orders.scan (by decide) hok le_rfl

theorem WireObserver.Has.readAcks {os as p : List UInt8} (h : o₀.Has os as o) (hne : p ≠ [])
    (hp : p.length ≤ streamCapacity - 35)
    (hok : ∀ x ∈ division wireAckSize (as ++ p), ackLike x = true) :
    o₀.Has os (as ++ p) { o with ackStream := o.ackStream.appendBytes p }.drainAcks := by
  have hroom : o.ackStream.bytes.length + p.length ≤ streamCapacity := by
    have hlt := h.acks.length_lt
    simp only [wireAckSize, streamCapacity] at hlt hp ⊢
    omega
  refine ⟨h.orders, ?_⟩
  simp only [drainAcks, StreamBuffer.appendBytes_bytes hne hroom]
  exact h.acks.scan (by decide) hok le_rfl

theorem WireObserver.Has.onSegment {os as : List UInt8} (h : o₀.Has os as o) (hg : g.Plain)
    (horders : ∀ x ∈ division wireOrderSize (os ++ g.orderBytes), orderLike x = true)
    (hacks : ∀ x ∈ division wireAckSize (as ++ g.ackBytes), ackLike x = true) :
    o₀.Has (os ++ g.orderBytes) (as ++ g.ackBytes) (o.onSegment g) := by
  have hflags : (g.syn || g.fin || g.rst) = false := by
    rw [hg.syn, hg.fin, hg.rst]
    rfl
  simp only [WireObserver.onSegment, hflags, Bool.false_and, Bool.false_eq_true, if_false]
  by_cases hnil : g.payload = []
  · simp only [TcpSegment.orderBytes, TcpSegment.ackBytes, hnil, ite_self, List.append_nil, if_true]
    exact h
  by_cases hdest : g.dest = orderPort
  · simp only [TcpSegment.orderBytes, TcpSegment.ackBytes, hnil, hdest, List.append_nil, if_true,
      if_false] at horders ⊢
    exact h.readOrders hnil hg.short horders
  by_cases hsource : g.source = orderPort
  · simp only [TcpSegment.orderBytes, TcpSegment.ackBytes, hnil, hdest, hsource, List.append_nil,
      if_true, if_false] at hacks ⊢
    exact h.readAcks hnil hg.short hacks
  · simp only [TcpSegment.orderBytes, TcpSegment.ackBytes, hnil, hdest, hsource, List.append_nil,
      if_false]
    exact h

/-- The observer over any number of segments of both directions. -/
theorem WireObserver.Has.segments (h : o₀.Has [] [] o₀) (hgs : ∀ g ∈ gs, g.Plain)
    (horders : ∀ x ∈ division wireOrderSize (gs.flatMap TcpSegment.orderBytes), orderLike x = true)
    (hacks : ∀ x ∈ division wireAckSize (gs.flatMap TcpSegment.ackBytes), ackLike x = true) :
    o₀.Has (gs.flatMap TcpSegment.orderBytes) (gs.flatMap TcpSegment.ackBytes)
      (gs.foldl WireObserver.onSegment o₀) := by
  induction gs using List.reverseRecOn with
  | nil => exact h
  | append_singleton gs g ih =>
    simp only [List.flatMap_append, List.flatMap_singleton] at horders hacks ⊢
    have hprev := ih (fun g hg => hgs g (List.mem_append_left _ hg))
      (fun x hx => horders x ((division_mono (List.prefix_append _ _)).subset hx))
      (fun x hx => hacks x ((division_mono (List.prefix_append _ _)).subset hx))
    rw [List.foldl_append]
    exact hprev.onSegment (hgs g (by simp)) horders hacks

end Segments

section Records

theorem OrderReports.foldl_events (r : OrderReports) (os : List WireOrder) :
    ((os.map WireOrder.bytes).foldl OrderReports.report r).events = r.events ++ os := by
  have hreport (r : OrderReports) (frame : List UInt8) :
      (r.report frame).events = r.events ++ [WireOrder.ofBytes frame] := rfl
  rw [foldl_log hreport]
  simp [Function.comp_def, WireOrder.ofBytes_bytes]

theorem AckReports.foldl_events (r : AckReports) (as : List WireAck) :
    ((as.map WireAck.bytes).foldl AckReports.report r).events = r.events ++ as := by
  have hreport (r : AckReports) (frame : List UInt8) :
      (r.report frame).events = r.events ++ [WireAck.ofBytes frame] := rfl
  rw [foldl_log hreport]
  simp [Function.comp_def, WireAck.ofBytes_bytes]

theorem orderFrames (os : List WireOrder) :
    ∀ y ∈ os.map WireOrder.bytes, y.length = wireOrderSize := by simp

theorem ackFrames (as : List WireAck) :
    ∀ y ∈ as.map WireAck.bytes, y.length = wireAckSize := by simp

end Records

section Decoders

/-- One turn of the outer loop of `handle_client`, over the variables of the inner loop and the
bytes carried over. -/
def handleChunk (r : Client × List UInt8) (chunk : List UInt8) : Client × List UInt8 :=
  readFrames wireOrderSize Client.handleFrame (r.2 ++ chunk).length r.1 (r.2 ++ chunk)

/-- `handle_client` after it has received `chunks`. -/
def handleClient (chunks : List (List UInt8)) : Client × List UInt8 :=
  chunks.foldl handleChunk (.start, [])

theorem handleClient_has (chunks : List (List UInt8)) :
    HasRead wireOrderSize Client.handleFrame .start chunks.flatten (handleClient chunks) := by
  induction chunks using List.reverseRecOn with
  | nil => exact HasRead.start (by decide)
  | append_singleton chunks chunk ih =>
    rw [handleClient, List.foldl_append, List.flatten_append, List.flatten_singleton]
    exact HasRead.read (by decide) ih le_rfl

/-- However a stream of records is cut: `handle_client` processes these orders in order and its
buffer has room for every read; `drain_acks` processes these acknowledgements in order; and the
observer, which starts with cleared streams, reports the orders and acknowledgements of both
directions in order, each once. -/
theorem decoders_independent_of_chunking :
    (∀ (os : List WireOrder) (chunks : List (List UInt8)),
      chunks.flatten = os.flatMap WireOrder.bytes →
      (∀ chunk ∈ chunks, chunk ≠ [] ∧ chunk.length ≤ bufSize) →
      handleClient chunks = ((os.map WireOrder.bytes).foldl Client.handleFrame .start, []) ∧
      ∀ pre chunk, pre ++ [chunk] <+: chunks →
        (handleClient pre).2.length < wireOrderSize ∧
        (handleClient pre).2.length + chunk.length ≤ bufSize + wireOrderSize) ∧
    (∀ (as : List WireAck) (chunks : List (List UInt8)),
      chunks.flatten = as.flatMap WireAck.bytes → (∀ chunk ∈ chunks, chunk ≠ []) →
      chunks.foldl Drain.drainAcks .start =
        ⟨(as.map WireAck.bytes).foldl AckCounts.handleRecord Drain.start.counts, []⟩ ∧
      (chunks.foldl Drain.drainAcks .start).counts.records = as ∧
      ∀ pre, pre <+: chunks → (pre.foldl Drain.drainAcks .start).carry.length < wireAckSize) ∧
    ∀ (o : WireObserver) (os : List WireOrder) (as : List WireAck) (gs : List TcpSegment),
      o.orderStream.bytes = [] → o.ackStream.bytes = [] → (∀ g ∈ gs, g.Plain) →
      gs.flatMap TcpSegment.orderBytes = os.flatMap WireOrder.bytes →
      gs.flatMap TcpSegment.ackBytes = as.flatMap WireAck.bytes →
      (∀ w ∈ os, orderLike w.bytes = true) → (∀ a ∈ as, a.msgType = wireMsgAck) →
      (gs.foldl WireObserver.onSegment o).orders.events = o.orders.events ++ os ∧
      (gs.foldl WireObserver.onSegment o).acks.events = o.acks.events ++ as := by
  refine ⟨?_, ?_, ?_⟩
  · intro os chunks hflat hchunks
    refine ⟨?_, fun pre chunk hpre => ?_⟩
    · have h := handleClient_has chunks
      rw [hflat, List.flatMap_def] at h
      exact h.of_flatten (by decide) (orderFrames os)
    · have hlt := (handleClient_has pre).length_lt
      have hle := (hchunks chunk (hpre.subset (by simp))).2
      exact ⟨hlt, by omega⟩
  · intro as chunks hflat _
    have h := Drain.has_start.chunks chunks
    rw [List.nil_append, hflat, List.flatMap_def] at h
    have heq := HasRead.of_flatten (by decide) (ackFrames as) h
    refine ⟨?_, ?_, fun pre _ => (Drain.has_start.chunks pre).carry_lt⟩
    · exact congrArg (fun r : AckCounts × List UInt8 => (⟨r.1, r.2⟩ : Drain)) heq
    · have hrecords := h.records
      rw [division_flatten (by decide) (ackFrames as), List.map_map] at hrecords
      rw [hrecords]
      simp [Drain.start, Function.comp_def, WireAck.ofBytes_bytes]
  · intro o os as gs ho ha hgs hos has horders hacks
    have hstart : o.Has [] [] o := by
      refine ⟨?_, ?_⟩
      · rw [ho]
        exact HasRead.start (by decide)
      · rw [ha]
        exact HasRead.start (by decide)
    have hdivOrders :
      division wireOrderSize (os.flatMap WireOrder.bytes) = os.map WireOrder.bytes :=
      division_flatMap (by decide) WireOrder.bytes_length os
    have hdivAcks : division wireAckSize (as.flatMap WireAck.bytes) = as.map WireAck.bytes :=
      division_flatMap (by decide) WireAck.bytes_length as
    have h := hstart.segments hgs
      (by
        rw [hos, hdivOrders]
        intro x hx
        obtain ⟨w, hw, rfl⟩ := List.mem_map.mp hx
        exact horders w hw)
      (by
        rw [has, hdivAcks]
        intro x hx
        obtain ⟨a, ha, rfl⟩ := List.mem_map.mp hx
        rw [ackLike, WireAck.ofBytes_bytes, decide_eq_true_iff]
        exact hacks a ha)
    rw [hos, has] at h
    rw [HasRead.eq_division (by decide) h.orders, HasRead.eq_division (by decide) h.acks,
      hdivOrders, hdivAcks]
    exact ⟨OrderReports.foldl_events _ os, AckReports.foldl_events _ as⟩

def sampleOrders : List WireOrder :=
  [wireOrder ((OrderRing.Submission.mk 13 66 32000 100 5).order 1) 1 5,
    wireOrder ((OrderRing.Submission.mk 13 66 32000 0 6).order 2) 2 9]

def sampleAcks : List WireAck := [Ack.wire ⟨1, .ok, 7⟩, Ack.wire ⟨1, .seqGap, 8⟩]

def cutAt (n : ℕ) (bs : List UInt8) : List (List UInt8) := [bs.take n, bs.drop n]

/-- The same cuts on the wire, the two directions one after the other. -/
def sampleSegments : List TcpSegment :=
  (cutAt 50 (sampleOrders.flatMap WireOrder.bytes)).map
      (fun p => ⟨49152, orderPort, false, false, false, p⟩) ++
    (cutAt 30 (sampleAcks.flatMap WireAck.bytes)).map
      (fun p => ⟨orderPort, 49152, false, false, false, p⟩)

def clearedObserver : WireObserver := ⟨.empty, .empty, ⟨0, []⟩, ⟨0, 0, 0, 0, 0, []⟩⟩

theorem decoders_independent_of_chunking_sample :
    (handleClient (cutAt 50 (sampleOrders.flatMap WireOrder.bytes))).2 = [] ∧
    ((cutAt 30 (sampleAcks.flatMap WireAck.bytes)).foldl Drain.drainAcks .start).counts.records =
      sampleAcks ∧
    (sampleSegments.foldl WireObserver.onSegment clearedObserver).orders.events = sampleOrders ∧
    (sampleSegments.foldl WireObserver.onSegment clearedObserver).acks.events = sampleAcks := by
  obtain ⟨hclient, hdrain, hobserver⟩ := decoders_independent_of_chunking
  have horders := hclient sampleOrders (cutAt 50 (sampleOrders.flatMap WireOrder.bytes))
    (by decide +kernel) (by decide +kernel)
  have hacks := hdrain sampleAcks (cutAt 30 (sampleAcks.flatMap WireAck.bytes))
    (by decide +kernel) (by decide +kernel)
  have hplain : ∀ g ∈ sampleSegments, g.syn = false ∧ g.fin = false ∧ g.rst = false ∧
      g.payload.length ≤ streamCapacity - 35 := by decide +kernel
  have hwire := hobserver clearedObserver sampleOrders sampleAcks sampleSegments rfl rfl
    (fun g hg => ⟨(hplain g hg).1, (hplain g hg).2.1, (hplain g hg).2.2.1, (hplain g hg).2.2.2⟩)
    (by decide +kernel) (by decide +kernel) (by decide +kernel) (by decide +kernel)
  exact ⟨congrArg Prod.snd horders.1, hacks.2.1, hwire.1, hwire.2⟩

end Decoders

end TradingPipeline.Observer
