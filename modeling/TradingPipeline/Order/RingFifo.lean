import TradingPipeline.Order.RingInvariant
import TradingPipeline.Order.Submit

/-! # The order ring is a bounded queue

The sender takes exactly the accepted orders in order, a call of `submit` is
refused only on a full ring, and ids count the accepted orders modulo `2 ^ 64`:
the id counter is as wide as the value returned, so after `2 ^ 64` accepted
orders an accepted call returns the refusal value zero.
-/
namespace TradingPipeline.OrderRing
open Lib

/-- Each step of the two threads is one step of the bounded queue, or none. -/
theorem step_fifo {s t : State} {a : Action} (hs : Inv s) (he : Step s a t) :
    FifoStep orderToExcSize (unread s.ring) (unread t.ring) := by
  cases he.moves with
  | fill f hp =>
    have hprod := hs.producer
    simp only [ProducerOk, hp] at hprod
    obtain ⟨rfl, hroom, _⟩ := hprod
    rw [unread_setField hs.write_lt hs.read_lt hroom]
    exact .stutter _
  | storeWrite hp hall =>
    have hprod := hs.producer
    simp only [ProducerOk, hp] at hprod
    obtain ⟨rfl, hroom, _⟩ := hprod
    rw [unread_storeWrite hs.write_lt hs.read_lt hroom]
    exact .enqueue _ _ (unreadCount_eq_length ▸ hroom)
  | senderStoreRead o hc ho =>
    have hcons := hs.consumer
    simp only [ConsumerOk, hc] at hcons
    obtain ⟨rfl, hne, _⟩ := hcons
    rw [unread_storeRead hs.write_lt hs.read_lt hne]
    exact .dequeue _ _
  | _ => exact .stutter _

theorem refusal_unchanged {s t : State} (hs : Inv s) (he : Step s .loadRead t)
    (hidle : t.producer = .idle) :
    (unread s.ring).length = orderToExcSize ∧ t.ring = s.ring ∧
      t.nextOrderId = s.nextOrderId ∧ t.submitted = s.submitted := by
  cases he.moves with
  | refused hp hfull =>
    have hprod := hs.producer
    simp only [ProducerOk, hp] at hprod
    obtain ⟨rfl, _⟩ := hprod
    refine ⟨?_, rfl, rfl, rfl⟩
    rw [← unreadCount_eq_length]
    exact le_antisymm hs.bounded hfull
  | admitted hp hroom => cases hidle

/-- For every interleaving of the two threads: the orders taken, followed by those
in the ring, are the accepted ones in order; at most `orderToExcSize` are unread;
the `k`-th accepted call returns `k` modulo `2 ^ 64`, which is also the id stored;
calls are refused on a full ring only, and change nothing then. -/
theorem orderRing_fifo {s : State} {as : List Action} (hr : Runs Step init as s) :
    s.submitted = s.taken ++ unread s.ring ∧
    (unread s.ring).length ≤ orderToExcSize ∧
    acceptedIds s.returns = (List.range s.submitted.length).map (fun k => (k + 1) % 2 ^ 64) ∧
    s.submitted.map (· .orderId) = acceptedIds s.returns ∧
    (∀ x ∈ s.returns, x.accepted = false → x.value = 0 ∧ x.unread = orderToExcSize) ∧
    (∀ t a, Step s a t → FifoStep orderToExcSize (unread s.ring) (unread t.ring)) ∧
    (∀ t, Step s .loadRead t → t.producer = .idle →
      (unread s.ring).length = orderToExcSize ∧ t.ring = s.ring ∧
        t.nextOrderId = s.nextOrderId ∧ t.submitted = s.submitted) := by
  have hs := runs_inv hr
  refine ⟨hs.fifo, ?_, hs.ids, hs.orders, hs.refusals, fun t a => step_fifo hs,
    fun t => refusal_unchanged hs⟩
  rw [← unreadCount_eq_length]
  exact hs.bounded

section Progress
variable {s : State}

theorem reads_run {r : ℕ} {got : Field → Option ℕ} (hc : s.consumer = .reading r got)
    (fs : List Field) :
    ∃ got', Runs Step s (fs.map .senderRead) { s with consumer := .reading r got' } ∧
      ∀ f, (f ∈ fs ∨ (got f).isSome) → (got' f).isSome := by
  induction fs generalizing s got with
  | nil =>
    refine ⟨got, by rw [← hc]; exact .nil, ?_⟩
    intro f hf
    simpa using hf
  | cons f fs ih =>
    have hread : Step s (.senderRead f) { s with
        consumer := .reading r (Function.update got f (some (s.ring.slot r f))) } := by
      simp only [Step, step, submitStep, senderStep, hc, Option.none_or]
    obtain ⟨got', hr, hall⟩ := ih (s := { s with
        consumer := .reading r (Function.update got f (some (s.ring.slot r f))) }) rfl
    refine ⟨got', (Runs.single hread).trans hr, ?_⟩
    intro g hg
    refine hall g ?_
    by_cases hgf : g = f
    · exact Or.inr (by simp [hgf])
    · rcases hg with hg | hg
      · exact Or.inl ((List.mem_cons.mp hg).resolve_left hgf)
      · exact Or.inr (by rwa [Function.update_of_ne hgf])

theorem take_run (hc : s.consumer = .idle) (hne : s.ring.nextRead ≠ s.ring.nextWrite) :
    ∃ as o, Runs Step s as { s with
      ring := s.ring.storeRead ((s.ring.nextRead + 1) % 2 ^ 32)
      consumer := .idle
      taken := s.taken ++ [o] } := by
  have hload : Step s .senderLoadRead { s with consumer := .loadedRead s.ring.nextRead } := by
    simp only [Step, step, submitStep, senderStep, hc, Option.none_or]
  have hnonempty := (Runs.single hload).snoc (a := .senderLoadWrite)
    (u := { s with consumer := .reading s.ring.nextRead (fun _ => none) }) (by
      simp only [Step, step, submitStep, senderStep, if_neg hne, Option.none_or])
  obtain ⟨got, hread, hgot⟩ := reads_run
    (s := { s with consumer := .reading s.ring.nextRead (fun _ => none) }) rfl Field.all
  have hcomplete : complete got = some (fun f => (got f).getD 0) := by
    have h : Field.all.all (fun f => (got f).isSome) = true :=
      List.all_eq_true.mpr (fun f hf => hgot f (Or.inl hf))
    simp only [complete, if_pos h]
  refine ⟨_, fun f => (got f).getD 0, (hnonempty.trans hread).snoc (a := .senderStoreRead) ?_⟩
  simp only [Step, step, submitStep, senderStep, hcomplete, Option.none_or]

end Progress

/-- Both threads between calls, nothing in the ring, and the ring empty at every call so far. -/
def Quiet (s : State) : Prop :=
  s.producer = .idle ∧ s.consumer = .idle ∧ s.ring.nextWrite < 2 ^ 32 ∧
    s.ring.nextRead = s.ring.nextWrite ∧ ∀ x ∈ s.returns, x.unread = 0

theorem quiet_round {s : State} (hs : Quiet s) (a : Submission) :
    ∃ as t, Runs Step s as t ∧ Quiet t ∧ t.submitted.length = s.submitted.length + 1 := by
  obtain ⟨hp, hc, hlt, hempty, hret⟩ := hs
  have hroom : (Oms.mk s.ring s.nextOrderId).full = false := by
    rw [Oms.full, unreadCount, hempty, wrapSub_self]
    decide
  have hwrite : (s.afterSubmit a).ring.nextWrite = (s.ring.nextWrite + 1) % 2 ^ 32 := by
    simp [State.afterSubmit, Oms.submit, hroom, OrderToExc.storeWrite]
  have hread : (s.afterSubmit a).ring.nextRead = s.ring.nextRead := by
    simp [State.afterSubmit, Oms.submit, hroom, OrderToExc.storeWrite, OrderToExc.setFields_cursors]
  obtain ⟨as, hsubmit⟩ := submit_run hp a
  obtain ⟨bs, o, htake⟩ := take_run (s := s.afterSubmit a) hc (by omega)
  refine ⟨_, _, hsubmit.trans htake, ⟨rfl, rfl, ?_, ?_, ?_⟩, ?_⟩
  · exact hwrite ▸ Nat.mod_lt _ (by decide)
  · simp only [OrderToExc.storeRead, hread, hwrite, hempty]
  · intro x hx
    rcases List.mem_append.mp hx with hx | hx
    · exact hret x hx
    · rw [List.mem_singleton.mp hx]
      simp [unreadCount, hempty, wrapSub_self]
  · simp [State.afterSubmit, hroom]

def sampleOrder : Submission := ⟨13, 66, 32000, 100, 5⟩

theorem init_quiet : Quiet init := ⟨rfl, rfl, by decide, rfl, by simp [init]⟩

theorem quiet_reachable (n : ℕ) :
    ∃ as s, Runs Step init as s ∧ Quiet s ∧ s.submitted.length = n := by
  induction n with
  | zero => exact ⟨[], init, .nil, init_quiet, rfl⟩
  | succ n ih =>
    obtain ⟨as, s, hr, hq, hn⟩ := ih
    obtain ⟨bs, t, hr', hq', hn'⟩ := quiet_round hq sampleOrder
    exact ⟨as ++ bs, t, hr.trans hr', hq', by omega⟩

/-- The second order is written field by field while the sender reads the first one. -/
def twoOrders : List Action :=
  [Action.loadWrite sampleOrder, .loadRead] ++ Field.all.map Action.fill ++
    [Action.storeWrite, .senderLoadRead, .loadWrite { sampleOrder with price := 32100 },
      .senderLoadWrite, .loadRead] ++
    Field.all.flatMap (fun f => [Action.fill f, .senderRead f]) ++
    [Action.storeWrite, .senderStoreRead]

theorem orderRing_fifo_twoOrders :
    ∃ s, Runs Step init twoOrders s ∧ s.taken.map (· .price) = [32000] ∧
      (unread s.ring).map (· .price) = [32100] ∧ s.submitted = s.taken ++ unread s.ring ∧
      s.submitted.map (· .orderId) = [1, 2] ∧ acceptedIds s.returns = [1, 2] := by
  have hrun : ∃ s ∈ twoOrders.foldlM step init, s.taken.map (· .price) = [32000] ∧
      (unread s.ring).map (· .price) = [32100] ∧ acceptedIds s.returns = [1, 2] := by
    decide +kernel
  obtain ⟨s, hs, htaken, hunread, hids⟩ := hrun
  have hr : Runs Step init twoOrders s := Runs.of_foldlM hs
  obtain ⟨hfifo, -, -, horders, -⟩ := orderRing_fifo hr
  exact ⟨s, hr, htaken, hunread, hfifo, horders.trans hids, hids⟩

/-- After `2 ^ 64` accepted orders the last accepted call has returned zero although
the ring was empty, and the ids no longer count up from one. -/
theorem orderId_wraps :
    ∃ as s, Runs Step init as s ∧
      acceptedIds s.returns ≠ (List.range s.submitted.length).map (· + 1) ∧
      ∃ x ∈ s.returns, x.accepted = true ∧ x.value = 0 ∧ x.unread = 0 := by
  obtain ⟨as, s, hr, hq, hn⟩ := quiet_reachable (2 ^ 64)
  have hids := (runs_inv hr).ids
  rw [hn] at hids
  have hlast : (acceptedIds s.returns)[2 ^ 64 - 1]? = some 0 := by
    rw [hids, List.getElem?_map, List.getElem?_range (by omega)]
    rfl
  refine ⟨as, s, hr, ?_, ?_⟩
  · intro he
    rw [he, hn, List.getElem?_map, List.getElem?_range (by omega)] at hlast
    have hz : 2 ^ 64 - 1 + 1 = 0 := Option.some.inj hlast
    omega
  · obtain ⟨x, hx, hv⟩ := List.mem_map.mp (List.mem_of_getElem? hlast)
    obtain ⟨hx, hacc⟩ := List.mem_filter.mp hx
    exact ⟨x, hx, hacc, hv, hq.2.2.2.2 x hx⟩

end TradingPipeline.OrderRing
