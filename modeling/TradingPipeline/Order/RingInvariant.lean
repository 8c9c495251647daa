import TradingPipeline.Order.Ring

/-! # Invariants of the order ring over all interleavings

The producer's copy of `next_write` is always current and its copy of `next_read`
may only be stale in the safe direction, so the slot it fills lies outside the
window the sender reads. The window is the difference between the two histories.
-/
namespace TradingPipeline.OrderRing
open Lib

theorem orderToExcSize_eq : orderToExcSize = 2 ^ 19 := by decide

theorem orderToExcSize_dvd : orderToExcSize ∣ 2 ^ 32 := ⟨2 ^ 13, by decide⟩

theorem orderToExcSize_lt : orderToExcSize < 2 ^ 32 := by decide

theorem and_orderToExcMask (w : ℕ) : w &&& orderToExcMask = w % orderToExcSize := by
  rw [orderToExcMask, orderToExcSize_eq]
  exact Nat.and_two_pow_sub_one_eq_mod w 19

/-- Everything a step of either thread can do, with its guard. -/
inductive Moves : State → Action → State → Prop
  | loadWrite {s a} (h : s.producer = .idle) :
      Moves s (.loadWrite a) { s with producer := .loadedWrite a s.ring.nextWrite }
  | refused {s a w} (h : s.producer = .loadedWrite a w)
      (hfull : orderToExcSize ≤ wrapSub (2 ^ 32) w s.ring.nextRead) :
      Moves s .loadRead { s with
        producer := .idle
        returns := s.returns ++ [⟨0, false, wrapSub (2 ^ 32) w s.ring.nextRead⟩] }
  | admitted {s a w} (h : s.producer = .loadedWrite a w)
      (hroom : wrapSub (2 ^ 32) w s.ring.nextRead < orderToExcSize) :
      Moves s .loadRead { s with
        nextOrderId := (s.nextOrderId + 1) % 2 ^ 64
        producer := .filling a w s.nextOrderId (wrapSub (2 ^ 32) w s.ring.nextRead) [] }
  | fill {s a w id n done} (f : Field) (h : s.producer = .filling a w id n done) :
      Moves s (.fill f) { s with
        ring := s.ring.setField w f (a.order id f)
        producer := .filling a w id n (f :: done) }
  | storeWrite {s a w id n done} (h : s.producer = .filling a w id n done)
      (hall : ∀ f, f ∈ done) :
      Moves s .storeWrite { s with
        ring := s.ring.storeWrite ((w + 1) % 2 ^ 32)
        producer := .idle
        submitted := s.submitted ++ [a.order id]
        returns := s.returns ++ [⟨id, true, n⟩] }
  | senderLoadRead {s} (h : s.consumer = .idle) :
      Moves s .senderLoadRead { s with consumer := .loadedRead s.ring.nextRead }
  | senderEmpty {s r} (h : s.consumer = .loadedRead r) (he : r = s.ring.nextWrite) :
      Moves s .senderLoadWrite { s with consumer := .idle }
  | senderNonempty {s r} (h : s.consumer = .loadedRead r) (hne : r ≠ s.ring.nextWrite) :
      Moves s .senderLoadWrite { s with consumer := .reading r (fun _ => none) }
  | senderRead {s r got} (f : Field) (h : s.consumer = .reading r got) :
      Moves s (.senderRead f) { s with
        consumer := .reading r (Function.update got f (some (s.ring.slot r f))) }
  | senderStoreRead {s r got} (o : Order) (h : s.consumer = .reading r got)
      (ho : ∀ f, got f = some (o f)) :
      Moves s .senderStoreRead { s with
        ring := s.ring.storeRead ((r + 1) % 2 ^ 32)
        consumer := .idle
        taken := s.taken ++ [o] }

theorem complete_eq_some {got : Field → Option ℕ} {o : Order} (h : complete got = some o) :
    ∀ f, got f = some (o f) := by
  unfold complete at h
  split at h
  · rename_i hall
    cases h
    intro f
    have hf := List.all_eq_true.mp hall f f.mem_all
    obtain ⟨v, hv⟩ := Option.isSome_iff_exists.mp hf
    simp [hv]
  · cases h

theorem Step.moves {s t : State} {a : Action} (h : Step s a t) : Moves s a t := by
  unfold Step step at h
  cases a with
  | loadWrite a =>
    cases hp : s.producer <;> simp [submitStep, senderStep, hp] at h
    exact h ▸ .loadWrite hp
  | loadRead =>
    cases hp : s.producer with
    | loadedWrite a w =>
      by_cases hn : orderToExcSize ≤ wrapSub (2 ^ 32) w s.ring.nextRead
      · simp only [submitStep, hp, if_pos hn, Option.some_or, Option.some.injEq] at h
        exact h ▸ .refused hp hn
      · simp only [submitStep, hp, if_neg hn, Option.some_or, Option.some.injEq] at h
        exact h ▸ .admitted hp (by omega)
    | _ => simp [submitStep, senderStep, hp] at h
  | fill f =>
    cases hp : s.producer with
    | filling a w id n done =>
      simp only [submitStep, hp, Option.some_or, Option.some.injEq] at h
      exact h ▸ .fill f hp
    | _ => simp [submitStep, senderStep, hp] at h
  | storeWrite =>
    cases hp : s.producer with
    | filling a w id n done =>
      by_cases hall : Field.all.all (fun f => decide (f ∈ done)) = true
      · simp only [submitStep, hp, if_pos hall, Option.some_or, Option.some.injEq] at h
        refine h ▸ .storeWrite hp (fun f => ?_)
        exact of_decide_eq_true (List.all_eq_true.mp hall f f.mem_all)
      · simp only [submitStep, senderStep, hp, if_neg hall, Option.or_none] at h
        cases h
    | _ => simp [submitStep, senderStep, hp] at h
  | senderLoadRead =>
    cases hc : s.consumer <;> simp [submitStep, senderStep, hc] at h
    exact h ▸ .senderLoadRead hc
  | senderLoadWrite =>
    cases hc : s.consumer with
    | loadedRead r =>
      by_cases he : r = s.ring.nextWrite
      · simp only [submitStep, senderStep, hc, if_pos he, Option.none_or, Option.some.injEq] at h
        exact h ▸ .senderEmpty hc he
      · simp only [submitStep, senderStep, hc, if_neg he, Option.none_or, Option.some.injEq] at h
        exact h ▸ .senderNonempty hc he
    | _ => simp [submitStep, senderStep, hc] at h
  | senderRead f =>
    cases hc : s.consumer with
    | reading r got =>
      simp only [submitStep, senderStep, hc, Option.none_or, Option.some.injEq] at h
      exact h ▸ .senderRead f hc
    | _ => simp [submitStep, senderStep, hc] at h
  | senderStoreRead =>
    cases hc : s.consumer with
    | reading r got =>
      cases ho : complete got with
      | none => simp [submitStep, senderStep, hc, ho] at h
      | some o =>
        simp only [submitStep, senderStep, hc, ho, Option.none_or, Option.some.injEq] at h
        exact h ▸ .senderStoreRead o hc (complete_eq_some ho)
    | _ => simp [submitStep, senderStep, hc] at h

section Window
variable {r : OrderToExc}

theorem unread_setField (hw : r.nextWrite < 2 ^ 32) (hr : r.nextRead < 2 ^ 32)
    (hroom : unreadCount r < orderToExcSize) (f : Field) (v : ℕ) :
    unread (r.setField r.nextWrite f v) = unread r := by
  have hi : r.nextWrite &&& orderToExcMask =
      (r.nextRead + unreadCount r) % 2 ^ 32 % orderToExcSize := by
    rw [and_orderToExcMask, unreadCount, add_wrapSub_mod hw hr]
  simp only [unread, between, OrderToExc.setField, hi]
  exact window_update orderToExcSize_dvd r.data r.nextRead _ hroom _

theorem unread_storeWrite (hw : r.nextWrite < 2 ^ 32) (hr : r.nextRead < 2 ^ 32)
    (hroom : unreadCount r < orderToExcSize) :
    unread (r.storeWrite ((r.nextWrite + 1) % 2 ^ 32)) =
      unread r ++ [r.slot r.nextWrite] := by
  have hp := between_push orderToExcSize_dvd orderToExcSize_lt hw hr r.data hroom
    (r.data (r.nextWrite % orderToExcSize))
  rw [Function.update_eq_self] at hp
  simpa only [unread, OrderToExc.slot, OrderToExc.storeWrite, and_orderToExcMask] using hp

theorem unread_storeRead (hw : r.nextWrite < 2 ^ 32) (hr : r.nextRead < 2 ^ 32)
    (hne : r.nextWrite ≠ r.nextRead) :
    unread r = r.slot r.nextRead ::
      unread (r.storeRead ((r.nextRead + 1) % 2 ^ 32)) := by
  simpa only [unread, OrderToExc.slot, OrderToExc.storeRead, and_orderToExcMask] using
    between_pop hw hr r.data hne

theorem unreadCount_eq_length : unreadCount r = (unread r).length := by
  simp [unread, unreadCount]

end Window

/-- The id of the `k`-th accepted order, counting from one. -/
def orderIdOf (k : ℕ) : ℕ := k % 2 ^ 64

def acceptedIds (rs : List Returned) : List ℕ := (rs.filter (·.accepted)).map (·.value)

def ProducerOk (s : State) : Prop :=
  match s.producer with
  | .idle => s.nextOrderId = orderIdOf (s.submitted.length + 1)
  | .loadedWrite _ w =>
    w = s.ring.nextWrite ∧ s.nextOrderId = orderIdOf (s.submitted.length + 1)
  | .filling a w id _ done =>
    w = s.ring.nextWrite ∧ unreadCount s.ring < orderToExcSize ∧
    id = orderIdOf (s.submitted.length + 1) ∧
    s.nextOrderId = orderIdOf (s.submitted.length + 2) ∧
    ∀ f ∈ done, s.ring.slot w f = a.order id f

def ConsumerOk (s : State) : Prop :=
  match s.consumer with
  | .idle => True
  | .loadedRead r => r = s.ring.nextRead
  | .reading r got =>
    r = s.ring.nextRead ∧ s.ring.nextWrite ≠ s.ring.nextRead ∧
    ∀ f v, got f = some v → s.ring.slot r f = v

structure Inv (s : State) : Prop where
  write_lt : s.ring.nextWrite < 2 ^ 32
  read_lt : s.ring.nextRead < 2 ^ 32
  bounded : unreadCount s.ring ≤ orderToExcSize
  fifo : s.submitted = s.taken ++ unread s.ring
  ids : acceptedIds s.returns = (List.range s.submitted.length).map (fun k => orderIdOf (k + 1))
  orders : s.submitted.map (· .orderId) = acceptedIds s.returns
  refusals : ∀ x ∈ s.returns, x.accepted = false → x.value = 0 ∧ x.unread = orderToExcSize
  producer : ProducerOk s
  consumer : ConsumerOk s

theorem init_inv : Inv init where
  write_lt := by decide
  read_lt := by decide
  bounded := by decide
  fifo := rfl
  ids := rfl
  orders := rfl
  refusals := by simp [init]
  producer := rfl
  consumer := trivial

theorem slot_setField (r : OrderToExc) (w : ℕ) (f g : Field) (v : ℕ) :
    (r.setField w f v).slot w g = if g = f then v else r.slot w g := by
  simp only [OrderToExc.setField, OrderToExc.slot, Function.update_self, Function.update_apply]

/-- The sender's slot is outside the producer's reach while the ring has room. -/
theorem slot_read_setField {r : OrderToExc} (hw : r.nextWrite < 2 ^ 32) (hr : r.nextRead < 2 ^ 32)
    (hroom : unreadCount r < orderToExcSize) (hne : r.nextWrite ≠ r.nextRead) (f : Field) (v : ℕ) :
    (r.setField r.nextWrite f v).slot r.nextRead = r.slot r.nextRead := by
  have h := unread_setField hw hr hroom f v
  rw [unread_storeRead (r := r.setField r.nextWrite f v) hw hr hne,
    unread_storeRead hw hr hne] at h
  exact (List.cons_eq_cons.mp h).1

theorem unreadCount_storeRead {r : OrderToExc} (hw : r.nextWrite < 2 ^ 32)
    (hr : r.nextRead < 2 ^ 32) (hne : r.nextWrite ≠ r.nextRead) :
    unreadCount (r.storeRead ((r.nextRead + 1) % 2 ^ 32)) + 1 = unreadCount r :=
  wrapSub_succ_right hw hr hne

theorem unreadCount_storeWrite {r : OrderToExc} (hw : r.nextWrite < 2 ^ 32)
    (hr : r.nextRead < 2 ^ 32) (hroom : unreadCount r < orderToExcSize) :
    unreadCount (r.storeWrite ((r.nextWrite + 1) % 2 ^ 32)) = unreadCount r + 1 :=
  wrapSub_succ_left hw hr (lt_of_le_of_lt (show unreadCount r + 1 ≤ _ from hroom) orderToExcSize_lt)

theorem orderIdOf_succ (k : ℕ) : (orderIdOf k + 1) % 2 ^ 64 = orderIdOf (k + 1) := by
  simp only [orderIdOf, Nat.mod_add_mod]

theorem acceptedIds_append (rs : List Returned) (x : Returned) :
    acceptedIds (rs ++ [x]) = acceptedIds rs ++ if x.accepted then [x.value] else [] := by
  unfold acceptedIds
  rw [List.filter_append, List.map_append]
  cases h : x.accepted <;> simp [h]

theorem loadWrite_inv {s : State} {a : Submission} (hs : Inv s) (hp : s.producer = .idle) :
    Inv { s with producer := .loadedWrite a s.ring.nextWrite } := by
  have hprod := hs.producer
  simp only [ProducerOk, hp] at hprod
  exact { hs with producer := ⟨rfl, hprod⟩ }

theorem refused_inv {s : State} {a : Submission} {w : ℕ} (hs : Inv s)
    (hp : s.producer = .loadedWrite a w)
    (hfull : orderToExcSize ≤ wrapSub (2 ^ 32) w s.ring.nextRead) :
    Inv { s with
      producer := .idle
      returns := s.returns ++ [⟨0, false, wrapSub (2 ^ 32) w s.ring.nextRead⟩] } := by
  have hprod := hs.producer
  simp only [ProducerOk, hp] at hprod
  obtain ⟨rfl, hid⟩ := hprod
  have hn : wrapSub (2 ^ 32) s.ring.nextWrite s.ring.nextRead = orderToExcSize :=
    le_antisymm hs.bounded hfull
  refine { hs with ids := ?_, orders := ?_, refusals := ?_, producer := hid }
  · simpa [acceptedIds_append] using hs.ids
  · simpa [acceptedIds_append] using hs.orders
  · intro x hx
    rcases List.mem_append.mp hx with hx | hx
    · exact hs.refusals x hx
    · intro _
      rw [List.mem_singleton.mp hx]
      exact ⟨rfl, hn⟩

theorem admitted_inv {s : State} {a : Submission} {w : ℕ} (hs : Inv s)
    (hp : s.producer = .loadedWrite a w)
    (hroom : wrapSub (2 ^ 32) w s.ring.nextRead < orderToExcSize) :
    Inv { s with
      nextOrderId := (s.nextOrderId + 1) % 2 ^ 64
      producer := .filling a w s.nextOrderId (wrapSub (2 ^ 32) w s.ring.nextRead) [] } := by
  have hprod := hs.producer
  simp only [ProducerOk, hp] at hprod
  obtain ⟨rfl, hid⟩ := hprod
  refine { hs with producer := ⟨rfl, hroom, hid, ?_, by simp⟩ }
  show (s.nextOrderId + 1) % 2 ^ 64 = _
  rw [hid, orderIdOf_succ]

theorem fill_inv {s : State} {a : Submission} {w id n : ℕ} {done : List Field} (hs : Inv s)
    (hp : s.producer = .filling a w id n done) (f : Field) :
    Inv { s with
      ring := s.ring.setField w f (a.order id f)
      producer := .filling a w id n (f :: done) } := by
  have hprod := hs.producer
  simp only [ProducerOk, hp] at hprod
  obtain ⟨rfl, hroom, hid, hnext, hdone⟩ := hprod
  refine { hs with fifo := ?_, producer := ⟨rfl, hroom, hid, hnext, ?_⟩, consumer := ?_ }
  · show s.submitted = s.taken ++ unread (s.ring.setField s.ring.nextWrite f (a.order id f))
    rw [unread_setField hs.write_lt hs.read_lt hroom]
    exact hs.fifo
  · intro g hg
    show (s.ring.setField s.ring.nextWrite f (a.order id f)).slot s.ring.nextWrite g = _
    rw [slot_setField]
    split
    · rename_i h
      rw [h]
    · rename_i h
      exact hdone g ((List.mem_cons.mp hg).resolve_left h)
  · have hcons := hs.consumer
    cases hc : s.consumer with
    | idle => simp only [ConsumerOk]
    | loadedRead r => simpa only [ConsumerOk, hc, OrderToExc.setField] using hcons
    | reading r got =>
      simp only [ConsumerOk, hc] at hcons ⊢
      obtain ⟨rfl, hne, hgot⟩ := hcons
      refine ⟨rfl, hne, ?_⟩
      rw [slot_read_setField hs.write_lt hs.read_lt hroom hne]
      exact hgot

theorem storeWrite_inv {s : State} {a : Submission} {w id n : ℕ} {done : List Field} (hs : Inv s)
    (hp : s.producer = .filling a w id n done) (hall : ∀ f, f ∈ done) :
    Inv { s with
      ring := s.ring.storeWrite ((w + 1) % 2 ^ 32)
      producer := .idle
      submitted := s.submitted ++ [a.order id]
      returns := s.returns ++ [⟨id, true, n⟩] } := by
  have hprod := hs.producer
  simp only [ProducerOk, hp] at hprod
  obtain ⟨rfl, hroom, hid, hnext, hdone⟩ := hprod
  have hslot : s.ring.slot s.ring.nextWrite = a.order id := funext (fun f => hdone f (hall f))
  have hcount := unreadCount_storeWrite hs.write_lt hs.read_lt hroom
  constructor
  case write_lt => exact Nat.mod_lt _ (by decide)
  case read_lt => exact hs.read_lt
  case bounded =>
    show unreadCount (s.ring.storeWrite _) ≤ _
    omega
  case fifo =>
    show s.submitted ++ [a.order id] = s.taken ++ unread (s.ring.storeWrite _)
    rw [unread_storeWrite hs.write_lt hs.read_lt hroom, hslot, ← List.append_assoc, ← hs.fifo]
  case ids =>
    rw [acceptedIds_append, hs.ids, List.length_append, List.length_singleton, List.range_succ,
      List.map_append]
    simp [hid]
  case orders =>
    rw [acceptedIds_append, List.map_append, hs.orders]
    rfl
  case refusals =>
    intro x hx hrej
    rcases List.mem_append.mp hx with hx | hx
    · exact hs.refusals x hx hrej
    · rw [List.mem_singleton.mp hx] at hrej
      cases hrej
  case producer => simpa only [ProducerOk, List.length_append, List.length_singleton] using hnext
  case consumer =>
    have hcons := hs.consumer
    cases hc : s.consumer with
    | idle => simp only [ConsumerOk]
    | loadedRead r => simpa only [ConsumerOk, hc, OrderToExc.storeWrite] using hcons
    | reading r got =>
      simp only [ConsumerOk, hc] at hcons ⊢
      obtain ⟨rfl, hne, hgot⟩ := hcons
      refine ⟨rfl, ?_, hgot⟩
      intro he
      have hz := (wrapSub_eq_zero hs.read_lt).mpr he
      rw [show unreadCount (s.ring.storeWrite _) = 0 from hz] at hcount
      omega

theorem senderStoreRead_inv {s : State} {r : ℕ} {got : Field → Option ℕ} {o : Order} (hs : Inv s)
    (hc : s.consumer = .reading r got) (ho : ∀ f, got f = some (o f)) :
    Inv { s with
      ring := s.ring.storeRead ((r + 1) % 2 ^ 32)
      consumer := .idle
      taken := s.taken ++ [o] } := by
  have hcons := hs.consumer
  simp only [ConsumerOk, hc] at hcons
  obtain ⟨rfl, hne, hgot⟩ := hcons
  have hslot : s.ring.slot s.ring.nextRead = o := funext (fun f => hgot f _ (ho f))
  have hcount := unreadCount_storeRead hs.write_lt hs.read_lt hne
  have hbound := hs.bounded
  refine { hs with
    read_lt := Nat.mod_lt _ (by decide), bounded := ?_, fifo := ?_, producer := ?_,
    consumer := trivial }
  · show unreadCount (s.ring.storeRead _) ≤ _
    omega
  · show s.submitted = (s.taken ++ [o]) ++ unread (s.ring.storeRead _)
    rw [hs.fifo, unread_storeRead hs.write_lt hs.read_lt hne, hslot]
    simp
  · have hprod := hs.producer
    cases hp : s.producer with
    | idle => simpa only [ProducerOk, hp] using hprod
    | loadedWrite a w => simpa only [ProducerOk, hp, OrderToExc.storeRead] using hprod
    | filling a w id n done =>
      simp only [ProducerOk, hp] at hprod ⊢
      obtain ⟨hw, hroom, hrest⟩ := hprod
      exact ⟨hw, by omega, hrest⟩

theorem step_inv {s t : State} {a : Action} (hs : Inv s) (he : Step s a t) : Inv t := by
  cases he.moves with
  | loadWrite hp => exact loadWrite_inv hs hp
  | refused hp hfull => exact refused_inv hs hp hfull
  | admitted hp hroom => exact admitted_inv hs hp hroom
  | fill f hp => exact fill_inv hs hp f
  | storeWrite hp hall => exact storeWrite_inv hs hp hall
  | senderLoadRead hc => exact { hs with consumer := rfl }
  | senderEmpty hc he => exact { hs with consumer := trivial }
  | senderNonempty hc hne =>
    have hcons := hs.consumer
    simp only [ConsumerOk, hc] at hcons
    subst hcons
    exact { hs with consumer := ⟨rfl, hne.symm, by simp⟩ }
  | senderRead f hc =>
    have hcons := hs.consumer
    simp only [ConsumerOk, hc] at hcons
    obtain ⟨rfl, hne, hgot⟩ := hcons
    refine { hs with consumer := ⟨rfl, hne, ?_⟩ }
    intro g v hv
    rw [Function.update_apply] at hv
    split at hv
    · rename_i h
      rw [h]
      exact Option.some.inj hv
    · exact hgot g v hv
  | senderStoreRead o hc ho => exact senderStoreRead_inv hs hc ho

theorem runs_inv {s : State} {as : List Action} (hr : Runs Step init as s) : Inv s :=
  hr.invariant init_inv (fun _ _ _ => step_inv)

end TradingPipeline.OrderRing
