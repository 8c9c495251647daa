import TradingPipeline.Order.RingInvariant

/-! # Handing the oldest order over

`order_sender_thread` copies the slot at `next_read` into a message and stores `next_read` only
after the message is out. In between the order is in the hands of the sender and still in the ring.
The orders copied so far are those that left the ring, up to this one.
-/
namespace TradingPipeline.OrderRing
open Lib

section Steps
variable {s t : State} {a : Action}

theorem submitStep_step (h : submitStep s a = some t) : Step s a t := by
  rw [Step, step, h, Option.some_or]

theorem senderStep_step (h : senderStep s a = some t) : Step s a t := by
  have hnone : submitStep s a = none := by
    cases a with
    | senderLoadRead => rfl
    | senderLoadWrite => rfl
    | senderRead f => rfl
    | senderStoreRead => rfl
    | _ => cases h
  rw [Step, step, hnone, Option.none_or, h]

theorem submitStep_keeps (h : submitStep s a = some t) :
    t.consumer = s.consumer ∧ t.taken = s.taken := by
  cases (submitStep_step h).moves with
  | loadWrite => exact ⟨rfl, rfl⟩
  | refused => exact ⟨rfl, rfl⟩
  | admitted => exact ⟨rfl, rfl⟩
  | fill => exact ⟨rfl, rfl⟩
  | storeWrite => exact ⟨rfl, rfl⟩
  | _ => cases h

theorem senderStep_keeps (ha : a ≠ .senderStoreRead) (h : senderStep s a = some t) :
    t.taken = s.taken := by
  cases (senderStep_step h).moves with
  | senderStoreRead => exact absurd rfl ha
  | storeWrite => cases h
  | _ => rfl

end Steps

/-- The order in the slot at hand, once all its fields were read. -/
def State.slotRead (s : State) : Option Order :=
  match s.consumer with
  | .reading _ got => complete got
  | _ => none

/-- The orders `taken` were copied by the sender; with `copied` the last of them is still in
its slot. -/
structure Took (s : State) (copied : Bool) (taken : List Order) : Prop where
  apart : copied = false → taken = s.taken
  joined : copied = true → ∃ o, s.slotRead = some o ∧ taken = s.taken ++ [o]

section Took
variable {s t : State} {a : Action} {copied : Bool} {taken : List Order} {o : Order}

theorem slotRead_cases (h : s.slotRead = some o) :
    ∃ r got, s.consumer = .reading r got ∧ complete got = some o := by
  unfold State.slotRead at h
  split at h
  · next r got hc => exact ⟨r, got, hc, h⟩
  · cases h

theorem unread_of_slotRead (hs : Inv s) (h : s.slotRead = some o) :
    ∃ rest, unread s.ring = o :: rest := by
  obtain ⟨r, got, hc, ho⟩ := slotRead_cases h
  have hcons := hs.consumer
  simp only [ConsumerOk, hc] at hcons
  obtain ⟨rfl, hne, hgot⟩ := hcons
  have hslot : s.ring.slot s.ring.nextRead = o :=
    funext fun f => hgot f _ (complete_eq_some ho f)
  exact ⟨_, hslot ▸ unread_storeRead hs.write_lt hs.read_lt hne⟩

theorem Took.submit (h : Took s copied taken) (he : submitStep s a = some t) :
    Took t copied taken := by
  obtain ⟨hconsumer, htaken⟩ := submitStep_keeps he
  refine ⟨fun hc => (h.apart hc).trans htaken.symm, fun hc => ?_⟩
  obtain ⟨o, ho, htook⟩ := h.joined hc
  refine ⟨o, ?_, htaken ▸ htook⟩
  rwa [State.slotRead, hconsumer]

theorem Took.load (h : Took s false taken) (ha : a ≠ .senderStoreRead)
    (he : senderStep s a = some t) : Took t false taken :=
  ⟨fun hc => (h.apart hc).trans (senderStep_keeps ha he).symm, nofun⟩

theorem Took.copy (h : Took s false taken) (ho : s.slotRead = some o) :
    Took s true (taken ++ [o]) :=
  ⟨nofun, fun _ => ⟨o, ho, by rw [h.apart rfl]⟩⟩

theorem Took.storeRead (h : Took s true taken) (he : senderStep s .senderStoreRead = some t) :
    Took t false taken := by
  obtain ⟨o, ho, htook⟩ := h.joined rfl
  obtain ⟨r, got, hc, hcomplete⟩ := slotRead_cases ho
  refine ⟨fun _ => htook.trans ?_, nofun⟩
  simp only [senderStep, hc, hcomplete, Option.some.injEq] at he
  exact he ▸ rfl

theorem Took.isPrefix (h : Took s copied taken) (hs : Inv s) : taken <+: s.submitted := by
  rw [hs.fifo]
  cases hc : copied with
  | false =>
    rw [h.apart hc]
    exact List.prefix_append _ _
  | true =>
    obtain ⟨o, ho, htook⟩ := h.joined hc
    obtain ⟨rest, hrest⟩ := unread_of_slotRead hs ho
    rw [htook, hrest]
    exact ⟨rest, by simp⟩

theorem Took.of_empty (h : Took s copied taken) (hs : Inv s) (hempty : unread s.ring = []) :
    copied = false ∧ taken = s.submitted := by
  have hc : copied = false := by
    by_contra hc
    obtain ⟨o, ho, -⟩ := h.joined ((Bool.not_eq_false _).mp hc)
    obtain ⟨rest, hrest⟩ := unread_of_slotRead hs ho
    rw [hempty] at hrest
    cases hrest
  have hfifo := hs.fifo
  rw [hempty, List.append_nil] at hfifo
  exact ⟨hc, (h.apart hc).trans hfifo.symm⟩

theorem Inv.backlog (hs : Inv s) : s.submitted.length ≤ s.taken.length + orderToExcSize := by
  have hfifo := congrArg List.length hs.fifo
  have hbound := hs.bounded
  rw [List.length_append, ← unreadCount_eq_length] at hfifo
  omega

end Took

end TradingPipeline.OrderRing
