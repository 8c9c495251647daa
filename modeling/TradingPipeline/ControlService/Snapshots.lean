import TradingPipeline.ControlService.DashboardState
import TradingPipeline.Lib.Runs

/-! # Snapshots for the dashboards

The service broadcasts a snapshot with a telemetry event if the last broadcast is a tenth of a
second old, and otherwise leaves it to a timer. Timers are never cancelled. A dashboard gets
a snapshot when it connects and the broadcasts after that, but for those that find too much
queued on its socket.
-/
namespace TradingPipeline.Dashboard
open Lib Telemetry

/-- `1000 / SNAPSHOT_HZ`. -/
def snapshotIntervalMs : ℤ := 100

def sseBackpressureBytes : ℕ := 1 <<< 20

/-- A connected dashboard and the snapshot it was sent last; `missed` is set if the last
broadcast was not written to it. -/
structure Client where
  shown : Snapshot
  missed : Bool
  deriving DecidableEq

/-- `timers` has the times at which the timers are due. `history` are the events handled, `sentAt`
the times of the broadcasts, and `clock` is the last time read. -/
structure Service where
  state : State
  lastSnapshotMs : ℤ
  snapshotPending : Bool
  timers : List ℤ
  clients : List Client
  history : List TelemetryEvent
  sentAt : List ℤ
  clock : ℤ

def start (clock : ℤ) : Service := ⟨init, 0, false, [], [], [], [], clock⟩

/-- `queued` has the bytes that wait on the sockets of the clients. -/
def Client.receive (snap : Snapshot) (queued : ℕ) (c : Client) : Client :=
  if sseBackpressureBytes < queued then { c with missed := true } else ⟨snap, false⟩

def Service.broadcast (s : Service) (now : ℤ) (queued : ℕ → ℕ) : Service :=
  { s with
    lastSnapshotMs := now
    snapshotPending := false
    clients := s.clients.mapIdx fun i c => c.receive (snapshotState s.state) (queued i)
    sentAt := s.sentAt ++ [now] }

def Service.maybeBroadcastSnapshot (s : Service) (now : ℤ) (queued : ℕ → ℕ) : Service :=
  if snapshotIntervalMs ≤ now - s.lastSnapshotMs then s.broadcast now queued
  else if s.snapshotPending then s
  else { s with
    snapshotPending := true
    timers := s.timers ++ [now + (snapshotIntervalMs - (now - s.lastSnapshotMs))] }

def Service.onTimer (s : Service) (now : ℤ) (queued : ℕ → ℕ) : Service :=
  if s.snapshotPending then s.broadcast now queued else s

/-- `event` is `none` for a line that has no `type`. -/
inductive Action
  | telemetry (event : Option TelemetryEvent) (now : ℤ) (queued : ℕ → ℕ)
  | timer (i : ℕ) (now : ℤ) (queued : ℕ → ℕ)
  | command (kill : Bool)
  | connect
  | close (i : ℕ)

def step (s : Service) : Action → Option Service
  | .telemetry none _ _ => some s
  | .telemetry (some event) now queued =>
    let s := { s with
      state := handleTelemetryEvent s.state event
      history := s.history ++ [event]
      clock := now }
    some (s.maybeBroadcastSnapshot now queued)
  | .timer i now queued =>
    if i < s.timers.length then
      some ({ s with timers := s.timers.eraseIdx i, clock := now }.onTimer now queued)
    else none
  | .command kill => some { s with state := { s.state with requestedGlobalKill := kill } }
  | .connect => some { s with clients := s.clients ++ [⟨snapshotState s.state, false⟩] }
  | .close i => some { s with clients := s.clients.eraseIdx i }

abbrev Step (s : Service) (a : Action) (t : Service) : Prop := step s a = some t

section Current
variable {s t : Service} {event : TelemetryEvent} {now : ℤ} {queued : ℕ → ℕ}

theorem handle_kill (s : State) (kill : Bool) (e : TelemetryEvent) :
    handleTelemetryEvent { s with requestedGlobalKill := kill } e =
      { handleTelemetryEvent s e with requestedGlobalKill := kill } := by
  cases e with
  | mmStats ts symbols =>
    simp only [handleTelemetryEvent]
    induction symbols generalizing s with
    | nil => rfl
    | cons entry symbols ih => exact ih (s.onMmStats ts entry)
  | feed | order | ack | health | latStats | other => rfl

/-- The state is that of the events but for the kill flag. A snapshot that is due has a timer, and
as long as none is due every client that missed nothing shows the events so far. -/
structure Inv (s : Service) : Prop where
  state : ∃ kill, s.state = { run s.history with requestedGlobalKill := kill }
  pending : s.snapshotPending = true → s.timers ≠ []
  current : s.snapshotPending = false →
    ∀ c ∈ s.clients, c.missed = false → Shows s.history c.shown

theorem inv_start (clock : ℤ) : Inv (start clock) where
  state := ⟨false, rfl⟩
  pending := fun h => Bool.noConfusion h
  current := fun _ => List.forall_mem_nil _

theorem inv_broadcast (hs : ∃ kill, s.state = { run s.history with requestedGlobalKill := kill }) :
    Inv (s.broadcast now queued) where
  state := hs
  pending := fun h => Bool.noConfusion h
  current := by
    obtain ⟨kill, hkill⟩ := hs
    intro _ c hc hmissed
    obtain ⟨i, hi, rfl⟩ := List.mem_mapIdx.mp hc
    unfold Client.receive at hmissed ⊢
    split at hmissed
    · cases hmissed
    · next hle =>
      rw [if_neg hle]
      exact shows_snapshot hkill

theorem inv_telemetry (h : Inv s) (ht : Step s (.telemetry (some event) now queued) t) : Inv t := by
  cases ht
  have hstate : ∃ kill, handleTelemetryEvent s.state event =
      { run (s.history ++ [event]) with requestedGlobalKill := kill } := by
    obtain ⟨kill, hkill⟩ := h.state
    exact ⟨kill, by rw [hkill, handle_kill, run_snoc]⟩
  unfold Service.maybeBroadcastSnapshot
  split
  · exact inv_broadcast hstate
  · split
    · next hpending =>
      refine ⟨hstate, h.pending, fun hno => ?_⟩
      cases hpending.symm.trans hno
    · refine ⟨hstate, fun _ => ?_, fun hno => Bool.noConfusion hno⟩
      exact List.append_ne_nil_of_right_ne_nil _ (List.cons_ne_nil _ _)

theorem inv_timer (h : Inv s) {i : ℕ} (ht : Step s (.timer i now queued) t) : Inv t := by
  rw [Step, step] at ht
  split at ht
  · cases ht
    unfold Service.onTimer
    split
    · exact inv_broadcast h.state
    · next hno =>
      exact ⟨h.state, fun hpending => absurd hpending hno, h.current⟩
  · cases ht

theorem inv_step (h : Inv s) {a : Action} (ht : Step s a t) : Inv t := by
  cases a with
  | telemetry event now queued =>
    cases event with
    | none =>
      cases ht
      exact h
    | some event => exact inv_telemetry h ht
  | timer i now queued => exact inv_timer h ht
  | command kill =>
    cases ht
    obtain ⟨k, hk⟩ := h.state
    exact ⟨⟨kill, by rw [hk]⟩, h.pending, h.current⟩
  | connect =>
    cases ht
    refine ⟨h.state, h.pending, fun hno => ?_⟩
    refine List.forall_mem_append.mpr ⟨h.current hno, List.forall_mem_singleton.mpr fun _ => ?_⟩
    obtain ⟨kill, hkill⟩ := h.state
    exact shows_snapshot hkill
  | close i =>
    cases ht
    refine ⟨h.state, h.pending, fun hno c hc => h.current hno c ?_⟩
    exact List.mem_of_mem_eraseIdx hc

/-- Whatever the clock says and in whatever order the timers fire: once no timer is left, every
dashboard to which the last broadcast was written shows all events. -/
theorem dashboards_current {clock : ℤ} {as : List Action} (hr : Runs Step (start clock) as s)
    (htimers : s.timers = []) :
    ∀ c ∈ s.clients, c.missed = false → Shows s.history c.shown := by
  have hinv : Inv s := hr.invariant (inv_start clock) fun _ _ _ h hstep => inv_step h hstep
  refine hinv.current ?_
  cases hpending : s.snapshotPending with
  | false => rfl
  | true => exact absurd htimers (hinv.pending hpending)

/-- Two fills so far, 12 ticks gained and 3 to lose. -/
def sampleStats : ShardStats := ⟨9, 2, -100, 12, -3, 5, 0, 0, 0, 0, 0, 0⟩

/-- A bid, its ack and the statistics while the snapshot is held back, and the timer that sends
it. -/
def quoteActions : List Action :=
  [.connect,
    .telemetry (some (.order ⟨1, 13, 'B', 100, 32000, 'N', some 5, some 4⟩)) 1000 (fun _ => 0),
    .telemetry (some (.ack ⟨1, 0, some 7, some 6⟩)) 1040 (fun _ => 0),
    .telemetry (some (.mmStats 7 [(13, sampleStats), (14, sampleStats)])) 1050 (fun _ => 0),
    .timer 0 1101 (fun _ => 0)]

theorem dashboards_current_quote : ∃ s, Runs Step (start 900) quoteActions s ∧
    s.timers = [] ∧ s.sentAt = [1000, 1101] ∧ s.clients.map Client.missed = [false] ∧
      s.clients.map (fun c => c.shown.totals) = [⟨1, 1, 24, -6, 4⟩] ∧
      ∀ c ∈ s.clients, c.missed = false → Shows s.history c.shown := by
  have hrun : ∃ s ∈ quoteActions.foldlM step (start 900), s.timers = [] ∧
      s.sentAt = [1000, 1101] ∧ s.clients.map Client.missed = [false] ∧
      s.clients.map (fun c => c.shown.totals) = [⟨1, 1, 24, -6, 4⟩] := by decide +kernel
  obtain ⟨s, hs, htimers, hsent, hmissed, htotals⟩ := hrun
  have hr : Runs Step (start 900) quoteActions s := Runs.of_foldlM hs
  exact ⟨s, hr, htimers, hsent, hmissed, htotals, dashboards_current hr htimers⟩

end Current

section Spacing
variable {s t : Service} {event : TelemetryEvent} {now : ℤ} {queued : ℕ → ℕ}

/-- The clock does not go back, a timer does not fire early, and no event is handled when a timer
is due. -/
def Prompt (s : Service) : Action → Prop
  | .telemetry (some _) now _ => s.clock ≤ now ∧ ∀ due ∈ s.timers, now < due
  | .timer i now _ => s.clock ≤ now ∧ ∀ due ∈ s.timers[i]?, due ≤ now
  | .telemetry none _ _ | .command _ | .connect | .close _ => True

instance (s : Service) : DecidablePred (Prompt s)
  | .telemetry (some _) now _ => inferInstanceAs (Decidable (_ ∧ ∀ due ∈ s.timers, now < due))
  | .timer i now _ => inferInstanceAs (Decidable (_ ∧ ∀ due ∈ s.timers[i]?, due ≤ now))
  | .telemetry none _ _ | .command _ | .connect | .close _ => .isTrue trivial

def PromptStep (s : Service) (a : Action) (t : Service) : Prop := Step s a t ∧ Prompt s a

/-- The only timer is that of the snapshot that is due, a tenth of a second after the last
broadcast. -/
structure Spaced (s : Service) : Prop where
  clock : s.lastSnapshotMs ≤ s.clock
  timers : s.timers = if s.snapshotPending then [s.lastSnapshotMs + snapshotIntervalMs] else []
  before : ∀ ms ∈ s.sentAt, ms ≤ s.lastSnapshotMs
  apart : s.sentAt.Pairwise fun a b => a + snapshotIntervalMs ≤ b

theorem spaced_start {clock : ℤ} (hclock : 0 ≤ clock) : Spaced (start clock) :=
  ⟨hclock, rfl, List.forall_mem_nil _, List.Pairwise.nil⟩

theorem Spaced.broadcast (h : Spaced s) (htimers : t.timers = []) (hclock : t.clock = now)
    (hsent : t.sentAt = s.sentAt) (hlate : s.lastSnapshotMs + snapshotIntervalMs ≤ now) :
    Spaced (t.broadcast now queued) := by
  have hlater : ∀ ms ∈ s.sentAt, ms + snapshotIntervalMs ≤ now := fun ms hms => by
    have hle := h.before ms hms
    omega
  have hpos : (0 : ℤ) ≤ snapshotIntervalMs := by decide
  refine ⟨hclock.ge, htimers, ?_, ?_⟩
  · change ∀ ms ∈ t.sentAt ++ [now], ms ≤ now
    rw [hsent]
    refine List.forall_mem_append.mpr ⟨fun ms hms => ?_, List.forall_mem_singleton.mpr le_rfl⟩
    have hle := hlater ms hms
    omega
  · change (t.sentAt ++ [now]).Pairwise _
    rw [hsent, List.pairwise_append]
    refine ⟨h.apart, List.pairwise_singleton _ _, fun ms hms ms' hms' => ?_⟩
    rw [List.mem_singleton.mp hms']
    exact hlater ms hms

theorem spaced_telemetry (h : Spaced s) (ht : PromptStep s (.telemetry (some event) now queued) t) :
    Spaced t := by
  obtain ⟨ht, hclock, hprompt⟩ := ht
  cases ht
  have htimers := h.timers
  have hlast := h.clock
  unfold Service.maybeBroadcastSnapshot
  split
  · next hold =>
    -- a timer would be due by now
    have hno : s.snapshotPending = false := by
      by_contra hpending
      rw [if_pos (Bool.of_not_eq_false hpending)] at htimers
      have hdue := hprompt _ (htimers ▸ List.mem_singleton_self _)
      dsimp only at hold
      omega
    rw [hno] at htimers
    refine h.broadcast htimers rfl rfl ?_
    dsimp only at hold
    omega
  · split
    · exact ⟨hlast.trans hclock, h.timers, h.before, h.apart⟩
    · next hno =>
      rw [if_neg hno] at htimers
      refine ⟨hlast.trans hclock, ?_, h.before, h.apart⟩
      change s.timers ++ [now + (snapshotIntervalMs - (now - s.lastSnapshotMs))] =
        [s.lastSnapshotMs + snapshotIntervalMs]
      rw [htimers, List.nil_append]
      congr 1
      omega

theorem spaced_timer (h : Spaced s) {i : ℕ} (ht : PromptStep s (.timer i now queued) t) :
    Spaced t := by
  obtain ⟨ht, hclock, hdue⟩ := ht
  rw [Step, step] at ht
  split at ht
  · next hi =>
    cases ht
    have htimers := h.timers
    cases hpending : s.snapshotPending with
    | false =>
      rw [hpending] at htimers
      rw [htimers] at hi
      exact absurd hi (Nat.not_lt_zero i)
    | true =>
      rw [hpending, if_pos rfl] at htimers
      rw [htimers, List.length_singleton] at hi
      obtain rfl := Nat.lt_one_iff.mp hi
      have hlate := hdue _ (by rw [htimers]; rfl)
      unfold Service.onTimer
      rw [if_pos rfl]
      refine h.broadcast ?_ rfl rfl hlate
      dsimp only
      rw [htimers]
      rfl
  · cases ht

theorem spaced_step (h : Spaced s) {a : Action} (ht : PromptStep s a t) : Spaced t := by
  cases a with
  | telemetry event now queued =>
    cases event with
    | none =>
      cases ht.1
      exact h
    | some event => exact spaced_telemetry h ht
  | timer i now queued => exact spaced_timer h ht
  | command | connect | close =>
    cases ht.1
    exact ⟨h.clock, h.timers, h.before, h.apart⟩

/-- If the clock does not go back and the timers are prompt, any two broadcasts are a tenth of a
second apart and there is one timer at most. -/
theorem snapshots_spaced {clock : ℤ} (hclock : 0 ≤ clock) {as : List Action}
    (hr : Runs PromptStep (start clock) as s) :
    s.sentAt.Pairwise (fun a b => a + snapshotIntervalMs ≤ b) ∧ s.timers.length ≤ 1 := by
  have hspaced : Spaced s :=
    hr.invariant (spaced_start hclock) fun _ _ _ h hstep => spaced_step h hstep
  refine ⟨hspaced.apart, ?_⟩
  rw [hspaced.timers]
  split
  · exact Nat.le_refl 1
  · exact Nat.zero_le 1

def promptStep (s : Service) (a : Action) : Option Service := if Prompt s a then step s a else none

theorem promptStep_of_eq {a : Action} (h : promptStep s a = some t) : PromptStep s a t := by
  unfold promptStep at h
  split at h
  · next hprompt => exact ⟨h, hprompt⟩
  · cases h

theorem snapshots_spaced_quote : ∃ s, Runs PromptStep (start 900) quoteActions s ∧
    s.sentAt = [1000, 1101] ∧
      s.sentAt.Pairwise (fun a b => a + snapshotIntervalMs ≤ b) ∧ s.timers.length ≤ 1 := by
  have hrun : ∃ s ∈ quoteActions.foldlM promptStep (start 900), s.sentAt = [1000, 1101] := by
    decide +kernel
  obtain ⟨s, hs, hsent⟩ := hrun
  have hr : Runs PromptStep (start 900) quoteActions s :=
    (Runs.of_foldlM hs).mono fun _ _ _ h => promptStep_of_eq h
  exact ⟨s, hr, hsent, snapshots_spaced (by decide) hr⟩

/-- An event that is handled before a timer that is due leaves the timer to a later snapshot, which
then is not held back. -/
example : ∃ s ∈ List.foldlM step (start 900)
    [.telemetry (some (.other "a")) 1000 (fun _ => 0),
      .telemetry (some (.other "b")) 1050 (fun _ => 0),
      .telemetry (some (.other "c")) 1100 (fun _ => 0),
      .telemetry (some (.other "d")) 1100 (fun _ => 0), .timer 0 1100 (fun _ => 0)],
    s.sentAt = [1000, 1100, 1100] ∧ s.timers = [1200] := by decide +kernel

end Spacing

end TradingPipeline.Dashboard
