import TradingPipeline.Engine.KillSwitch
import TradingPipeline.Telemetry.ControlLoop

/-! # The dead-man thread

The loop of `consume` counts a heartbeat for each packet it has finished and for every 1024th
turn that finds the ring empty. The thread of `start_deadman_if_enabled` samples the counter once
per period, sets the global kill flag when it has not moved and ends. Its samples fall
anywhere between the dispatcher's steps, also inside a call of `on_book_event`: that loads
the flag once, at its top, and submits its messages later without looking again.
-/
namespace TradingPipeline.Engine
open Lib Book Telemetry

/-- The period in `HFT_DEADMAN_MS`, if the thread is to be started. -/
def deadmanMs (env : Option (List UInt8)) : Option ℕ :=
  match env with
  | none => none
  | some text =>
    match strtoul text with
    | none => none
    | some (ms, rest) => if rest ≠ [] ∨ ms = 0 then none else some ms

/-- Where the dispatcher stands: at the ring, or inside a packet, with the messages that the call
it is in has still to submit and the events still to apply. -/
inductive Phase
  | polling
  | packet (unsent : List Submit) (todo : List Event)
  deriving DecidableEq, Repr

/-- Where the dead-man thread stands: before its first load, asleep with the last value
it saw, or at its end. -/
inductive Watch
  | started
  | waiting (prev : ℕ)
  | fired
  deriving DecidableEq, Repr

/-- The dispatcher's loop beside the dead-man thread. `engine` is as it will be at the end of
the call that the dispatcher is in, `out` has the messages that were submitted so far. -/
structure Watched (api : OrderBookApi) (D : Type) where
  engine : Dispatcher api D
  out : List Submit
  phase : Phase
  idleLoops : ℕ
  heartbeat : ℕ
  deadmanEnabled : Bool
  watch : Watch

inductive WatchedAction
  | poll
  | take (events : List Event)
  | event (during : List Control)
  | submit
  | finish
  | sample
  | control (c : Control)
  deriving DecidableEq, Repr

variable {api : OrderBookApi} {D : Type}

namespace Watched

/-- `g_heartbeat.fetch_add(1)`. -/
def beat (s : Watched api D) : Watched api D := { s with heartbeat := (s.heartbeat + 1) % 2 ^ 64 }

/-- A turn of the loop that finds the ring empty. -/
def idleTurn (s : Watched api D) : Watched api D :=
  if s.deadmanEnabled then
    let s := { s with idleLoops := (s.idleLoops + 1) % 2 ^ 32 }
    if s.idleLoops &&& 0x3FF = 0 then s.beat else s
  else s

/-- The messages that the running call has still to submit. -/
def unsent (s : Watched api D) : List Submit :=
  match s.phase with
  | .polling => []
  | .packet unsent _ => unsent

def wake (s : Watched api D) (prev : ℕ) : Watched api D :=
  if s.heartbeat = prev then { s with engine := s.engine.control .killGlobal, watch := .fired }
  else { s with watch := .waiting s.heartbeat }

end Watched

/-- How many turns of the loop found the ring empty. -/
def polls (as : List WatchedAction) : ℕ := as.count .poll

section Beats
variable {s t u : Watched api D} {a : WatchedAction} {as : List WatchedAction} {n : ℕ}

theorem idle_and_mask (n : ℕ) : n % 2 ^ 32 &&& 0x3FF = n % 1024 := by
  have h := Nat.and_two_pow_sub_one_eq_mod (n % 2 ^ 32) 10
  have hmod : n % 2 ^ 32 % 2 ^ 10 = n % 2 ^ 10 := Nat.mod_mod_of_dvd n ⟨2 ^ 22, by decide⟩
  exact h.trans hmod

/-- What has happened since `s`, over actions without a sample: `n` is the number of heartbeats. -/
structure Beaten (s : Watched api D) (as : List WatchedAction) (t : Watched api D) (n : ℕ) :
    Prop where
  heartbeat : t.heartbeat = (s.heartbeat + n) % 2 ^ 64
  enabled : t.deadmanEnabled = true
  watch : t.watch = s.watch
  le : n ≤ as.length
  finished : .finish ∈ as → 0 < n
  idle : .finish ∉ as → n = (s.idleLoops % 1024 + polls as) / 1024
  loops : .finish ∉ as → t.phase = .polling →
    t.idleLoops % 1024 = (s.idleLoops + polls as) % 1024

theorem Beaten.refl (henabled : s.deadmanEnabled = true) (hs : s.heartbeat < 2 ^ 64) :
    Beaten s [] s 0 where
  heartbeat := (Nat.mod_eq_of_lt hs).symm
  enabled := henabled
  watch := rfl
  le := le_rfl
  finished h := absurd h List.not_mem_nil
  idle _ := by
    have := Nat.mod_lt s.idleLoops (show 0 < 1024 by decide)
    simp only [polls, List.count_nil]
    omega
  loops _ _ := rfl

theorem polls_snoc (as : List WatchedAction) (a : WatchedAction) :
    polls (as ++ [a]) = polls as + if a = .poll then 1 else 0 := by
  simp only [polls, List.count_append, List.count_singleton, beq_iff_eq]

theorem Beaten.other (h : Beaten s as t n) (hpoll : a ≠ .poll) (hfinish : a ≠ .finish)
    (hbeat : u.heartbeat = t.heartbeat) (henabled : u.deadmanEnabled = t.deadmanEnabled)
    (hwatch : u.watch = t.watch)
    (hloops : u.phase = .polling → t.phase = .polling ∧ u.idleLoops = t.idleLoops) :
    Beaten s (as ++ [a]) u n := by
  have hmem : WatchedAction.finish ∈ as ++ [a] ↔ .finish ∈ as := by
    simp [Ne.symm hfinish]
  have hpolls : polls (as ++ [a]) = polls as := by
    rw [polls_snoc, if_neg hpoll, Nat.add_zero]
  refine ⟨hbeat.trans h.heartbeat, henabled.trans h.enabled, hwatch.trans h.watch,
    h.le.trans (by simp), fun hin => h.finished (hmem.mp hin), fun hnot => ?_, fun hnot hp => ?_⟩
  · rw [hpolls]
    exact h.idle (fun hin => hnot (hmem.mpr hin))
  · obtain ⟨hphase, hidle⟩ := hloops hp
    rw [hpolls, hidle]
    exact h.loops (fun hin => hnot (hmem.mpr hin)) hphase

theorem Beaten.poll (h : Beaten s as t n) (hphase : t.phase = .polling) :
    ∃ n', Beaten s (as ++ [.poll]) t.idleTurn n' := by
  have hmem : WatchedAction.finish ∈ as ++ [.poll] ↔ .finish ∈ as := by simp
  have hpolls : polls (as ++ [.poll]) = polls as + 1 := by rw [polls_snoc, if_pos rfl]
  have hlen : (as ++ [WatchedAction.poll]).length = as.length + 1 := by simp
  have hle := h.le
  have hloops := h.loops
  have hidle := h.idle
  have hmask := idle_and_mask (t.idleLoops + 1)
  have hwrap : (t.idleLoops + 1) % 2 ^ 32 % 1024 = (t.idleLoops + 1) % 1024 :=
    Nat.mod_mod_of_dvd _ ⟨2 ^ 22, by decide⟩
  unfold Watched.idleTurn
  rw [if_pos h.enabled]
  dsimp only
  rw [hmask]
  by_cases hzero : (t.idleLoops + 1) % 1024 = 0
  · rw [if_pos hzero]
    refine ⟨n + 1, ?_, h.enabled, h.watch, by omega, fun _ => Nat.succ_pos n, fun hnot => ?_,
      fun hnot _ => ?_⟩
    · show (t.heartbeat + 1) % 2 ^ 64 = _
      rw [h.heartbeat]
      omega
    · have hi := hidle fun hin => hnot (hmem.mpr hin)
      have hl := hloops (fun hin => hnot (hmem.mpr hin)) hphase
      omega
    · have hl := hloops (fun hin => hnot (hmem.mpr hin)) hphase
      show (t.idleLoops + 1) % 2 ^ 32 % 1024 = _
      omega
  · rw [if_neg hzero]
    refine ⟨n, h.heartbeat, h.enabled, h.watch, by omega, fun hin => h.finished (hmem.mp hin),
      fun hnot => ?_, fun hnot _ => ?_⟩
    · have hi := hidle fun hin => hnot (hmem.mpr hin)
      have hl := hloops (fun hin => hnot (hmem.mpr hin)) hphase
      omega
    · have hl := hloops (fun hin => hnot (hmem.mpr hin)) hphase
      show (t.idleLoops + 1) % 2 ^ 32 % 1024 = _
      omega

theorem Beaten.finish (h : Beaten s as t n) :
    Beaten s (as ++ [.finish])
      (if t.deadmanEnabled then { t with phase := .polling }.beat else { t with phase := .polling })
      (n + 1) := by
  have hmem : WatchedAction.finish ∈ as ++ [.finish] := by simp
  have hle := h.le
  rw [if_pos h.enabled]
  refine ⟨?_, h.enabled, h.watch, by simp [hle], fun _ => Nat.succ_pos n,
    fun hnot => absurd hmem hnot, fun hnot => absurd hmem hnot⟩
  show (t.heartbeat + 1) % 2 ^ 64 = _
  rw [h.heartbeat]
  omega

theorem wake_watch (s : Watched api D) (prev : ℕ) :
    (s.wake prev).watch = .fired ↔ s.heartbeat = prev := by
  unfold Watched.wake
  split
  · next h => exact ⟨fun _ => h, fun _ => rfl⟩
  · next h => exact ⟨nofun, fun heq => absurd heq h⟩

end Beats

theorem globalKill_controls {g : Dispatcher api D} (hkill : g.globalKill = true)
    {cs : List Control} (hno : .armAll ∉ cs) : (g.controls cs).globalKill = true := by
  induction cs generalizing g with
  | nil => exact hkill
  | cons c cs ih =>
    rw [Dispatcher.controls, List.foldl_cons]
    refine ih ?_ fun hin => hno (List.mem_cons_of_mem c hin)
    cases c with
    | armAll => exact absurd List.mem_cons_self hno
    | killGlobal => rfl
    | _ => exact hkill

variable [DoubleArith D]

namespace Watched

def start (api : OrderBookApi) (p : Params D) (env : Option (List UInt8)) : Watched api D where
  engine := .init api p
  out := []
  phase := .polling
  idleLoops := 0
  heartbeat := 0
  deadmanEnabled := (deadmanMs env).isSome
  watch := .started

def step (p : Params D) (s : Watched api D) : WatchedAction → Option (Watched api D)
  | .poll =>
    match s.phase with
    | .polling => some s.idleTurn
    | .packet _ _ => none
  | .take events =>
    match s.phase with
    | .polling => some { s with idleLoops := 0, phase := .packet [] events }
    | .packet _ _ => none
  -- up to the load of the kill flag; nothing that the call does afterwards depends on the others
  | .event during =>
    match s.phase with
    | .packet [] (e :: todo) =>
      (applyEvent p s.engine e during).map fun g =>
        { s with engine := g, phase := .packet (g.submitted.drop s.engine.submitted.length) todo }
    | _ => none
  | .submit =>
    match s.phase with
    | .packet (m :: unsent) todo =>
      some { s with out := s.out ++ [m], phase := .packet unsent todo }
    | _ => none
  | .finish =>
    match s.phase with
    | .packet [] [] =>
      let s := { s with phase := .polling }
      some (if s.deadmanEnabled then s.beat else s)
    | _ => none
  | .sample =>
    if s.deadmanEnabled then
      match s.watch with
      | .started => some { s with watch := .waiting s.heartbeat }
      | .waiting prev => some (s.wake prev)
      | .fired => none
    else none
  | .control c => some { s with engine := s.engine.control c }

def Step (p : Params D) (s : Watched api D) (a : WatchedAction) (t : Watched api D) : Prop :=
  s.step p a = some t

section Steps
variable {p : Params D} {s t u : Watched api D} {a : WatchedAction} {as : List WatchedAction}

inductive Moves (p : Params D) (s : Watched api D) : WatchedAction → Watched api D → Prop
  | poll (h : s.phase = .polling) : Moves p s .poll s.idleTurn
  | take (events : List Event) (h : s.phase = .polling) :
      Moves p s (.take events) { s with idleLoops := 0, phase := .packet [] events }
  | event {e : Event} {todo : List Event} {during : List Control} {g : Dispatcher api D}
      (h : s.phase = .packet [] (e :: todo)) (hg : applyEvent p s.engine e during = some g) :
      Moves p s (.event during)
        { s with engine := g, phase := .packet (g.submitted.drop s.engine.submitted.length) todo }
  | submit {m : Submit} {unsent : List Submit} {todo : List Event}
      (h : s.phase = .packet (m :: unsent) todo) :
      Moves p s .submit { s with out := s.out ++ [m], phase := .packet unsent todo }
  | finish (h : s.phase = .packet [] []) :
      Moves p s .finish
        (if s.deadmanEnabled then { s with phase := .polling }.beat else
          { s with phase := .polling })
  | firstSample (he : s.deadmanEnabled = true) (hw : s.watch = .started) :
      Moves p s .sample { s with watch := .waiting s.heartbeat }
  | wake {prev : ℕ} (he : s.deadmanEnabled = true) (hw : s.watch = .waiting prev) :
      Moves p s .sample (s.wake prev)
  | control (c : Control) : Moves p s (.control c) { s with engine := s.engine.control c }

theorem Step.moves (h : Step p s a t) : Moves p s a t := by
  unfold Step step at h
  cases a with
  | poll =>
    cases hp : s.phase <;> simp only [hp] at h
    · exact Option.some.inj h ▸ .poll hp
    · cases h
  | take events =>
    cases hp : s.phase <;> simp only [hp] at h
    · exact Option.some.inj h ▸ .take events hp
    · cases h
  | event during =>
    simp only at h
    split at h
    · next hp =>
      obtain ⟨g, hg, rfl⟩ := Option.map_eq_some_iff.mp h
      exact .event hp hg
    · cases h
  | submit =>
    simp only at h
    split at h
    · next hp => exact Option.some.inj h ▸ .submit hp
    · cases h
  | finish =>
    simp only at h
    split at h
    · next hp => exact Option.some.inj h ▸ .finish hp
    · cases h
  | sample =>
    simp only at h
    split at h
    · next he =>
      split at h
      · next hw => exact Option.some.inj h ▸ .firstSample he hw
      · next hw => exact Option.some.inj h ▸ .wake he hw
      · cases h
    · cases h
  | control c => exact Option.some.inj h ▸ .control c

theorem Step.heartbeat_lt (h : Step p s a t) (hs : s.heartbeat < 2 ^ 64) :
    t.heartbeat < 2 ^ 64 := by
  have hbeat : ∀ u : Watched api D, u.beat.heartbeat < 2 ^ 64 :=
    fun u => Nat.mod_lt _ (by decide)
  cases h.moves with
  | poll =>
    unfold idleTurn
    dsimp only
    split
    · split
      · exact hbeat _
      · exact hs
    · exact hs
  | finish =>
    split
    · exact hbeat _
    · exact hs
  | wake =>
    unfold wake
    split <;> exact hs
  | _ => exact hs

theorem runs_heartbeat_lt {env : Option (List UInt8)} (hr : Runs (Step p) (start api p env) as s) :
    s.heartbeat < 2 ^ 64 :=
  hr.invariant (P := fun s => s.heartbeat < 2 ^ 64) (Nat.two_pow_pos 64)
    fun _ _ _ hs h => h.heartbeat_lt hs

theorem Step.enabled_eq (h : Step p s a t) : t.deadmanEnabled = s.deadmanEnabled := by
  cases h.moves with
  | poll =>
    unfold idleTurn
    dsimp only
    split
    · split <;> rfl
    · rfl
  | finish => split <;> rfl
  | wake =>
    unfold wake
    split <;> rfl
  | _ => rfl

end Steps

end Watched

section Samples
variable {p : Params D} {s t u : Watched api D} {a : WatchedAction} {as : List WatchedAction}
  {env : Option (List UInt8)}

/-- The heartbeats over a run without a sample. -/
theorem exists_beaten (hr : Runs (Watched.Step p) s as t) (henabled : s.deadmanEnabled = true)
    (hs : s.heartbeat < 2 ^ 64) (hno : .sample ∉ as) : ∃ n, Beaten s as t n := by
  induction hr with
  | nil => exact ⟨0, .refl henabled hs⟩
  | @snoc as a t u _ he ih =>
    obtain ⟨n, h⟩ := ih fun hin => hno (List.mem_append_left _ hin)
    cases he.moves with
    | poll hphase => exact h.poll hphase
    | take events hphase => exact ⟨n, h.other (by simp) (by simp) rfl rfl rfl nofun⟩
    | event hphase hg => exact ⟨n, h.other (by simp) (by simp) rfl rfl rfl nofun⟩
    | submit hphase => exact ⟨n, h.other (by simp) (by simp) rfl rfl rfl nofun⟩
    | finish hphase => exact ⟨n + 1, h.finish⟩
    | firstSample => exact absurd (by simp) hno
    | wake => exact absurd (by simp) hno
    | control c => exact ⟨n, h.other (by simp) (by simp) rfl rfl rfl fun hp => ⟨hp, rfl⟩⟩

/-- Between two samples the dead-man thread fires exactly if the dispatcher has not finished a
packet and its idle turns have not reached the next multiple of 1024. In particular a dispatcher
that makes 1024 turns of its loop per period is never killed. -/
theorem deadman_fires_iff {bs : List WatchedAction}
    (hr : Runs (Watched.Step p) (Watched.start api p env) as s)
    (hs : s.watch = .waiting s.heartbeat) (hb : Runs (Watched.Step p) s bs t)
    (hno : .sample ∉ bs) (hlen : bs.length < 2 ^ 64) (hsample : Watched.Step p t .sample u) :
    u.watch = .fired ↔ .finish ∉ bs ∧ s.idleLoops % 1024 + polls bs < 1024 := by
  have hlt := Watched.runs_heartbeat_lt hr
  have hsame : t.deadmanEnabled = s.deadmanEnabled :=
    hb.invariant (P := fun t => t.deadmanEnabled = s.deadmanEnabled) rfl
      fun _ _ _ heq he => he.enabled_eq.trans heq
  cases hsample.moves with
  | firstSample he hw =>
    obtain ⟨n, h⟩ := exists_beaten hb (hsame ▸ he) hlt hno
    rw [h.watch, hs] at hw
    cases hw
  | @wake prev he hw =>
    obtain ⟨n, h⟩ := exists_beaten hb (hsame ▸ he) hlt hno
    obtain rfl : s.heartbeat = prev := by
      rw [h.watch, hs] at hw
      exact Watch.waiting.inj hw
    have hcount : t.heartbeat = s.heartbeat ↔ n = 0 := by
      have hle := h.le
      rw [h.heartbeat]
      omega
    rw [wake_watch, hcount]
    constructor
    · intro hzero
      have hnot : WatchedAction.finish ∉ bs := fun hin => by
        have := h.finished hin
        omega
      have hidle := h.idle hnot
      exact ⟨hnot, by omega⟩
    · rintro ⟨hnot, hidle⟩
      rw [h.idle hnot]
      exact Nat.div_eq_of_lt hidle

/-- One packet is finished before the thread of a dead man with a period of half a second samples
for the second time. -/
def firstPeriod : List WatchedAction := [.sample, .take [], .finish, .sample]

/-- Over the next period the dispatcher either finishes another packet, with a quote for each side,
or it makes one turn that finds the ring empty. -/
def busyPeriod : List WatchedAction :=
  [.take [addEvent 1 'B' 100 9900, addEvent 2 'S' 100 10100], .event [], .event [], .submit,
    .submit, .finish]

/-- The counter has moved in the first period. It moves again with the packet, and the thread
sleeps on; one idle turn does not move it, and the thread fires. -/
theorem deadman_fires_iff_busyPeriod : ∃ s t u v : Watched demoApi ℚ,
    Runs (Watched.Step Params.default)
      (Watched.start demoApi Params.default (some (ascii "500"))) firstPeriod s ∧
    s.watch = .waiting 1 ∧
    Runs (Watched.Step Params.default) s busyPeriod t ∧ t.heartbeat = 2 ∧
    Watched.Step Params.default t .sample u ∧ u.watch ≠ .fired ∧
    Watched.Step Params.default s.idleTurn .sample v ∧ v.watch = .fired := by
  have hrun : ∃ s ∈ firstPeriod.foldlM (Watched.step Params.default)
        (Watched.start demoApi (Params.default : Params ℚ) (some (ascii "500"))),
      s.watch = .waiting 1 ∧ s.heartbeat = 1 ∧ s.phase = .polling ∧ s.idleLoops = 0 ∧
      (∃ t ∈ busyPeriod.foldlM (Watched.step Params.default) s, t.heartbeat = 2 ∧
        (t.step Params.default .sample).isSome = true) ∧
      (s.idleTurn.step Params.default .sample).isSome = true := by decide +kernel
  obtain ⟨s, hs, hwatch, hbeat, hphase, hidle, ⟨t, ht, htwo, htsome⟩, hisome⟩ := hrun
  obtain ⟨u, hu⟩ := Option.isSome_iff_exists.mp htsome
  obtain ⟨v, hv⟩ := Option.isSome_iff_exists.mp hisome
  have hwait : s.watch = .waiting s.heartbeat := by rw [hwatch, hbeat]
  have hpoll : Runs (Watched.Step Params.default) s [.poll] s.idleTurn := by
    refine Runs.single ?_
    rw [Watched.Step, Watched.step]
    simp only [hphase]
  refine ⟨s, t, u, v, Runs.of_foldlM hs, hwatch, Runs.of_foldlM ht, htwo, hu, ?_, hv, ?_⟩
  · rw [Ne, deadman_fires_iff (Runs.of_foldlM hs) hwait (Runs.of_foldlM ht) (by decide) (by decide)
      hu]
    exact fun h => h.1 (by decide)
  · refine (deadman_fires_iff (Runs.of_foldlM hs) hwait hpoll (by decide) (by decide) hv).mpr
      ⟨by decide, ?_⟩
    rw [hidle]
    decide

/-- An action with a store that clears the global kill flag. -/
def WatchedAction.Arms : WatchedAction → Prop
  | .control c => c = .armAll
  | .event during => .armAll ∈ during
  | _ => False

theorem applyEvent_killed {g g' : Dispatcher api D} {e : Event} {during : List Control}
    (h : applyEvent p g e during = some g') (hkill : g.globalKill = true)
    (hno : .armAll ∉ during) : g'.globalKill = true ∧ g'.submitted = g.submitted := by
  have hstep : Step p g (.event e during) g' := h
  cases hstep.effect with
  | ignored _ _ =>
    exact ⟨globalKill_controls hkill hno, (g.controls_frame during).2.2.1⟩
  | @applied _ _ shard a g₁ g₂ hs ht ha h₁ h₂ =>
    have hkill₁ : g₁.globalKill = true := h₁ ▸ hkill
    have hkill₂ : g₂.globalKill = true := h₂ ▸ globalKill_controls hkill₁ hno
    have hsub₂ : g₂.submitted = g.submitted := by
      rw [h₂, (g₁.controls_frame during).2.2.1, h₁]
      exact onTradePrint_submitted e _ (g.desk shard)
    have hkilled : g₂.killed shard = true := by rw [Dispatcher.killed, hkill₂, Bool.true_or]
    rw [runStrategy_killed p hkilled]
    exact ⟨hkill₂, (Desk.flatten_submitted _).trans hsub₂⟩

/-- Until somebody arms the engine again, only what the running call has still to submit goes
out. -/
theorem Watched.Step.killed (h : Watched.Step p s a t) (hkill : s.engine.globalKill = true)
    (harm : ¬a.Arms) :
    t.engine.globalKill = true ∧ ∃ late, t.out = s.out ++ late ∧ s.unsent = late ++ t.unsent := by
  have hnone : ∀ t : Watched api D, t.out = s.out → t.unsent = s.unsent →
      ∃ late, t.out = s.out ++ late ∧ s.unsent = late ++ t.unsent :=
    fun t hout hunsent => ⟨[], by rw [hout, List.append_nil], hunsent.symm⟩
  cases h.moves with
  | poll =>
    unfold Watched.idleTurn
    dsimp only
    split
    · split <;> exact ⟨hkill, hnone _ rfl rfl⟩
    · exact ⟨hkill, hnone _ rfl rfl⟩
  | take events hphase => exact ⟨hkill, hnone _ rfl (by simp [Watched.unsent, hphase])⟩
  | event hphase hg =>
    obtain ⟨hkill', hsub⟩ := applyEvent_killed hg hkill harm
    refine ⟨hkill', hnone _ rfl ?_⟩
    simp [Watched.unsent, hphase, hsub]
  | @submit m unsent todo hphase =>
    exact ⟨hkill, [m], rfl, by simp [Watched.unsent, hphase]⟩
  | finish hphase =>
    split <;> exact ⟨hkill, hnone _ rfl (by simp [Watched.unsent, hphase, Watched.beat])⟩
  | firstSample => exact ⟨hkill, hnone _ rfl rfl⟩
  | wake =>
    unfold Watched.wake
    split
    · exact ⟨rfl, hnone _ rfl rfl⟩
    · exact ⟨hkill, hnone _ rfl rfl⟩
  | control c =>
    have hno : .armAll ∉ [c] := fun hin => harm (List.mem_singleton.mp hin).symm
    exact ⟨globalKill_controls hkill hno, hnone _ rfl rfl⟩

/-- A call has at most two messages, and what went out is what the engine decided on before. -/
structure Watched.Sending (s : Watched api D) : Prop where
  submitted : s.engine.submitted = s.out ++ s.unsent
  two : s.unsent.length ≤ 2

theorem applyEvent_submits_le {g g' : Dispatcher api D} {e : Event} {during : List Control}
    (h : applyEvent p g e during = some g') :
    ∃ new, g'.submitted = g.submitted ++ new ∧ new.length ≤ 2 := by
  have hstep : Step p g (.event e during) g' := h
  cases hstep.effect with
  | ignored _ _ =>
    exact ⟨[], by rw [List.append_nil]; exact (g.controls_frame during).2.2.1, Nat.zero_le 2⟩
  | @applied _ _ shard a g₁ g₂ hs ht ha h₁ h₂ =>
    have hsub₂ : g₂.submitted = g.submitted := by
      rw [h₂, (g₁.controls_frame during).2.2.1, h₁]
      exact onTradePrint_submitted e _ (g.desk shard)
    rw [← hsub₂]
    exact onBookEvent_submits_le p (topOfBook (g₂.books shard).book) (locateOf shard) g₂.globalKill
      e.ts (g₂.desk shard)

theorem Watched.Step.sending (h : Watched.Step p s a t) (hs : s.Sending) : t.Sending := by
  have hkept : ∀ t : Watched api D, t.engine.submitted = s.engine.submitted → t.out = s.out →
      t.unsent = s.unsent → t.Sending :=
    fun t hsub hout hunsent => ⟨by rw [hsub, hout, hunsent]; exact hs.submitted,
      hunsent ▸ hs.two⟩
  cases h.moves with
  | poll =>
    unfold Watched.idleTurn
    dsimp only
    split
    · split <;> exact hkept _ rfl rfl rfl
    · exact hkept _ rfl rfl rfl
  | take events hphase => exact hkept _ rfl rfl (by simp [Watched.unsent, hphase])
  | event hphase hg =>
    obtain ⟨new, hnew, htwo⟩ := applyEvent_submits_le hg
    have hout := hs.submitted
    simp only [Watched.unsent, hphase, List.append_nil] at hout
    refine ⟨?_, ?_⟩
    · simp only [Watched.unsent, hnew, List.drop_left, hout]
    · simpa only [Watched.unsent, hnew, List.drop_left] using htwo
  | @submit m unsent todo hphase =>
    have hsub := hs.submitted
    have htwo := hs.two
    simp only [Watched.unsent, hphase] at hsub htwo
    refine ⟨?_, Nat.le_of_succ_le htwo⟩
    simp only [Watched.unsent, hsub, List.append_assoc, List.singleton_append]
  | finish hphase =>
    split <;> exact hkept _ rfl rfl (by simp [Watched.unsent, hphase, Watched.beat])
  | firstSample => exact hkept _ rfl rfl rfl
  | wake =>
    unfold Watched.wake
    split <;> exact hkept _ rfl rfl rfl
  | control c => exact hkept _ (s.engine.control_frame c).2.2.1 rfl rfl

theorem runs_sending (hr : Runs (Watched.Step p) (Watched.start api p env) as s) : s.Sending :=
  hr.invariant (P := Watched.Sending) ⟨rfl, Nat.zero_le 2⟩ fun _ _ _ hs h => h.sending hs

/-- The dispatcher has not left its packet since `s`, over `k` samples. -/
structure Stalled (s t : Watched api D) (k : ℕ) : Prop where
  phase : ∃ unsent todo, t.phase = .packet unsent todo
  heartbeat : t.heartbeat = s.heartbeat
  watch : (k = 0 ∧ t.watch = s.watch) ∨ (k = 1 ∧ t.watch = .waiting s.heartbeat) ∨
    t.watch = .fired
  killed : t.watch = .fired → t.engine.globalKill = true

theorem Stalled.sample {k : ℕ} (h : Stalled s t k) (he : Watched.Step p t .sample u) :
    Stalled s u (k + 1) := by
  cases he.moves with
  | firstSample _ hw =>
    refine ⟨h.phase, h.heartbeat, ?_, nofun⟩
    rcases h.watch with ⟨rfl, -⟩ | ⟨-, hwait⟩ | hfired
    · exact .inr (.inl ⟨rfl, congrArg Watch.waiting h.heartbeat⟩)
    · rw [hw] at hwait
      cases hwait
    · rw [hw] at hfired
      cases hfired
  | @wake prev _ hw =>
    unfold Watched.wake
    split
    · exact ⟨h.phase, h.heartbeat, .inr (.inr rfl), fun _ => rfl⟩
    · next hne =>
      refine ⟨h.phase, h.heartbeat, ?_, nofun⟩
      rcases h.watch with ⟨rfl, -⟩ | ⟨-, hwait⟩ | hfired
      · exact .inr (.inl ⟨rfl, congrArg Watch.waiting h.heartbeat⟩)
      · rw [hw] at hwait
        exact absurd (h.heartbeat.trans (Watch.waiting.inj hwait).symm) hne
      · rw [hw] at hfired
        cases hfired

theorem Stalled.other {k : ℕ} (h : Stalled s t k) (he : Watched.Step p t a u) (harm : ¬a.Arms)
    (hphase : ∃ unsent todo, u.phase = .packet unsent todo) (hbeat : u.heartbeat = t.heartbeat)
    (hwatch : u.watch = t.watch) : Stalled s u k where
  phase := hphase
  heartbeat := hbeat.trans h.heartbeat
  watch := hwatch ▸ h.watch
  killed hfired := (he.killed (h.killed (hwatch ▸ hfired)) harm).1

theorem stalled_of_run {bs : List WatchedAction} (hphase : s.phase ≠ .polling)
    (hwatch : s.watch ≠ .fired)
    (hb : Runs (Watched.Step p) s bs t) (hstall : .finish ∉ bs) (harm : ∀ a ∈ bs, ¬a.Arms) :
    Stalled s t (bs.count .sample) := by
  induction hb with
  | nil =>
    refine ⟨?_, rfl, .inl ⟨rfl, rfl⟩, fun hfired => absurd hfired hwatch⟩
    cases hp : s.phase with
    | polling => exact absurd hp hphase
    | packet unsent todo => exact ⟨unsent, todo, rfl⟩
  | @snoc bs a t u _ he ih =>
    have h := ih (fun hin => hstall (List.mem_append_left _ hin))
      fun b hb => harm b (List.mem_append_left _ hb)
    have harm_a : ¬a.Arms := harm a (by simp)
    obtain ⟨unsent, rest, hrest⟩ := h.phase
    rw [List.count_append, List.count_singleton]
    cases he.moves with
    | poll hp =>
      rw [hp] at hrest
      cases hrest
    | take events hp =>
      rw [hp] at hrest
      cases hrest
    | event hp hg => exact h.other he harm_a ⟨_, _, rfl⟩ rfl rfl
    | submit hp => exact h.other he harm_a ⟨_, _, rfl⟩ rfl rfl
    | finish => exact absurd (by simp) hstall
    | firstSample => exact h.sample he
    | wake => exact h.sample he
    | control c => exact h.other he harm_a ⟨unsent, rest, hrest⟩ rfl rfl

theorem Watched.Step.fired (h : Watched.Step p s a t) (hs : s.watch = .fired) :
    t.watch = .fired := by
  cases h.moves with
  | poll =>
    unfold Watched.idleTurn
    dsimp only
    split
    · split <;> exact hs
    · exact hs
  | finish => split <;> exact hs
  | firstSample _ hw =>
    rw [hs] at hw
    cases hw
  | wake _ hw =>
    rw [hs] at hw
    cases hw
  | _ => exact hs

/-- A dispatcher that does not get out of a packet is killed by the second sample at the latest.
From then on, also when it goes on and until the engine is armed again, nothing is submitted but
what the call that it is in decided on before: at most two messages. -/
theorem stalled_dispatcher_stopped {bs : List WatchedAction}
    (hr : Runs (Watched.Step p) (Watched.start api p env) as s)
    (hphase : s.phase ≠ .polling) (hwatch : s.watch ≠ .fired)
    (hb : Runs (Watched.Step p) s bs t) (hstall : .finish ∉ bs) (harm : ∀ a ∈ bs, ¬a.Arms) :
    (2 ≤ bs.count .sample → t.watch = .fired) ∧
      (t.watch = .fired → t.unsent.length ≤ 2 ∧
        ∀ cs v, Runs (Watched.Step p) t cs v → (∀ a ∈ cs, ¬a.Arms) →
          v.engine.globalKill = true ∧ v.watch = .fired ∧
            ∃ late, v.out = t.out ++ late ∧ late <+: t.unsent) := by
  have h := stalled_of_run hphase hwatch hb hstall harm
  refine ⟨fun htwo => ?_, fun hfired => ⟨(runs_sending (hr.trans hb)).two, fun cs v hv hcs => ?_⟩⟩
  · rcases h.watch with ⟨hk, -⟩ | ⟨hk, -⟩ | hfired
    · omega
    · omega
    · exact hfired
  · have hall : v.engine.globalKill = true ∧ v.watch = .fired ∧
        ∃ late, v.out = t.out ++ late ∧ t.unsent = late ++ v.unsent := by
      induction hv with
      | nil => exact ⟨h.killed hfired, hfired, [], (List.append_nil _).symm, rfl⟩
      | @snoc cs a v w _ he ih =>
        obtain ⟨hkill, hend, late, hout, hunsent⟩ :=
          ih fun b hb => hcs b (List.mem_append_left _ hb)
        obtain ⟨hkill', late', hout', hunsent'⟩ := he.killed hkill (hcs a (by simp))
        refine ⟨hkill', he.fired hend, late ++ late', ?_, ?_⟩
        · rw [hout', hout, List.append_assoc]
        · rw [hunsent, hunsent', List.append_assoc]
    obtain ⟨hkill, hend, late, hout, hunsent⟩ := hall
    exact ⟨hkill, hend, late, hout, hunsent ▸ List.prefix_append late _⟩

/-- The dispatcher gets as far as the first of two messages for its second event. -/
def intoSecondEvent : List WatchedAction :=
  [.take [addEvent 1 'B' 100 9900, addEvent 2 'S' 100 10100, addEvent 3 'B' 100 10000],
    .event [], .event [], .submit]

/-- The dispatcher stops with the bid submitted and the ask not, over two samples. When it goes on
the ask still goes out, and the third event makes it submit nothing. -/
theorem stalled_dispatcher_stopped_inCall : ∃ s t v : Watched demoApi ℚ,
    Runs (Watched.Step Params.default)
      (Watched.start demoApi Params.default (some (ascii "500"))) intoSecondEvent s ∧
    Runs (Watched.Step Params.default) s [.sample, .sample] t ∧
    Runs (Watched.Step Params.default) t [.submit, .event [], .finish] v ∧
    t.out.map (fun m => (m.side, m.px)) = [(.buy, 99)] ∧
    v.out.map (fun m => (m.side, m.px)) = [(.buy, 99), (.sell, 101)] ∧
    t.watch = .fired ∧ t.unsent.length ≤ 2 ∧ v.engine.globalKill = true ∧
    ∃ late, v.out = t.out ++ late ∧ late <+: t.unsent := by
  have hrun : ∃ s ∈ intoSecondEvent.foldlM (Watched.step Params.default)
        (Watched.start demoApi (Params.default : Params ℚ) (some (ascii "500"))),
      s.phase ≠ .polling ∧ s.watch ≠ .fired ∧
      ∃ t ∈ [.sample, .sample].foldlM (Watched.step Params.default) s,
        t.out.map (fun m => (m.side, m.px)) = [(.buy, 99)] ∧
        ∃ v ∈ [.submit, .event [], .finish].foldlM (Watched.step Params.default) t,
          v.out.map (fun m => (m.side, m.px)) = [(.buy, 99), (.sell, 101)] := by decide +kernel
  obtain ⟨s, hs, hphase, hwatch, t, ht, hone, v, hv, htwo⟩ := hrun
  obtain ⟨hfires, hafter⟩ := stalled_dispatcher_stopped (Runs.of_foldlM hs) hphase hwatch
    (Runs.of_foldlM ht) (by decide) (by simp [WatchedAction.Arms])
  have hfired := hfires (by decide)
  obtain ⟨hlen, hrest⟩ := hafter hfired
  obtain ⟨hkill, -, hlate⟩ := hrest _ v (Runs.of_foldlM hv) (by simp [WatchedAction.Arms])
  exact ⟨s, t, v, Runs.of_foldlM hs, Runs.of_foldlM ht, Runs.of_foldlM hv, hone, htwo, hfired, hlen,
    hkill, hlate⟩

end Samples

end TradingPipeline.Engine
