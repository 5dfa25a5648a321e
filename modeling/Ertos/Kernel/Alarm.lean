import Ertos.Kernel.Checks
import Ertos.Kernel.Machine

/-!
# Alarm handlers are transparent

`check_timers` starts the handler of a due alarm with `handle_task_timer`, which saves the
registers, the state and the deadline of the process, and ends it with `handle_task_timer_done`,
which puts them back. In between the process runs like any other: it is preempted, it sleeps, it
sets the next alarm.

All that time `timer.active` is set, and nothing but the two functions writes to the saved fields.
So no second handler starts, and what is put back is what was there.
-/

namespace Ertos

open Transition

/-! ## The two calls -/

/-- `schedule`, called in the state `k`, makes the call `c` for `p`, whose record is then `x`. -/
def Kernel.Calls (k : Kernel) (p : Ptr) (c : TimerCall) (x : Proc) : Prop :=
  k.Checks p x ∧ timerCall k.clkticks x = some c

/-! ## While the handler runs -/

/-- The context of `x₀` is saved in `x`. -/
structure Proc.Suspended (x₀ x : Proc) : Prop where
  active : x.timer.active = true
  backupRegs : x.backupRegs = x₀.regs
  lastState : x.timer.lastState = x₀.state
  lastTicksWakeup : x.timer.lastTicksWakeup = x₀.timer.ticksWakeup

/-- What ends the handler puts back: all registers, the state, and the deadline. -/
structure Proc.Restores (x₀ x : Proc) : Prop where
  regs : x.regs = x₀.regs
  state : x.state = x₀.state
  ticksWakeup : x.timer.ticksWakeup = x₀.timer.ticksWakeup

namespace Proc.Suspended

variable {x₀ x y : Proc}

theorem handleTaskTimer (trampoline clkticks : UInt32) (x : Proc) :
    Suspended x (handleTaskTimer trampoline clkticks x) := ⟨rfl, rfl, rfl, rfl⟩

theorem handleTaskTimerDone (h : Suspended x₀ x) : Restores x₀ (handleTaskTimerDone x) :=
  ⟨h.backupRegs, h.lastState, h.lastTicksWakeup⟩

theorem congr (h : Suspended x₀ x) (hactive : y.timer.active = x.timer.active)
    (hregs : y.backupRegs = x.backupRegs) (hstate : y.timer.lastState = x.timer.lastState)
    (hticks : y.timer.lastTicksWakeup = x.timer.lastTicksWakeup) : Suspended x₀ y :=
  ⟨hactive.trans h.active, hregs.trans h.backupRegs, hstate.trans h.lastState,
    hticks.trans h.lastTicksWakeup⟩

theorem checkSleep (h : Suspended x₀ x) (clkticks : UInt32) :
    Suspended x₀ (checkSleep clkticks x) := by
  have hspec := checkSleep_spec clkticks x
  generalize Ertos.checkSleep clkticks x = y at hspec
  cases hspec with
  | wake => exact h.congr rfl rfl rfl rfl
  | same => exact h

theorem not_start (h : Suspended x₀ x) (clkticks : UInt32) :
    timerCall clkticks x ≠ some .start := by
  intro hstart
  have hactive := (timerCall_start_iff.mp hstart).1
  rw [h.active] at hactive
  exact absurd hactive (by simp)

/-- `check_timers` keeps the saved context unless it ends the handler. -/
theorem checkTimers (h : Suspended x₀ x) (trampoline : UInt32) {clkticks : UInt32}
    (hcall : timerCall clkticks x ≠ some .done) :
    Suspended x₀ (checkTimers trampoline clkticks x) := by
  have hspec := checkTimers_spec trampoline clkticks x
  generalize Ertos.checkTimers trampoline clkticks x = y at hspec
  cases hspec with
  | fire _ hactive =>
    rw [h.active] at hactive
    exact absurd hactive (by simp)
  | unwind hactive hdone => exact absurd (timerCall_done_iff.mpr ⟨hactive, hdone⟩) hcall
  | check => exact h.checkSleep clkticks

theorem requeued {k : Kernel} {p : Ptr} (h : Suspended x₀ (k.proc p)) :
    Suspended x₀ (k.requeued p) := by
  unfold Kernel.requeued
  split_ifs
  · exact h.congr rfl rfl rfl rfl
  · exact h.congr rfl rfl rfl rfl
  · exact h
  · exact h

theorem procStep {k t : Kernel} {ring : List Ptr} {p : Ptr} {e : Event}
    (h : Suspended x₀ (k.proc p)) (he : e ≠ .schedule) (hx : ProcStep k ring t p e x) :
    Suspended x₀ x := by
  cases hx with
  | same => exact h
  | passed => exact absurd rfl he
  | selected => exact absurd rfl he
  | regs => exact h.congr rfl rfl rfl rfl
  | wait => exact h.congr rfl rfl rfl rfl
  | wake => exact h.congr rfl rfl rfl rfl
  | sleep => exact h.congr rfl rfl rfl rfl
  | eventSet => exact h.congr rfl rfl rfl rfl
  | eventWait => exact h.congr rfl rfl rfl rfl
  | alarm => exact h.congr rfl rfl rfl rfl
  | uttDone => exact h.congr rfl rfl rfl rfl
  | killed => exact h.congr rfl rfl rfl rfl

end Proc.Suspended

/-! ## Along a run -/

/-- No call of `schedule` looks at a process twice. -/
def Kernel.ChecksOnce (k : Kernel) : Prop :=
  ∀ fuel, (schedule fuel k).isSome → ((checks fuel k).map Prod.fst).Nodup

theorem Ringed.checksOnce {k : Kernel} {ring : List Ptr} (hk : Ringed k ring) : k.ChecksOnce := by
  intro fuel hsome
  obtain ⟨t, ht⟩ := Option.isSome_iff_exists.mp hsome
  by_cases hprocs : k.procs = NULL
  · rw [checks, if_pos hprocs]
    exact List.nodup_nil
  · obtain ⟨l, seen, hlook⟩ := schedule_checks hk.listed hprocs ht
    exact hlook.checks_nodup

/-- The event does not end the handler of `p`. -/
def Open (p : Ptr) (k : Kernel) (e : Event) : Prop :=
  e = .schedule → ∀ y, ¬k.Calls p .done y

/-- The state of `k` while a handler of `p` runs, which interrupted `x₀`: the context of `x₀` is
saved, no handler of `p` is started, and to end this one would restore `x₀`. What `check_timers`
makes of the record it finds is the check of the sleep alone, which keeps the context, or that check
behind the end of the handler. -/
structure Handling (p : Ptr) (x₀ : Proc) (k : Kernel) : Prop where
  suspended : x₀.Suspended (k.proc p)
  checksOnce : k.ChecksOnce
  not_start : ∀ y, ¬k.Calls p .start y
  keeps : ∀ y, k.Checks p y → ¬k.Calls p .done y →
    checkTimers k.trampoline k.clkticks y = checkSleep k.clkticks y ∧
      x₀.Suspended (checkSleep k.clkticks y)
  ends : ∀ y, k.Calls p .done y →
    checkTimers k.trampoline k.clkticks y = checkSleep k.clkticks (handleTaskTimerDone y)
  restores : ∀ y, k.Calls p .done y → x₀.Restores (handleTaskTimerDone y)

/-- The invariant of `Handling`. -/
structure HandlingInv (p : Ptr) (x₀ : Proc) (k : Kernel) (ring : List Ptr) : Prop where
  ringed : Ringed k ring
  mem : p ∈ ring
  suspended : x₀.Suspended (k.proc p)

namespace HandlingInv

variable {p : Ptr} {x₀ : Proc} {k t : Kernel} {ring : List Ptr}

theorem handling (h : HandlingInv p x₀ k ring) : Handling p x₀ k := by
  -- whatever record of `p` is looked at, it is the one `requeue` left
  have hrecord : ∀ y, k.Checks p y → x₀.Suspended y := by
    intro y hy
    obtain ⟨-, -, rfl⟩ := h.ringed.listed.of_checks hy
    exact h.suspended.requeued
  refine ⟨h.suspended, h.ringed.checksOnce, fun y hy ↦ ?_, fun y hy hnot ↦ ?_, fun y hy ↦ ?_,
    fun y hy ↦ ?_⟩
  · exact (hrecord y hy.1).not_start k.clkticks hy.2
  · have hcall : timerCall k.clkticks y = none := by
      cases hc : timerCall k.clkticks y with
      | none => rfl
      | some c =>
        cases c with
        | start => exact absurd hc ((hrecord y hy).not_start k.clkticks)
        | done => exact absurd ⟨hy, hc⟩ hnot
    rw [checkTimers_eq, hcall]
    exact ⟨rfl, (hrecord y hy).checkSleep k.clkticks⟩
  · rw [checkTimers_eq, hy.2]
  · exact (hrecord y hy.1).handleTaskTimerDone

theorem schedule (h : HandlingInv p x₀ k ring) (hopen : ∀ y, ¬k.Calls p .done y) {fuel : ℕ}
    (hsched : schedule fuel k = some t) : x₀.Suspended (t.proc p) := by
  obtain ⟨l, seen, hlook⟩ := schedule_checks h.ringed.listed (h.ringed.listed.procs_ne h.mem) hsched
  have hreq := h.suspended.requeued
  refine hlook.carries (fun _ hx ↦ hx.congr rfl rfl rfl rfl) ?_
  split_ifs with hseen
  · -- looked at, but not to end the handler
    refine hreq.checkTimers k.trampoline fun hdone ↦ hopen (k.requeued p) ⟨?_, hdone⟩
    exact (hlook.checks_iff hsched).mpr ⟨hseen, rfl⟩
  · exact hreq

theorem step (h : HandlingInv p x₀ k ring) {e : Event} (hopen : Open p k e) (hst : Step k e t) :
    ∃ ring', HandlingInv p x₀ t ring' := by
  obtain ⟨ring', heff⟩ := step_effect h.ringed hst
  refine ⟨ring', heff.ringed, heff.subset h.mem, ?_⟩
  by_cases he : e = .schedule
  · subst he
    cases hst with
    | schedule hsched => exact h.schedule (hopen rfl) hsched
  · exact h.suspended.procStep he (heff.proc p (Or.inr h.mem))

theorem of_start (hk : Ringed k ring) (hstart : k.Calls p .start x₀) {fuel : ℕ}
    (hsched : Ertos.schedule fuel k = some t) : ∃ ring', HandlingInv p x₀ t ring' := by
  obtain ⟨hprocs, hmem, rfl⟩ := hk.listed.of_checks hstart.1
  obtain ⟨l, seen, hlook⟩ := schedule_checks hk.listed hprocs hsched
  obtain ⟨hseen, -⟩ := (hlook.checks_iff hsched).mp hstart.1
  obtain ⟨ring', heff⟩ := step_effect hk (.schedule hsched)
  have hcheck := checkTimers_eq k.trampoline k.clkticks (k.requeued p)
  rw [hstart.2] at hcheck
  refine ⟨ring', heff.ringed, heff.subset hmem, ?_⟩
  refine hlook.carries (fun _ hx ↦ hx.congr rfl rfl rfl rfl) ?_
  rw [if_pos hseen, hcheck]
  exact Proc.Suspended.handleTaskTimer k.trampoline k.clkticks (k.requeued p)

end HandlingInv

/-! ## The theorem -/

/-- **Alarm handlers are transparent.** From the call that starts a handler of `p`, in any state
that the kernel reaches, until the call that ends it: the context that was interrupted stays saved,
no second handler is started for `p`, and the call that ends the handler restores that context. -/
theorem alarm_transparent {k : Kernel} (hk : Booted k) {r : List (Event × Kernel)}
    (hrun : IsRun Step k r) {p : Ptr} {x₀ : Proc} {t : Kernel}
    (hstart : (last k r).Calls p .start x₀) (hst : Step (last k r) .schedule t)
    {r' : List (Event × Kernel)} (hrun' : IsRun Step t r') (hopen : Guarded (Open p) t r') :
    (last k r).ChecksOnce ∧
      checkTimers (last k r).trampoline (last k r).clkticks x₀ =
        handleTaskTimer (last k r).trampoline (last k r).clkticks x₀ ∧
      Always (Handling p x₀) t r' := by
  obtain ⟨ring, hlast⟩ := (always_ringed hk hrun).last
  have hinv : ∃ ring', HandlingInv p x₀ t ring' := by
    cases hst with
    | schedule hsched => exact HandlingInv.of_start hlast hstart hsched
  have hstep : ∀ s e u, (∃ ring, HandlingInv p x₀ s ring) → Open p s e → Step s e u →
      ∃ ring, HandlingInv p x₀ u ring := fun s e u ⟨_, hs⟩ ho hsu ↦ hs.step ho hsu
  exact ⟨hlast.checksOnce, by rw [checkTimers_eq, hstart.2],
    (always_of_guarded hstep hinv hrun' hopen).imp fun s ⟨_, hs⟩ ↦ hs.handling⟩

/-- The state in which the alarm of a process goes off, and the state in its handler. -/
def alarmKernel : Kernel :=
  last bootKernel (execRun 4 bootKernel [spawnA, .schedule, .svc (.alarm ⟨10, 0x600, true⟩), .tick])

def handlerKernel : Kernel := (schedule 4 alarmKernel).getD alarmKernel

theorem calls_alarmKernel : alarmKernel.Calls 0x5000 .start (alarmKernel.requeued 0x5000) := by
  have hchecks : checks 4 alarmKernel = [(0x5000, alarmKernel.requeued 0x5000)] := rfl
  refine ⟨⟨4, rfl, ?_⟩, by decide⟩
  rw [hchecks]
  exact List.mem_singleton.mpr rfl

/-- The handler sets the next alarm and is done. -/
theorem alarm_transparent_rearmed :
    Always (Handling 0x5000 (alarmKernel.requeued 0x5000)) handlerKernel
      (execRun 4 handlerKernel [.svc (.alarm ⟨20, 0x600, false⟩), .tick, .svc .uttDone]) := by
  have hrun : IsRun Step bootKernel
      (execRun 4 bootKernel [spawnA, .schedule, .svc (.alarm ⟨10, 0x600, true⟩), .tick]) :=
    isRun_execRun ⟨enabled_spawnA, trivial, Or.inl rfl, trivial, trivial⟩
  have hsched : schedule 4 alarmKernel = some handlerKernel := rfl
  refine (alarm_transparent booted_bootKernel hrun calls_alarmKernel (.schedule hsched)
    (isRun_execRun ?_) ?_).2.2
  · exact ⟨Or.inl rfl, trivial, Or.inl rfl, trivial⟩
  · exact ⟨by simp [Open], by simp [Open], by simp [Open], trivial⟩

end Ertos
