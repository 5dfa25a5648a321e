import Ertos.Kernel.Machine

/-!
# At most one running process

`PROC_ACTIVE` belongs to the current process alone. The state field is written all over the kernel,
and the end of an alarm handler restores it from a saved copy, so the invariant also speaks about
the copy: while a handler runs, the saved state is not `PROC_ACTIVE`. That holds because `schedule`
takes the state away from the current process before `check_timers` can save it.
-/

namespace Ertos

open Transition

/-! ## The invariant -/

/-- Neither the state nor, while it is in use, its saved copy is `PROC_ACTIVE`. -/
structure Proc.Inactive (x : Proc) : Prop where
  state : x.state ≠ .active
  lastState : x.timer.active = true → x.timer.lastState ≠ .active

theorem Proc.Inactive.checkSleep {clkticks : UInt32} {x : Proc} (h : x.Inactive) :
    (checkSleep clkticks x).Inactive := by
  have hspec := checkSleep_spec clkticks x
  generalize Ertos.checkSleep clkticks x = y at hspec
  cases hspec with
  | wake => exact ⟨by simp, h.lastState⟩
  | same => exact h

theorem Proc.Inactive.checkTimers {trampoline clkticks : UInt32} {x : Proc} (h : x.Inactive) :
    (checkTimers trampoline clkticks x).Inactive := by
  have hspec := checkTimers_spec trampoline clkticks x
  generalize Ertos.checkTimers trampoline clkticks x = y at hspec
  cases hspec with
  | fire => exact ⟨by simp [handleTaskTimer], fun _ ↦ h.state⟩
  | unwind hactive =>
    refine Proc.Inactive.checkSleep ⟨h.lastState hactive, fun hn ↦ ?_⟩
    simp [handleTaskTimerDone] at hn
  | check => exact h.checkSleep

structure ActiveInv (k : Kernel) (ring : List Ptr) : Prop where
  ringed : Ringed k ring
  active : ∀ q, q = k.idleTask ∨ q ∈ ring → (k.proc q).state = .active → q = k.cur
  lastState : ∀ q, q = k.idleTask ∨ q ∈ ring → (k.proc q).timer.active = true →
    (k.proc q).timer.lastState ≠ .active

namespace ActiveInv

variable {k t : Kernel} {ring ring' : List Ptr} {q : Ptr} {e : Event}

theorem requeued (h : ActiveInv k ring) (hq : q = k.idleTask ∨ q ∈ ring) :
    (k.requeued q).Inactive := by
  have hlast := h.lastState q hq
  unfold Kernel.requeued
  split_ifs with hcur hidle hact
  · exact ⟨by simp, hlast⟩
  · exact ⟨by simp, hlast⟩
  · exact ⟨hact, hlast⟩
  · exact ⟨fun hs ↦ hcur (h.active q hq hs), hlast⟩

theorem examined (h : ActiveInv k ring) (hq : q = k.idleTask ∨ q ∈ ring) {x : Proc}
    (hx : Examined k ring q x) : x.Inactive := by
  cases hx with
  | skipped => exact h.requeued hq
  | checked => exact (h.requeued hq).checkTimers

theorem procStep (h : ActiveInv k ring) (hq : q = k.idleTask ∨ q ∈ ring)
    (hcur : e ≠ .schedule → t.cur = k.cur) {x : Proc} (hx : ProcStep k ring t q e x) :
    (x.state = .active → q = t.cur) ∧ (x.timer.active = true → x.timer.lastState ≠ .active) := by
  have hlast := h.lastState q hq
  cases hx with
  | same hsched => exact ⟨fun hs ↦ (h.active q hq hs).trans (hcur hsched).symm, hlast⟩
  | regs hqc => exact ⟨fun _ ↦ hqc.trans (hcur (by simp)).symm, hlast⟩
  | passed hx =>
    have hx := h.examined hq hx
    exact ⟨fun hs ↦ absurd hs hx.state, hx.lastState⟩
  | selected hx hqt =>
    have hx := h.examined hq hx
    exact ⟨fun _ ↦ hqt, hx.lastState⟩
  | wait => exact ⟨by simp, hlast⟩
  | wake => exact ⟨by simp, hlast⟩
  | sleep => exact ⟨by simp, hlast⟩
  | eventSet => exact ⟨by simp, hlast⟩
  | eventWait => exact ⟨by simp, hlast⟩
  | alarm hqc => exact ⟨fun _ ↦ hqc.trans (hcur (by simp)).symm, hlast⟩
  | uttDone hqc => exact ⟨fun _ ↦ hqc.trans (hcur (by simp)).symm, hlast⟩
  | killed => exact ⟨by simp, hlast⟩

theorem step (h : ActiveInv k ring) (heff : Effect k ring e t ring') : ActiveInv t ring' := by
  have key : ∀ q, q = t.idleTask ∨ q ∈ ring' → ((t.proc q).state = .active → q = t.cur) ∧
      ((t.proc q).timer.active = true → (t.proc q).timer.lastState ≠ .active) := by
    intro q hq
    by_cases hold : q = k.idleTask ∨ q ∈ ring
    · exact h.procStep hold heff.cur (heff.proc q hold)
    · rw [not_or] at hold
      rw [heff.idleTask] at hq
      obtain ⟨-, hnew⟩ := heff.new q (hq.resolve_left hold.1) hold.2
      -- a new process is on the run queue, and has no alarm
      constructor
      · intro hs
        rw [hnew.state] at hs
        exact absurd hs (by simp)
      · intro ha
        rw [hnew.timer] at ha
        exact absurd ha (by simp [Proc.cleared])
  exact ⟨heff.ringed, fun q hq ↦ (key q hq).1, fun q hq ↦ (key q hq).2⟩

theorem boot (h : BootState k) : ActiveInv k [] := by
  refine ⟨h.ringed, fun q hq hs ↦ ?_, fun q hq ha ↦ ?_⟩ <;>
    obtain rfl := hq.resolve_right List.not_mem_nil
  · rw [h.state] at hs
    exact absurd hs (by simp)
  · rw [h.active] at ha
    exact absurd ha (by simp)

end ActiveInv

theorem always_activeInv {k : Kernel} (hk : Booted k) {r : List (Event × Kernel)}
    (hrun : IsRun Step k r) : Always (fun t ↦ ∃ ring, ActiveInv t ring) k r :=
  always_of_step
    (fun _ _ _ ⟨_, hs⟩ hst ↦ (step_effect hs.ringed hst).imp fun _ heff ↦ hs.step heff)
    ⟨[], .boot hk.bootState⟩ hrun

/-! ## The theorem -/

/-- Only the current process is active, of the idle task and the processes on the list. -/
def OneActive (k : Kernel) : Prop :=
  ∃ ring, ProcList k ring ∧
    ∀ q, q = k.idleTask ∨ q ∈ ring → (k.proc q).state = .active → q = k.cur

/-- The state `schedule` leaves: the current process is active, owns `self`, and is the idle task or
on the list. -/
structure Dispatched (k : Kernel) : Prop where
  active : (k.proc k.cur).state = .active
  self : k.self = (k.proc k.cur).self
  cur : k.cur = k.idleTask ∨ ∃ ring, ProcList k ring ∧ k.cur ∈ ring

theorem Scheduled.dispatched {k t : Kernel} {ring : List Ptr} (h : Scheduled k ring t)
    (ht : Ringed t ring) : Dispatched t where
  active := by
    obtain ⟨x, -, hx, -⟩ := h.selected
    rw [hx]
  self := h.self
  cur := ht.cur.imp_right fun hmem ↦ ⟨ring, ht.list, hmem⟩

theorem dispatched_of_step {k t : Kernel} {ring : List Ptr} (hk : Ringed k ring)
    (h : Step k .schedule t) : Dispatched t := by
  cases h with
  | schedule h =>
    obtain ⟨u, hu, -, huniq⟩ := schedule_spec hk
    obtain rfl := huniq _ t h
    exact hu.dispatched (effect_schedule hk h).ringed

/-- `schedule` ends in every state whose pointers hang together. -/
theorem exists_schedule {k : Kernel} {ring : List Ptr} (hk : Ringed k ring) :
    ∃ t, Step k .schedule t := by
  obtain ⟨t, -, hfuel, -⟩ := schedule_spec hk
  exact ⟨t, .schedule (hfuel ring.length le_rfl)⟩

/-- **One active process.** Along every run at most one process is active, and then it is `cur`;
`schedule` can be called in every state and leaves the kernel dispatched. -/
theorem always_oneActive {k : Kernel} (hk : Booted k) {r : List (Event × Kernel)}
    (hrun : IsRun Step k r) :
    Always OneActive k r ∧ (∀ t, (Event.schedule, t) ∈ r → Dispatched t) ∧
      Always (fun t ↦ ∃ u, Step t .schedule u) k r := by
  have hinv := always_activeInv hk hrun
  refine ⟨hinv.imp fun t ⟨ring, h⟩ ↦ ⟨ring, h.ringed.list, h.active⟩, fun t ht ↦ ?_,
    hinv.imp fun t ⟨ring, h⟩ ↦ exists_schedule h.ringed⟩
  obtain ⟨u, ⟨ring, hu⟩, hstep⟩ := hrun.step_of_mem hinv ht
  exact dispatched_of_step hu.ringed hstep

/-- A process runs, sleeps past its deadline and runs again. -/
theorem always_oneActive_sleepRun :
    Always OneActive bootKernel (execRun 4 bootKernel
      [spawnA, .schedule, .svc (.sleep 1), .schedule, .tick, .schedule]) := by
  refine (always_oneActive booted_bootKernel (isRun_execRun ?_)).1
  exact ⟨enabled_spawnA, trivial, Or.inl rfl, trivial, trivial, trivial, trivial⟩

end Ertos
