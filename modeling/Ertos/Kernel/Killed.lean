import Ertos.Kernel.Machine

/-!
# Killing a process

`user_page_fault` sets the state of the current process to `PROC_KILLED`, and clears its deadline
and its event mask. It leaves three things that can bring the process back: its entries in wait
FIFOs, an armed alarm, and an alarm handler that has finished but is not yet unwound. The idle task
is put to sleep by the next `schedule` whatever its state.

`always_killed` says that these are all: a process that is killed with none of them stays killed.
-/

namespace Ertos

open Transition

/-- What the current process must not leave behind when it is killed. -/
structure KillSafe (k : Kernel) : Prop where
  idle : k.cur ≠ k.idleTask
  wait : ∀ c, k.cur ∉ (k.wait c).contents
  unwound : ¬((k.proc k.cur).timer.active = true ∧ (k.proc k.cur).timer.done = true)
  disarmed : (k.proc k.cur).timer.next = 0 ∨ (k.proc k.cur).timer.active = true

/-- `p` is dead for good. -/
structure Dead (k : Kernel) (ring : List Ptr) (p : Ptr) : Prop where
  ringed : Ringed k ring
  mem : p ∈ ring
  killed : (k.proc p).state = .killed
  eventMask : (k.proc p).eventMask = 0
  wait : ∀ c, p ∉ (k.wait c).contents
  unwound : ¬((k.proc p).timer.active = true ∧ (k.proc p).timer.done = true)
  disarmed : (k.proc p).timer.next = 0 ∨ (k.proc p).timer.active = true

theorem checkTimers_of_killed (trampoline clkticks : UInt32) {x : Proc}
    (hkilled : x.state = .killed) (hunwound : ¬(x.timer.active = true ∧ x.timer.done = true))
    (hdisarmed : x.timer.next = 0 ∨ x.timer.active = true) :
    checkTimers trampoline clkticks x = x := by
  have hspec := checkTimers_spec trampoline clkticks x
  generalize checkTimers trampoline clkticks x = y at hspec
  cases hspec with
  | fire hnext hactive =>
    rcases hdisarmed with h | h
    · rw [h] at hnext
      exact absurd hnext (by decide)
    · rw [hactive] at h
      exact absurd h (by simp)
  | unwind hactive hdone => exact absurd ⟨hactive, hdone⟩ hunwound
  | check => simp [checkSleep, hkilled]

namespace Dead

variable {k t : Kernel} {ring ring' : List Ptr} {p : Ptr} {e : Event}

theorem ne_idle (h : Dead k ring p) : p ≠ k.idleTask :=
  fun hp ↦ h.ringed.idle_notMem (hp ▸ h.mem)

theorem not_running (h : Dead k ring p) (hp : p = k.cur) : ¬k.Running := by
  rintro (hs | hs) <;> rw [← hp, h.killed] at hs <;> exact absurd hs (by simp)

theorem examined (h : Dead k ring p) {x : Proc} (hx : Examined k ring p x) : x = k.proc p := by
  have hreq : k.requeued p = k.proc p := by
    unfold Kernel.requeued
    split_ifs with hcur hidle hact
    · exact absurd (hcur.trans hidle) h.ne_idle
    · rw [h.killed] at hact
      exact absurd hact (by simp)
    · rfl
    · rfl
  cases hx with
  | skipped => exact hreq
  | checked =>
    rw [hreq]
    exact checkTimers_of_killed _ _ h.killed h.unwound h.disarmed

/-- A step changes nothing but the saved registers, and does not select the process. -/
theorem procStep (h : Dead k ring p) {x : Proc} (hx : ProcStep k ring t p e x) :
    x.state = .killed ∧ x.eventMask = 0 ∧ x.timer.active = (k.proc p).timer.active ∧
      x.timer.done = (k.proc p).timer.done ∧ x.timer.next = (k.proc p).timer.next ∧
      (e = .schedule → p ≠ t.cur) := by
  cases hx with
  | same hsched => exact ⟨h.killed, h.eventMask, rfl, rfl, rfl, fun he ↦ absurd he hsched⟩
  | regs => exact ⟨h.killed, h.eventMask, rfl, rfl, rfl, by simp⟩
  | passed hx hp =>
    obtain rfl := h.examined hx
    exact ⟨h.killed, h.eventMask, rfl, rfl, rfl, fun _ ↦ hp⟩
  | selected hx _ hrun =>
    obtain rfl := h.examined hx
    have hs := hrun h.ne_idle
    rw [h.killed] at hs
    exact absurd hs (by simp)
  | wait hp hrun => exact absurd hrun (h.not_running hp)
  | wake _ hmem => exact absurd hmem (h.wait _)
  | sleep hp hrun => exact absurd hrun (h.not_running hp)
  | eventSet _ _ hhit =>
    rw [Proc.Hit, h.eventMask] at hhit
    exact absurd (UInt32.zero_and) hhit
  | eventWait hp hrun => exact absurd hrun (h.not_running hp)
  | alarm hp hrun => exact absurd hrun (h.not_running hp)
  | uttDone hp hrun => exact absurd hrun (h.not_running hp)
  | killed => exact ⟨rfl, rfl, rfl, rfl, rfl, by simp⟩

theorem step (h : Dead k ring p) (heff : Effect k ring e t ring') :
    Dead t ring' p ∧ (e = .schedule → t.cur ≠ p) := by
  obtain ⟨hkilled, hmask, hactive, hdone, hnext, hcur⟩ := h.procStep (heff.proc p (Or.inr h.mem))
  refine ⟨⟨heff.ringed, heff.subset h.mem, hkilled, hmask, fun c hc ↦ ?_, ?_, ?_⟩,
    fun he ↦ (hcur he).symm⟩
  · rcases heff.mem_wait hc with hc | ⟨hp, -, hrun, -⟩
    · exact h.wait c hc
    · exact h.not_running hp hrun
  · rw [hactive, hdone]
    exact h.unwound
  · rw [hactive, hnext]
    exact h.disarmed

theorem of_fault (hk : Ringed k ring) (hsafe : KillSafe k) (h : Step k .userPageFault t) :
    ∃ ring', Dead t ring' t.cur := by
  obtain ⟨ring', heff⟩ := step_effect hk h
  have hcur : t.cur = k.cur := heff.cur (by simp)
  have hmem : k.cur ∈ ring := hk.cur.resolve_left hsafe.idle
  cases h
  have hagree := agree_requestSchedule (k.modify k.cur fun x ↦
    { x with state := .killed, timer.ticksWakeup := noWakeup, eventMask := 0 })
  have hproc : (userPageFault k).proc k.cur =
      { k.proc k.cur with state := .killed, timer.ticksWakeup := noWakeup, eventMask := 0 } := by
    rw [userPageFault, hagree.proc, Kernel.proc_modify_self]
  have hwait : (userPageFault k).wait = k.wait := hagree.wait
  rw [hcur]
  refine ⟨ring', heff.ringed, heff.subset hmem, ?_, ?_, ?_, ?_, ?_⟩
  · rw [hproc]
  · rw [hproc]
  · rw [hwait]
    exact hsafe.wait
  · rw [hproc]
    exact hsafe.unwound
  · rw [hproc]
    exact hsafe.disarmed

theorem run (h : Dead k ring p) {r : List (Event × Kernel)} (hrun : IsRun Step k r) :
    Always (fun s ↦ (s.proc p).state = .killed) k r ∧ ∀ s, (Event.schedule, s) ∈ r → s.cur ≠ p := by
  have hdead : Always (fun s ↦ ∃ ring, Dead s ring p) k r :=
    always_of_step (fun _ _ _ ⟨_, hs⟩ hst ↦
      (step_effect hs.ringed hst).imp fun _ heff ↦ (hs.step heff).1) ⟨ring, h⟩ hrun
  refine ⟨hdead.imp fun s ⟨_, hs⟩ ↦ hs.killed, fun s hs ↦ ?_⟩
  obtain ⟨u, ⟨ring, hu⟩, hstep⟩ := hrun.step_of_mem hdead hs
  obtain ⟨ring', heff⟩ := step_effect hu.ringed hstep
  exact (hu.step heff).2 rfl

end Dead

/-! ## The theorem -/

/-- Every process that is killed along the run stays killed, and `schedule` does not select it. -/
def KillsFinal : List (Event × Kernel) → Prop :=
  Following fun e t r ↦ e = .userPageFault →
    Always (fun s ↦ (s.proc t.cur).state = .killed) t r ∧
      ∀ s, (Event.schedule, s) ∈ r → s.cur ≠ t.cur

/-- Processes are killed only when they leave nothing behind. -/
def FaultSafe (k : Kernel) (e : Event) : Prop := e = .userPageFault → KillSafe k

/-- **Killing is final** along every run in which the killed processes leave nothing behind. -/
theorem always_killed {k : Kernel} (hk : Booted k) {r : List (Event × Kernel)}
    (hrun : IsRun Step k r) (hsafe : Guarded FaultSafe k r) : KillsFinal r := by
  refine following_of_guarded (I := fun s ↦ ∃ ring, Ringed s ring)
    (fun s e t ⟨_, hs⟩ _ hst ↦ (step_effect hs hst).imp fun _ h ↦ h.ringed) ?_
    ⟨[], hk.bootState.ringed⟩ hrun hsafe
  rintro s e t r ⟨ring, hs⟩ hC hst hrun - rfl
  obtain ⟨ring', hdead⟩ := Dead.of_fault hs (hC rfl) hst
  exact hdead.run hrun

theorem always_killed_plainRun :
    KillsFinal (execRun 4 bootKernel [spawnA, .schedule, .userPageFault, .schedule, .tick,
      .schedule]) := by
  refine always_killed booted_bootKernel (isRun_execRun ?_) ?_
  · exact ⟨enabled_spawnA, trivial, trivial, trivial, trivial, trivial, trivial⟩
  · refine ⟨by simp [FaultSafe, spawnA], by simp [FaultSafe],
      fun _ ↦ ⟨by decide, ?_, by decide, ?_⟩,
      by simp [FaultSafe], by simp [FaultSafe], by simp [FaultSafe], trivial⟩
    · exact fun c ↦ List.not_mem_nil
    · exact Or.inl rfl

/-- One that has armed an alarm comes back when the alarm goes off. -/
theorem killed_process_revived_by_alarm :
    AllEnabled 4 bootKernel [spawnA, .schedule, .svc (.alarm ⟨10, 0x600, true⟩), .userPageFault,
        .schedule, .tick, .schedule] ∧
      ¬KillsFinal (execRun 4 bootKernel [spawnA, .schedule, .svc (.alarm ⟨10, 0x600, true⟩),
        .userPageFault, .schedule, .tick, .schedule]) := by
  refine ⟨⟨enabled_spawnA, trivial, Or.inl rfl, trivial, trivial, trivial, trivial, trivial⟩,
    fun h ↦ ?_⟩
  have hkilled := (h.2.2.2.1 rfl).1.last
  exact absurd hkilled (by decide)

end Ertos
