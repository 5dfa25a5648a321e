import Ertos.Kernel.Machine

/-!
# Orphaned sleepers

A sleeping process is released by its deadline, by an event in its mask, or by a completion whose
FIFO holds it. One with none of the three sleeps for good.

While an alarm handler runs, the state it interrupted is saved, and the end of the handler restores
it. A wake or an event that arrives in between consumes the FIFO entry or the mask bits the saved
state depends on, and is forgotten. `OrphanSafe` is the condition that no step does this, and that
`sys_sleep` does not compute the one deadline that means none. It is all that is needed.
-/

namespace Ertos

open Linked Transition

/-! ## The property -/

/-- `p` is stored in the FIFO of some completion. -/
def Kernel.InFifo (k : Kernel) (p : Ptr) : Prop := ∃ c, p ∈ (k.wait c).contents

/-- Something can still release `p`. -/
def Kernel.Releasable (k : Kernel) (p : Ptr) : Prop :=
  (k.proc p).timer.ticksWakeup ≠ noWakeup ∨ (k.proc p).eventMask ≠ 0 ∨ k.InFifo p

/-- No process on the list is an orphaned sleeper. -/
def OrphanFree (k : Kernel) : Prop :=
  ∃ ring, ProcList k ring ∧ ∀ p ∈ ring, (k.proc p).state = .sleep →
    (k.proc p).timer.active = false → k.Releasable p

/-! ## The condition -/

/-- An alarm handler interrupted a sleep without a deadline. -/
structure Proc.SavedBlock (x : Proc) : Prop where
  active : x.timer.active = true
  lastState : x.timer.lastState = .sleep
  lastTicksWakeup : x.timer.lastTicksWakeup = noWakeup

/-- The events of interest: all but page faults and waits for no event. -/
def Event.Regular : Event → Prop
  | .userPageFault => False
  | .svc (.eventWait mask) => mask ≠ 0
  | _ => True

/-- `sys_wake` of `c` leaves each process whose sleep is saved another reason to be released. -/
def WakeSafe (k : Kernel) (c : Ptr) : Prop :=
  ∀ p ∈ (k.wait c).contents, p ≠ k.idleTask → (k.proc p).SavedBlock →
    (k.proc p).eventMask ≠ 0 ∨ ∃ d, d ≠ c ∧ p ∈ (k.wait d).contents

/-- The step does not take away the last reason for which a sleeping process is released. -/
def OrphanSafe (k : Kernel) : Event → Prop
  | .svc (.sleep period) =>
    k.cur ≠ k.idleTask → (k.proc k.cur).timer.active = false → k.clkticks + period = noWakeup →
      (k.proc k.cur).eventMask ≠ 0 ∨ k.InFifo k.cur
  | .svc (.wake c) => WakeSafe k c
  | .irqWake c => WakeSafe k c
  | .svc (.eventSet mask) =>
    ∀ ring, ProcList k ring → ∀ p ∈ ring, p ≠ k.cur → (k.proc p).Hit mask →
      (k.proc p).SavedBlock → (k.proc p).eventMask &&& ~~~mask ≠ 0 ∨ k.InFifo p
  | _ => True

/-! ## The invariant -/

structure OrphanInv (k : Kernel) (ring : List Ptr) : Prop where
  ringed : Ringed k ring
  asleep : ∀ p ∈ ring, (k.proc p).state = .sleep → (k.proc p).timer.active = false →
    k.Releasable p
  saved : ∀ p ∈ ring, (k.proc p).SavedBlock → (k.proc p).eventMask ≠ 0 ∨ k.InFifo p

theorem or_ne_zero_left {a : UInt32} (b : UInt32) (h : a ≠ 0) : a ||| b ≠ 0 := by
  intro h0
  have := UInt32.or_eq_zero_iff.mp h0
  exact h this.1

/-- What `x` needs so that a process whose record it is does not become an orphan, given whether it
is in some FIFO. -/
structure Proc.Kept (fifo : Prop) (x : Proc) : Prop where
  asleep : x.state = .sleep → x.timer.active = false →
    x.timer.ticksWakeup ≠ noWakeup ∨ x.eventMask ≠ 0 ∨ fifo
  saved : x.SavedBlock → x.eventMask ≠ 0 ∨ fifo

theorem Proc.SavedBlock.congr {x y : Proc} (h : y.SavedBlock)
    (ha : x.timer.active = y.timer.active) (hl : x.timer.lastState = y.timer.lastState)
    (ht : x.timer.lastTicksWakeup = y.timer.lastTicksWakeup) : x.SavedBlock :=
  ⟨ha.trans h.active, hl.trans h.lastState, ht.trans h.lastTicksWakeup⟩

namespace Proc.Kept

variable {fifo fifo' : Prop} {x y : Proc}

theorem imp (h : x.Kept fifo) (hf : fifo → fifo') : x.Kept fifo' :=
  ⟨fun hs ha ↦ (h.asleep hs ha).imp_right (Or.imp_right hf), fun hs ↦ (h.saved hs).imp_right hf⟩

/-- A process that is awake needs something for the sleep that is saved only. -/
theorem awake (h : x.Kept fifo) (hstate : y.state ≠ .sleep) (hmask : y.eventMask = x.eventMask)
    (hsaved : y.SavedBlock → x.SavedBlock) : y.Kept fifo :=
  ⟨fun hs ↦ absurd hs hstate, fun hs ↦ hmask ▸ h.saved (hsaved hs)⟩

theorem checkSleep {clkticks : UInt32} (h : x.Kept fifo) : (checkSleep clkticks x).Kept fifo := by
  have hspec := checkSleep_spec clkticks x
  generalize Ertos.checkSleep clkticks x = y at hspec
  cases hspec with
  | wake => exact h.awake (by simp) rfl fun hs ↦ hs.congr rfl rfl rfl
  | same => exact h

theorem checkTimers {trampoline clkticks : UInt32} (h : x.Kept fifo) :
    (checkTimers trampoline clkticks x).Kept fifo := by
  have hspec := checkTimers_spec trampoline clkticks x
  generalize Ertos.checkTimers trampoline clkticks x = y at hspec
  cases hspec with
  | fire _ hactive =>
    -- the sleep that is being saved had a reason to end
    refine ⟨by simp [handleTaskTimer], fun hs ↦ ?_⟩
    exact (h.asleep hs.lastState hactive).resolve_left (not_not.mpr hs.lastTicksWakeup)
  | unwind hactive =>
    refine Proc.Kept.checkSleep ⟨fun hs _ ↦ ?_, fun hs ↦ ?_⟩
    · by_cases ht : x.timer.lastTicksWakeup = noWakeup
      · exact Or.inr (h.saved ⟨hactive, hs, ht⟩)
      · exact Or.inl ht
    · exact absurd hs.active (by simp [handleTaskTimerDone])
  | check => exact h.checkSleep

end Proc.Kept

namespace OrphanInv

variable {k t : Kernel} {ring ring' : List Ptr} {p : Ptr} {e : Event}

theorem kept (h : OrphanInv k ring) (hp : p ∈ ring) : (k.proc p).Kept (k.InFifo p) :=
  ⟨h.asleep p hp, h.saved p hp⟩

theorem examined (h : OrphanInv k ring) (hp : p ∈ ring) {x : Proc} (hx : Examined k ring p x) :
    x.Kept (k.InFifo p) := by
  have hkept := h.kept hp
  have hreq : (k.requeued p).Kept (k.InFifo p) := by
    unfold Kernel.requeued
    split_ifs with hcur hidle
    · exact absurd (hcur.trans hidle ▸ hp) h.ringed.idle_notMem
    · exact hkept.awake (by simp) rfl fun hs ↦ hs.congr rfl rfl rfl
    · exact hkept
    · exact hkept
  cases hx with
  | skipped => exact hreq
  | checked => exact hreq.checkTimers

theorem wakeSafe (hsafe : OrphanSafe k e) {c : Ptr} (he : e.Wakes c) : WakeSafe k c := by
  rcases he with rfl | rfl <;> exact hsafe

theorem procStep (h : OrphanInv k ring) (heff : Effect k ring e t ring') (hreg : e.Regular)
    (hsafe : OrphanSafe k e) (hp : p ∈ ring) {x : Proc} (hx : ProcStep k ring t p e x) :
    x.Kept (t.InFifo p) := by
  have hkept := h.kept hp
  have hidle : p ≠ k.idleTask := fun hpi ↦ h.ringed.idle_notMem (hpi ▸ hp)
  -- outside of wakes, a FIFO entry is still there after the step
  have hfifo : (∀ c, ¬e.Wakes c) → k.InFifo p → t.InFifo p := by
    rintro hw ⟨c, hc⟩
    exact ⟨c, heff.mem_wait_of_not_wakes (hw c) hc⟩
  cases hx with
  | same _ hwake =>
    refine hkept.imp ?_
    rintro ⟨c, hc⟩
    exact ⟨c, heff.mem_wait_of_not_wakes (fun hw ↦ hwake c hw hc) hc⟩
  | regs | alarm | uttDone =>
    have hx := hkept.imp (hfifo (by simp [Event.Wakes]))
    exact ⟨hx.asleep, fun hs ↦ hx.saved (hs.congr rfl rfl rfl)⟩
  | passed hx => exact (h.examined hp hx).imp (hfifo (by simp [Event.Wakes]))
  | selected hx =>
    have hx := (h.examined hp hx).imp (hfifo (by simp [Event.Wakes]))
    exact hx.awake (by simp) rfl fun hs ↦ hs.congr rfl rfl rfl
  | wait _ _ _ _ hmem =>
    exact ⟨fun _ _ ↦ Or.inr (Or.inr ⟨_, hmem⟩), fun _ ↦ Or.inr ⟨_, hmem⟩⟩
  | @wake _ c he hmem =>
    refine ⟨by simp, fun hs ↦ ?_⟩
    have hother := wakeSafe hsafe he p hmem hidle (hs.congr rfl rfl rfl)
    refine hother.imp_right fun hd ↦ ?_
    -- the wake empties the FIFO of `c` only
    obtain ⟨d, hd, hdp⟩ := hd
    refine ⟨d, heff.mem_wait_of_not_wakes (fun hw ↦ hd ?_) hdp⟩
    rcases he with rfl | rfl <;> simpa [Event.Wakes, eq_comm] using hw
  | @sleep period hpc =>
    have hf := hfifo (by simp [Event.Wakes])
    refine ⟨fun _ ha ↦ ?_, fun hs ↦ (hkept.saved (hs.congr rfl rfl rfl)).imp_right hf⟩
    by_cases hn : k.clkticks + period = noWakeup
    · rw [hpc] at ha hidle ⊢
      exact Or.inr ((hsafe hidle ha hn).imp_right (hpc ▸ hf))
    · exact Or.inl hn
  | eventSet _ hpc hhit =>
    refine ⟨by simp, fun hs ↦ ?_⟩
    have hother := hsafe ring h.ringed.list p hp hpc hhit (hs.congr rfl rfl rfl)
    exact hother.imp_right (hfifo (by simp [Event.Wakes]))
  | eventWait =>
    refine ⟨fun _ _ ↦ Or.inr (Or.inl ?_), fun _ ↦ Or.inl ?_⟩ <;>
      rw [UInt32.or_comm] <;> exact or_ne_zero_left _ hreg
  | killed => exact absurd hreg id

theorem step (h : OrphanInv k ring) (heff : Effect k ring e t ring') (hreg : e.Regular)
    (hsafe : OrphanSafe k e) : OrphanInv t ring' := by
  have key : ∀ p ∈ ring', (t.proc p).Kept (t.InFifo p) := by
    intro p hp
    by_cases hold : p ∈ ring
    · exact h.procStep heff hreg hsafe hold (heff.proc p (Or.inr hold))
    · obtain ⟨-, hnew⟩ := heff.new p hp hold
      -- a new process neither sleeps nor has a saved sleep
      constructor
      · intro hs
        rw [hnew.state] at hs
        exact absurd hs (by simp)
      · intro hs
        have ha := hs.active
        rw [hnew.timer] at ha
        exact absurd ha (by simp [Proc.cleared])
  exact ⟨heff.ringed, fun p hp ↦ (key p hp).asleep, fun p hp ↦ (key p hp).saved⟩

end OrphanInv

theorem OrphanInv.boot {k : Kernel} (h : BootState k) : OrphanInv k [] :=
  ⟨h.ringed, by simp, by simp⟩

/-! ## The theorem -/

/-- **No orphaned sleeper**, along every run whose steps leave a saved sleep a reason to end. -/
theorem always_orphanFree {k : Kernel} (hk : Booted k) {r : List (Event × Kernel)}
    (hrun : IsRun Step k r) (hreg : Guarded (fun _ e ↦ e.Regular) k r)
    (hsafe : Guarded OrphanSafe k r) : Always OrphanFree k r := by
  have hinv : Always (fun t ↦ ∃ ring, OrphanInv t ring) k r :=
    always_of_guarded (fun _ _ _ ⟨_, hs⟩ hC hst ↦ (step_effect hs.ringed hst).imp
      fun _ heff ↦ hs.step heff hC.1 hC.2) ⟨[], .boot hk.bootState⟩ hrun (hreg.and hsafe)
  exact hinv.imp fun t ⟨ring, h⟩ ↦ ⟨ring, h.ringed.list, h.asleep⟩

theorem always_orphanFree_wakeRun :
    Always OrphanFree bootKernel (execRun 4 bootKernel
      [spawnA, .schedule, .svc (.wait 0x700), .schedule, .irqWake 0x700, .schedule]) := by
  refine always_orphanFree booted_bootKernel (isRun_execRun ?_) ?_ ?_
  · exact ⟨enabled_spawnA, trivial, Or.inl rfl, trivial, trivial, trivial, trivial⟩
  · exact ⟨trivial, trivial, trivial, trivial, trivial, trivial, trivial⟩
  · refine ⟨trivial, trivial, trivial, trivial, fun p hp _ hsaved ↦ ?_, trivial, trivial⟩
    obtain rfl : p = 0x5000 := List.mem_singleton.mp hp
    exact absurd hsaved.active (by decide)

/-- The run that loses a wake: the alarm interrupts the wait, and the wake arrives while the handler
runs. -/
def lostWake : List Event :=
  [spawnA, .schedule, .svc (.alarm ⟨10, 0x600, true⟩), .svc (.wait 0x700), .schedule, .tick,
    .schedule, .irqWake 0x700, .svc .uttDone, .schedule]

theorem lost_wake_orphans_sleeper :
    AllEnabled 4 bootKernel lostWake ∧
      ¬Always OrphanFree bootKernel (execRun 4 bootKernel lostWake) := by
  refine ⟨⟨enabled_spawnA, trivial, Or.inl rfl, Or.inl rfl, trivial, trivial, trivial, trivial,
    Or.inr rfl, trivial, trivial⟩, fun h ↦ ?_⟩
  obtain ⟨ring, hlist, horphan⟩ := h.last
  have hring : ProcList (last bootKernel (execRun 4 bootKernel lostWake)) [0x5000] :=
    Or.inr ⟨by decide, Cycle.singleton rfl⟩
  obtain rfl := hlist.unique hring
  rcases horphan 0x5000 List.mem_cons_self rfl rfl with h | h | ⟨c, hc⟩
  · exact h rfl
  · exact h rfl
  · by_cases hc0 : c = 0x700
    · subst hc0
      exact absurd hc (by decide)
    · have hinit : (last bootKernel (execRun 4 bootKernel lostWake)).wait c
          = BoundedFifo.init 4 := by
        show Function.update (Function.update (Function.update _ 0x700 _) 0x700 _) 0x700 _ c = _
        rw [Function.update_of_ne hc0, Function.update_of_ne hc0, Function.update_of_ne hc0]
        rfl
      rw [hinit, BoundedFifo.contents_init] at hc
      exact absurd hc List.not_mem_nil

end Ertos
