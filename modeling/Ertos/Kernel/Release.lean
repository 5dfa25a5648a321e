import Ertos.Kernel.Checks
import Ertos.Kernel.Machine

/-!
# What releases a blocked process

A process blocks until a tick, on a completion, or on events. Three fields can end a sleep, whatever
it was for: the deadline, the event mask and the entries in wait FIFOs; and all three survive the
sleep they were set for. `Reason.Only` says that the fields of a process allow nothing but its
reason. A process that blocks with fields like that (`ReleaseSafe`) is released by its reason alone.

In between the process may run its alarm handler, with the interrupted sleep saved. `Phase` follows
a block through that: asleep, suspended by the handler, or suspended while the handler itself waits.
-/

namespace Ertos

open Linked Transition

/-! ## Reasons -/

/-- What a process waits for. -/
inductive Reason
  | deadline (tick : ℕ)
  | completion (c : Ptr)
  | events (mask : UInt32)

/-- The event is what the process waits for. -/
def Reason.Allows (R : Reason) (k : Kernel) (e : Event) : Prop :=
  match R with
  | .deadline tick => tick ≤ k.clkticks.toNat
  | .completion c => e.Wakes c
  | .events mask => ∃ mask', e = .svc (.eventSet mask') ∧ mask' &&& mask ≠ 0

/-- A deadline, a mask and a set of FIFOs that end a sleep for no other reason. -/
def Reason.Only (R : Reason) (ticks mask : UInt32) (inFifo : Ptr → Prop) : Prop :=
  match R with
  | .deadline tick => tick ≤ ticks.toNat ∧ mask = 0 ∧ ∀ d, ¬inFifo d
  | .completion c => ticks = noWakeup ∧ mask = 0 ∧ ∀ d, inFifo d → d = c
  | .events m => ticks = noWakeup ∧ mask &&& m = mask ∧ ∀ d, ¬inFifo d

namespace Reason.Only

variable {R : Reason} {ticks mask : UInt32} {inFifo inFifo' : Ptr → Prop} {k : Kernel} {e : Event}

theorem mono (h : R.Only ticks mask inFifo) (b : UInt32) (hf : ∀ d, inFifo' d → inFifo d) :
    R.Only ticks (mask &&& b) inFifo' := by
  cases R with
  | deadline => exact ⟨h.1, by rw [h.2.1, UInt32.zero_and], fun d hd ↦ h.2.2 d (hf d hd)⟩
  | completion => exact ⟨h.1, by rw [h.2.1, UInt32.zero_and], fun d hd ↦ h.2.2 d (hf d hd)⟩
  | events m =>
    refine ⟨h.1, ?_, fun d hd ↦ h.2.2 d (hf d hd)⟩
    rw [UInt32.and_assoc, UInt32.and_comm b, ← UInt32.and_assoc, h.2.1]

theorem mono_fifo (h : R.Only ticks mask inFifo) (hf : ∀ d, inFifo' d → inFifo d) :
    R.Only ticks mask inFifo' := by
  have := h.mono mask hf
  rwa [UInt32.and_self] at this

theorem clear_mask (h : R.Only ticks mask inFifo) (hf : ∀ d, inFifo' d → inFifo d) :
    R.Only ticks 0 inFifo' := by
  have := h.mono 0 hf
  rwa [UInt32.and_zero] at this

theorem clear (h : R.Only ticks mask inFifo) (hf : ∀ d, inFifo' d → inFifo d) :
    R.Only noWakeup 0 inFifo' := by
  have h0 := h.clear_mask hf
  cases R with
  | deadline => exact ⟨h.1.trans (Nat.le_of_lt_succ ticks.toNat_lt), h0.2⟩
  | completion => exact ⟨rfl, h0.2⟩
  | events => exact ⟨rfl, h0.2⟩

/-- What the clock can end waits for the clock. -/
theorem allows_clock (h : R.Only ticks mask inFifo) (hle : ticks ≤ k.clkticks)
    (hnone : ticks ≠ noWakeup) : R.Allows k e := by
  cases R with
  | deadline => exact h.1.trans (UInt32.le_iff_toNat_le.mp hle)
  | completion => exact absurd h.1 hnone
  | events => exact absurd h.1 hnone

theorem allows_wake (h : R.Only ticks mask inFifo) {c : Ptr} (hc : inFifo c) (he : e.Wakes c) :
    R.Allows k e := by
  cases R with
  | deadline => exact absurd hc (h.2.2 c)
  | completion => exact h.2.2 c hc ▸ he
  | events => exact absurd hc (h.2.2 c)

theorem allows_eventSet (h : R.Only ticks mask inFifo) {mask' : UInt32}
    (hhit : mask &&& mask' ≠ 0) :
    R.Allows k (.svc (.eventSet mask')) := by
  cases R with
  | deadline => exact absurd (by rw [h.2.1, UInt32.zero_and]) hhit
  | completion => exact absurd (by rw [h.2.1, UInt32.zero_and]) hhit
  | events m =>
    refine ⟨mask', rfl, fun h0 ↦ hhit ?_⟩
    rw [← h.2.1, UInt32.and_assoc, UInt32.and_comm m, h0, UInt32.and_zero]

end Reason.Only

/-! ## Phases of a block -/

/-- The process does not run and is not about to. -/
def ProcState.Halted (s : ProcState) : Prop := s ≠ .active ∧ s ≠ .run

/-- The process goes on after a block that began with `timer.active = a`; running the alarm handler
does not count. -/
structure Proc.Resumed (a : Bool) (x : Proc) : Prop where
  state : x.state = .run ∨ x.state = .active
  context : x.timer.active = true → a = true

/-- Where a process that blocked with `timer.active = a` stands until it goes on. -/
inductive Phase (R : Reason) (a : Bool) (inFifo : Ptr → Prop) (x : Proc) : Prop
  | blocked (hactive : x.timer.active = a) (hstate : x.state.Halted)
      (hdone : ¬(x.timer.active = true ∧ x.timer.done = true))
      (honly : R.Only x.timer.ticksWakeup x.eventMask inFifo)
  | handler (ha : a = false) (hactive : x.timer.active = true) (hlast : x.timer.lastState.Halted)
      (honly : R.Only x.timer.lastTicksWakeup x.eventMask inFifo)
  | nested (d : Ptr) (ha : a = false) (hactive : x.timer.active = true)
      (hlast : x.timer.lastState.Halted) (hstate : x.state.Halted) (hdone : x.timer.done = false)
      (hwait : (Reason.completion d).Only x.timer.ticksWakeup x.eventMask inFifo)
      (honly : R.Only x.timer.lastTicksWakeup x.eventMask fun _ ↦ False)

/-- `check_timers` does not take the deadline that means none for one that has come. -/
def Proc.Spared (clkticks : UInt32) (x : Proc) : Prop :=
  x.state = .sleep → x.timer.ticksWakeup = noWakeup → ¬x.timer.ticksWakeup ≤ clkticks

namespace Phase

variable {R : Reason} {a : Bool} {inFifo inFifo' : Ptr → Prop} {x : Proc} {trampoline : UInt32}
  {k : Kernel} {e : Event}

theorem not_resumed (h : Phase R a inFifo x) : ¬x.Resumed a := by
  rintro ⟨hs, hc⟩
  cases h with
  | blocked _ hstate => exact hs.elim hstate.2 hstate.1
  | handler ha hactive => exact absurd (hc hactive) (by simp [ha])
  | nested _ ha hactive => exact absurd (hc hactive) (by simp [ha])

theorem mono (h : Phase R a inFifo x) (hf : ∀ d, inFifo' d → inFifo d) : Phase R a inFifo' x := by
  cases h with
  | blocked hactive hstate hdone honly => exact .blocked hactive hstate hdone (honly.mono_fifo hf)
  | handler ha hactive hlast honly => exact .handler ha hactive hlast (honly.mono_fifo hf)
  | nested d ha hactive hlast hstate hdone hwait honly =>
    exact .nested d ha hactive hlast hstate hdone (hwait.mono_fifo hf) honly

theorem checkSleep (hactive : x.timer.active = a) (hstate : x.state.Halted)
    (hdone : ¬(x.timer.active = true ∧ x.timer.done = true))
    (honly : R.Only x.timer.ticksWakeup x.eventMask inFifo)
    (hclk : x.Spared k.clkticks) :
    Phase R a inFifo (checkSleep k.clkticks x) ∨
      R.Allows k e ∧ (Ertos.checkSleep k.clkticks x).Resumed a := by
  have hspec := checkSleep_spec k.clkticks x
  generalize Ertos.checkSleep k.clkticks x = y at hspec
  cases hspec with
  | wake hsleep hle =>
    exact Or.inr ⟨honly.allows_clock hle fun hnone ↦ hclk hsleep hnone hle, Or.inl rfl,
      fun h ↦ hactive ▸ h⟩
  | same => exact Or.inl (.blocked hactive hstate hdone honly)

theorem checkTimers (h : Phase R a inFifo x)
    (hclk : timerCall k.clkticks x ≠ some .start → (x.unwound k.clkticks).Spared k.clkticks) :
    Phase R a inFifo (checkTimers trampoline k.clkticks x) ∨
      R.Allows k e ∧ (Ertos.checkTimers trampoline k.clkticks x).Resumed a := by
  rw [checkTimers_eq]
  cases hcall : timerCall k.clkticks x with
  | none =>
    rw [hcall, Proc.unwound, if_neg (by simp [hcall])] at hclk
    have hclk := hclk (by simp)
    cases h with
    | blocked hactive hstate hdone honly => exact checkSleep hactive hstate hdone honly hclk
    | handler ha hactive hlast honly =>
      left
      have hspec := checkSleep_spec k.clkticks x
      generalize Ertos.checkSleep k.clkticks x = y at hspec
      cases hspec with
      | wake => exact .handler ha hactive hlast honly
      | same => exact .handler ha hactive hlast honly
    | nested d ha hactive hlast hstate hdone hwait honly =>
      left
      have hspec := checkSleep_spec k.clkticks x
      generalize Ertos.checkSleep k.clkticks x = y at hspec
      cases hspec with
      | wake hsleep hle => exact absurd hle (hclk hsleep hwait.1)
      | same => exact .nested d ha hactive hlast hstate hdone hwait honly
  | some c =>
    cases c with
    | start =>
      have hinactive := (timerCall_start_iff.mp hcall).1
      cases h with
      | blocked hactive hstate _ honly =>
        exact Or.inl (.handler (hactive.symm.trans hinactive) rfl hstate honly)
      | handler _ hactive => exact absurd (hactive.symm.trans hinactive) (by simp)
      | nested _ _ hactive => exact absurd (hactive.symm.trans hinactive) (by simp)
    | done =>
      rw [hcall, Proc.unwound, if_pos hcall] at hclk
      obtain ⟨hactive, hdone⟩ := timerCall_done_iff.mp hcall
      cases h with
      | blocked _ _ hnot => exact absurd ⟨hactive, hdone⟩ hnot
      | handler ha _ hlast honly =>
        exact checkSleep (x := handleTaskTimerDone x) ha.symm hlast (by simp [handleTaskTimerDone])
          honly (hclk (by simp))
      | nested _ _ _ _ _ hnot => exact absurd (hdone.symm.trans hnot) (by simp)

theorem setState_run (h : Phase R a inFifo x) (hs : x.state = .run) (s : ProcState) :
    Phase R a inFifo { x with state := s } := by
  cases h with
  | blocked _ hstate => exact absurd hs hstate.2
  | handler ha hactive hlast honly => exact .handler ha hactive hlast honly
  | nested _ _ _ _ hstate => exact absurd hs hstate.2

theorem setState_active (h : Phase R a inFifo x) (hs : x.state = .active) (s : ProcState) :
    Phase R a inFifo { x with state := s } := by
  cases h with
  | blocked _ hstate => exact absurd hs hstate.1
  | handler ha hactive hlast honly => exact .handler ha hactive hlast honly
  | nested _ _ _ _ hstate => exact absurd hs hstate.1

end Phase

/-! ## The condition -/

/-- The current process blocks with nothing left over. -/
structure BlockSafe (k : Kernel) : Prop where
  idle : k.cur ≠ k.idleTask
  unwound : ¬((k.proc k.cur).timer.active = true ∧ (k.proc k.cur).timer.done = true)
  fifo : ∀ c, k.cur ∉ (k.wait c).contents

/-- Blocking calls are made without leftovers of earlier ones: no FIFO entry, no event that is not
waited for, and, but for `sys_sleep`, no deadline. Deadlines do not wrap, and a handler that
interrupted a sleep does not wait for events. When the clock stands at the deadline that means none,
`schedule` looks at no process that is asleep without a deadline. -/
def ReleaseSafe (k : Kernel) : Event → Prop
  | .svc (.sleep period) =>
    BlockSafe k ∧ (k.proc k.cur).eventMask = 0 ∧ k.clkticks.toNat + period.toNat < 2 ^ 32
  | .svc (.wait c) =>
    c ≠ NULL → (k.wait c).free ≠ 0 →
      BlockSafe k ∧ (k.proc k.cur).eventMask = 0 ∧ (k.proc k.cur).timer.ticksWakeup = noWakeup
  | .svc (.eventWait mask) =>
    BlockSafe k ∧ (k.proc k.cur).eventMask &&& mask = (k.proc k.cur).eventMask ∧
      (k.proc k.cur).timer.ticksWakeup = noWakeup ∧
      ¬((k.proc k.cur).timer.active = true ∧ (k.proc k.cur).timer.lastState.Halted)
  | .schedule => k.clkticks = noWakeup → ∀ p x, k.Checks p x → x.Asleep k.clkticks →
    (x.unwound k.clkticks).timer.ticksWakeup ≠ noWakeup
  | _ => True

/-! ## Steps -/

section Step

variable {k t : Kernel} {ring ring' : List Ptr} {p : Ptr} {e : Event} {R : Reason} {a : Bool}

/-- The FIFOs that hold `p`. -/
def Kernel.Holds (k : Kernel) (p c : Ptr) : Prop := p ∈ (k.wait c).contents

theorem Phase.requeued {inFifo : Ptr → Prop} (h : Phase R a inFifo (k.proc p))
    (hp : p ≠ k.idleTask) : Phase R a inFifo (k.requeued p) := by
  unfold Kernel.requeued
  split_ifs with hcur hidle hact
  · exact absurd (hcur.trans hidle) hp
  · exact h.setState_active hact .run
  · exact h
  · exact h

/-- With what `schedule` looks at, the condition spares a process without a deadline. -/
theorem ReleaseSafe.spared (h : ReleaseSafe k .schedule) {x : Proc} (hx : k.Checks p x)
    (hstart : timerCall k.clkticks x ≠ some .start) :
    (x.unwound k.clkticks).Spared k.clkticks := by
  intro hsleep hnone hle
  have hlast : k.clkticks = noWakeup := by
    by_contra hne
    exact not_noWakeup_le hne (hnone ▸ hle)
  exact h hlast p x hx ⟨hstart, hsleep⟩ hnone

/-- **A turn** keeps the phase, or the clock releases the process. -/
theorem Phase.schedule (hk : Ringed k ring) (hp : p ∈ ring) (hsafe : ReleaseSafe k .schedule)
    {fuel : ℕ} (hsched : schedule fuel k = some t) {inFifo : Ptr → Prop}
    (h : Phase R a inFifo (k.proc p)) :
    Phase R a inFifo (t.proc p) ∨ R.Allows k .schedule ∧ (t.proc p).Resumed a := by
  have hidle : p ≠ k.idleTask := fun hpi ↦ hk.idle_notMem (hpi ▸ hp)
  obtain ⟨l, seen, hlook⟩ := schedule_checks hk.listed (hk.listed.procs_ne hp) hsched
  have hreq := h.requeued hidle
  have hlooked : p ∈ seen →
      Phase R a inFifo (Ertos.checkTimers k.trampoline k.clkticks (k.requeued p)) ∨
        R.Allows k .schedule ∧
          (Ertos.checkTimers k.trampoline k.clkticks (k.requeued p)).Resumed a := by
    intro hseen
    have hchecks : k.Checks p (k.requeued p) := (hlook.checks_iff hsched).mpr ⟨hseen, rfl⟩
    exact hreq.checkTimers (hsafe.spared hchecks)
  rw [hlook.proc]
  by_cases hcur : p = t.cur
  · -- the process selected was looked at, and may run
    subst hcur
    obtain ⟨seen', hstop⟩ := hlook.stop.resolve_left fun hstop ↦ hidle hstop.1
    have hseen : t.cur ∈ seen := hstop ▸ List.mem_append_right _ (List.mem_singleton.mpr rfl)
    simp only [if_true, if_pos hseen]
    exact (hlooked hseen).imp (fun hph ↦ hph.setState_run (hlook.ran hidle) .active)
      fun ⟨hallow, hres⟩ ↦ ⟨hallow, Or.inr rfl, hres.context⟩
  · simp only [if_neg hcur]
    split_ifs with hseen
    · exact hlooked hseen
    · exact Or.inl hreq

/-- A blocked process that makes a call is in its handler. -/
theorem Phase.of_running {inFifo : Ptr → Prop} {x : Proc} (h : Phase R a inFifo x)
    (hrun : x.state = .active ∨ x.state = .run) :
    a = false ∧ x.timer.active = true ∧ x.timer.lastState.Halted ∧
      R.Only x.timer.lastTicksWakeup x.eventMask inFifo := by
  cases h with
  | blocked _ hstate => exact (hrun.elim hstate.1 hstate.2).elim
  | handler ha hactive hlast honly => exact ⟨ha, hactive, hlast, honly⟩
  | nested _ _ _ _ hstate => exact (hrun.elim hstate.1 hstate.2).elim

theorem Phase.wake {inFifo inFifo' : Ptr → Prop} {x : Proc} {c : Ptr} (h : Phase R a inFifo x)
    (he : e.Wakes c) (hmem : inFifo c) (hf : ∀ d, inFifo' d → inFifo d) (hout : ¬inFifo' c) :
    Phase R a inFifo' { x with state := .run } ∨
      R.Allows k e ∧ Proc.Resumed a { x with state := .run } := by
  cases h with
  | blocked hactive _ _ honly =>
    exact Or.inr ⟨honly.allows_wake hmem he, Or.inl rfl, fun ht ↦ hactive ▸ ht⟩
  | handler ha hactive hlast honly =>
    exact Or.inl (.handler ha hactive hlast (honly.mono_fifo hf))
  | nested d ha hactive hlast _ _ hwait honly =>
    -- the handler waited for this wake, and holds no entry any more
    refine Or.inl (.handler ha hactive hlast (honly.mono_fifo fun d' hd' ↦ ?_))
    obtain rfl := hwait.2.2 c hmem
    obtain rfl := hwait.2.2 d' (hf d' hd')
    exact hout hd'

theorem Phase.eventSet {inFifo inFifo' : Ptr → Prop} {x : Proc} {mask : UInt32}
    (h : Phase R a inFifo x) (hhit : x.Hit mask) (hf : ∀ d, inFifo' d → inFifo d) :
    Phase R a inFifo' { x with state := .run, eventMask := x.eventMask &&& ~~~mask } ∨
      R.Allows k (.svc (.eventSet mask)) ∧
        Proc.Resumed a { x with state := .run, eventMask := x.eventMask &&& ~~~mask } := by
  cases h with
  | blocked hactive _ _ honly =>
    exact Or.inr ⟨honly.allows_eventSet hhit, Or.inl rfl, fun ht ↦ hactive ▸ ht⟩
  | handler ha hactive hlast honly => exact Or.inl (.handler ha hactive hlast (honly.mono _ hf))
  | nested _ _ _ _ _ _ hwait =>
    rw [Proc.Hit, hwait.2.1, UInt32.zero_and] at hhit
    exact absurd rfl hhit

theorem Phase.killed {inFifo inFifo' : Ptr → Prop} {x : Proc} (h : Phase R a inFifo x)
    (hf : ∀ d, inFifo' d → inFifo d) :
    Phase R a inFifo' { x with
      state := .killed, timer.ticksWakeup := noWakeup, eventMask := 0 } := by
  have hhalted : ProcState.Halted .killed := ⟨by simp, by simp⟩
  cases h with
  | blocked hactive _ hdone honly => exact .blocked hactive hhalted hdone (honly.clear hf)
  | handler ha hactive hlast honly => exact .handler ha hactive hlast (honly.clear_mask hf)
  | nested d ha hactive hlast _ hdone hwait honly =>
    exact .nested d ha hactive hlast hhalted hdone (hwait.clear hf) (honly.clear_mask fun _ hd ↦ hd)

theorem Phase.regs {inFifo : Ptr → Prop} {x : Proc} (h : Phase R a inFifo x) (r : Regs) :
    Phase R a inFifo { x with regs := r } := by
  cases h with
  | blocked hactive hstate hdone honly => exact .blocked hactive hstate hdone honly
  | handler ha hactive hlast honly => exact .handler ha hactive hlast honly
  | nested d ha hactive hlast hstate hdone hwait honly =>
    exact .nested d ha hactive hlast hstate hdone hwait honly

/-- **The step law of blocks.** A safe step moves the process from phase to phase, or releases it by
its reason. -/
theorem Phase.step (hk : Ringed k ring) (hst : Step k e t) (heff : Effect k ring e t ring')
    (hp : p ∈ ring) (hsafe : ReleaseSafe k e) (h : Phase R a (k.Holds p) (k.proc p)) :
    Phase R a (t.Holds p) (t.proc p) ∨ R.Allows k e ∧ (t.proc p).Resumed a := by
  have hproc := heff.proc p (Or.inr hp)
  have hholds : ∀ d, t.Holds p d → k.Holds p d ∨
      p = k.cur ∧ e = .svc (.wait d) ∧ k.Running ∧ (t.proc p).state = .sleep :=
    fun d ↦ heff.mem_wait
  -- a step that is no successful `sys_wait` adds no entries
  have hold : (∀ c, e ≠ .svc (.wait c)) → ∀ d, t.Holds p d → k.Holds p d :=
    fun hne d hd ↦ (hholds d hd).resolve_right fun hw ↦ hne d hw.2.1
  have hcall : p = k.cur → k.Running → a = false ∧ (k.proc p).timer.active = true ∧
      (k.proc p).timer.lastState.Halted ∧
      R.Only (k.proc p).timer.lastTicksWakeup (k.proc p).eventMask (k.Holds p) :=
    fun hpc hrun ↦ h.of_running (hpc ▸ hrun)
  by_cases hsched : e = .schedule
  · subst hsched
    cases hst with
    | schedule hrun =>
      exact (h.schedule hk hp hsafe hrun).imp_left fun hph ↦ hph.mono (hold (by simp))
  generalize t.proc p = x at hproc hholds ⊢
  cases hproc with
  | same =>
    refine Or.inl (h.mono fun d hd ↦ (hholds d hd).resolve_right ?_)
    rintro ⟨hpc, -, hrun, hs⟩
    rw [Kernel.Running, ← hpc, hs] at hrun
    exact hrun.elim (by simp) (by simp)
  | regs => exact Or.inl ((h.mono (hold (by simp))).regs _)
  | passed | selected => exact absurd rfl hsched
  | @wait c hpc hrun hc hfree =>
    obtain ⟨ha, hactive, hlast, honly⟩ := hcall hpc hrun
    obtain ⟨hblock, hmask, hticks⟩ := hsafe hc hfree
    rw [← hpc] at hmask hticks
    have hnone : ∀ d, ¬k.Holds p d := fun d ↦ by rw [hpc]; exact hblock.fifo d
    refine Or.inl (.nested c ha hactive hlast ⟨by simp, by simp⟩ ?_
      ⟨hticks, hmask, fun d hd ↦ ?_⟩ (honly.mono_fifo fun d hd ↦ hd.elim))
    · have hunwound := hblock.unwound
      rw [← hpc] at hunwound
      simpa [hactive] using hunwound
    · -- the new entry is its only one
      obtain ⟨-, he, -⟩ := (hholds d hd).resolve_left (hnone d)
      simpa [eq_comm] using he
  | @wake _ c he hmem =>
    have hne : ∀ d, e ≠ .svc (.wait d) := fun d hd ↦ by
      rcases he with rfl | rfl <;> simp at hd
    exact h.wake he hmem (hold hne) (heff.notMem_wait_of_wakes he)
  | sleep hpc hrun =>
    obtain ⟨ha, hactive, hlast, honly⟩ := hcall hpc hrun
    exact Or.inl (.handler ha hactive hlast (honly.mono_fifo (hold (by simp))))
  | @eventSet mask _ _ hhit => exact h.eventSet hhit (hold (by simp))
  | eventWait hpc hrun =>
    -- in a handler that interrupted a sleep this call is not safe
    obtain ⟨-, hactive, hlast, -⟩ := hcall hpc hrun
    rw [hpc] at hactive hlast
    exact absurd ⟨hactive, hlast⟩ hsafe.2.2.2
  | alarm hpc hrun =>
    obtain ⟨ha, hactive, hlast, honly⟩ := hcall hpc hrun
    exact Or.inl (.handler ha hactive hlast (honly.mono_fifo (hold (by simp))))
  | uttDone hpc hrun =>
    obtain ⟨ha, hactive, hlast, honly⟩ := hcall hpc hrun
    exact Or.inl (.handler ha hactive hlast (honly.mono_fifo (hold (by simp))))
  | killed => exact Or.inl (h.killed (hold (by simp)))

end Step

/-! ## Runs -/

/-- `p` goes on, if it does, in a step that `R` allows. -/
def ReleasedOnlyBy (R : Reason) (p : Ptr) (a : Bool) : Kernel → List (Event × Kernel) → Prop
  | _, [] => True
  | k, (e, t) :: r =>
    ((t.proc p).Resumed a → R.Allows k e) ∧
      (¬(t.proc p).Resumed a → ReleasedOnlyBy R p a t r)

theorem Phase.run {k : Kernel} {ring : List Ptr} {p : Ptr} {R : Reason} {a : Bool}
    {r : List (Event × Kernel)} (hk : Ringed k ring) (hp : p ∈ ring)
    (h : Phase R a (k.Holds p) (k.proc p)) (hrun : IsRun Step k r)
    (hsafe : Guarded ReleaseSafe k r) : ReleasedOnlyBy R p a k r := by
  induction r generalizing k ring with
  | nil => trivial
  | cons step r ih =>
    obtain ⟨e, t⟩ := step
    obtain ⟨ring', heff⟩ := step_effect hk hrun.1
    rcases h.step hk hrun.1 heff hp hsafe.1 with hphase | ⟨hallow, hres⟩
    · exact ⟨fun hres ↦ absurd hres hphase.not_resumed,
        fun _ ↦ ih heff.ringed (heff.subset hp) hphase hrun.2 hsafe.2⟩
    · exact ⟨fun _ ↦ hallow, fun hnot ↦ absurd hres hnot⟩

/-- What a call waits for, read off the state it leaves. -/
def Event.Blocks (t : Kernel) : Event → Option Reason
  | .svc (.sleep period) => some (.deadline (t.clkticks.toNat + period.toNat))
  | .svc (.wait c) => some (.completion c)
  | .svc (.eventWait mask) => some (.events mask)
  | _ => none

theorem or_and_of_and_eq {a m : UInt32} (h : a &&& m = a) : (a ||| m) &&& m = a ||| m := by
  rw [← UInt32.toBitVec_inj] at h ⊢
  ext i hi
  have hbit : (a &&& m).toBitVec[i] = a.toBitVec[i] := by rw [h]
  rw [UInt32.toBitVec_and, BitVec.getElem_and] at hbit
  rw [UInt32.toBitVec_and, UInt32.toBitVec_or, BitVec.getElem_and, BitVec.getElem_or]
  cases ha : a.toBitVec[i] <;> cases hm : m.toBitVec[i] <;> simp_all

theorem Phase.of_block {k t : Kernel} {ring ring' : List Ptr} {e : Event} {R : Reason}
    (hk : Ringed k ring) (heff : Effect k ring e t ring') (hrun : k.Running)
    (hsafe : ReleaseSafe k e) (he : e.Blocks t = some R) (hs : (t.proc t.cur).state = .sleep) :
    t.cur ∈ ring' ∧ Phase R (t.proc t.cur).timer.active (t.Holds t.cur) (t.proc t.cur) := by
  have hcur : t.cur = k.cur := heff.cur fun h ↦ by simp [h, Event.Blocks] at he
  have hclk : t.clkticks = k.clkticks := heff.clkticks fun h ↦ by simp [h, Event.Blocks] at he
  have hhalted : ProcState.Halted .sleep := ⟨by simp, by simp⟩
  have hawake : (k.proc k.cur).state ≠ .sleep := by
    rintro h
    rcases hrun with h' | h' <;> rw [h] at h' <;> exact absurd h' (by simp)
  rw [hcur] at hs ⊢
  have hproc : ProcStep k ring t k.cur e (t.proc k.cur) := heff.proc k.cur hk.cur
  have hfifo : ∀ d, t.Holds k.cur d → k.Holds k.cur d ∨ e = .svc (.wait d) :=
    fun d hd ↦ (heff.mem_wait hd).imp_right fun h ↦ h.2.1
  have hring : BlockSafe k → k.cur ∈ ring' :=
    fun h ↦ heff.subset (hk.cur.resolve_left h.idle)
  generalize t.proc k.cur = x at hproc hs ⊢
  cases hproc with
  | same => exact absurd hs hawake
  | wake hw => rcases hw with rfl | rfl <;> simp [Event.Blocks] at he
  | wait _ _ hc hfree =>
    obtain rfl := Option.some.inj he
    obtain ⟨hblock, hmask, hticks⟩ := hsafe hc hfree
    refine ⟨hring hblock, .blocked rfl hhalted hblock.unwound ⟨hticks, hmask, fun d hd ↦ ?_⟩⟩
    have hd := (hfifo d hd).resolve_left (hblock.fifo d)
    simpa [eq_comm] using hd
  | sleep =>
    obtain rfl := Option.some.inj he
    obtain ⟨hblock, hmask, hwrap⟩ := hsafe
    refine ⟨hring hblock, .blocked rfl hhalted hblock.unwound ⟨?_, hmask, fun d hd ↦ ?_⟩⟩
    · rw [hclk, UInt32.toNat_add, Nat.mod_eq_of_lt hwrap]
    · exact (hfifo d hd).elim (hblock.fifo d) (by simp)
  | eventWait =>
    obtain rfl := Option.some.inj he
    obtain ⟨hblock, hmask, hticks, -⟩ := hsafe
    refine ⟨hring hblock, .blocked rfl hhalted hblock.unwound
      ⟨hticks, or_and_of_and_eq hmask, fun d hd ↦ ?_⟩⟩
    exact (hfifo d hd).elim (hblock.fifo d) (by simp)
  | regs => simp [Event.Blocks] at he
  | passed => simp [Event.Blocks] at he
  | selected => simp [Event.Blocks] at he
  | eventSet => simp [Event.Blocks] at he
  | alarm => simp [Event.Blocks] at he
  | uttDone => simp [Event.Blocks] at he
  | killed => simp [Event.Blocks] at he

/-! ## The theorem -/

/-- Every process that goes to sleep in a call goes on for the reason it gave. -/
def ReleasesOnly : List (Event × Kernel) → Prop :=
  Following fun e t r ↦ ∀ R, e.Blocks t = some R → (t.proc t.cur).state = .sleep →
    ReleasedOnlyBy R t.cur (t.proc t.cur).timer.active t r

/-- **A blocked process is released only by what it blocks on**, along every run in which processes
block with nothing left over. -/
theorem always_releasesOnly {k : Kernel} (hk : Booted k) {r : List (Event × Kernel)}
    (hrun : IsRun Step k r) (hsafe : Guarded ReleaseSafe k r) : ReleasesOnly r := by
  refine following_of_guarded (I := fun s ↦ ∃ ring, Ringed s ring)
    (fun s e t ⟨_, hs⟩ _ hst ↦ (step_effect hs hst).imp fun _ h ↦ h.ringed) ?_
    ⟨[], hk.bootState.ringed⟩ hrun hsafe
  rintro s e t r ⟨ring, hs⟩ hC hst hrun hsafe R he hsleep
  obtain ⟨ring', heff⟩ := step_effect hs hst
  have hcalls : s.Running := by
    cases hst with
    | svc hrun => exact hrun
    | _ => simp [Event.Blocks] at he
  obtain ⟨hring, hphase⟩ := Phase.of_block hs heff hcalls hC he hsleep
  exact hphase.run heff.ringed hring hrun hsafe

/-- A process waits for a completion and is woken. -/
theorem always_releasesOnly_waitRun :
    ReleasesOnly (execRun 4 bootKernel
      [spawnA, .schedule, .svc (.wait 0x700), .schedule, .irqWake 0x700, .schedule]) := by
  refine always_releasesOnly booted_bootKernel (isRun_execRun ?_) ?_
  · exact ⟨enabled_spawnA, trivial, Or.inl rfl, trivial, trivial, trivial, trivial⟩
  · exact ⟨trivial, fun h ↦ absurd h (by decide),
      fun _ _ ↦ ⟨⟨by decide, by decide, fun c ↦ List.not_mem_nil⟩, rfl, rfl⟩,
      fun h ↦ absurd h (by decide), trivial, fun h ↦ absurd h (by decide), trivial⟩

/-- The run that ends a sleep early: of the two events waited for only one arrives, and the second
one comes during the next sleep. -/
def leftoverEvent : List Event :=
  [spawnA, spawnB, .schedule, .svc (.eventWait 3), .schedule, .svc (.eventSet 1), .schedule,
    .svc (.sleep 100), .schedule, .svc (.eventSet 2)]

theorem leftover_event_ends_sleep :
    AllEnabled 4 bootKernel leftoverEvent ∧ ¬ReleasesOnly (execRun 4 bootKernel leftoverEvent) := by
  refine ⟨⟨enabled_spawnA, enabled_spawnB, trivial, Or.inl rfl, trivial, Or.inl rfl, trivial,
    Or.inl rfl, trivial, Or.inl rfl, trivial⟩, fun h ↦ ?_⟩
  -- the step that follows the `sys_sleep` schedules, and the one after that sets the event
  have hsleep := h.2.2.2.2.2.2.2.1 (.deadline 100) rfl rfl
  have hset := (hsleep.2 fun hres ↦ hres.state.elim (by decide) (by decide)).1
  have htick : (100 : ℕ) ≤ _ := hset ⟨Or.inl rfl, by decide⟩
  exact absurd htick (by decide)

end Ertos
