import Ertos.Sys.List

/-!
# Processes and their timers

`struct proc` of `include/sys/proc.h`, and the functions of `timers.c` and `sched.c` that look at a
single process: starting and ending an alarm handler, and `check_timers`, which decides on behalf of
the scheduler whether a process may join the run queue.

Those functions read nothing but the process and the clock, so they are maps on `Proc`. What
`check_timers` may do to a process is said once, in `CheckTimers`.
-/

namespace Ertos

/-- `enum proc_state`. -/
inductive ProcState
  /-- Currently running. -/
  | active
  /-- Wants to run. -/
  | run
  /-- Is waiting on something. -/
  | sleep
  /-- Has been killed. -/
  | killed
  deriving DecidableEq

/-- `enum proc_mode`. -/
inductive ProcMode
  | user
  | system
  deriving DecidableEq

/-- The saved registers: spsr, the address to return to, `r0` to `r12`, `sp`, `lr`. -/
abbrev Regs := Fin 17 → UInt32

instance neZero_regs : @NeZero ℕ Zero.ofOfNat0 17 := ⟨Nat.succ_ne_zero 16⟩

/-- `ticks_wakeup` of a process without a deadline. -/
abbrev noWakeup : UInt32 := 0xFFFFFFFF

/-- The deadline that means none comes with the last tick. -/
theorem not_noWakeup_le {clkticks : UInt32} (h : clkticks ≠ noWakeup) : ¬noWakeup ≤ clkticks := by
  intro hle
  refine h (UInt32.toNat_inj.mp (Nat.le_antisymm ?_ (UInt32.le_iff_toNat_le.mp hle)))
  exact Nat.le_of_lt_succ clkticks.toNat_lt

/-- The alarm and the deadline of a process. -/
structure Timer where
  handler : UInt32
  next : UInt32
  period : UInt32
  oneshot : Bool
  done : Bool
  active : Bool
  lastState : ProcState
  /-- The tick at which to force the process runnable. -/
  ticksWakeup : UInt32
  lastTicksWakeup : UInt32

/-- `struct proc`, without its list node (see `ListHeap`), its name and its mode, which the kernel
never reads. -/
structure Proc where
  pid : ℕ
  state : ProcState
  regs : Regs
  backupRegs : Regs
  stack : Ptr
  stackBase : Ptr
  /-- The events this process is waiting on. -/
  eventMask : UInt32
  timer : Timer
  self : Ptr

/-- A cleared structure. `PROC_ACTIVE` is the zero of its type. -/
def Proc.cleared : Proc where
  pid := 0
  state := .active
  regs := fun _ ↦ 0
  backupRegs := fun _ ↦ 0
  stack := NULL
  stackBase := NULL
  eventMask := 0
  timer := ⟨0, 0, 0, false, false, false, .active, 0, 0⟩
  self := NULL

/-! ## Alarms -/

def handleTaskTimerDone (p : Proc) : Proc :=
  { p with
    regs := p.backupRegs
    state := p.timer.lastState
    timer.active := false
    timer.ticksWakeup := p.timer.lastTicksWakeup }

/-- The trampoline is the address of `user_timer_trampoline`. -/
def handleTaskTimer (trampoline clkticks : UInt32) (p : Proc) : Proc :=
  { p with
    backupRegs := p.regs
    regs := fun i ↦ if i = 1 ∨ i = 16 then trampoline else if i = 2 then p.timer.handler
      else p.regs i
    state := .run
    timer.done := false
    timer.active := true
    timer.next := if p.timer.oneshot then 0 else clkticks + p.timer.period
    timer.lastState := p.state
    timer.lastTicksWakeup := p.timer.ticksWakeup }

/-! ## The check before scheduling -/

/-- The last part of `check_timers`: wake a sleeper whose deadline has passed. -/
def checkSleep (clkticks : UInt32) (p : Proc) : Proc :=
  if p.state = .sleep ∧ p.timer.ticksWakeup ≤ clkticks
  then { p with state := .run, timer.ticksWakeup := noWakeup }
  else p

def checkTimers (trampoline clkticks : UInt32) (p : Proc) : Proc :=
  if 0 < p.timer.next ∧ p.timer.active = false then
    if p.timer.next ≤ clkticks then handleTaskTimer trampoline clkticks p
    else checkSleep clkticks p
  else if p.timer.active ∧ p.timer.done then checkSleep clkticks (handleTaskTimerDone p)
  else checkSleep clkticks p

/-- What `check_timers` makes of a process: it starts the alarm handler, or it first ends one that
has finished, and in the other cases wakes the process if its deadline has passed. -/
inductive CheckTimers (trampoline clkticks : UInt32) (p : Proc) : Proc → Prop
  | fire (hnext : 0 < p.timer.next) (hactive : p.timer.active = false)
      (hclk : p.timer.next ≤ clkticks) :
      CheckTimers trampoline clkticks p (handleTaskTimer trampoline clkticks p)
  | unwind (hactive : p.timer.active = true) (hdone : p.timer.done = true) :
      CheckTimers trampoline clkticks p (checkSleep clkticks (handleTaskTimerDone p))
  | check (hrunning : ¬(p.timer.active = true ∧ p.timer.done = true)) :
      CheckTimers trampoline clkticks p (checkSleep clkticks p)

theorem checkTimers_spec (trampoline clkticks : UInt32) (p : Proc) :
    CheckTimers trampoline clkticks p (checkTimers trampoline clkticks p) := by
  unfold checkTimers
  split_ifs with harmed hclk hdone
  · exact .fire harmed.1 harmed.2 hclk
  · exact .check fun h ↦ by simp [h.1] at harmed
  · exact .unwind hdone.1 hdone.2
  · exact .check hdone

/-- What the last part does. -/
inductive CheckSleep (clkticks : UInt32) (p : Proc) : Proc → Prop
  | wake (hstate : p.state = .sleep) (hclk : p.timer.ticksWakeup ≤ clkticks) :
      CheckSleep clkticks p { p with state := .run, timer.ticksWakeup := noWakeup }
  | same (hsleep : p.state = .sleep → clkticks < p.timer.ticksWakeup) : CheckSleep clkticks p p

theorem checkSleep_spec (clkticks : UInt32) (p : Proc) :
    CheckSleep clkticks p (checkSleep clkticks p) := by
  unfold checkSleep
  split_ifs with h
  · exact .wake h.1 h.2
  · refine .same fun hstate ↦ ?_
    rw [← UInt32.not_le]
    exact fun hle ↦ h ⟨hstate, hle⟩

end Ertos
