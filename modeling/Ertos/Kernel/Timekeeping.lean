import Ertos.Kernel.Alarm

/-!
# Timekeeping and the wrap of the clock

`clkticks` counts the timer interrupts in 32 bits. Deadlines and alarms are sums modulo 2³², which
`check_timers` compares with the clock by `>=`. Two of their values are taken: an alarm at 0 is
none, and a deadline at 0xFFFFFFFF is none.

`Timed` is the machine with a history: the number of ticks since the boot, which does not wrap, and
what each process has asked for, in these ticks. `OnTime` is what `check_timers` owes to the
history. It keeps to it as long as no sum reaches the end of the 32 bits, and as long as nothing is
left behind when the clock gets there (`InRange`).

The invariant is that what is kept in the process are the last 32 bits of what is in the history,
and that the other bits are not ahead of those of the clock.
-/

namespace Ertos

open Transition

/-! ## The history -/

/-- What a process has asked of the clock, in ticks since the boot. -/
structure Due where
  wakeup : Option ℕ
  /-- The end of the sleep that the alarm handler has interrupted. -/
  lastWakeup : Option ℕ
  alarm : Option ℕ
  /-- The ticks after which the alarm is due again. -/
  period : Option ℕ

namespace Due

def fresh : Due := ⟨none, none, none, none⟩

def unwound (clkticks : UInt32) (x : Proc) (d : Due) : Due :=
  if timerCall clkticks x = some .done then { d with wakeup := d.lastWakeup } else d

/-- After `check_timers` was called on `x`. -/
def checked (ticks : ℕ) (clkticks : UInt32) (x : Proc) (d : Due) : Due :=
  if timerCall clkticks x = some .start
  then { d with lastWakeup := d.wakeup, alarm := d.period.map (ticks + ·) }
  else if x.Woken clkticks then { d.unwound clkticks x with wakeup := none }
  else d.unwound clkticks x

end Due

structure Timed where
  kernel : Kernel
  ticks : ℕ
  due : Ptr → Due

namespace Timed

def boot (k : Kernel) : Timed := ⟨k, 0, fun _ ↦ .fresh⟩

variable (s : Timed)

def ticksAfter : Event → ℕ
  | .tick => s.ticks + 1
  | _ => s.ticks

/-- What `p` has asked for after an event; `fuel` is that of `schedule`. -/
def dueAfter (fuel : ℕ) (e : Event) (p : Ptr) : Due :=
  match e with
  | .spawn a _ _ => if p = a.proc then .fresh else s.due p
  | .schedule =>
    match (checks fuel s.kernel).lookup p with
    | some x => (s.due p).checked s.ticks s.kernel.clkticks x
    | none => s.due p
  | .svc (.sleep period) =>
    if p = s.kernel.cur then { s.due p with wakeup := some (s.ticks + period.toNat) } else s.due p
  | .svc (.alarm a) =>
    let period := (msToClkticks a.msec).toNat
    if p = s.kernel.cur
    then { s.due p with
      alarm := some (s.ticks + period), period := if a.oneshot then none else some period }
    else s.due p
  | .userPageFault => if p = s.kernel.cur then { s.due p with wakeup := none } else s.due p
  | _ => s.due p

/-- The state after an event that led the machine to `k`. -/
def after (fuel : ℕ) (e : Event) (k : Kernel) : Timed := ⟨k, s.ticksAfter e, s.dueAfter fuel e⟩

end Timed

/-- A step of the machine, and its entry in the history. -/
def TimedStep (s : Timed) (e : Event) (t : Timed) : Prop :=
  Step s.kernel e t.kernel ∧
    ∃ fuel, (e = .schedule → (schedule fuel s.kernel).isSome) ∧ t = s.after fuel e t.kernel

/-- The history does not keep the machine from any step. -/
theorem exists_timedStep {s : Timed} {e : Event} {k : Kernel} (h : Step s.kernel e k) :
    ∃ t, TimedStep s e t ∧ t.kernel = k := by
  obtain ⟨fuel, hfuel⟩ : ∃ fuel, e = .schedule → (schedule fuel s.kernel).isSome := by
    cases h with
    | @schedule _ fuel hsched => exact ⟨fuel, fun _ ↦ by rw [hsched]; rfl⟩
    | _ => exact ⟨0, fun he ↦ absurd he (by simp)⟩
  exact ⟨s.after fuel e k, ⟨h, fuel, hfuel, rfl⟩, rfl⟩

/-! ## The law -/

/-- The process after `check_timers` was called on it. -/
def Timed.checked (s : Timed) (x : Proc) : Proc :=
  checkTimers s.kernel.trampoline s.kernel.clkticks x

/-- What `check_timers` owes to the process `p` when it finds the record `x`. Before the alarm is
due it does no more than to check the sleep, behind the end of a handler that is done. -/
structure Timed.Timely (s : Timed) (p : Ptr) (x : Proc) : Prop where
  sleep : x.Asleep s.kernel.clkticks → (s.checked x).state = .run →
    ∃ n, ((s.due p).unwound s.kernel.clkticks x).wakeup = some n ∧ n ≤ s.ticks
  forever : x.Asleep s.kernel.clkticks →
    (x.unwound s.kernel.clkticks).timer.ticksWakeup = noWakeup → (s.checked x).state = .sleep
  not_early : (∀ n, (s.due p).alarm = some n → s.ticks < n) →
    s.checked x = checkSleep s.kernel.clkticks (x.unwound s.kernel.clkticks)
  not_late : x.timer.active = false → ∀ n, (s.due p).alarm = some n → n ≤ s.ticks →
    s.checked x = handleTaskTimer s.kernel.trampoline s.kernel.clkticks x

/-- **Timekeeping.** A process that is woken by the clock had a deadline, and that many ticks have
passed; one without a deadline is not woken; an alarm does not go off before it is due, and goes off
at the first check after that that finds no handler running. -/
def OnTime (s : Timed) (e : Event) : Prop :=
  e = .schedule → ∀ p x, s.kernel.Checks p x → s.Timely p x

/-- An alarm goes off at the first check after it is due, even if a handler runs. -/
def Prompt (s : Timed) (e : Event) : Prop :=
  e = .schedule → ∀ p x, s.kernel.Checks p x → ∀ n, (s.due p).alarm = some n → n ≤ s.ticks →
    s.checked x = handleTaskTimer s.kernel.trampoline s.kernel.clkticks x

/-! ## The conditions -/

/-- The alarm that is set for `clkticks + period` is set for a later tick, and not for none. -/
def AlarmInRange (clkticks period : UInt32) : Prop :=
  0 < clkticks.toNat + period.toNat ∧ clkticks.toNat + period.toNat < UInt32.size

instance decidableAlarmInRange (clkticks period : UInt32) :
    Decidable (AlarmInRange clkticks period) := inferInstanceAs (Decidable (_ ∧ _))

/-- No sum reaches the end of the 32 bits; when the clock wraps no alarm is pending; and with the
clock at 0xFFFFFFFF no process is looked at that sleeps without a deadline. -/
def InRange (s : Timed) : Event → Prop
  | .svc (.sleep period) => s.kernel.clkticks.toNat + period.toNat < noWakeup.toNat
  | .svc (.alarm a) => AlarmInRange s.kernel.clkticks (msToClkticks a.msec)
  | .tick => s.kernel.clkticks = noWakeup →
    ∀ ring, ProcList s.kernel ring → ∀ p ∈ ring, (s.kernel.proc p).timer.next = 0
  | .schedule => ∀ p x, s.kernel.Checks p x →
    (timerCall s.kernel.clkticks x = some .start → x.timer.oneshot = false →
      AlarmInRange s.kernel.clkticks x.timer.period) ∧
    (s.kernel.clkticks = noWakeup → x.Asleep s.kernel.clkticks →
      (x.unwound s.kernel.clkticks).timer.ticksWakeup ≠ noWakeup)
  | _ => True

/-- No process is looked at whose alarm has come up again while its handler runs. -/
def HandlersOver (s : Timed) (e : Event) : Prop :=
  e = .schedule → ∀ p x, s.kernel.Checks p x → x.timer.active = true →
    0 < x.timer.next → s.kernel.clkticks < x.timer.next

/-! ## The invariant -/

/-- The deadline `w` is what 32 bits keep of that in the history. -/
def WakeupWord (ticks : ℕ) (w : UInt32) : Option ℕ → Prop
  | none => w = noWakeup
  | some n => w ≠ noWakeup ∧ w.toNat = n % UInt32.size ∧ n / UInt32.size ≤ ticks / UInt32.size

/-- The same for an alarm, which does not outlast a wrap. -/
def AlarmWord (ticks : ℕ) (w : UInt32) : Option ℕ → Prop
  | none => w = 0
  | some n => w ≠ 0 ∧ w.toNat = n % UInt32.size ∧ n / UInt32.size = ticks / UInt32.size

/-- The process keeps what is in the history. -/
structure Due.Kept (ticks : ℕ) (x : Proc) (d : Due) : Prop where
  wakeup : WakeupWord ticks x.timer.ticksWakeup d.wakeup
  lastWakeup : x.timer.active = true → WakeupWord ticks x.timer.lastTicksWakeup d.lastWakeup
  alarm : AlarmWord ticks x.timer.next d.alarm
  period : d.alarm ≠ none →
    d.period = if x.timer.oneshot then none else some x.timer.period.toNat

structure TimedInv (s : Timed) (ring : List Ptr) : Prop where
  ringed : Ringed s.kernel ring
  clkticks : s.kernel.clkticks.toNat = s.ticks % UInt32.size
  kept : ∀ p ∈ ring, (s.due p).Kept s.ticks (s.kernel.proc p)

/-! ## Words and ticks -/

section Words

variable {ticks : ℕ} {clkticks w : UInt32}

theorem wakeupWord_add (hclk : clkticks.toNat = ticks % UInt32.size) {period : UInt32}
    (h : clkticks.toNat + period.toNat < noWakeup.toNat) :
    WakeupWord ticks (clkticks + period) (some (ticks + period.toNat)) := by
  have hsize : UInt32.size = 4294967296 := rfl
  have hnone : noWakeup.toNat = 4294967295 := rfl
  have hsum : (clkticks + period).toNat = clkticks.toNat + period.toNat := by
    rw [UInt32.toNat_add]
    omega
  refine ⟨fun h0 ↦ ?_, ?_, ?_⟩
  · rw [h0] at hsum
    omega
  · rw [hsum]
    rw [hsize] at hclk ⊢
    omega
  · rw [hsize] at hclk ⊢
    omega

theorem alarmWord_add (hclk : clkticks.toNat = ticks % UInt32.size) {period : UInt32}
    (h : AlarmInRange clkticks period) :
    AlarmWord ticks (clkticks + period) (some (ticks + period.toNat)) := by
  obtain ⟨hpos, hlt⟩ := h
  have hsize : UInt32.size = 4294967296 := rfl
  have hsum : (clkticks + period).toNat = clkticks.toNat + period.toNat := by
    rw [UInt32.toNat_add]
    omega
  refine ⟨fun h0 ↦ ?_, ?_, ?_⟩
  · rw [h0, UInt32.toNat_zero] at hsum
    omega
  · rw [hsum]
    rw [hsize] at hclk ⊢
    omega
  · rw [hsize] at hclk ⊢
    omega

theorem WakeupWord.mono {ticks' : ℕ} {o : Option ℕ} (h : WakeupWord ticks w o)
    (hle : ticks ≤ ticks') : WakeupWord ticks' w o := by
  cases o with
  | none => exact h
  | some n => exact ⟨h.1, h.2.1, h.2.2.trans (Nat.div_le_div_right hle)⟩

theorem WakeupWord.due {o : Option ℕ} (h : WakeupWord ticks w o) (hne : w ≠ noWakeup)
    (hclk : clkticks.toNat = ticks % UInt32.size) (hle : w ≤ clkticks) :
    ∃ n, o = some n ∧ n ≤ ticks := by
  cases o with
  | none => exact absurd h hne
  | some n =>
    obtain ⟨-, hmod, hdiv⟩ := h
    have hsize : UInt32.size = 4294967296 := rfl
    have hword : w.toNat ≤ clkticks.toNat := UInt32.le_iff_toNat_le.mp hle
    refine ⟨n, rfl, ?_⟩
    rw [hsize] at hmod hdiv hclk
    omega

theorem AlarmWord.le_iff {n : ℕ} (h : AlarmWord ticks w (some n))
    (hclk : clkticks.toNat = ticks % UInt32.size) : w ≤ clkticks ↔ n ≤ ticks := by
  obtain ⟨-, hmod, hdiv⟩ := h
  have hsize : UInt32.size = 4294967296 := rfl
  rw [UInt32.le_iff_toNat_le, hmod, hclk]
  rw [hsize] at hdiv ⊢
  omega

theorem AlarmWord.succ {o : Option ℕ} (h : AlarmWord ticks w o)
    (hclk : clkticks.toNat = ticks % UInt32.size) (hne : clkticks ≠ noWakeup) :
    AlarmWord (ticks + 1) w o := by
  cases o with
  | none => exact h
  | some n =>
    have hlt : clkticks.toNat ≠ noWakeup.toNat := fun h ↦ hne (UInt32.toNat_inj.mp h)
    have hnone : noWakeup.toNat = 4294967295 := rfl
    have hsize : UInt32.size = 4294967296 := rfl
    refine ⟨h.1, h.2.1, h.2.2.trans ?_⟩
    rw [hsize] at hclk ⊢
    omega

theorem AlarmWord.eq_none {o : Option ℕ} (h : AlarmWord ticks 0 o) : o = none := by
  cases o with
  | none => rfl
  | some n => exact absurd rfl h.1

end Words

/-! ## A check -/

namespace Due.Kept

variable {ticks : ℕ} {clkticks : UInt32} {x y : Proc} {d : Due}

theorem congr (h : d.Kept ticks x) (hwakeup : y.timer.ticksWakeup = x.timer.ticksWakeup)
    (hlast : y.timer.lastTicksWakeup = x.timer.lastTicksWakeup)
    (hactive : y.timer.active = x.timer.active) (hnext : y.timer.next = x.timer.next)
    (hperiod : y.timer.period = x.timer.period) (honeshot : y.timer.oneshot = x.timer.oneshot) :
    d.Kept ticks y where
  wakeup := by
    rw [hwakeup]
    exact h.wakeup
  lastWakeup := by
    rw [hlast, hactive]
    exact h.lastWakeup
  alarm := by
    rw [hnext]
    exact h.alarm
  period := by
    rw [hperiod, honeshot]
    exact h.period

theorem unwound (h : d.Kept ticks x) (clkticks : UInt32) :
    (d.unwound clkticks x).Kept ticks (x.unwound clkticks) := by
  unfold Due.unwound Proc.unwound
  split_ifs with hdone
  · exact ⟨h.lastWakeup ((timerCall_done_iff.mp hdone).1),
      fun h ↦ absurd h (by simp [handleTaskTimerDone]), h.alarm, h.period⟩
  · exact h

theorem due_iff (h : d.Kept ticks x) (hclk : clkticks.toNat = ticks % UInt32.size) :
    (0 < x.timer.next ∧ x.timer.next ≤ clkticks) ↔ ∃ n, d.alarm = some n ∧ n ≤ ticks := by
  have halarm := h.alarm
  cases ho : d.alarm with
  | none =>
    rw [ho] at halarm
    exact iff_of_false (fun h ↦ absurd h.1 (by rw [halarm]; exact lt_irrefl 0))
      fun ⟨n, hn, _⟩ ↦ absurd hn (by simp)
  | some n =>
    rw [ho] at halarm
    have hpos : 0 < x.timer.next := UInt32.pos_iff_ne_zero.mpr halarm.1
    rw [and_iff_right hpos, halarm.le_iff hclk]
    exact ⟨fun h ↦ ⟨n, rfl, h⟩, fun ⟨_, hm, h⟩ ↦ Option.some.inj hm ▸ h⟩

theorem start_iff (h : d.Kept ticks x) (hclk : clkticks.toNat = ticks % UInt32.size) :
    timerCall clkticks x = some .start ↔
      x.timer.active = false ∧ ∃ n, d.alarm = some n ∧ n ≤ ticks := by
  rw [timerCall_start_iff, h.due_iff hclk]

/-- A check keeps the process in step with the history. -/
theorem checkTimers (h : d.Kept ticks x) (hclk : clkticks.toNat = ticks % UInt32.size)
    (hrange : timerCall clkticks x = some .start → x.timer.oneshot = false →
      AlarmInRange clkticks x.timer.period) (trampoline : UInt32) :
    (d.checked ticks clkticks x).Kept ticks (checkTimers trampoline clkticks x) := by
  rw [checkTimers_eq_unwound, Due.checked]
  by_cases hstart : timerCall clkticks x = some .start
  · rw [if_pos hstart, if_pos hstart]
    obtain ⟨-, n, hn, -⟩ := (h.start_iff hclk).mp hstart
    have hperiod := h.period (by simp [hn])
    refine ⟨h.wakeup, fun _ ↦ h.wakeup, ?_, fun _ ↦ hperiod⟩
    dsimp only [handleTaskTimer]
    rw [hperiod]
    cases honeshot : x.timer.oneshot with
    | true => rfl
    | false => exact alarmWord_add hclk (hrange hstart honeshot)
  · rw [if_neg hstart, if_neg hstart]
    have hun := h.unwound clkticks
    split_ifs with hwoken
    · exact ⟨rfl, hun.lastWakeup, hun.alarm, hun.period⟩
    · exact hun

end Due.Kept

theorem Timed.checked_of_start {s : Timed} {x : Proc}
    (h : timerCall s.kernel.clkticks x = some .start) :
    s.checked x = handleTaskTimer s.kernel.trampoline s.kernel.clkticks x := by
  rw [Timed.checked, checkTimers_eq_unwound, if_pos h]

theorem Timed.checked_of_not_start {s : Timed} {x : Proc}
    (h : timerCall s.kernel.clkticks x ≠ some .start) :
    s.checked x = checkSleep s.kernel.clkticks (x.unwound s.kernel.clkticks) := by
  rw [Timed.checked, checkTimers_eq_unwound, if_neg h, checkSleep_unwound h]

/-- A process that is asleep runs after the check exactly if it is woken. -/
theorem Timed.state_checked {s : Timed} {x : Proc} (h : x.Asleep s.kernel.clkticks) :
    (s.checked x).state = if x.Woken s.kernel.clkticks then .run else .sleep := by
  rw [Timed.checked, checkTimers_eq_unwound, if_neg h.1]
  split_ifs
  · rfl
  · exact h.2

/-- **A check is on time** if the process is in step with the history. -/
theorem Due.Kept.timely {s : Timed} {p : Ptr} {x : Proc} (h : (s.due p).Kept s.ticks x)
    (hclk : s.kernel.clkticks.toNat = s.ticks % UInt32.size)
    (hforever : s.kernel.clkticks = noWakeup → x.Asleep s.kernel.clkticks →
      (x.unwound s.kernel.clkticks).timer.ticksWakeup ≠ noWakeup) : s.Timely p x := by
  have hnever : (x.unwound s.kernel.clkticks).timer.ticksWakeup = noWakeup →
      ¬x.Woken s.kernel.clkticks := by
    rintro hnone ⟨hasleep, hle⟩
    rw [hnone] at hle
    have hlast : s.kernel.clkticks = noWakeup := by
      by_contra hne
      exact not_noWakeup_le hne hle
    exact hforever hlast hasleep hnone
  refine ⟨fun hasleep hrun ↦ ?_, fun hasleep hnone ↦ ?_, fun hnot ↦ ?_,
    fun hactive n hn hdue ↦ s.checked_of_start ((h.start_iff hclk).mpr ⟨hactive, n, hn, hdue⟩)⟩
  · have hwoken : x.Woken s.kernel.clkticks := by
      by_contra hnot
      rw [Timed.state_checked hasleep, if_neg hnot] at hrun
      exact absurd hrun (by simp)
    exact (h.unwound s.kernel.clkticks).wakeup.due (fun hnone ↦ hnever hnone hwoken) hclk hwoken.2
  · rw [Timed.state_checked hasleep, if_neg (hnever hnone)]
  · refine Timed.checked_of_not_start fun hstart ↦ ?_
    obtain ⟨-, n, hn, hdue⟩ := (h.start_iff hclk).mp hstart
    exact absurd hdue (hnot n hn).not_ge

/-! ## The other events -/

/-- The events that write the timer of the current process. -/
def Event.SetsTimer : Event → Prop
  | .svc (.sleep _) => True
  | .svc (.alarm _) => True
  | .userPageFault => True
  | _ => False

theorem Timed.dueAfter_eq {s : Timed} {fuel : ℕ} {e : Event} {p : Ptr} (hsched : e ≠ .schedule)
    (hspawn : ∀ a entry mode, e = .spawn a entry mode → p ≠ a.proc)
    (hset : p = s.kernel.cur → ¬e.SetsTimer) : s.dueAfter fuel e p = s.due p := by
  cases e with
  | schedule => exact absurd rfl hsched
  | spawn a entry mode => exact if_neg (hspawn a entry mode rfl)
  | userPageFault => exact if_neg fun hp ↦ hset hp trivial
  | svc c =>
    cases c with
    | sleep => exact if_neg fun hp ↦ hset hp trivial
    | alarm => exact if_neg fun hp ↦ hset hp trivial
    | _ => rfl
  | _ => rfl

theorem Due.Kept.procStep {ticks : ℕ} {d : Due} {k t : Kernel} {ring : List Ptr} {p : Ptr}
    {e : Event} {x : Proc} (h : d.Kept ticks (k.proc p)) (hsched : e ≠ .schedule)
    (hset : p = k.cur → ¬e.SetsTimer) (hx : ProcStep k ring t p e x) : d.Kept ticks x := by
  cases hx with
  | same => exact h
  | passed => exact absurd rfl hsched
  | selected => exact absurd rfl hsched
  | sleep hq => exact absurd trivial (hset hq)
  | alarm hq => exact absurd trivial (hset hq)
  | killed hq => exact absurd trivial (hset hq)
  | _ => exact h.congr rfl rfl rfl rfl rfl rfl

theorem proc_cSvc_sleep {fuel : ℕ} {k t : Kernel} {period : UInt32} {rc : ℤ}
    (h : cSvc fuel k (.sleep period) = some (rc, t)) : t.proc k.cur = { k.proc k.cur with
      state := .sleep, timer.ticksWakeup := k.clkticks + period } := by
  obtain ⟨-, rfl⟩ := Prod.mk.inj (Option.some.inj h)
  have hagree := agree_requestSchedule ((enterKernel k).modify k.cur fun x ↦
    { x with state := .sleep, timer.ticksWakeup := k.clkticks + period })
  exact (congrFun hagree.proc k.cur).trans (Kernel.proc_modify_self _ _ _)

theorem proc_cSvc_alarm {fuel : ℕ} {k t : Kernel} {a : Alarm} {rc : ℤ}
    (h : cSvc fuel k (.alarm a) = some (rc, t)) : t.proc k.cur = { k.proc k.cur with
      timer.handler := a.handler
      timer.period := msToClkticks a.msec
      timer.next := k.clkticks + msToClkticks a.msec
      timer.oneshot := a.oneshot } := by
  obtain ⟨-, rfl⟩ := Prod.mk.inj (Option.some.inj h)
  exact Kernel.proc_modify_self (enterKernel k) k.cur fun x ↦ { x with
    timer.handler := a.handler
    timer.period := msToClkticks a.msec
    timer.next := k.clkticks + msToClkticks a.msec
    timer.oneshot := a.oneshot }

theorem proc_userPageFault (k : Kernel) : (userPageFault k).proc k.cur = { k.proc k.cur with
    state := .killed, timer.ticksWakeup := noWakeup, eventMask := 0 } := by
  have hagree := agree_requestSchedule (k.modify k.cur fun x ↦
    { x with state := .killed, timer.ticksWakeup := noWakeup, eventMask := 0 })
  exact (congrFun hagree.proc k.cur).trans (Kernel.proc_modify_self _ _ _)

theorem Due.kept_fresh {x : Proc} (hx : x.New) (ticks : ℕ) : Due.fresh.Kept ticks x := by
  refine ⟨?_, fun hactive ↦ ?_, ?_, fun h ↦ absurd rfl h⟩
  · exact congrArg Timer.ticksWakeup hx.timer
  · rw [hx.timer] at hactive
    exact absurd hactive (by simp [Proc.cleared])
  · exact congrArg Timer.next hx.timer

theorem Due.Kept.tick {ticks : ℕ} {clkticks : UInt32} {x : Proc} {d : Due} (h : d.Kept ticks x)
    (hclk : clkticks.toNat = ticks % UInt32.size)
    (hwrap : clkticks = noWakeup → x.timer.next = 0) : d.Kept (ticks + 1) x where
  wakeup := h.wakeup.mono (Nat.le_succ ticks)
  lastWakeup := fun hactive ↦ (h.lastWakeup hactive).mono (Nat.le_succ ticks)
  alarm := by
    have halarm := h.alarm
    by_cases hlast : clkticks = noWakeup
    · rw [hwrap hlast] at halarm ⊢
      rw [halarm.eq_none]
      exact rfl
    · exact halarm.succ hclk hlast
  period := h.period

/-! ## Along a run -/

theorem Due.Kept.requeued {ticks : ℕ} {d : Due} {k : Kernel} {p : Ptr}
    (h : d.Kept ticks (k.proc p)) : d.Kept ticks (k.requeued p) := by
  unfold Kernel.requeued
  split_ifs
  · exact h.congr rfl rfl rfl rfl rfl rfl
  · exact h.congr rfl rfl rfl rfl rfl rfl
  · exact h
  · exact h

namespace TimedInv

variable {s t : Timed} {ring : List Ptr} {e : Event}

/-- Whatever record of a process is looked at, it is in step with the history. -/
theorem checks (h : TimedInv s ring) {p : Ptr} {x : Proc} (hx : s.kernel.Checks p x) :
    (s.due p).Kept s.ticks x := by
  obtain ⟨-, hmem, rfl⟩ := h.ringed.listed.of_checks hx
  exact (h.kept p hmem).requeued

theorem onTime (h : TimedInv s ring) (hrange : InRange s e) : OnTime s e := by
  rintro rfl p x hx
  exact (h.checks hx).timely h.clkticks (hrange p x hx).2

theorem prompt (h : TimedInv s ring) (hover : HandlersOver s e) : Prompt s e := by
  rintro rfl p x hx n hn hdue
  have hkept := h.checks hx
  obtain ⟨hpos, hle⟩ := (hkept.due_iff h.clkticks).mpr ⟨n, hn, hdue⟩
  refine s.checked_of_start ((hkept.start_iff h.clkticks).mpr ⟨?_, n, hn, hdue⟩)
  by_contra hactive
  have hlt := hover rfl p x hx (Bool.eq_true_of_not_eq_false hactive) hpos
  exact absurd hle (UInt32.not_le.mpr hlt)

theorem kept_after (h : TimedInv s ring) (hrange : InRange s e) (hsched : e ≠ .schedule)
    {k : Kernel} {ring' : List Ptr} (hst : Step s.kernel e k)
    (heff : Effect s.kernel ring e k ring') {p : Ptr} (hp : p ∈ ring) (fuel : ℕ) :
    (s.dueAfter fuel e p).Kept (s.ticksAfter e) (k.proc p) := by
  have hkept := h.kept p hp
  have hspawn : ∀ a entry mode, e = .spawn a entry mode → p ≠ a.proc := by
    rintro a entry mode rfl rfl
    cases hst with
    | spawn ha => exact ha.2 ring h.ringed.list hp
  by_cases hset : p = s.kernel.cur ∧ e.SetsTimer
  · obtain ⟨rfl, hsets⟩ := hset
    cases hst with
    | userPageFault =>
      have hdue : s.dueAfter fuel .userPageFault s.kernel.cur =
          { s.due s.kernel.cur with wakeup := none } := if_pos rfl
      rw [hdue, proc_userPageFault]
      exact ⟨rfl, hkept.lastWakeup, hkept.alarm, hkept.period⟩
    | @svc _ c _ _ _ hcall =>
      cases c with
      | sleep period =>
        have hdue : s.dueAfter fuel (.svc (.sleep period)) s.kernel.cur =
            { s.due s.kernel.cur with wakeup := some (s.ticks + period.toNat) } := if_pos rfl
        rw [hdue, proc_cSvc_sleep hcall]
        exact ⟨wakeupWord_add h.clkticks hrange, hkept.lastWakeup, hkept.alarm, hkept.period⟩
      | alarm a =>
        have hdue : s.dueAfter fuel (.svc (.alarm a)) s.kernel.cur = { s.due s.kernel.cur with
            alarm := some (s.ticks + (msToClkticks a.msec).toNat)
            period := if a.oneshot then none else some (msToClkticks a.msec).toNat } := if_pos rfl
        rw [hdue, proc_cSvc_alarm hcall]
        exact ⟨hkept.wakeup, hkept.lastWakeup, alarmWord_add h.clkticks hrange, fun _ ↦ rfl⟩
      | _ => exact absurd hsets id
    | _ => exact absurd hsets id
  · have hset : p = s.kernel.cur → ¬e.SetsTimer := fun hcur hs ↦ hset ⟨hcur, hs⟩
    rw [Timed.dueAfter_eq hsched hspawn hset]
    have hstep := heff.proc p (Or.inr hp)
    by_cases htick : e = .tick
    · subst htick
      have hwrap : s.kernel.clkticks = noWakeup → (s.kernel.proc p).timer.next = 0 :=
        fun hlast ↦ hrange hlast ring h.ringed.list p hp
      exact (hkept.tick h.clkticks hwrap).procStep hsched hset hstep
    · have hticks : s.ticksAfter e = s.ticks := by
        cases e with
        | tick => exact absurd rfl htick
        | _ => rfl
      rw [hticks]
      exact hkept.procStep hsched hset hstep

theorem kept_schedule (h : TimedInv s ring) (hrange : InRange s .schedule) {k : Kernel} {fuel : ℕ}
    (hsched : schedule fuel s.kernel = some k) {p : Ptr} (hp : p ∈ ring) :
    (s.dueAfter fuel .schedule p).Kept s.ticks (k.proc p) := by
  obtain ⟨l, seen, hlook⟩ := schedule_checks h.ringed.listed (h.ringed.listed.procs_ne hp) hsched
  have hreq := (h.kept p hp).requeued
  have hkept : (s.dueAfter fuel .schedule p).Kept s.ticks
      (if p ∈ seen then checkTimers s.kernel.trampoline s.kernel.clkticks (s.kernel.requeued p)
        else s.kernel.requeued p) := by
    rw [Timed.dueAfter, hlook.checks]
    by_cases hseen : p ∈ seen
    · rw [List.lookup_graph _ hseen, if_pos hseen]
      have hchecks : s.kernel.Checks p (s.kernel.requeued p) :=
        (hlook.checks_iff hsched).mpr ⟨hseen, rfl⟩
      exact hreq.checkTimers h.clkticks (hrange p _ hchecks).1 s.kernel.trampoline
    · have hnone : (seen.map fun q ↦ (q, s.kernel.requeued q)).lookup p = none := by
        rw [List.lookup_eq_none_iff]
        intro q hq
        obtain ⟨q', hq', rfl⟩ := List.mem_map.mp hq
        exact bne_iff_ne.mpr fun hpq ↦ hseen (hpq ▸ hq')
      rw [hnone, if_neg hseen]
      exact hreq
  have hstate : ∀ x, (s.dueAfter fuel .schedule p).Kept s.ticks x →
      (s.dueAfter fuel .schedule p).Kept s.ticks { x with state := .active } :=
    fun x hx ↦ hx.congr rfl rfl rfl rfl rfl rfl
  exact hlook.carries hstate hkept

theorem step (h : TimedInv s ring) (hrange : InRange s e) (hst : TimedStep s e t) :
    ∃ ring', TimedInv t ring' := by
  obtain ⟨hst, fuel, hfuel, ht⟩ := hst
  obtain ⟨ring', heff⟩ := step_effect h.ringed hst
  have hdue : t.due = s.dueAfter fuel e := by rw [ht, Timed.after]
  have hticks : t.ticks = s.ticksAfter e := by rw [ht, Timed.after]
  refine ⟨ring', heff.ringed, ?_, fun p hp ↦ ?_⟩
  · rw [hticks]
    by_cases htick : e = .tick
    · subst htick
      have hsize : UInt32.size = 4294967296 := rfl
      have hclk := h.clkticks
      rw [heff.tick rfl, UInt32.toNat_add, Timed.ticksAfter]
      rw [hsize] at hclk ⊢
      simp only [UInt32.toNat_one]
      omega
    · rw [heff.clkticks htick, h.clkticks]
      cases e with
      | tick => exact absurd rfl htick
      | _ => rfl
  · rw [hdue, hticks]
    by_cases hmem : p ∈ ring
    · by_cases hsched : e = .schedule
      · subst hsched
        obtain ⟨u, hu⟩ := Option.isSome_iff_exists.mp (hfuel rfl)
        have hut : u = t.kernel := by
          cases hst with
          | schedule hs => exact schedule_unique hu hs
        exact h.kept_schedule hrange (hut ▸ hu) hmem
      · exact h.kept_after hrange hsched hst heff hmem fuel
    · -- a new process
      obtain ⟨⟨a, entry, mode, rfl, rfl⟩, hnew⟩ := heff.new p hp hmem
      have hfresh : s.dueAfter fuel (.spawn a entry mode) a.proc = .fresh := if_pos rfl
      rw [hfresh]
      exact Due.kept_fresh hnew _

theorem boot {k : Kernel} (hk : BootState k) : TimedInv (.boot k) [] where
  ringed := hk.ringed
  clkticks := congrArg UInt32.toNat hk.clkticks
  kept := fun _ hp ↦ absurd hp List.not_mem_nil

end TimedInv

/-- **Timekeeping within the range of the clock.** In every run whose sums stay within the 32 bits,
and that leaves nothing behind when the clock wraps, every check is on time; and it is prompt if no
alarm comes up while a handler of its process runs. -/
theorem onTime_of_inRange {k : Kernel} (hk : Booted k) {r : List (Event × Timed)}
    (hrun : IsRun TimedStep (.boot k) r) (hrange : Guarded InRange (.boot k) r) :
    Guarded OnTime (.boot k) r ∧
      (Guarded HandlersOver (.boot k) r → Guarded Prompt (.boot k) r) := by
  have hinv : Always (fun s ↦ ∃ ring, TimedInv s ring) (.boot k) r :=
    always_of_guarded (fun _ _ _ ⟨_, hs⟩ he hst ↦ hs.step he hst) ⟨[], .boot hk.bootState⟩ hrun
      hrange
  exact ⟨hrange.imp_of_always (fun _ _ ⟨_, hs⟩ he ↦ hs.onTime he) hinv,
    fun hover ↦ hover.imp_of_always (fun _ _ ⟨_, hs⟩ he ↦ hs.prompt he) hinv⟩

/-! ## Runs on concrete inputs -/

def timedRun (fuel : ℕ) : Timed → List Event → List (Event × Timed)
  | _, [] => []
  | s, e :: es =>
    match e.exec fuel s.kernel with
    | none => []
    | some k => (e, s.after fuel e k) :: timedRun fuel (s.after fuel e k) es

theorem isRun_timedRun {fuel : ℕ} {s : Timed} {es : List Event}
    (h : AllEnabled fuel s.kernel es) : IsRun TimedStep s (timedRun fuel s es) := by
  induction es generalizing s with
  | nil => trivial
  | cons e es ih =>
    obtain ⟨he, hrest⟩ := h
    rw [timedRun]
    cases hx : e.exec fuel s.kernel with
    | none => trivial
    | some k =>
      rw [hx] at hrest
      refine ⟨⟨step_of_exec he hx, fuel, ?_, rfl⟩, ih hrest⟩
      rintro rfl
      exact Option.isSome_iff_exists.mpr ⟨k, hx⟩

theorem inRange_schedule (fuel : ℕ) {s : Timed} (h : (schedule fuel s.kernel).isSome)
    (hclk : s.kernel.clkticks ≠ noWakeup)
    (hperiod : ∀ y ∈ checks fuel s.kernel, timerCall s.kernel.clkticks y.2 = some .start →
      y.2.timer.oneshot = false → AlarmInRange s.kernel.clkticks y.2.timer.period) :
    InRange s .schedule :=
  fun p x hx ↦ ⟨hperiod (p, x) ((Kernel.checks_iff_mem h).mp hx), fun hlast ↦ absurd hlast hclk⟩

/-- A process sets an alarm for the next tick, sleeps, and is woken in between for its handler. -/
def sleeperEvents : List Event :=
  [spawnA, .schedule, .tick, .svc (.alarm ⟨10, 0x600, true⟩), .svc (.sleep 2), .schedule, .tick,
    .schedule, .svc .uttDone, .tick, .schedule]

theorem onTime_of_inRange_sleeper :
    Guarded OnTime (.boot bootKernel) (timedRun 4 (.boot bootKernel) sleeperEvents) := by
  refine (onTime_of_inRange booted_bootKernel (isRun_timedRun ?_) ?_).1
  · exact ⟨enabled_spawnA, trivial, trivial, Or.inl rfl, Or.inl rfl, trivial, trivial, trivial,
      Or.inl rfl, trivial, trivial, trivial⟩
  · refine ⟨trivial, ?_, ?_, ?_, ?_, ?_, ?_, ?_, trivial, ?_, ?_, trivial⟩
    · exact inRange_schedule 4 rfl (by decide) (by decide)
    · exact fun h ↦ absurd h (by decide)
    · exact ⟨by decide, by decide⟩
    · show _ < _
      decide
    · exact inRange_schedule 4 rfl (by decide) (by decide)
    · exact fun h ↦ absurd h (by decide)
    · exact inRange_schedule 4 rfl (by decide) (by decide)
    · exact fun h ↦ absurd h (by decide)
    · exact inRange_schedule 4 rfl (by decide) (by decide)

/-! ## Near the wrap -/

theorem cIrq_timerInt_of_disabled {k : Kernel} (hsched : k.schedEnabled = false)
    (hself : k.self = (k.proc k.cur).self) :
    cIrq (fun k ↦ some (timerInt k)) k = some { k with clkticks := k.clkticks + 1 } := by
  have htimer : timerInt (enterKernel k) =
      { k with self := k.kernelSelf, clkticks := k.clkticks + 1 } :=
    if_neg (by simp [enterKernel, hsched])
  rw [cIrq, Option.map_some, htimer, leaveKernel, hself]

theorem exists_ticks {s : Timed} (hsched : s.kernel.schedEnabled = false)
    (hself : s.kernel.self = (s.kernel.proc s.kernel.cur).self) (n : ℕ) :
    ∃ r, IsRun TimedStep s r ∧ last s r =
      ⟨{ s.kernel with clkticks := s.kernel.clkticks + UInt32.ofNat n }, s.ticks + n, s.due⟩ := by
  induction n with
  | zero => exact ⟨[], trivial, by simp⟩
  | succ n ih =>
    obtain ⟨r, hrun, hlast⟩ := ih
    set k : Kernel := { s.kernel with clkticks := s.kernel.clkticks + UInt32.ofNat n }
    have hirq : cIrq (fun k ↦ some (timerInt k)) k = some { k with clkticks := k.clkticks + 1 } :=
      cIrq_timerInt_of_disabled hsched hself
    refine ⟨r ++ [(.tick, ⟨{ k with clkticks := k.clkticks + 1 }, s.ticks + n + 1, s.due⟩)],
      isRun_append.mpr ⟨hrun, ?_, trivial⟩, ?_⟩
    · rw [hlast]
      exact ⟨.tick hirq, 0, fun h ↦ absurd h (by simp), rfl⟩
    · rw [last_append, last_cons, last_nil, UInt32.ofNat_add, ← UInt32.add_assoc]
      rfl

def lateEvents : List Event := [spawnA, .schedule]

/-- The machine with a process running, 5 ticks before the clock wraps. -/
def lateTimed : Timed :=
  let s := last (.boot bootKernel) (timedRun 4 (.boot bootKernel) lateEvents)
  ⟨{ s.kernel with clkticks := s.kernel.clkticks + UInt32.ofNat 4294967291 },
    s.ticks + 4294967291, s.due⟩

def lateSleeper : Timed := last lateTimed (timedRun 4 lateTimed [.svc (.sleep 10)])

/-- The process sleeps for 10 ticks, and is woken at once. -/
theorem late_sleeper_woken : ∃ r, IsRun TimedStep (.boot bootKernel) r ∧
    ¬Guarded OnTime (.boot bootKernel) r := by
  have hboot : IsRun TimedStep (.boot bootKernel) (timedRun 4 (.boot bootKernel) lateEvents) :=
    isRun_timedRun ⟨enabled_spawnA, trivial, trivial⟩
  obtain ⟨r, hticks, hlast⟩ := exists_ticks
    (s := last (.boot bootKernel) (timedRun 4 (.boot bootKernel) lateEvents)) rfl rfl 4294967291
  have hlate :
      last (.boot bootKernel) (timedRun 4 (.boot bootKernel) lateEvents ++ r) = lateTimed :=
    (last_append _ _ _).trans hlast
  have hsleep : IsRun TimedStep lateTimed (timedRun 4 lateTimed [.svc (.sleep 10), .schedule]) :=
    isRun_timedRun ⟨Or.inl rfl, trivial, trivial⟩
  refine ⟨timedRun 4 (.boot bootKernel) lateEvents ++ r ++
    timedRun 4 lateTimed [.svc (.sleep 10), .schedule],
    isRun_append.mpr ⟨isRun_append.mpr ⟨hboot, hticks⟩, hlate ▸ hsleep⟩, fun h ↦ ?_⟩
  have hguarded := (guarded_append.mp h).2
  rw [hlate] at hguarded
  have hontime : OnTime lateSleeper .schedule := hguarded.2.1
  have hchecks : lateSleeper.kernel.Checks 0x5000 (lateSleeper.kernel.proc 0x5000) :=
    ⟨4, rfl, List.mem_cons_self⟩
  obtain ⟨n, hn, hle⟩ := (hontime rfl _ _ hchecks).sleep (by decide) rfl
  obtain rfl : 4294967301 = n := Option.some.inj hn
  exact absurd hle (by decide)

end Ertos
