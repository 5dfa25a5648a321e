import Ertos.Kernel.Sched

/-!
# System calls and interrupts

The entries of `syscall_table` in `syscall.c`, the timer interrupt of `timers.c`, and
`user_page_fault` of `mem.c`. A system call is made by the current process; the wrappers `c_svc` and
`c_irq` switch `self` to the kernel's for its duration.

Two of the calls loop: `sys_wake` until its FIFO is empty, and `sys_event_set` around the ring of
processes. Both are translated with a bound on the number of iterations. `wakeFrom_spec` and
`eventSetFrom_spec` give their results.
-/

namespace Ertos

open Linked

/-! ## Frames -/

namespace Kernel

def setWait (k : Kernel) (c : Ptr) (f : BoundedFifo) : Kernel :=
  { k with wait := Function.update k.wait c f }

theorem wait_setWait (k : Kernel) (c d : Ptr) (f : BoundedFifo) :
    (k.setWait c f).wait d = if d = c then f else k.wait d := by
  by_cases h : d = c
  · subst h
    simp [setWait]
  · simp [setWait, h]

@[simp] theorem proc_setWait (k : Kernel) (c : Ptr) (f : BoundedFifo) :
    (k.setWait c f).proc = k.proc := rfl

@[simp] theorem cur_setWait (k : Kernel) (c : Ptr) (f : BoundedFifo) :
    (k.setWait c f).cur = k.cur := rfl

@[simp] theorem cur_setState (k : Kernel) (p : Ptr) (s : ProcState) :
    (k.setState p s).cur = k.cur := rfl

@[simp] theorem wait_setState (k : Kernel) (p : Ptr) (s : ProcState) :
    (k.setState p s).wait = k.wait := rfl

/-- The kernel as its processes and completions see it: everything but the reschedule flags, the
process count and `self`. -/
structure Agree (k t : Kernel) : Prop where
  procs : t.procs = k.procs
  idleTask : t.idleTask = k.idleTask
  cur : t.cur = k.cur
  clkticks : t.clkticks = k.clkticks
  links : t.links = k.links
  proc : t.proc = k.proc
  wait : t.wait = k.wait

theorem Agree.refl (k : Kernel) : Agree k k := ⟨rfl, rfl, rfl, rfl, rfl, rfl, rfl⟩

theorem Agree.trans {k t u : Kernel} (h : Agree k t) (h' : Agree t u) : Agree k u :=
  ⟨h'.procs.trans h.procs, h'.idleTask.trans h.idleTask, h'.cur.trans h.cur,
    h'.clkticks.trans h.clkticks, h'.links.trans h.links, h'.proc.trans h.proc,
    h'.wait.trans h.wait⟩

end Kernel

theorem agree_requestSchedule (k : Kernel) : Kernel.Agree k (requestSchedule k) := by
  unfold requestSchedule
  split_ifs <;> exact ⟨rfl, rfl, rfl, rfl, rfl, rfl, rfl⟩

/-! ## The calls -/

def sysWait (k : Kernel) (c : Ptr) : ℤ × Kernel :=
  if c = NULL then (-1, k)
  else
    let (rc, f) := (k.wait c).queue k.cur
    let k := k.setWait c f
    if rc = 0 then (0, requestSchedule (k.setState k.cur .sleep)) else (-1, k)

/-- The loop of `sys_wake`. -/
def wakeFrom : ℕ → Kernel → Ptr → Option Kernel
  | 0, _, _ => none
  | fuel + 1, k, c =>
    let (p, f) := (k.wait c).dequeue
    let k := k.setWait c f
    if p = NULL then some k else wakeFrom fuel (k.setState p .run) c

def sysWake (fuel : ℕ) (k : Kernel) (c : Ptr) : Option (ℤ × Kernel) :=
  (wakeFrom fuel k c).map fun k ↦ (0, k)

def sysSleep (k : Kernel) (period : UInt32) : ℤ × Kernel :=
  (0, requestSchedule (k.modify k.cur fun x ↦
    { x with state := .sleep, timer.ticksWakeup := k.clkticks + period }))

def sysYield (k : Kernel) : ℤ × Kernel := (0, requestSchedule k)

/-- The loop of `sys_event_set`, with its flag `hit`. -/
def eventSetFrom : ℕ → Kernel → UInt32 → Ptr → Bool → Option (Bool × Kernel)
  | 0, _, _, _, _ => none
  | fuel + 1, k, mask, p, hit =>
    if p = k.cur then some (hit, k)
    else if (k.proc p).eventMask &&& mask ≠ 0 then
      eventSetFrom fuel
        (k.modify p fun x ↦ { x with state := .run, eventMask := x.eventMask &&& ~~~mask })
        mask (k.links.next p) true
    else eventSetFrom fuel k mask (k.links.next p) hit

def sysEventSet (fuel : ℕ) (k : Kernel) (mask : UInt32) : Option (ℤ × Kernel) :=
  match eventSetFrom fuel k mask (k.links.next k.cur) false with
  | none => none
  | some (hit, k) => some (0, if hit then requestSchedule k else k)

def sysEventWait (k : Kernel) (mask : UInt32) : ℤ × Kernel :=
  (0, requestSchedule (k.modify k.cur fun x ↦
    { x with eventMask := x.eventMask ||| mask, state := .sleep }))

/-- `struct alarm`. -/
structure Alarm where
  msec : UInt32
  handler : UInt32
  oneshot : Bool

def msToClkticks (x : UInt32) : UInt32 := x / 10

def sysAlarm (k : Kernel) (a : Alarm) : ℤ × Kernel :=
  (0, k.modify k.cur fun x ↦ { x with
    timer.handler := a.handler
    timer.period := msToClkticks a.msec
    timer.next := k.clkticks + msToClkticks a.msec
    timer.oneshot := a.oneshot })

def sysUttDone (k : Kernel) : ℤ × Kernel :=
  (0, requestSchedule (k.modify k.cur fun x ↦ { x with timer.done := true }))

/-- The calls that return and have an effect on the kernel. -/
inductive Syscall
  | wait (c : Ptr)
  | wake (c : Ptr)
  | sleep (period : UInt32)
  | yield
  | eventSet (mask : UInt32)
  | eventWait (mask : UInt32)
  | alarm (a : Alarm)
  | uttDone

def Syscall.call (fuel : ℕ) (k : Kernel) : Syscall → Option (ℤ × Kernel)
  | .wait c => some (sysWait k c)
  | .wake c => sysWake fuel k c
  | .sleep period => some (sysSleep k period)
  | .yield => some (sysYield k)
  | .eventSet mask => sysEventSet fuel k mask
  | .eventWait mask => some (sysEventWait k mask)
  | .alarm a => some (sysAlarm k a)
  | .uttDone => some (sysUttDone k)

/-- On the way into the kernel. -/
def enterKernel (k : Kernel) : Kernel := { k with self := k.kernelSelf }

/-- On the way out. -/
def leaveKernel (k : Kernel) : Kernel := { k with self := (k.proc k.cur).self }

def cSvc (fuel : ℕ) (k : Kernel) (s : Syscall) : Option (ℤ × Kernel) :=
  (s.call fuel (enterKernel k)).map fun r ↦ (r.1, leaveKernel r.2)

/-! ## Interrupts and faults -/

def timerInt (k : Kernel) : Kernel := requestSchedule { k with clkticks := k.clkticks + 1 }

/-- `c_irq`, with the handler it finds in the vector register. -/
def cIrq (handler : Kernel → Option Kernel) (k : Kernel) : Option Kernel :=
  (handler (enterKernel k)).map leaveKernel

def userPageFault (k : Kernel) : Kernel :=
  requestSchedule (k.modify k.cur fun x ↦
    { x with state := .killed, timer.ticksWakeup := noWakeup, eventMask := 0 })

/-! ## What the loops do -/

/-- A full FIFO is written back as it is. -/
theorem sysWait_of_full {k : Kernel} {c : Ptr} (hc : c ≠ NULL) (hfull : (k.wait c).free = 0) :
    sysWait k c = (-1, k.setWait c (k.wait c)) := by
  rw [sysWait, if_neg hc, BoundedFifo.queue_full _ hfull]
  rfl

theorem sysWait_of_room {k : Kernel} {c : Ptr} (hc : c ≠ NULL) (hroom : (k.wait c).free ≠ 0) :
    sysWait k c = (0,
      requestSchedule ((k.setWait c ((k.wait c).queue k.cur).2).setState k.cur .sleep)) := by
  rw [sysWait, if_neg hc]
  simp only [BoundedFifo.queue_fst _ hroom]
  rfl

/-- `sys_wait` puts the caller to sleep at the end of the FIFO. -/
structure Queued (k : Kernel) (c : Ptr) (t : Kernel) : Prop where
  state : (t.proc k.cur).state = .sleep
  contents : (t.wait c).contents = (k.wait c).contents ++ [k.cur]
  others : ∀ d, d ≠ c → t.wait d = k.wait d

theorem queued_of_room {k : Kernel} {c : Ptr} (hc : c ≠ NULL) (hroom : (k.wait c).free ≠ 0) :
    (sysWait k c).1 = 0 ∧ Queued k c (sysWait k c).2 := by
  set f := ((k.wait c).queue k.cur).2
  set u := (k.setWait c f).setState k.cur .sleep with hu
  have hagree := agree_requestSchedule u
  have hwait : ∀ d, u.wait d = if d = c then f else k.wait d := fun d ↦ Kernel.wait_setWait k c d f
  rw [sysWait_of_room hc hroom]
  refine ⟨rfl, ?_, ?_, fun d hd ↦ ?_⟩
  · rw [hagree.proc, hu, Kernel.proc_setState_self]
  · rw [hagree.wait, hwait, if_pos rfl]
    exact BoundedFifo.contents_queue _ hroom
  · rw [hagree.wait, hwait, if_neg hd]

/-- `sys_wake` empties the FIFO and puts every process in it on the run queue. -/
structure Woken (k : Kernel) (c : Ptr) (t : Kernel) : Prop where
  frame : t = { k with proc := t.proc, wait := t.wait }
  proc : ∀ q, t.proc q
    = if q ∈ (k.wait c).contents then { k.proc q with state := .run } else k.proc q
  empty : (t.wait c).contents = []
  others : ∀ d, d ≠ c → t.wait d = k.wait d

theorem wakeFrom_step {k : Kernel} {c p : Ptr} {l : List Ptr}
    (hc : (k.wait c).contents = p :: l) (hp : p ≠ NULL) :
    ∃ f, f.contents = l ∧
      ∀ fuel, wakeFrom (fuel + 1) k c = wakeFrom fuel ((k.setWait c f).setState p .run) c := by
  obtain ⟨hd, hl⟩ := BoundedFifo.dequeue_of_cons hc
  refine ⟨_, hl, fun fuel ↦ ?_⟩
  rw [wakeFrom]
  simp only [hd, if_neg hp]

theorem Woken.cons {k t : Kernel} {c p : Ptr} {l : List Ptr} {f : BoundedFifo}
    (hc : (k.wait c).contents = p :: l) (hf : f.contents = l)
    (h : Woken ((k.setWait c f).setState p .run) c t) : Woken k c t := by
  have hwait : ∀ d, ((k.setWait c f).setState p .run).wait d = if d = c then f else k.wait d :=
    fun d ↦ Kernel.wait_setWait k c d f
  refine ⟨?_, fun q ↦ ?_, h.empty, fun d hd ↦ ?_⟩
  · rw [h.frame]
    rfl
  · rw [h.proc q, hwait, if_pos rfl, hf, hc]
    by_cases hq : q = p
    · subst hq
      rw [Kernel.proc_setState_self, Kernel.proc_setWait, if_pos List.mem_cons_self, ite_self]
    · rw [Kernel.proc_setState_of_ne _ _ _ _ hq, Kernel.proc_setWait]
      simp only [List.mem_cons, hq, false_or]
  · rw [h.others d hd, hwait, if_neg hd]

theorem wakeFrom_spec {k : Kernel} {c : Ptr} (hnull : NULL ∉ (k.wait c).contents) :
    ∃ t, Woken k c t ∧
      ∀ fuel u, wakeFrom fuel k c = some u ↔ (k.wait c).contents.length < fuel ∧ u = t := by
  generalize hl : (k.wait c).contents = l at hnull
  induction l generalizing k with
  | nil =>
    have hd := BoundedFifo.dequeue_of_nil hl
    refine ⟨k.setWait c (k.wait c), ⟨rfl, fun q ↦ ?_, ?_, fun d hd ↦ ?_⟩, fun fuel u ↦ ?_⟩
    · rw [hl, if_neg List.not_mem_nil]
      rfl
    · rw [Kernel.wait_setWait, if_pos rfl, hl]
    · rw [Kernel.wait_setWait, if_neg hd]
    · cases fuel with
      | zero => simp [wakeFrom]
      | succ fuel => simp [wakeFrom, hd, eq_comm]
  | cons p l ih =>
    rw [List.mem_cons, not_or] at hnull
    obtain ⟨f, hf, hstep⟩ := wakeFrom_step hl (Ne.symm hnull.1)
    have hcont : (((k.setWait c f).setState p .run).wait c).contents = l := by
      rw [Kernel.wait_setState, Kernel.wait_setWait, if_pos rfl, hf]
    obtain ⟨t, ht, hrun⟩ := ih hcont hnull.2
    refine ⟨t, ht.cons hl hf, fun fuel u ↦ ?_⟩
    cases fuel with
    | zero => simp [wakeFrom]
    | succ fuel =>
      rw [hstep, hrun, List.length_cons]
      exact and_congr_left' (Nat.succ_lt_succ_iff.symm)

/-- The event mask of `x` meets `mask`. -/
abbrev Proc.Hit (mask : UInt32) (x : Proc) : Prop := x.eventMask &&& mask ≠ 0

/-- The effect of `sys_event_set` on a process it visits. -/
def Proc.eventSet (mask : UInt32) (x : Proc) : Proc :=
  if x.Hit mask then { x with state := .run, eventMask := x.eventMask &&& ~~~mask } else x

theorem eventSetFrom_step {k : Kernel} (mask : UInt32) {p : Ptr} (hp : p ≠ k.cur) (fuel : ℕ)
    (hit : Bool) :
    eventSetFrom (fuel + 1) k mask p hit =
      eventSetFrom fuel (k.modify p (Proc.eventSet mask)) mask (k.links.next p)
        (hit || decide ((k.proc p).Hit mask)) := by
  rw [eventSetFrom, if_neg hp]
  by_cases h : (k.proc p).Hit mask
  · have hmod : k.modify p (Proc.eventSet mask) = k.modify p fun x ↦
        { x with state := .run, eventMask := x.eventMask &&& ~~~mask } := by
      simp only [Kernel.modify, Proc.eventSet, if_pos h]
    rw [if_pos h, hmod, decide_eq_true h, Bool.or_true]
  · have hmod : k.modify p (Proc.eventSet mask) = k := by
      simp only [Kernel.modify, Proc.eventSet, if_neg h, Function.update_eq_self]
    rw [if_neg h, hmod, decide_eq_false h, Bool.or_false]

/-- The loop of `sys_event_set` visits the processes of a path to the caller. -/
theorem eventSetFrom_spec {k : Kernel} (mask : UInt32) {p : Ptr} {l : List Ptr}
    (hpath : Path k.links.next p l k.cur) (hcur : k.cur ∉ l) (hl : l.Nodup) :
    ∃ t, Kernel.SameBut k t ∧
      (∀ q, t.proc q = if q ∈ l then (k.proc q).eventSet mask else k.proc q) ∧
      ∀ fuel hit r, eventSetFrom fuel k mask p hit = some r ↔ l.length < fuel ∧
        r = (hit || decide (∃ q ∈ l, (k.proc q).Hit mask), t) := by
  induction l generalizing k p with
  | nil =>
    refine ⟨k, Kernel.sameBut_refl k, fun q ↦ by simp, fun fuel hit r ↦ ?_⟩
    cases fuel with
    | zero => simp [eventSetFrom]
    | succ fuel =>
      rw [eventSetFrom, if_pos (show p = k.cur from hpath)]
      simp [eq_comm]
  | cons x l ih =>
    obtain ⟨rfl, hpath⟩ := hpath
    rw [List.mem_cons, not_or] at hcur
    obtain ⟨hp, hl⟩ := List.nodup_cons.mp hl
    -- the first iteration changes `p` alone, which the others do not visit again
    set k₁ := k.modify p (Proc.eventSet mask) with hk₁
    have hframe : ∀ q ∈ l, k₁.proc q = k.proc q :=
      fun q hq ↦ Kernel.proc_modify_of_ne _ _ _ _ fun h ↦ hp (h ▸ hq)
    obtain ⟨t, hsame, hproc, hrun⟩ := ih (k := k₁) hpath hcur.2 hl
    refine ⟨t, (Kernel.sameBut_modify _ _ _).trans hsame, fun q ↦ ?_, fun fuel hit r ↦ ?_⟩
    · rw [hproc q]
      by_cases hq : q = p
      · subst hq
        rw [if_neg hp, if_pos List.mem_cons_self, hk₁, Kernel.proc_modify_self]
      · by_cases hql : q ∈ l
        · rw [if_pos hql, if_pos (List.mem_cons_of_mem _ hql), hframe q hql]
        · rw [if_neg hql, if_neg (by simp [hq, hql]), hk₁, Kernel.proc_modify_of_ne _ _ _ _ hq]
    · have hany : (∃ q ∈ l, (k₁.proc q).Hit mask) ↔ ∃ q ∈ l, (k.proc q).Hit mask :=
        exists_congr fun q ↦ and_congr_right fun hq ↦ by rw [hframe q hq]
      cases fuel with
      | zero => simp [eventSetFrom]
      | succ fuel =>
        rw [eventSetFrom_step mask (Ne.symm hcur.1), hrun, List.length_cons,
          Nat.succ_lt_succ_iff]
        simp only [hany, List.exists_mem_cons_iff, Bool.decide_or, Bool.or_assoc]

end Ertos
