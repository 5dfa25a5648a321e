import Ertos.Basis.Transition
import Ertos.Kernel.Syscall

/-!
# The kernel as a state machine

The events are the atomic pieces of kernel code: interrupts are off while one runs. `Step` is the
relation between the states before and after. A system call needs a current process that is running;
`storeRegs` is the part of the interrupt exit that saves the user's registers before it calls
`schedule`.

`Effect` lists once what a step may do: to the ring of processes, to each process (`ProcStep`) and
to each wait FIFO. The invariants of the following files are all derived from `step_effect`, and
none of them unfolds the code again.
-/

namespace Ertos

open Linked Transition

/-! ## Boot -/

/-- `sched_init`. Without an idle task the kernel stops. -/
def schedInit (k : Kernel) (a : SpawnAlloc) (entry : UInt32) : Option Kernel :=
  let k := { k with self := k.kernelSelf }
  let (p, k) := doSpawn k a entry .system
  if p = NULL then none else some { k.setState p .sleep with idleTask := p, cur := p }

/-- The state in which `main` calls `sched_init`: static variables are zero and no process waits. -/
structure Unbooted (k : Kernel) : Prop where
  procs : k.procs = NULL
  nextPid : k.nextPid = 0
  needReschedule : k.needReschedule = false
  schedEnabled : k.schedEnabled = false
  clkticks : k.clkticks = 0
  wait : ∀ c, (k.wait c).contents = []

/-- The states in which the machine starts. -/
def Booted (t : Kernel) : Prop :=
  ∃ k a entry, Unbooted k ∧ schedInit k a entry = some t

/-! ## Steps -/

inductive Event
  | spawn (a : SpawnAlloc) (entry : UInt32) (mode : ProcMode)
  | tick
  | storeRegs (r : Regs)
  | schedule
  | svc (s : Syscall)
  | irqWake (c : Ptr)
  | userPageFault
  | enableScheduler
  | disableScheduler

/-- The current process executes instructions of its own. -/
def Kernel.Running (k : Kernel) : Prop :=
  (k.proc k.cur).state = .active ∨ (k.proc k.cur).state = .run

/-- No process lives at `p`, as `malloc` promises of the memory it returns. -/
def Kernel.Unused (k : Kernel) (p : Ptr) : Prop :=
  p ≠ k.idleTask ∧ ∀ ring, ProcList k ring → p ∉ ring

inductive Step : Kernel → Event → Kernel → Prop
  | spawn {k : Kernel} {a : SpawnAlloc} {entry : UInt32} {mode : ProcMode}
      (ha : k.Unused a.proc) : Step k (.spawn a entry mode) (Ertos.spawn k a entry mode).2
  | tick {k t : Kernel} (h : cIrq (fun k ↦ some (timerInt k)) k = some t) : Step k .tick t
  | storeRegs {k : Kernel} {r : Regs} :
      Step k (.storeRegs r) (k.modify k.cur fun x ↦ { x with regs := r })
  | schedule {k t : Kernel} {fuel : ℕ} (h : Ertos.schedule fuel k = some t) : Step k .schedule t
  | svc {k t : Kernel} {s : Syscall} {fuel : ℕ} {rc : ℤ} (hrun : k.Running)
      (h : cSvc fuel k s = some (rc, t)) : Step k (.svc s) t
  | irqWake {k t : Kernel} {c : Ptr} {fuel : ℕ}
      (h : cIrq (fun k ↦ (sysWake fuel k c).map Prod.snd) k = some t) : Step k (.irqWake c) t
  | userPageFault {k : Kernel} : Step k .userPageFault (Ertos.userPageFault k)
  | enableScheduler {k : Kernel} : Step k .enableScheduler (Ertos.enableScheduler k)
  | disableScheduler {k : Kernel} : Step k .disableScheduler (Ertos.disableScheduler k)

/-- The event takes everything out of the FIFO of `c`. -/
def Event.Wakes (e : Event) (c : Ptr) : Prop := e = .svc (.wake c) ∨ e = .irqWake c

/-! ## What a step does -/

/-- What a step from `k` to `t` may do to a process `q`. -/
inductive ProcStep (k : Kernel) (ring : List Ptr) (t : Kernel) (q : Ptr) : Event → Proc → Prop
  | same {e : Event} (hsched : e ≠ .schedule) (hwake : ∀ c, e.Wakes c → q ∉ (k.wait c).contents) :
      ProcStep k ring t q e (k.proc q)
  | regs {r : Regs} (hq : q = k.cur) :
      ProcStep k ring t q (.storeRegs r) { k.proc q with regs := r }
  | passed {x : Proc} (hx : Examined k ring q x) (hq : q ≠ t.cur) :
      ProcStep k ring t q .schedule x
  | selected {x : Proc} (hx : Examined k ring q x) (hq : q = t.cur)
      (hrun : q ≠ k.idleTask → x.state = .run) :
      ProcStep k ring t q .schedule { x with state := .active }
  | wait {c : Ptr} (hq : q = k.cur) (hrun : k.Running) (hc : c ≠ NULL)
      (hfree : (k.wait c).free ≠ 0) (hmem : q ∈ (t.wait c).contents) :
      ProcStep k ring t q (.svc (.wait c)) { k.proc q with state := .sleep }
  | wake {e : Event} {c : Ptr} (he : e.Wakes c) (hmem : q ∈ (k.wait c).contents) :
      ProcStep k ring t q e { k.proc q with state := .run }
  | sleep {period : UInt32} (hq : q = k.cur) (hrun : k.Running) :
      ProcStep k ring t q (.svc (.sleep period))
        { k.proc q with state := .sleep, timer.ticksWakeup := k.clkticks + period }
  | eventSet {mask : UInt32} (hq : q ∈ ring) (hcur : q ≠ k.cur) (hhit : (k.proc q).Hit mask) :
      ProcStep k ring t q (.svc (.eventSet mask))
        { k.proc q with state := .run, eventMask := (k.proc q).eventMask &&& ~~~mask }
  | eventWait {mask : UInt32} (hq : q = k.cur) (hrun : k.Running) :
      ProcStep k ring t q (.svc (.eventWait mask))
        { k.proc q with eventMask := (k.proc q).eventMask ||| mask, state := .sleep }
  | alarm {a : Alarm} (hq : q = k.cur) (hrun : k.Running) :
      ProcStep k ring t q (.svc (.alarm a))
        { k.proc q with
          timer.handler := a.handler
          timer.period := msToClkticks a.msec
          timer.next := k.clkticks + msToClkticks a.msec
          timer.oneshot := a.oneshot }
  | uttDone (hq : q = k.cur) (hrun : k.Running) :
      ProcStep k ring t q (.svc .uttDone) { k.proc q with timer.done := true }
  | killed (hq : q = k.cur) :
      ProcStep k ring t q .userPageFault
        { k.proc q with state := .killed, timer.ticksWakeup := noWakeup, eventMask := 0 }

/-- What a step from `k` to `t` may do to the FIFO of `c`. -/
inductive WaitStep (k t : Kernel) (c : Ptr) : Event → List Ptr → Prop
  | same {e : Event} (hwake : ¬e.Wakes c) : WaitStep k t c e (k.wait c).contents
  | push (hrun : k.Running) (hsleep : (t.proc k.cur).state = .sleep) :
      WaitStep k t c (.svc (.wait c)) ((k.wait c).contents ++ [k.cur])
  | empty {e : Event} (hwake : e.Wakes c) : WaitStep k t c e []

/-- A process as `do_spawn` leaves it. -/
structure Proc.New (x : Proc) : Prop where
  state : x.state = .run
  eventMask : x.eventMask = 0
  timer : x.timer = { Proc.cleared.timer with ticksWakeup := noWakeup }

structure Effect (k : Kernel) (ring : List Ptr) (e : Event) (t : Kernel) (ring' : List Ptr) :
    Prop where
  ringed : Ringed t ring'
  idleTask : t.idleTask = k.idleTask
  subset : ring ⊆ ring'
  cur : e ≠ .schedule → t.cur = k.cur
  tick : e = .tick → t.clkticks = k.clkticks + 1
  clkticks : e ≠ .tick → t.clkticks = k.clkticks
  proc : ∀ q, q = k.idleTask ∨ q ∈ ring → ProcStep k ring t q e (t.proc q)
  wait : ∀ c, WaitStep k t c e (t.wait c).contents
  new : ∀ q ∈ ring', q ∉ ring → (∃ a entry mode, e = .spawn a entry mode ∧ q = a.proc) ∧
    (t.proc q).New

theorem WaitStep.mem {k t : Kernel} {c : Ptr} {e : Event} {l : List Ptr} (h : WaitStep k t c e l)
    {p : Ptr} (hp : p ∈ l) : p ∈ (k.wait c).contents ∨ p = k.cur := by
  cases h with
  | same => exact Or.inl hp
  | push =>
    rcases List.mem_append.mp hp with hp | hp
    · exact Or.inl hp
    · exact Or.inr (List.mem_singleton.mp hp)
  | empty => exact absurd hp List.not_mem_nil

section Wait

variable {k t : Kernel} {ring ring' : List Ptr} {e : Event} {p c : Ptr}

/-- A step adds an entry for `p` only when `p` waits. -/
theorem Effect.mem_wait (heff : Effect k ring e t ring') (h : p ∈ (t.wait c).contents) :
    p ∈ (k.wait c).contents ∨
      p = k.cur ∧ e = .svc (.wait c) ∧ k.Running ∧ (t.proc p).state = .sleep := by
  have hwait := heff.wait c
  generalize (t.wait c).contents = l at hwait h
  cases hwait with
  | same => exact Or.inl h
  | push hrun hsleep =>
    rcases List.mem_append.mp h with h | h
    · exact Or.inl h
    · obtain rfl := List.mem_singleton.mp h
      exact Or.inr ⟨rfl, rfl, hrun, hsleep⟩
  | empty => exact absurd h List.not_mem_nil

/-- Only a wake takes a process out of a FIFO. -/
theorem Effect.mem_wait_of_not_wakes (heff : Effect k ring e t ring') (hwake : ¬e.Wakes c)
    (h : p ∈ (k.wait c).contents) : p ∈ (t.wait c).contents := by
  have hwait := heff.wait c
  generalize (t.wait c).contents = l at hwait
  cases hwait with
  | same => exact h
  | push => exact List.mem_append_left _ h
  | empty hw => exact absurd hw hwake

theorem Effect.notMem_wait_of_wakes (heff : Effect k ring e t ring') (hwake : e.Wakes c) :
    p ∉ (t.wait c).contents := by
  have hwait := heff.wait c
  generalize (t.wait c).contents = l at hwait
  cases hwait with
  | same hnot => exact absurd hwake hnot
  | push => simp [Event.Wakes] at hwake
  | empty => exact List.not_mem_nil

end Wait

theorem effect_of {k t : Kernel} {ring : List Ptr} {e : Event} (hk : Ringed k ring)
    (hprocs : t.procs = k.procs) (hidle : t.idleTask = k.idleTask) (hlinks : t.links = k.links)
    (hcur : t.cur = k.idleTask ∨ t.cur ∈ ring) (hsched : e ≠ .schedule → t.cur = k.cur)
    (htick : e = .tick → t.clkticks = k.clkticks + 1) (hclk : e ≠ .tick → t.clkticks = k.clkticks)
    (hproc : ∀ q, q = k.idleTask ∨ q ∈ ring → ProcStep k ring t q e (t.proc q))
    (hwait : ∀ c, WaitStep k t c e (t.wait c).contents) : Effect k ring e t ring where
  ringed := by
    refine ⟨?_, hk.null_notMem, hidle ▸ hk.idle_ne, hidle ▸ hk.idle_notMem, ?_, hidle ▸ hcur,
      fun c p hp ↦ ?_⟩
    · rw [ProcList, hprocs, hlinks]
      exact hk.list
    · rw [hidle, hlinks]
      exact hk.idle_next
    · rw [hidle]
      rcases (hwait c).mem hp with h | rfl
      · exact hk.wait c p h
      · exact hk.cur
  idleTask := hidle
  subset := List.Subset.refl ring
  cur := hsched
  tick := htick
  clkticks := hclk
  proc := hproc
  wait := hwait
  new := fun q hq hnot ↦ absurd hq hnot

/-- An event that is none of the three that do more than call a function of the current process. -/
structure Event.Plain (e : Event) : Prop where
  sched : e ≠ .schedule
  tick : e ≠ .tick
  wakes : ∀ c, ¬e.Wakes c

theorem effect_of_agree {k t : Kernel} {ring : List Ptr} {e : Event} (hk : Ringed k ring)
    (he : e.Plain) (h : Kernel.Agree k t) : Effect k ring e t ring :=
  effect_of hk h.procs h.idleTask h.links (h.cur ▸ hk.cur) (fun _ ↦ h.cur)
    (fun ht ↦ absurd ht he.tick) (fun _ ↦ h.clkticks)
    (fun q _ ↦ by
      rw [h.proc]
      exact .same he.sched fun c hc ↦ absurd hc (he.wakes c))
    fun c ↦ by
      rw [h.wait]
      exact .same (he.wakes c)

theorem effect_of_modify {k t : Kernel} {ring : List Ptr} {e : Event} (hk : Ringed k ring)
    (he : e.Plain) {f : Proc → Proc} (h : Kernel.Agree (k.modify k.cur f) t)
    (hcur : ProcStep k ring t k.cur e (f (k.proc k.cur))) : Effect k ring e t ring :=
  effect_of hk h.procs h.idleTask h.links (by rw [h.cur]; exact hk.cur) (fun _ ↦ h.cur)
    (fun ht ↦ absurd ht he.tick) (fun _ ↦ h.clkticks)
    (fun q _ ↦ by
      rw [h.proc]
      by_cases hq : q = k.cur
      · rw [hq, Kernel.proc_modify_self]
        exact hcur
      · rw [Kernel.proc_modify_of_ne _ _ _ _ hq]
        exact .same he.sched fun c hc ↦ absurd hc (he.wakes c))
    fun c ↦ by
      rw [h.wait]
      exact .same (he.wakes c)

/-! ## The events in turn -/

theorem agree_leaveKernel (k : Kernel) : Kernel.Agree k (leaveKernel k) :=
  ⟨rfl, rfl, rfl, rfl, rfl, rfl, rfl⟩

theorem agree_enterKernel (k : Kernel) : Kernel.Agree k (enterKernel k) :=
  ⟨rfl, rfl, rfl, rfl, rfl, rfl, rfl⟩

theorem agree_enterKernel_modify (k : Kernel) (f : Proc → Proc) :
    Kernel.Agree (k.modify k.cur f) ((enterKernel k).modify k.cur f) :=
  ⟨rfl, rfl, rfl, rfl, rfl, rfl, rfl⟩

theorem plain_svc {s : Syscall} (h : ∀ c, s ≠ .wake c) : (Event.svc s).Plain where
  sched := by simp
  tick := by simp
  wakes := by simp [Event.Wakes, h]

theorem null_notMem_wait {k : Kernel} {ring : List Ptr} (hk : Ringed k ring) (c : Ptr) :
    NULL ∉ (k.wait c).contents := by
  intro h
  rcases hk.wait c NULL h with h | h
  · exact hk.idle_ne h.symm
  · exact hk.null_notMem h

theorem effect_of_woken {k t u : Kernel} {ring : List Ptr} {e : Event} {c : Ptr}
    (hk : Ringed k ring) (hsched : e ≠ .schedule) (htick : e ≠ .tick)
    (he : ∀ d, e.Wakes d ↔ d = c) (hw : Woken (enterKernel k) c u) (h : Kernel.Agree u t) :
    Effect k ring e t ring := by
  have hframe := hw.frame
  refine effect_of hk (h.procs.trans (by rw [hframe]; rfl)) (h.idleTask.trans (by rw [hframe]; rfl))
    (h.links.trans (by rw [hframe]; rfl)) ?_ (fun _ ↦ h.cur.trans (by rw [hframe]; rfl))
    (fun ht ↦ absurd ht htick) (fun _ ↦ h.clkticks.trans (by rw [hframe]; rfl)) (fun q _ ↦ ?_)
    fun d ↦ ?_
  · rw [h.cur, hframe]
    exact hk.cur
  · rw [h.proc, hw.proc q]
    split_ifs with hq
    · exact .wake ((he c).mpr rfl) hq
    · exact .same hsched fun d hd ↦ (he d).mp hd ▸ hq
  · rw [h.wait]
    by_cases hd : d = c
    · subst hd
      rw [hw.empty]
      exact .empty ((he d).mpr rfl)
    · rw [hw.others d hd]
      exact .same fun hwk ↦ hd ((he d).mp hwk)

theorem effect_sysWake {k t u : Kernel} {ring : List Ptr} {e : Event} {c : Ptr} {fuel : ℕ} {rc : ℤ}
    (hk : Ringed k ring) (hsched : e ≠ .schedule) (htick : e ≠ .tick)
    (he : ∀ d, e.Wakes d ↔ d = c) (hcall : sysWake fuel (enterKernel k) c = some (rc, u))
    (h : Kernel.Agree u t) : Effect k ring e t ring := by
  obtain ⟨v, hv, hvu⟩ := Option.map_eq_some_iff.mp hcall
  obtain rfl : v = u := (Prod.mk.inj hvu).2
  obtain ⟨w, hw, hloop⟩ := wakeFrom_spec (k := enterKernel k) (c := c) (null_notMem_wait hk c)
  obtain ⟨-, rfl⟩ := (hloop fuel v).mp hv
  exact effect_of_woken hk hsched htick he hw h

theorem effect_of_queued {k t : Kernel} {ring : List Ptr} {c : Ptr} (hk : Ringed k ring)
    (hrun : k.Running) (hc : c ≠ NULL) (hroom : (k.wait c).free ≠ 0)
    (h : Kernel.Agree
      (((enterKernel k).setWait c ((k.wait c).queue k.cur).2).setState k.cur .sleep) t) :
    Effect k ring (.svc (.wait c)) t ring := by
  have hplain : (Event.svc (.wait c)).Plain := plain_svc fun d ↦ by simp
  set f := ((k.wait c).queue k.cur).2 with hf
  set u := ((enterKernel k).setWait c f).setState k.cur .sleep with hu
  have hcont : f.contents = (k.wait c).contents ++ [k.cur] := BoundedFifo.contents_queue _ hroom
  have hwait : ∀ d, u.wait d = if d = c then f else k.wait d := fun d ↦ Kernel.wait_setWait k c d f
  have hself : u.proc k.cur = { k.proc k.cur with state := .sleep } :=
    Kernel.proc_setState_self ((enterKernel k).setWait c f) k.cur .sleep
  refine effect_of hk h.procs h.idleTask h.links (by rw [h.cur]; exact hk.cur) (fun _ ↦ h.cur)
    (by simp) (fun _ ↦ h.clkticks) (fun q _ ↦ ?_) fun d ↦ ?_
  · rw [h.proc]
    by_cases hq : q = k.cur
    · have hstate : u.proc q = { k.proc q with state := .sleep } := by
        rw [hq]
        exact hself
      rw [hstate]
      refine .wait hq hrun hc hroom ?_
      rw [h.wait, hwait, if_pos rfl, hcont, hq]
      exact List.mem_append_right _ (List.mem_singleton.mpr rfl)
    · have hstate : u.proc q = k.proc q :=
        Kernel.proc_setState_of_ne ((enterKernel k).setWait c f) k.cur q .sleep hq
      rw [hstate]
      exact .same hplain.sched fun d hd ↦ absurd hd (hplain.wakes d)
  · rw [h.wait, hwait]
    split_ifs with hd
    · rw [hcont, hd]
      exact .push hrun (by rw [h.proc, hself])
    · exact .same (hplain.wakes d)

theorem effect_sysWait {k t : Kernel} {ring : List Ptr} {c : Ptr} (hk : Ringed k ring)
    (hrun : k.Running) (h : Kernel.Agree (sysWait (enterKernel k) c).2 t) :
    Effect k ring (.svc (.wait c)) t ring := by
  have hplain : (Event.svc (.wait c)).Plain := plain_svc fun d ↦ by simp
  by_cases hc : c = NULL
  · rw [sysWait, if_pos hc] at h
    exact effect_of_agree hk hplain ((agree_enterKernel k).trans h)
  by_cases hfull : (k.wait c).free = 0
  · -- the call fails; writing the FIFO back unchanged has no effect
    have hu : sysWait (enterKernel k) c = (-1, (enterKernel k).setWait c (k.wait c)) :=
      sysWait_of_full hc hfull
    rw [hu] at h
    have hsame : Kernel.Agree k ((enterKernel k).setWait c (k.wait c)) :=
      ⟨rfl, rfl, rfl, rfl, rfl, rfl, Function.update_eq_self _ _⟩
    exact effect_of_agree hk hplain (hsame.trans h)
  · have hu : sysWait (enterKernel k) c = _ := sysWait_of_room hc hfull
    rw [hu] at h
    exact effect_of_queued hk hrun hc hfull ((agree_requestSchedule _).trans h)

/-- From behind the current process around the ring until it is reached again. -/
theorem exists_round {k : Kernel} {ring : List Ptr} (hk : Ringed k ring) :
    ∃ l, Path k.links.next (k.links.next k.cur) l k.cur ∧ k.cur ∉ l ∧ l.Nodup ∧ l ⊆ ring := by
  rcases hk.cur with hcur | hcur
  · exact ⟨[], by rw [hcur]; exact hk.idle_next, List.not_mem_nil, List.nodup_nil,
      List.nil_subset _⟩
  · rcases hk.list with ⟨-, rfl⟩ | ⟨-, hcyc⟩
    · exact absurd hcur List.not_mem_nil
    · obtain ⟨l, hl, hperm⟩ := hcyc.rotate hcur
      obtain ⟨hnot, hnodup⟩ := List.nodup_cons.mp hl.nodup
      exact ⟨l, hl.path.2, hnot, hnodup, fun x hx ↦ hperm.subset (List.mem_cons_of_mem _ hx)⟩

theorem effect_sysEventSet {k t u : Kernel} {ring : List Ptr} {mask : UInt32} {fuel : ℕ} {rc : ℤ}
    (hk : Ringed k ring) (hcall : sysEventSet fuel (enterKernel k) mask = some (rc, u))
    (h : Kernel.Agree u t) : Effect k ring (.svc (.eventSet mask)) t ring := by
  have hplain : (Event.svc (.eventSet mask)).Plain := plain_svc fun d ↦ by simp
  obtain ⟨l, hpath, hcur, hl, hring⟩ := exists_round hk
  obtain ⟨v, hsame, hproc, hloop⟩ :=
    eventSetFrom_spec (k := enterKernel k) mask hpath hcur hl
  rw [sysEventSet] at hcall
  cases hfrom : eventSetFrom fuel (enterKernel k) mask
      ((enterKernel k).links.next (enterKernel k).cur) false with
  | none =>
    rw [hfrom] at hcall
    simp at hcall
  | some r =>
    obtain ⟨-, hr⟩ := (hloop fuel false r).mp hfrom
    rw [hfrom] at hcall
    have hu : Kernel.Agree v u := by
      rw [← (Prod.mk.inj (Option.some.inj hcall)).2, hr]
      simp only
      split_ifs
      · exact agree_requestSchedule v
      · exact Kernel.Agree.refl v
    have h := hu.trans h
    refine effect_of hk (h.procs.trans (by rw [hsame]; rfl)) (h.idleTask.trans (by rw [hsame]; rfl))
      (h.links.trans (by rw [hsame]; rfl)) ?_ (fun _ ↦ h.cur.trans (by rw [hsame]; rfl)) (by simp)
      (fun _ ↦ h.clkticks.trans (by rw [hsame]; rfl)) (fun q _ ↦ ?_) fun d ↦ ?_
    · rw [h.cur, hsame]
      exact hk.cur
    · rw [h.proc, hproc q]
      have hsame : ProcStep k ring t q (.svc (.eventSet mask)) (k.proc q) :=
        .same hplain.sched fun d hd ↦ absurd hd (hplain.wakes d)
      split_ifs with hq
      · rw [Proc.eventSet]
        split_ifs with hhit
        · exact .eventSet (hring hq) (fun hqc ↦ hcur (hqc ▸ hq)) hhit
        · exact hsame
      · exact hsame
    · rw [h.wait, hsame]
      exact .same (hplain.wakes d)

theorem effect_svc {k t : Kernel} {ring : List Ptr} (hk : Ringed k ring) {s : Syscall} {fuel : ℕ}
    {rc : ℤ} (hrun : k.Running) (h : cSvc fuel k s = some (rc, t)) :
    Effect k ring (.svc s) t ring := by
  obtain ⟨⟨rc', u⟩, hcall, hu⟩ := Option.map_eq_some_iff.mp h
  obtain rfl : leaveKernel u = t := (Prod.mk.inj hu).2
  have hleave := agree_leaveKernel u
  cases s with
  | wait c =>
    obtain rfl : (sysWait (enterKernel k) c).2 = u := by rw [Option.some.inj hcall]
    exact effect_sysWait hk hrun hleave
  | wake c =>
    exact effect_sysWake hk (by simp) (by simp) (fun d ↦ by simp [Event.Wakes, eq_comm]) hcall
      hleave
  | sleep period =>
    obtain rfl : (sysSleep (enterKernel k) period).2 = u := by rw [Option.some.inj hcall]
    exact effect_of_modify hk (plain_svc fun d ↦ by simp)
      (f := fun x ↦ { x with state := .sleep, timer.ticksWakeup := k.clkticks + period })
      (((agree_enterKernel_modify k _).trans (agree_requestSchedule _)).trans hleave)
      (.sleep rfl hrun)
  | yield =>
    obtain rfl : (sysYield (enterKernel k)).2 = u := by rw [Option.some.inj hcall]
    exact effect_of_agree hk (plain_svc fun d ↦ by simp)
      (((agree_enterKernel k).trans (agree_requestSchedule _)).trans hleave)
  | eventSet mask => exact effect_sysEventSet hk hcall hleave
  | eventWait mask =>
    obtain rfl : (sysEventWait (enterKernel k) mask).2 = u := by rw [Option.some.inj hcall]
    exact effect_of_modify hk (plain_svc fun d ↦ by simp)
      (f := fun x ↦ { x with eventMask := x.eventMask ||| mask, state := .sleep })
      (((agree_enterKernel_modify k _).trans (agree_requestSchedule _)).trans hleave)
      (.eventWait rfl hrun)
  | alarm a =>
    obtain rfl : (sysAlarm (enterKernel k) a).2 = u := by rw [Option.some.inj hcall]
    exact effect_of_modify hk (plain_svc fun d ↦ by simp)
      (f := fun x ↦ { x with
        timer.handler := a.handler
        timer.period := msToClkticks a.msec
        timer.next := k.clkticks + msToClkticks a.msec
        timer.oneshot := a.oneshot })
      ((agree_enterKernel_modify k _).trans hleave) (.alarm rfl hrun)
  | uttDone =>
    obtain rfl : (sysUttDone (enterKernel k)).2 = u := by rw [Option.some.inj hcall]
    exact effect_of_modify hk (plain_svc fun d ↦ by simp)
      (f := fun x ↦ { x with timer.done := true })
      (((agree_enterKernel_modify k _).trans (agree_requestSchedule _)).trans hleave)
      (.uttDone rfl hrun)

theorem effect_tick {k t : Kernel} {ring : List Ptr} (hk : Ringed k ring)
    (h : cIrq (fun k ↦ some (timerInt k)) k = some t) : Effect k ring .tick t ring := by
  obtain rfl : leaveKernel (timerInt (enterKernel k)) = t := Option.some.inj h
  have h : Kernel.Agree { enterKernel k with clkticks := k.clkticks + 1 }
      (timerInt (enterKernel k)) := agree_requestSchedule _
  have hproc : (timerInt (enterKernel k)).proc = k.proc := h.proc
  have hwait : (timerInt (enterKernel k)).wait = k.wait := h.wait
  refine effect_of hk h.procs h.idleTask h.links (h.cur ▸ hk.cur) (fun _ ↦ h.cur)
    (fun _ ↦ h.clkticks) (fun hne ↦ absurd rfl hne) (fun q _ ↦ ?_) fun c ↦ ?_
  · show ProcStep k ring _ q .tick ((timerInt (enterKernel k)).proc q)
    rw [hproc]
    exact .same (by simp) fun c hc ↦ by simp [Event.Wakes] at hc
  · show WaitStep k _ c .tick ((timerInt (enterKernel k)).wait c).contents
    rw [hwait]
    exact .same (by simp [Event.Wakes])

theorem effect_schedule {k t : Kernel} {ring : List Ptr} (hk : Ringed k ring) {fuel : ℕ}
    (h : schedule fuel k = some t) : Effect k ring .schedule t ring := by
  obtain ⟨u, hu, -, huniq⟩ := schedule_spec hk
  obtain rfl := huniq fuel t h
  have hframe := hu.frame
  refine effect_of hk (by rw [hframe]) (by rw [hframe]) (by rw [hframe]) hu.cur
    (fun hne ↦ absurd rfl hne) (by simp) (fun _ ↦ by rw [hframe]) (fun q _ ↦ ?_) fun c ↦ ?_
  · by_cases hq : q = t.cur
    · obtain ⟨x, hx, heq, hrun⟩ := hu.selected
      rw [hq, heq]
      exact .selected hx rfl hrun
    · exact .passed (hu.others q hq) hq
  · rw [show t.wait = k.wait by rw [hframe]]
    exact .same (by simp [Event.Wakes])

theorem ringed_spawn {k t : Kernel} {ring : List Ptr} (hk : Ringed k ring) {p : Ptr}
    (hnull : p ≠ NULL) (hidle : p ≠ k.idleTask) (hp : p ∉ ring)
    (htidle : t.idleTask = k.idleTask) (hcur : t.cur = k.cur) (hwait : t.wait = k.wait)
    (hprocs : t.procs = if k.procs = NULL then p else k.procs)
    (hnext : ∀ q, t.links.next q =
      if q = p then (if k.procs = NULL then p else k.links.next k.procs)
      else if k.procs ≠ NULL ∧ q = k.procs then p else k.links.next q) :
    ∃ ring', Ringed t ring' ∧ ring'.Perm (p :: ring) := by
  obtain ⟨ring', hlist, hperm⟩ : ∃ ring', ProcList t ring' ∧ ring'.Perm (p :: ring) := by
    rcases hk.list with ⟨h0, rfl⟩ | ⟨h0, hcyc⟩
    · rw [if_pos h0] at hprocs
      refine ⟨[p], Or.inr ⟨hprocs ▸ hnull, ?_⟩, List.Perm.refl _⟩
      rw [hprocs]
      exact Cycle.singleton (by rw [hnext, if_pos rfl, if_pos h0])
    · rw [if_neg h0] at hprocs
      obtain ⟨l, rfl⟩ := hcyc.exists_eq_cons
      have hne : k.procs ≠ p := fun h ↦ hp (h ▸ List.mem_cons_self)
      refine ⟨k.procs :: p :: l, Or.inr ⟨hprocs ▸ h0, ?_⟩, List.Perm.swap _ _ _⟩
      rw [hprocs]
      refine hcyc.insert hp ?_ ?_ fun y hy ↦ ?_
      · rw [hnext, if_neg hne, if_pos ⟨h0, rfl⟩]
      · rw [hnext, if_pos rfl, if_neg h0]
      · have hyp : y ≠ p := fun h ↦ hp (h ▸ List.mem_cons_of_mem _ hy)
        have hyk : y ≠ k.procs := fun h ↦ (List.nodup_cons.mp hcyc.nodup).1 (h ▸ hy)
        rw [hnext, if_neg hyp, if_neg fun h ↦ hyk h.2]
  have hmem : ∀ q, q ∈ ring' ↔ q = p ∨ q ∈ ring := fun q ↦ by rw [hperm.mem_iff, List.mem_cons]
  refine ⟨ring', ⟨hlist, ?_, htidle ▸ hk.idle_ne, ?_, ?_, ?_, fun c q hq ↦ ?_⟩, hperm⟩
  · rw [hmem]
    exact not_or.mpr ⟨hnull.symm, hk.null_notMem⟩
  · rw [htidle, hmem]
    exact not_or.mpr ⟨hidle.symm, hk.idle_notMem⟩
  · have hki : ¬(k.procs ≠ NULL ∧ k.idleTask = k.procs) := by
      rintro ⟨h0, h⟩
      rcases hk.list with ⟨h', -⟩ | ⟨-, hcyc⟩
      · exact h0 h'
      · exact hk.idle_notMem (h ▸ hcyc.head_mem)
    rw [htidle, hnext, if_neg hidle.symm, if_neg hki, hk.idle_next]
  · rw [htidle, hcur, hmem]
    exact hk.cur.imp_right Or.inr
  · rw [htidle, hmem]
    rw [hwait] at hq
    exact (hk.wait c q hq).imp_right Or.inr

theorem new_spawnedProc (k : Kernel) (a : SpawnAlloc) (entry : UInt32) (mode : ProcMode) :
    (spawnedProc k a entry mode).New := ⟨rfl, rfl, rfl⟩

theorem plain_spawn (a : SpawnAlloc) (entry : UInt32) (mode : ProcMode) :
    (Event.spawn a entry mode).Plain := ⟨by simp, by simp, by simp [Event.Wakes]⟩

/-- `spawn` puts the process that `do_spawn` has made behind the first one. -/
def Kernel.link (t : Kernel) (p : Ptr) : Kernel :=
  if t.procs = NULL then { t with procs := p }
  else { t with links := listAddAfter t.links t.procs p }

section Link

variable (t : Kernel) (p : Ptr)

@[simp] theorem procs_link : (t.link p).procs = if t.procs = NULL then p else t.procs := by
  rw [Kernel.link]
  split_ifs <;> rfl

@[simp] theorem idleTask_link : (t.link p).idleTask = t.idleTask := by
  rw [Kernel.link]
  split_ifs <;> rfl

@[simp] theorem cur_link : (t.link p).cur = t.cur := by
  rw [Kernel.link]
  split_ifs <;> rfl

@[simp] theorem clkticks_link : (t.link p).clkticks = t.clkticks := by
  rw [Kernel.link]
  split_ifs <;> rfl

@[simp] theorem proc_link : (t.link p).proc = t.proc := by
  rw [Kernel.link]
  split_ifs <;> rfl

@[simp] theorem wait_link : (t.link p).wait = t.wait := by
  rw [Kernel.link]
  split_ifs <;> rfl

end Link

theorem next_link {t : Kernel} {p : Ptr} (hself : t.links.next p = p) (hne : t.procs ≠ p)
    (q : Ptr) : (t.link p).links.next q =
      if q = p then (if t.procs = NULL then p else t.links.next t.procs)
      else if t.procs ≠ NULL ∧ q = t.procs then p else t.links.next q := by
  by_cases h0 : t.procs = NULL
  · rw [Kernel.link, if_pos h0, if_pos h0,
      if_neg (c := t.procs ≠ NULL ∧ q = t.procs) fun h ↦ h.1 h0]
    by_cases hq : q = p
    · rw [if_pos hq, hq, hself]
    · rw [if_neg hq]
  · rw [Kernel.link, if_neg h0, if_neg h0, next_listAddAfter]
    by_cases hq : q = p
    · rw [if_neg (hq ▸ hne.symm), if_pos hq, if_pos hq]
    · rw [if_neg hq, if_neg hq]
      by_cases hqk : q = t.procs
      · rw [if_pos hqk, if_pos ⟨h0, hqk⟩]
      · rw [if_neg hqk, if_neg fun h ↦ hqk h.2]

theorem spawn_eq {k t : Kernel} {a : SpawnAlloc} {entry : UInt32} {mode : ProcMode} {p : Ptr}
    (h : doSpawn k a entry mode = (p, t)) :
    spawn k a entry mode = if p = NULL then (NULL, t) else (p, t.link p) := by
  rw [spawn, h, Kernel.link]
  by_cases hp : p = NULL <;> by_cases hprocs : t.procs = NULL <;> simp [hp, hprocs]

theorem Kernel.Unused.procs_ne {k : Kernel} {ring : List Ptr} (hk : Ringed k ring) {p : Ptr}
    (hp : k.Unused p) (hnull : p ≠ NULL) : k.procs ≠ p := by
  rcases hk.list with ⟨h0, -⟩ | ⟨-, hcyc⟩
  · exact fun h ↦ hnull (h ▸ h0)
  · exact fun h ↦ hp.2 ring hk.list (h ▸ hcyc.head_mem)

theorem effect_spawn {k : Kernel} {ring : List Ptr} (hk : Ringed k ring) {a : SpawnAlloc}
    (ha : k.Unused a.proc) (entry : UInt32) (mode : ProcMode) :
    ∃ ring', Effect k ring (.spawn a entry mode) (spawn k a entry mode).2 ring' ∧
      ring'.Perm (if (spawn k a entry mode).1 = NULL then ring else a.proc :: ring) := by
  have hplain := plain_spawn a entry mode
  have hring : a.proc ∉ ring := ha.2 ring hk.list
  have hold : ∀ q, q = k.idleTask ∨ q ∈ ring → q ≠ a.proc := by
    rintro q (hq | hq) hqa
    · exact ha.1 (hqa.symm.trans hq)
    · exact hring (hqa ▸ hq)
  have hsame : ∀ t q, ProcStep k ring t q (.spawn a entry mode) (k.proc q) :=
    fun t q ↦ .same hplain.sched fun c hc ↦ absurd hc (hplain.wakes c)
  have hwsame : ∀ t c, WaitStep k t c (.spawn a entry mode) (k.wait c).contents :=
    fun t c ↦ .same (hplain.wakes c)
  have hspec := doSpawn_spec k a entry mode
  cases hcall : doSpawn k a entry mode with
  | mk p t =>
  rw [hcall] at hspec
  rw [spawn_eq hcall]
  cases hspec with
  | failed frame hproc =>
    rw [if_pos rfl]
    refine ⟨ring, effect_of hk (by rw [frame]) (by rw [frame]) (by rw [frame])
      (by rw [frame]; exact hk.cur) (fun _ ↦ by rw [frame]) (by simp) (fun _ ↦ by rw [frame])
      (fun q hq ↦ ?_) fun c ↦ ?_, by rw [if_pos rfl]⟩
    · rw [hproc q (hold q hq)]
      exact hsame t q
    · rw [show t.wait = k.wait by rw [frame]]
      exact hwsame _ c
  | ok hnull frame hproc hnew =>
    rw [if_neg hnull]
    have hne : k.procs ≠ a.proc := ha.procs_ne hk hnull
    have hprocs : t.procs = k.procs := by rw [frame]
    have hself : t.links.next a.proc = a.proc := by
      rw [frame]
      simp
    have hlinks : ∀ q, q ≠ a.proc → t.links.next q = k.links.next q := by
      intro q hq
      rw [frame]
      simp [hq]
    have hidle : (t.link a.proc).idleTask = k.idleTask := by rw [idleTask_link, frame]
    have hcur : (t.link a.proc).cur = k.cur := by rw [cur_link, frame]
    have hwait : (t.link a.proc).wait = k.wait := by rw [wait_link, frame]
    -- the new process pointed to itself, all others as before, so the ring grows by it alone
    obtain ⟨ring', hringed, hperm⟩ := ringed_spawn hk hnull ha.1 hring hidle hcur hwait
      (by rw [procs_link, hprocs]) fun q ↦ by
        rw [next_link hself (hprocs ▸ hne), hprocs, hlinks _ hne]
        by_cases hq : q = a.proc
        · rw [if_pos hq, if_pos hq]
        · rw [if_neg hq, if_neg hq, hlinks q hq]
    refine ⟨ring', ⟨hringed, hidle, fun q hq ↦ hperm.mem_iff.mpr (List.mem_cons_of_mem _ hq),
      fun _ ↦ hcur, by simp, fun _ ↦ by rw [clkticks_link, frame], fun q hq ↦ ?_, fun c ↦ ?_,
      fun q hq hnot ↦ ?_⟩, by rw [if_neg hnull]; exact hperm⟩
    · rw [proc_link, hproc q (hold q hq)]
      exact hsame _ q
    · rw [hwait]
      exact hwsame _ c
    · rcases List.mem_cons.mp (hperm.mem_iff.mp hq) with rfl | hq
      · refine ⟨⟨a, entry, mode, rfl, rfl⟩, ?_⟩
        rw [proc_link, hnew]
        exact new_spawnedProc k a entry mode
      · exact absurd hq hnot

/-- **The step law.** Every event has its effect on the ring, the processes and the FIFOs. -/
theorem step_effect {k t : Kernel} {e : Event} {ring : List Ptr} (hk : Ringed k ring)
    (h : Step k e t) : ∃ ring', Effect k ring e t ring' := by
  cases h with
  | spawn ha => exact (effect_spawn hk ha _ _).imp fun _ ↦ And.left
  | tick h => exact ⟨ring, effect_tick hk h⟩
  | storeRegs =>
    exact ⟨ring, effect_of_modify hk ⟨by simp, by simp, by simp [Event.Wakes]⟩
      (Kernel.Agree.refl _) (.regs rfl)⟩
  | schedule h => exact ⟨ring, effect_schedule hk h⟩
  | svc hrun h => exact ⟨ring, effect_svc hk hrun h⟩
  | irqWake h =>
    obtain ⟨u, hu, rfl⟩ := Option.map_eq_some_iff.mp h
    obtain ⟨⟨rc, v⟩, hcall, rfl⟩ := Option.map_eq_some_iff.mp hu
    exact ⟨ring, effect_sysWake hk (by simp) (by simp)
      (fun d ↦ by simp [Event.Wakes, eq_comm]) hcall (agree_leaveKernel _)⟩
  | userPageFault =>
    exact ⟨ring, effect_of_modify hk ⟨by simp, by simp, by simp [Event.Wakes]⟩
      (f := fun x ↦ { x with state := .killed, timer.ticksWakeup := noWakeup, eventMask := 0 })
      (agree_requestSchedule _) (.killed rfl)⟩
  | enableScheduler =>
    exact ⟨ring, effect_of_agree hk ⟨by simp, by simp, by simp [Event.Wakes]⟩
      ⟨rfl, rfl, rfl, rfl, rfl, rfl, rfl⟩⟩
  | disableScheduler =>
    exact ⟨ring, effect_of_agree hk ⟨by simp, by simp, by simp [Event.Wakes]⟩
      ⟨rfl, rfl, rfl, rfl, rfl, rfl, rfl⟩⟩

/-! ## The initial states -/

/-- What the invariants need to know about the state after `sched_init`. -/
structure BootState (k : Kernel) : Prop where
  ringed : Ringed k []
  cur : k.cur = k.idleTask
  state : (k.proc k.idleTask).state = .sleep
  active : (k.proc k.idleTask).timer.active = false
  clkticks : k.clkticks = 0
  wait : ∀ c, (k.wait c).contents = []

/-- **`sched_init`** makes the idle task current, with a ring of its own. -/
theorem schedInit_spec {k t : Kernel} {a : SpawnAlloc} {entry : UInt32}
    (h : schedInit k a entry = some t) :
    a.proc ≠ NULL ∧
      t = { k with
        self := k.kernelSelf
        nextPid := k.nextPid + 1
        proc := t.proc
        links := (k.links.setNext a.proc a.proc).setPrev a.proc a.proc
        idleTask := a.proc
        cur := a.proc } ∧
      t.proc a.proc =
        { spawnedProc { k with self := k.kernelSelf } a entry .system with state := .sleep } := by
  have hspec := doSpawn_spec { k with self := k.kernelSelf } a entry .system
  unfold schedInit at h
  cases hcall : doSpawn { k with self := k.kernelSelf } a entry .system with
  | mk p u =>
  rw [hcall] at hspec
  simp only [hcall] at h
  cases hspec with
  | failed => simp at h
  | ok hnull frame hproc hnew =>
    rw [if_neg hnull] at h
    obtain rfl := Option.some.inj h
    refine ⟨hnull, ?_, ?_⟩
    · rw [frame]
      rfl
    · show (u.setState a.proc .sleep).proc a.proc = _
      rw [Kernel.proc_setState_self, hnew]

theorem Booted.bootState {t : Kernel} (h : Booted t) : BootState t := by
  obtain ⟨k, a, entry, hk, h⟩ := h
  obtain ⟨hnull, frame, hproc⟩ := schedInit_spec h
  have hidle : t.idleTask = a.proc := by rw [frame]
  have hcur : t.cur = t.idleTask := by rw [frame]
  have hempty : ∀ c, (t.wait c).contents = [] := fun c ↦ by
    rw [frame]
    exact hk.wait c
  have hnext : t.links.next a.proc = a.proc := by
    rw [frame]
    simp
  rw [← hidle] at hnull hproc hnext
  refine ⟨⟨Or.inl ⟨?_, rfl⟩, List.not_mem_nil, hnull, List.not_mem_nil, hnext, Or.inl hcur,
    fun c q hq ↦ ?_⟩, hcur, ?_, ?_, ?_, hempty⟩
  · rw [frame]
    exact hk.procs
  · rw [hempty c] at hq
    exact absurd hq List.not_mem_nil
  · rw [hproc]
  · rw [hproc]
    rfl
  · rw [frame]
    exact hk.clkticks

/-- In every state of a run the pointers of the kernel hang together. -/
theorem always_ringed {k : Kernel} (hk : Booted k) {r : List (Event × Kernel)}
    (hrun : IsRun Step k r) : Always (fun t ↦ ∃ ring, Ringed t ring) k r :=
  always_of_step (fun _ _ _ ⟨_, hs⟩ hst ↦ (step_effect hs hst).imp fun _ h ↦ h.ringed)
    ⟨[], hk.bootState.ringed⟩ hrun

/-! ## Executing events

The machine on concrete inputs: `execRun` is the run it makes, as long as no loop needs more than
`fuel` iterations. -/

def Event.exec (fuel : ℕ) (k : Kernel) : Event → Option Kernel
  | .spawn a entry mode => some (Ertos.spawn k a entry mode).2
  | .tick => cIrq (fun k ↦ some (timerInt k)) k
  | .storeRegs r => some (k.modify k.cur fun x ↦ { x with regs := r })
  | .schedule => Ertos.schedule fuel k
  | .svc s => (cSvc fuel k s).map Prod.snd
  | .irqWake c => cIrq (fun k ↦ (sysWake fuel k c).map Prod.snd) k
  | .userPageFault => some (Ertos.userPageFault k)
  | .enableScheduler => some (Ertos.enableScheduler k)
  | .disableScheduler => some (Ertos.disableScheduler k)

def Event.Enabled (k : Kernel) : Event → Prop
  | .spawn a _ _ => k.Unused a.proc
  | .svc _ => k.Running
  | _ => True

theorem step_of_exec {fuel : ℕ} {k t : Kernel} {e : Event} (he : e.Enabled k)
    (h : e.exec fuel k = some t) : Step k e t := by
  cases e with
  | spawn a entry mode =>
    obtain rfl := Option.some.inj h
    exact .spawn he
  | tick => exact .tick h
  | storeRegs r =>
    obtain rfl := Option.some.inj h
    exact .storeRegs
  | schedule => exact .schedule h
  | svc s =>
    obtain ⟨⟨rc, u⟩, hcall, rfl⟩ := Option.map_eq_some_iff.mp h
    exact .svc he hcall
  | irqWake c => exact .irqWake h
  | userPageFault =>
    obtain rfl := Option.some.inj h
    exact .userPageFault
  | enableScheduler =>
    obtain rfl := Option.some.inj h
    exact .enableScheduler
  | disableScheduler =>
    obtain rfl := Option.some.inj h
    exact .disableScheduler

def execRun (fuel : ℕ) : Kernel → List Event → List (Event × Kernel)
  | _, [] => []
  | k, e :: es =>
    match e.exec fuel k with
    | none => []
    | some t => (e, t) :: execRun fuel t es

/-- Every event of the list is enabled when its turn comes. -/
def AllEnabled (fuel : ℕ) : Kernel → List Event → Prop
  | _, [] => True
  | k, e :: es =>
    e.Enabled k ∧
      match e.exec fuel k with
      | none => True
      | some t => AllEnabled fuel t es

theorem isRun_execRun {fuel : ℕ} {k : Kernel} {es : List Event} (h : AllEnabled fuel k es) :
    IsRun Step k (execRun fuel k es) := by
  induction es generalizing k with
  | nil => trivial
  | cons e es ih =>
    obtain ⟨he, hrest⟩ := h
    rw [execRun]
    cases hx : e.exec fuel k with
    | none => trivial
    | some t =>
      rw [hx] at hrest
      exact ⟨step_of_exec he hx, ih hrest⟩

/-- To see that memory is unused, it is enough to know the ring. -/
theorem unused_of_list {k : Kernel} {ring : List Ptr} {p : Ptr} (h : ProcList k ring)
    (hidle : p ≠ k.idleTask) (hp : p ∉ ring) : k.Unused p :=
  ⟨hidle, fun _ h' ↦ h.unique h' ▸ hp⟩

/-! ## A small machine

Concrete runs start here, after the boot of a kernel whose completions hold four processes each. -/

def blankKernel : Kernel where
  procs := NULL
  idleTask := NULL
  cur := NULL
  nextPid := 0
  self := NULL
  kernelSelf := 0x100
  needReschedule := false
  schedEnabled := false
  clkticks := 0
  links := fun _ ↦ ⟨NULL, NULL⟩
  proc := fun _ ↦ Proc.cleared
  wait := fun _ ↦ BoundedFifo.init 4
  trampoline := 0x200

def bootKernel : Kernel :=
  (schedInit blankKernel ⟨0x1000, 0x2000, 0x3000, 0x4000⟩ 0x300).getD blankKernel

theorem booted_bootKernel : Booted bootKernel :=
  ⟨blankKernel, ⟨0x1000, 0x2000, 0x3000, 0x4000⟩, 0x300, ⟨rfl, rfl, rfl, rfl, rfl,
    fun _ ↦ BoundedFifo.contents_init 4⟩, rfl⟩

/-- The memory of two processes. -/
def taskA : SpawnAlloc := ⟨0x5000, 0x6000, 0x7000, 0x8000⟩

def taskB : SpawnAlloc := ⟨0x9000, 0xA000, 0xB000, 0xC000⟩

def spawnA : Event := .spawn taskA 0x400 .user

def spawnB : Event := .spawn taskB 0x500 .user

theorem enabled_spawnA : spawnA.Enabled bootKernel :=
  unused_of_list (Or.inl ⟨rfl, rfl⟩) (by decide) List.not_mem_nil

theorem enabled_spawnB : spawnB.Enabled (spawn bootKernel taskA 0x400 .user).2 :=
  have hlist : ProcList (spawn bootKernel taskA 0x400 .user).2 [taskA.proc] :=
    Or.inr ⟨by decide, Cycle.singleton rfl⟩
  unused_of_list hlist (by decide) (by decide)

end Ertos
