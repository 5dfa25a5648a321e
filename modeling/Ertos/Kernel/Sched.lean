import Ertos.Kernel.Proc
import Ertos.Sys.Bfifo

/-!
# The scheduler

`sched.c`: creating processes, and `schedule`. The processes form a ring through their list nodes,
entered at `procs`; the idle task is not on it.

The search of `schedule` is a `do … while` loop around the ring. It is translated with a bound on
the number of iterations, and a second definition, `examine`, does the same along a list. On a ring
the two agree (`scheduleFrom_eq`), so `schedule` always ends, and what it does is read off
`examine`.
-/

namespace Ertos

open Linked

/-! ## State -/

/-- The variables of the kernel, and the processes and completions it points to. -/
structure Kernel where
  procs : Ptr
  idleTask : Ptr
  cur : Ptr
  nextPid : ℕ
  self : Ptr
  kernelSelf : Ptr
  needReschedule : Bool
  schedEnabled : Bool
  clkticks : UInt32
  /-- The list node of each process. -/
  links : ListHeap
  proc : Ptr → Proc
  /-- The wait FIFO of each completion. -/
  wait : Ptr → BoundedFifo
  /-- The address of `user_timer_trampoline`. -/
  trampoline : UInt32

namespace Kernel

/-- Writing through a process pointer. -/
def modify (k : Kernel) (p : Ptr) (f : Proc → Proc) : Kernel :=
  { k with proc := Function.update k.proc p (f (k.proc p)) }

def setState (k : Kernel) (p : Ptr) (s : ProcState) : Kernel :=
  k.modify p fun x ↦ { x with state := s }

section Modify

variable (k : Kernel) (p q : Ptr) (f : Proc → Proc)

theorem proc_modify : (k.modify p f).proc q = if q = p then f (k.proc q) else k.proc q := by
  by_cases h : q = p
  · subst h
    simp [modify]
  · simp [modify, h]

@[simp] theorem proc_modify_self : (k.modify p f).proc p = f (k.proc p) := by simp [modify]

theorem proc_modify_of_ne (h : q ≠ p) : (k.modify p f).proc q = k.proc q := by simp [modify, h]

theorem proc_setState_self (s : ProcState) :
    (k.setState p s).proc p = { k.proc p with state := s } := proc_modify_self _ _ _

theorem proc_setState_of_ne (s : ProcState) (h : q ≠ p) : (k.setState p s).proc q = k.proc q :=
  proc_modify_of_ne _ _ _ _ h

@[simp] theorem procs_modify : (k.modify p f).procs = k.procs := rfl

@[simp] theorem idleTask_modify : (k.modify p f).idleTask = k.idleTask := rfl

@[simp] theorem cur_modify : (k.modify p f).cur = k.cur := rfl

@[simp] theorem self_modify : (k.modify p f).self = k.self := rfl

@[simp] theorem clkticks_modify : (k.modify p f).clkticks = k.clkticks := rfl

@[simp] theorem trampoline_modify : (k.modify p f).trampoline = k.trampoline := rfl

@[simp] theorem links_modify : (k.modify p f).links = k.links := rfl

@[simp] theorem wait_modify : (k.modify p f).wait = k.wait := rfl

end Modify

/-- `k` and `t` differ in their processes only. -/
def SameBut (k t : Kernel) : Prop := t = { k with proc := t.proc }

theorem sameBut_refl (k : Kernel) : SameBut k k := rfl

theorem sameBut_modify (k : Kernel) (p : Ptr) (f : Proc → Proc) : SameBut k (k.modify p f) := rfl

theorem sameBut_setState (k : Kernel) (p : Ptr) (s : ProcState) : SameBut k (k.setState p s) := rfl

theorem SameBut.trans {k t u : Kernel} (h : SameBut k t) (h' : SameBut t u) : SameBut k u := by
  rw [SameBut] at *
  rw [h', h]

end Kernel

/-! ## Creating processes -/

def procStackSize : ℕ := 4096

/-- What the four calls of `malloc` in `do_spawn` and `init_self` return, in order. A call that is
not reached leaves its entry unused. -/
structure SpawnAlloc where
  proc : Ptr
  stackBase : Ptr
  self : Ptr
  stdout : Ptr

/-- The registers a process starts with. -/
def spawnRegs (spsr entry : UInt32) (stack : Ptr) : Regs := fun i ↦
  if i = 0 then spsr
  else if i = 1 then entry
  else if i = 15 then UInt32.ofNat (stack + procStackSize - 4)
  else if i = 16 then entry
  else 0

/-- The process is returned in a list of its own; on failure the result is `NULL`. -/
def doSpawn (k : Kernel) (a : SpawnAlloc) (entry : UInt32) (mode : ProcMode) : Ptr × Kernel :=
  let spsr := if mode = .system then 0x1F else 0x10
  if a.proc = NULL then (NULL, k)
  else
    let k := { k with nextPid := k.nextPid + 1 }
    let x := { Proc.cleared with
      pid := k.nextPid, state := .run, timer.ticksWakeup := noWakeup, stackBase := a.stackBase }
    if a.stackBase = NULL then (NULL, k.modify a.proc fun _ ↦ x)
    else
      let stack := a.stackBase + procStackSize - 4
      let x := { x with stack := stack, regs := spawnRegs spsr entry stack, self := a.self }
      if a.self = NULL ∨ a.stdout = NULL then (NULL, k.modify a.proc fun _ ↦ x)
      else
        let k := k.modify a.proc fun _ ↦ x
        (a.proc, { k with links := (k.links.setNext a.proc a.proc).setPrev a.proc a.proc })

/-- The process a successful `do_spawn` leaves behind. -/
def spawnedProc (k : Kernel) (a : SpawnAlloc) (entry : UInt32) (mode : ProcMode) : Proc :=
  { Proc.cleared with
    pid := k.nextPid + 1
    state := .run
    timer.ticksWakeup := noWakeup
    stackBase := a.stackBase
    stack := a.stackBase + procStackSize - 4
    regs := spawnRegs (if mode = .system then 0x1F else 0x10) entry
      (a.stackBase + procStackSize - 4)
    self := a.self }

/-- The outcome of `do_spawn`: an allocation failed and at most the memory at `a.proc` was written,
or the process there is set up and its list node points at itself. -/
inductive DoSpawn (k : Kernel) (a : SpawnAlloc) (entry : UInt32) (mode : ProcMode) :
    Ptr × Kernel → Prop
  | failed {t : Kernel} (frame : t = { k with nextPid := t.nextPid, proc := t.proc })
      (hproc : ∀ q, q ≠ a.proc → t.proc q = k.proc q) : DoSpawn k a entry mode (NULL, t)
  | ok {t : Kernel} (hnull : a.proc ≠ NULL)
      (frame : t = { k with
        nextPid := k.nextPid + 1
        proc := t.proc
        links := (k.links.setNext a.proc a.proc).setPrev a.proc a.proc })
      (hproc : ∀ q, q ≠ a.proc → t.proc q = k.proc q)
      (hnew : t.proc a.proc = spawnedProc k a entry mode) : DoSpawn k a entry mode (a.proc, t)

theorem doSpawn_spec (k : Kernel) (a : SpawnAlloc) (entry : UInt32) (mode : ProcMode) :
    DoSpawn k a entry mode (doSpawn k a entry mode) := by
  unfold doSpawn
  by_cases hproc : a.proc = NULL
  · simp only [if_pos hproc]
    exact .failed rfl fun q _ ↦ rfl
  by_cases hstack : a.stackBase = NULL
  · simp only [if_neg hproc, if_pos hstack]
    exact .failed rfl fun q hq ↦ Kernel.proc_modify_of_ne _ _ _ _ hq
  by_cases hself : a.self = NULL ∨ a.stdout = NULL
  · simp only [if_neg hproc, if_neg hstack, if_pos hself]
    exact .failed rfl fun q hq ↦ Kernel.proc_modify_of_ne _ _ _ _ hq
  · simp only [if_neg hproc, if_neg hstack, if_neg hself]
    set u : Kernel := { k with nextPid := k.nextPid + 1 }
    have hother : ∀ q, q ≠ a.proc →
        (u.modify a.proc fun _ ↦ spawnedProc k a entry mode).proc q = k.proc q :=
      fun q hq ↦ Kernel.proc_modify_of_ne u a.proc q _ hq
    exact .ok hproc rfl hother
      (Kernel.proc_modify_self u a.proc fun _ ↦ spawnedProc k a entry mode)

def spawn (k : Kernel) (a : SpawnAlloc) (entry : UInt32) (mode : ProcMode) : Ptr × Kernel :=
  let (p, k) := doSpawn k a entry mode
  if p = NULL then (NULL, k)
  else if k.procs = NULL then (p, { k with procs := p })
  else (p, { k with links := listAddAfter k.links k.procs p })

def requestSchedule (k : Kernel) : Kernel :=
  if k.schedEnabled then { k with needReschedule := true } else k

def enableScheduler (k : Kernel) : Kernel := { k with schedEnabled := true }

def disableScheduler (k : Kernel) : Kernel := { k with schedEnabled := false }

/-! ## Choosing the next process -/

def swtch (k : Kernel) (next : Ptr) : Kernel :=
  let k := k.setState next .active
  { k with cur := next, self := (k.proc next).self }

/-- The first half of `schedule`: what becomes of the current task, and where the search starts. -/
def requeue (k : Kernel) : Ptr × Kernel :=
  if k.cur = NULL then (k.procs, k)
  else if k.cur ≠ k.idleTask then
    (k.links.next k.cur, if (k.proc k.cur).state = .active then k.setState k.cur .run else k)
  else (k.procs, k.setState k.cur .sleep)

def examineOne (k : Kernel) (p : Ptr) : Kernel :=
  k.modify p (checkTimers k.trampoline k.clkticks)

/-- The loop of `schedule`: the task selected, or `none` if the loop is still running after `fuel`
iterations. -/
def scheduleFrom : ℕ → Kernel → Ptr → Ptr → Option (Ptr × Kernel)
  | 0, _, _, _ => none
  | fuel + 1, k, op, p =>
    let k := examineOne k p
    if (k.proc p).state = .run then some (p, k)
    else if k.links.next p = op then some (k.idleTask, k)
    else scheduleFrom fuel k op (k.links.next p)

def schedule (fuel : ℕ) (k : Kernel) : Option Kernel :=
  if k.procs = NULL then some { swtch k k.idleTask with needReschedule := false }
  else
    let (p, k) := requeue k
    match scheduleFrom fuel k p p with
    | none => none
    | some (next, k) => some { swtch k next with needReschedule := false }

/-! ## Along a list -/

theorem proc_examineOne_self (k : Kernel) (p : Ptr) :
    (examineOne k p).proc p = checkTimers k.trampoline k.clkticks (k.proc p) :=
  Kernel.proc_modify_self _ _ _

theorem proc_examineOne_of_ne (k : Kernel) {p q : Ptr} (hq : q ≠ p) :
    (examineOne k p).proc q = k.proc q := Kernel.proc_modify_of_ne _ _ _ _ hq

/-- Examine the processes of a list in turn, up to the first that is on the run queue. -/
def examine : Kernel → List Ptr → Ptr × Kernel
  | k, [] => (k.idleTask, k)
  | k, p :: l =>
    let k := examineOne k p
    if (k.proc p).state = .run then (p, k) else examine k l

/-- The loop is the list it runs along. -/
theorem scheduleFrom_eq {k : Kernel} {op p : Ptr} {l : List Ptr}
    (hpath : Path k.links.next p l op) (hl : l ≠ []) (hop : op ∉ l.tail) {fuel : ℕ}
    (hfuel : l.length ≤ fuel) : scheduleFrom fuel k op p = some (examine k l) := by
  induction fuel generalizing k p l with
  | zero => exact absurd (List.eq_nil_of_length_eq_zero (Nat.le_zero.mp hfuel)) hl
  | succ fuel ih =>
    cases l with
    | nil => exact absurd rfl hl
    | cons x l =>
      obtain ⟨rfl, hpath⟩ := hpath
      rw [scheduleFrom, examine]
      by_cases hrun : ((examineOne k p).proc p).state = .run
      · simp only [if_pos hrun]
      · simp only [if_neg hrun]
        have hend : (examineOne k p).links.next p = op ↔ l = [] := hpath.eq_iff_nil hop
        by_cases hl : l = []
        · rw [if_pos (hend.mpr hl), hl]
          rfl
        · rw [if_neg (mt hend.mp hl)]
          exact ih (k := examineOne k p) hpath hl (fun h ↦ hop (List.mem_of_mem_tail h))
            (Nat.le_of_succ_le_succ hfuel)

theorem scheduleFrom_mono {k : Kernel} {op p : Ptr} {r : Ptr × Kernel} {fuel fuel' : ℕ}
    (hle : fuel ≤ fuel') (h : scheduleFrom fuel k op p = some r) :
    scheduleFrom fuel' k op p = some r := by
  induction fuel generalizing k p fuel' with
  | zero => simp [scheduleFrom] at h
  | succ fuel ih =>
    obtain ⟨fuel', rfl⟩ : ∃ n, fuel' = n + 1 := ⟨fuel' - 1, by omega⟩
    rw [scheduleFrom] at h ⊢
    split_ifs at h ⊢ with h₁ h₂
    · exact h
    · exact h
    · exact ih (by omega) h

theorem schedule_mono {k t : Kernel} {fuel fuel' : ℕ} (hle : fuel ≤ fuel')
    (h : schedule fuel k = some t) : schedule fuel' k = some t := by
  by_cases hprocs : k.procs = NULL
  · rw [schedule, if_pos hprocs] at h ⊢
    exact h
  have hsched : ∀ fuel, schedule fuel k =
      match scheduleFrom fuel (requeue k).2 (requeue k).1 (requeue k).1 with
      | none => none
      | some (next, k) => some { swtch k next with needReschedule := false } :=
    fun fuel ↦ if_neg hprocs
  rw [hsched] at h ⊢
  cases hfrom : scheduleFrom fuel (requeue k).2 (requeue k).1 (requeue k).1 with
  | none =>
    rw [hfrom] at h
    simp at h
  | some r =>
    rw [scheduleFrom_mono hle hfrom]
    rw [hfrom] at h
    exact h

theorem schedule_unique {k t u : Kernel} {fuel fuel' : ℕ} (h : schedule fuel k = some t)
    (h' : schedule fuel' k = some u) : t = u := by
  have ht := schedule_mono (Nat.le_max_left fuel fuel') h
  rw [schedule_mono (Nat.le_max_right fuel fuel') h'] at ht
  exact (Option.some.inj ht).symm

theorem examine_sameBut (k : Kernel) (l : List Ptr) : Kernel.SameBut k (examine k l).2 := by
  induction l generalizing k with
  | nil => exact Kernel.sameBut_refl k
  | cons p l ih =>
    rw [examine]
    split_ifs
    · exact Kernel.sameBut_modify _ _ _
    · exact (Kernel.sameBut_modify _ _ _).trans (ih _)

/-- The outcome of `examine`: each process was left alone, or is what `check_timers` made of it; the
selected task is the idle task or a listed process on the run queue. -/
theorem examine_spec (k : Kernel) {l : List Ptr} (hl : l.Nodup) :
    (∀ q, (examine k l).2.proc q = k.proc q ∨
      q ∈ l ∧ (examine k l).2.proc q = checkTimers k.trampoline k.clkticks (k.proc q)) ∧
    ((examine k l).1 = k.idleTask ∨
      (examine k l).1 ∈ l ∧ ((examine k l).2.proc (examine k l).1).state = .run) := by
  induction l generalizing k with
  | nil => exact ⟨fun q ↦ Or.inl rfl, Or.inl rfl⟩
  | cons p l ih =>
    obtain ⟨hp, hl⟩ := List.nodup_cons.mp hl
    rw [examine]
    split_ifs with hrun
    · refine ⟨fun q ↦ ?_, Or.inr ⟨List.mem_cons_self, hrun⟩⟩
      by_cases hq : q = p
      · subst hq
        exact Or.inr ⟨List.mem_cons_self, proc_examineOne_self k q⟩
      · exact Or.inl (proc_examineOne_of_ne k hq)
    · obtain ⟨hproc, hnext⟩ := ih (examineOne k p) hl
      refine ⟨fun q ↦ ?_, hnext.imp_right fun h ↦ ⟨List.mem_cons_of_mem _ h.1, h.2⟩⟩
      by_cases hq : q = p
      · subst hq
        rcases hproc q with h | ⟨hmem, -⟩
        · exact Or.inr ⟨List.mem_cons_self, h.trans (proc_examineOne_self k q)⟩
        · exact absurd hmem hp
      · have h := hproc q
        rw [proc_examineOne_of_ne k hq] at h
        exact h.imp_right fun h ↦ ⟨List.mem_cons_of_mem _ h.1, h.2⟩

/-! ## The process list -/

/-- The processes on the scheduler's list, in order. -/
def ProcList (k : Kernel) (ring : List Ptr) : Prop :=
  k.procs = NULL ∧ ring = [] ∨ k.procs ≠ NULL ∧ Cycle k.links.next k.procs ring

theorem ProcList.unique {k : Kernel} {ring ring' : List Ptr} (h : ProcList k ring)
    (h' : ProcList k ring') : ring = ring' := by
  rcases h with ⟨h₁, rfl⟩ | ⟨h₁, hc⟩ <;> rcases h' with ⟨h₂, rfl⟩ | ⟨h₂, hc'⟩
  · rfl
  · exact absurd h₁ h₂
  · exact absurd h₂ h₁
  · exact hc.unique hc'

/-- What the search of `schedule` relies on. -/
structure Listed (k : Kernel) (ring : List Ptr) : Prop where
  list : ProcList k ring
  null_notMem : NULL ∉ ring
  idle_ne : k.idleTask ≠ NULL
  idle_notMem : k.idleTask ∉ ring
  cur : k.cur = k.idleTask ∨ k.cur ∈ ring

/-- How the pointers of the kernel hang together: the idle task is a ring of its own, and every
pointer the kernel keeps is a process on the list or the idle task. -/
structure Ringed (k : Kernel) (ring : List Ptr) : Prop where
  list : ProcList k ring
  null_notMem : NULL ∉ ring
  idle_ne : k.idleTask ≠ NULL
  idle_notMem : k.idleTask ∉ ring
  idle_next : k.links.next k.idleTask = k.idleTask
  cur : k.cur = k.idleTask ∨ k.cur ∈ ring
  wait : ∀ c, ∀ p ∈ (k.wait c).contents, p = k.idleTask ∨ p ∈ ring

theorem Ringed.listed {k : Kernel} {ring : List Ptr} (hk : Ringed k ring) : Listed k ring :=
  ⟨hk.list, hk.null_notMem, hk.idle_ne, hk.idle_notMem, hk.cur⟩

theorem Listed.procs_ne {k : Kernel} {ring : List Ptr} {p : Ptr} (hk : Listed k ring)
    (hp : p ∈ ring) : k.procs ≠ NULL := by
  rcases hk.list with ⟨-, rfl⟩ | ⟨h, -⟩
  · exact absurd hp List.not_mem_nil
  · exact h

namespace Listed

variable {k : Kernel} {ring : List Ptr}

theorem cur_ne (hk : Listed k ring) : k.cur ≠ NULL := by
  rcases hk.cur with h | h
  · rw [h]
    exact hk.idle_ne
  · exact fun h0 ↦ hk.null_notMem (h0 ▸ h)

theorem cur_eq_idle_of_procs (hk : Listed k ring) (h : k.procs = NULL) : k.cur = k.idleTask := by
  rcases hk.list with ⟨-, rfl⟩ | ⟨h', -⟩
  · exact hk.cur.resolve_right List.not_mem_nil
  · exact absurd h h'

theorem cycle (hk : Listed k ring) (h : k.procs ≠ NULL) : Cycle k.links.next k.procs ring := by
  rcases hk.list with ⟨h', -⟩ | ⟨-, hcyc⟩
  · exact absurd h' h
  · exact hcyc

/-- The search starts on the list, so it runs along a rotation of it. -/
theorem search_path (hk : Listed k ring) (h : k.procs ≠ NULL) :
    ∃ l, Cycle k.links.next (requeue k).1 l ∧ l.Perm ring := by
  have hcyc := hk.cycle h
  rw [requeue, if_neg hk.cur_ne]
  by_cases hcur : k.cur = k.idleTask
  · rw [if_neg (not_not.mpr hcur)]
    exact ⟨ring, hcyc, List.Perm.refl _⟩
  · rw [if_pos hcur]
    obtain ⟨l, hl, hperm⟩ := hcyc.rotate (hcyc.next_mem (hk.cur.resolve_left hcur))
    exact ⟨_, hl, hperm⟩

end Listed

/-- A process as `schedule` finds it: the idle task is put to sleep, and another current task that
is still active goes back to the run queue. -/
def Kernel.requeued (k : Kernel) (q : Ptr) : Proc :=
  if q = k.cur then
    if k.cur = k.idleTask then { k.proc q with state := .sleep }
    else if (k.proc q).state = .active then { k.proc q with state := .run }
    else k.proc q
  else k.proc q

theorem requeue_proc {k : Kernel} (hcur : k.cur ≠ NULL) (q : Ptr) :
    (requeue k).2.proc q = k.requeued q := by
  rw [requeue, if_neg hcur, Kernel.requeued]
  by_cases hq : q = k.cur
  · subst hq
    rw [if_pos rfl]
    by_cases hidle : k.cur = k.idleTask
    · rw [if_neg (not_not.mpr hidle), if_pos hidle]
      exact Kernel.proc_setState_self _ _ _
    · rw [if_pos hidle, if_neg hidle]
      split_ifs
      · exact Kernel.proc_setState_self _ _ _
      · rfl
  · rw [if_neg hq]
    split_ifs
    · exact Kernel.proc_setState_of_ne _ _ _ _ hq
    · rfl
    · exact Kernel.proc_setState_of_ne _ _ _ _ hq

theorem requeue_sameBut (k : Kernel) : Kernel.SameBut k (requeue k).2 := by
  unfold requeue
  split_ifs
  · exact Kernel.sameBut_refl k
  · exact Kernel.sameBut_setState _ _ _
  · exact Kernel.sameBut_refl k
  · exact Kernel.sameBut_setState _ _ _

/-- What `schedule` did to a process before it switched. -/
inductive Examined (k : Kernel) (ring : List Ptr) (q : Ptr) : Proc → Prop
  | skipped : Examined k ring q (k.requeued q)
  | checked (hq : q ∈ ring) :
      Examined k ring q (checkTimers k.trampoline k.clkticks (k.requeued q))

/-- What `schedule` leaves behind. -/
structure Scheduled (k : Kernel) (ring : List Ptr) (t : Kernel) : Prop where
  frame : t = { k with proc := t.proc, cur := t.cur, self := t.self, needReschedule := false }
  self : t.self = (t.proc t.cur).self
  cur : t.cur = k.idleTask ∨ t.cur ∈ ring
  selected : ∃ x, Examined k ring t.cur x ∧ t.proc t.cur = { x with state := .active } ∧
    (t.cur ≠ k.idleTask → x.state = .run)
  others : ∀ q, q ≠ t.cur → Examined k ring q (t.proc q)

theorem scheduled_swtch {k u : Kernel} {ring : List Ptr} {next : Ptr} (hu : Kernel.SameBut k u)
    (hproc : ∀ q, Examined k ring q (u.proc q))
    (hnext : next = k.idleTask ∨ next ∈ ring ∧ (u.proc next).state = .run) :
    Scheduled k ring { swtch u next with needReschedule := false } where
  frame := by
    rw [hu]
    rfl
  self := rfl
  cur := hnext.imp_right And.left
  selected := ⟨u.proc next, hproc next, Kernel.proc_setState_self u next .active,
    fun h ↦ (hnext.resolve_left h).2⟩
  others := fun q hq ↦ by
    have h : (u.setState next .active).proc q = u.proc q := Kernel.proc_setState_of_ne _ _ _ _ hq
    show Examined k ring q ((u.setState next .active).proc q)
    rw [h]
    exact hproc q

theorem swtch_setState (k : Kernel) (p : Ptr) (s : ProcState) :
    swtch (k.setState p s) p = swtch k p := by
  simp [swtch, Kernel.setState, Kernel.modify]

/-- With processes to look at, `schedule` switches to what `examine` finds along the ring. -/
theorem schedule_eq {k : Kernel} {l : List Ptr} (hprocs : k.procs ≠ NULL)
    (hl : Cycle k.links.next (requeue k).1 l) :
    let r := examine (requeue k).2 l
    (∀ fuel, l.length ≤ fuel →
        schedule fuel k = some { swtch r.2 r.1 with needReschedule := false }) ∧
      ∀ fuel u, schedule fuel k = some u → u = { swtch r.2 r.1 with needReschedule := false } := by
  set k₁ := (requeue k).2
  have hsame : Kernel.SameBut k k₁ := requeue_sameBut k
  have hlinks : k₁.links = k.links := by rw [hsame]
  have hop : (requeue k).1 ∉ l.tail := by
    obtain ⟨l', rfl⟩ := hl.exists_eq_cons
    exact (List.nodup_cons.mp hl.nodup).1
  have hloop : ∀ fuel, l.length ≤ fuel →
      scheduleFrom fuel k₁ (requeue k).1 (requeue k).1 = some (examine k₁ l) :=
    fun fuel hfuel ↦ scheduleFrom_eq (by rw [hlinks]; exact hl.path) hl.ne_nil hop hfuel
  have hsched : ∀ fuel, schedule fuel k =
      match scheduleFrom fuel k₁ (requeue k).1 (requeue k).1 with
      | none => none
      | some (next, k) => some { swtch k next with needReschedule := false } :=
    fun fuel ↦ if_neg hprocs
  have hrun : ∀ fuel, l.length ≤ fuel → schedule fuel k =
      some { swtch (examine k₁ l).2 (examine k₁ l).1 with needReschedule := false } :=
    fun fuel hfuel ↦ by rw [hsched, hloop fuel hfuel]
  exact ⟨hrun, fun fuel u h ↦ schedule_unique h (hrun l.length le_rfl)⟩

/-- **The specification of `schedule`.** From a kernel whose pointers hang together it ends, and
does what `Scheduled` says. -/
theorem schedule_spec {k : Kernel} {ring : List Ptr} (hk : Ringed k ring) :
    ∃ t, Scheduled k ring t ∧ (∀ fuel, ring.length ≤ fuel → schedule fuel k = some t) ∧
      ∀ fuel u, schedule fuel k = some u → u = t := by
  by_cases hprocs : k.procs = NULL
  · -- with nothing to look at, the state of the idle task is only written once
    have hcur := hk.listed.cur_eq_idle_of_procs hprocs
    refine ⟨{ swtch k k.idleTask with needReschedule := false }, ?_, fun _ _ ↦ if_pos hprocs,
      fun fuel u h ↦ ?_⟩
    · rw [← swtch_setState k k.idleTask .sleep]
      refine scheduled_swtch (Kernel.sameBut_modify _ _ _) (fun q ↦ ?_) (Or.inl rfl)
      have h : (k.setState k.idleTask .sleep).proc q = k.requeued q := by
        rw [Kernel.setState, Kernel.proc_modify, Kernel.requeued, hcur, if_pos rfl]
      rw [h]
      exact .skipped
    · rw [schedule, if_pos hprocs] at h
      exact (Option.some.inj h).symm
  · obtain ⟨l, hl, hperm⟩ := hk.listed.search_path hprocs
    obtain ⟨hrun, huniq⟩ := schedule_eq hprocs hl
    set k₁ := (requeue k).2 with hk₁
    have hsame₁ : Kernel.SameBut k k₁ := requeue_sameBut k
    obtain ⟨hproc, hnext⟩ := examine_spec k₁ hl.nodup
    have henv : k₁.trampoline = k.trampoline ∧ k₁.clkticks = k.clkticks ∧
        k₁.idleTask = k.idleTask := by
      rw [hsame₁]
      exact ⟨rfl, rfl, rfl⟩
    rw [henv.1, henv.2.1] at hproc
    rw [henv.2.2] at hnext
    refine ⟨_, scheduled_swtch (hsame₁.trans (examine_sameBut k₁ l)) (fun q ↦ ?_)
      (hnext.imp_right fun h ↦ ⟨hperm.subset h.1, h.2⟩),
      fun fuel hfuel ↦ hrun fuel (hperm.length_eq ▸ hfuel), huniq⟩
    have hreq := requeue_proc hk.listed.cur_ne q
    rcases hproc q with h | ⟨hq, h⟩ <;> rw [h, hk₁, hreq]
    · exact .skipped
    · exact .checked (hperm.subset hq)

end Ertos
