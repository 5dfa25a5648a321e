import Ertos.Kernel.Sched

/-!
# What `schedule` looks at

`schedule` calls `check_timers` on one process after the other, until it finds one that can run. A
call first looks at the alarm (`timerCall`), then at the sleep, unless a handler starts.

`checks` is the list of these calls, each process with its record at that moment. It is the loop of
`schedule` once more, with the calls written down.

The processes looked at are an initial part of the ring as it is seen from where the search starts,
and each has the record that `requeue` gave it (`schedule_checks`).
-/

namespace Ertos

open Linked

/-! ## What `check_timers` does -/

inductive TimerCall
  | start
  | done
  deriving DecidableEq

/-- Which of `handle_task_timer` and `handle_task_timer_done` is called by `check_timers`. -/
def timerCall (clkticks : UInt32) (x : Proc) : Option TimerCall :=
  if 0 < x.timer.next ∧ x.timer.active = false then
    if x.timer.next ≤ clkticks then some .start else none
  else if x.timer.active ∧ x.timer.done then some .done
  else none

theorem checkTimers_eq (trampoline clkticks : UInt32) (x : Proc) :
    checkTimers trampoline clkticks x =
      match timerCall clkticks x with
      | some .start => handleTaskTimer trampoline clkticks x
      | some .done => checkSleep clkticks (handleTaskTimerDone x)
      | none => checkSleep clkticks x := by
  unfold checkTimers timerCall
  split_ifs <;> rfl

theorem timerCall_start_iff {clkticks : UInt32} {x : Proc} :
    timerCall clkticks x = some .start ↔
      x.timer.active = false ∧ 0 < x.timer.next ∧ x.timer.next ≤ clkticks := by
  unfold timerCall
  split_ifs with harmed hclk hdone
  · exact iff_of_true rfl ⟨harmed.2, harmed.1, hclk⟩
  · exact iff_of_false (by simp) fun h ↦ hclk h.2.2
  · exact iff_of_false (by simp) fun h ↦ harmed ⟨h.2.1, h.1⟩
  · exact iff_of_false (by simp) fun h ↦ harmed ⟨h.2.1, h.1⟩

theorem timerCall_done_iff {clkticks : UInt32} {x : Proc} :
    timerCall clkticks x = some .done ↔ x.timer.active = true ∧ x.timer.done = true := by
  unfold timerCall
  split_ifs with harmed hclk hdone
  · exact iff_of_false (by simp) fun h ↦ by simp [harmed.2] at h
  · exact iff_of_false (by simp) fun h ↦ by simp [harmed.2] at h
  · exact iff_of_true rfl hdone
  · exact iff_of_false (by simp) hdone

namespace Proc

/-- The process when a handler that is done has been ended. -/
def unwound (clkticks : UInt32) (x : Proc) : Proc :=
  if timerCall clkticks x = some .done then handleTaskTimerDone x else x

/-- `check_timers` finds the process asleep. -/
def Asleep (clkticks : UInt32) (x : Proc) : Prop :=
  timerCall clkticks x ≠ some .start ∧ (x.unwound clkticks).state = .sleep

/-- `check_timers` wakes the process. -/
def Woken (clkticks : UInt32) (x : Proc) : Prop :=
  x.Asleep clkticks ∧ (x.unwound clkticks).timer.ticksWakeup ≤ clkticks

instance decidableAsleep (clkticks : UInt32) (x : Proc) : Decidable (x.Asleep clkticks) :=
  inferInstanceAs (Decidable (_ ∧ _))

instance decidableWoken (clkticks : UInt32) (x : Proc) : Decidable (x.Woken clkticks) :=
  inferInstanceAs (Decidable (_ ∧ _))

end Proc

theorem checkSleep_unwound {clkticks : UInt32} {x : Proc}
    (hstart : timerCall clkticks x ≠ some .start) :
    checkSleep clkticks (x.unwound clkticks) = if x.Woken clkticks
      then { x.unwound clkticks with state := .run, timer.ticksWakeup := noWakeup }
      else x.unwound clkticks := by
  unfold checkSleep Proc.Woken Proc.Asleep
  exact if_congr (by rw [and_iff_right hstart]) rfl rfl

/-- What `check_timers` does, with the sleep apart from the alarm. -/
theorem checkTimers_eq_unwound (trampoline clkticks : UInt32) (x : Proc) :
    checkTimers trampoline clkticks x =
      if timerCall clkticks x = some .start then handleTaskTimer trampoline clkticks x
      else if x.Woken clkticks
        then { x.unwound clkticks with state := .run, timer.ticksWakeup := noWakeup }
        else x.unwound clkticks := by
  by_cases hstart : timerCall clkticks x = some .start
  · rw [if_pos hstart, checkTimers_eq, hstart]
  · rw [if_neg hstart, ← checkSleep_unwound hstart, checkTimers_eq, Proc.unwound]
    cases hcall : timerCall clkticks x with
    | none => rw [if_neg (by simp)]
    | some c =>
      cases c with
      | start => exact absurd hcall hstart
      | done => rw [if_pos rfl]

/-! ## The calls of `check_timers` -/

def checksFrom : ℕ → Kernel → Ptr → Ptr → List (Ptr × Proc)
  | 0, _, _, _ => []
  | fuel + 1, k, op, p =>
    let t := examineOne k p
    (p, k.proc p) ::
      if (t.proc p).state = .run then []
      else if t.links.next p = op then []
      else checksFrom fuel t op (t.links.next p)

def checks (fuel : ℕ) (k : Kernel) : List (Ptr × Proc) :=
  if k.procs = NULL then []
  else
    let (p, k) := requeue k
    checksFrom fuel k p p

/-- `schedule`, called in the state `k`, calls `check_timers` on `p`, whose record is then `x`. -/
def Kernel.Checks (k : Kernel) (p : Ptr) (x : Proc) : Prop :=
  ∃ fuel, (schedule fuel k).isSome ∧ (p, x) ∈ checks fuel k

/-! ## Along a list -/

/-- The calls that `examine` makes. -/
def checksOf : Kernel → List Ptr → List (Ptr × Proc)
  | _, [] => []
  | k, p :: l =>
    let t := examineOne k p
    (p, k.proc p) :: if (t.proc p).state = .run then [] else checksOf t l

theorem checksFrom_eq {k : Kernel} {op p : Ptr} {l : List Ptr}
    (hpath : Path k.links.next p l op) (hl : l ≠ []) (hop : op ∉ l.tail) {fuel : ℕ}
    (hfuel : l.length ≤ fuel) : checksFrom fuel k op p = checksOf k l := by
  induction fuel generalizing k p l with
  | zero => exact absurd (List.eq_nil_of_length_eq_zero (Nat.le_zero.mp hfuel)) hl
  | succ fuel ih =>
    cases l with
    | nil => exact absurd rfl hl
    | cons x l =>
      obtain ⟨rfl, hpath⟩ := hpath
      rw [checksFrom, checksOf]
      congr 1
      by_cases hrun : ((examineOne k p).proc p).state = .run
      · simp only [if_pos hrun]
      · simp only [if_neg hrun]
        have hend : (examineOne k p).links.next p = op ↔ l = [] := hpath.eq_iff_nil hop
        by_cases hl : l = []
        · rw [if_pos (hend.mpr hl), hl]
          rfl
        · rw [if_neg (mt hend.mp hl)]
          exact ih (k := examineOne k p) hpath hl (fun h ↦ hop (List.mem_of_mem_tail h))
            (Nat.le_of_succ_le_succ hfuel)

theorem checksFrom_mono {k : Kernel} {op p : Ptr} {r : Ptr × Kernel} {fuel fuel' : ℕ}
    (hle : fuel ≤ fuel') (h : scheduleFrom fuel k op p = some r) :
    checksFrom fuel' k op p = checksFrom fuel k op p := by
  induction fuel generalizing k p fuel' with
  | zero => simp [scheduleFrom] at h
  | succ fuel ih =>
    obtain ⟨fuel', rfl⟩ : ∃ n, fuel' = n + 1 := ⟨fuel' - 1, by omega⟩
    rw [scheduleFrom] at h
    rw [checksFrom, checksFrom]
    split_ifs at h ⊢ with h₁ h₂
    · rfl
    · rfl
    · rw [ih (by omega) h]

theorem checks_mono {k t : Kernel} {fuel fuel' : ℕ} (hle : fuel ≤ fuel')
    (h : schedule fuel k = some t) : checks fuel' k = checks fuel k := by
  by_cases hprocs : k.procs = NULL
  · rw [checks, checks, if_pos hprocs, if_pos hprocs]
  have hchecks : ∀ fuel, checks fuel k =
      checksFrom fuel (requeue k).2 (requeue k).1 (requeue k).1 := fun fuel ↦ if_neg hprocs
  rw [hchecks, hchecks]
  rw [schedule, if_neg hprocs] at h
  generalize requeue k = r at h ⊢
  obtain ⟨p, u⟩ := r
  dsimp only at h ⊢
  cases hfrom : scheduleFrom fuel u p p with
  | none =>
    rw [hfrom] at h
    simp at h
  | some r => exact checksFrom_mono hle hfrom

/-- Once the loop has ended its calls are all there are. -/
theorem Kernel.checks_iff_mem {k : Kernel} {fuel : ℕ} (h : (schedule fuel k).isSome) {p : Ptr}
    {x : Proc} : k.Checks p x ↔ (p, x) ∈ Ertos.checks fuel k := by
  obtain ⟨t, ht⟩ := Option.isSome_iff_exists.mp h
  refine ⟨fun ⟨fuel', hsome, hx⟩ ↦ ?_, fun hx ↦ ⟨fuel, h, hx⟩⟩
  obtain ⟨u, hu⟩ := Option.isSome_iff_exists.mp hsome
  rwa [← checks_mono (Nat.le_max_left fuel fuel') ht,
    checks_mono (Nat.le_max_right fuel fuel') hu]

/-- What `examine` did along `l`: it looked at the processes of the initial part `seen`. -/
structure Seen (k : Kernel) (l seen : List Ptr) : Prop where
  isPrefix : seen <+: l
  checks : checksOf k l = seen.map fun q ↦ (q, k.proc q)
  proc : ∀ q, (examine k l).2.proc q =
    if q ∈ seen then checkTimers k.trampoline k.clkticks (k.proc q) else k.proc q
  selected : ∀ q ∈ seen, (checkTimers k.trampoline k.clkticks (k.proc q)).state = .run →
    (examine k l).1 = q
  stop : (examine k l).1 = k.idleTask ∧ seen = l ∨ ∃ seen', seen = seen' ++ [(examine k l).1]
  ran : (examine k l).1 ≠ k.idleTask →
    (checkTimers k.trampoline k.clkticks (k.proc (examine k l).1)).state = .run

namespace Seen

variable {k : Kernel} {p : Ptr} {l seen : List Ptr}

theorem stopped (hrun : ((examineOne k p).proc p).state = .run) : Seen k (p :: l) [p] := by
  have hexamine : examine k (p :: l) = (p, examineOne k p) := if_pos hrun
  refine ⟨⟨l, rfl⟩, ?_, fun q ↦ ?_, fun q hq _ ↦ ?_, Or.inr ⟨[], ?_⟩, fun _ ↦ ?_⟩
  · rw [checksOf]
    simp only [if_pos hrun]
    rfl
  · rw [hexamine]
    by_cases hq : q = p
    · rw [hq, if_pos (List.mem_singleton.mpr rfl), proc_examineOne_self]
    · rw [if_neg (by simpa using hq), proc_examineOne_of_ne k hq]
  · rw [hexamine, List.mem_singleton.mp hq]
  · rw [hexamine]
    rfl
  · rw [hexamine]
    exact proc_examineOne_self k p ▸ hrun

/-- The search goes on behind its first process; what it finds there has not been looked at. -/
theorem cons (hp : p ∉ l) (hrun : ¬((examineOne k p).proc p).state = .run)
    (h : Seen (examineOne k p) l seen) : Seen k (p :: l) (p :: seen) := by
  have hexamine : examine k (p :: l) = examine (examineOne k p) l := if_neg hrun
  have hne : ∀ q ∈ seen, q ≠ p := fun q hq hqp ↦ hp (hqp ▸ h.isPrefix.subset hq)
  have hframe : ∀ q ∈ seen, (examineOne k p).proc q = k.proc q :=
    fun q hq ↦ proc_examineOne_of_ne k (hne q hq)
  refine ⟨List.cons_prefix_cons.mpr ⟨rfl, h.isPrefix⟩, ?_, fun q ↦ ?_, fun q hq hqr ↦ ?_, ?_,
    fun hidle ↦ ?_⟩
  · rw [checksOf, List.map_cons]
    simp only [if_neg hrun, h.checks]
    congr 1
    exact List.map_congr_left fun q hq ↦ by rw [hframe q hq]
  · rw [hexamine, h.proc]
    by_cases hq : q = p
    · rw [hq, if_neg fun h ↦ hne p h rfl, if_pos List.mem_cons_self, proc_examineOne_self]
    · rw [proc_examineOne_of_ne k hq]
      simp only [List.mem_cons, hq, false_or]
      rfl
  · rw [hexamine]
    rcases List.mem_cons.mp hq with rfl | hq
    · exact absurd (proc_examineOne_self k q ▸ hqr) hrun
    · refine h.selected q hq ?_
      rw [hframe q hq]
      exact hqr
  · rw [hexamine]
    refine h.stop.imp (fun h ↦ ⟨h.1, by rw [h.2]⟩) fun ⟨seen', h⟩ ↦ ⟨p :: seen', ?_⟩
    rw [h]
    rfl
  · rw [hexamine] at hidle ⊢
    obtain ⟨seen', hseen⟩ := h.stop.resolve_left fun hstop ↦ hidle hstop.1
    rw [← hframe _ (hseen ▸ List.mem_append_right seen' (List.mem_singleton.mpr rfl))]
    exact h.ran hidle

end Seen

theorem exists_seen (k : Kernel) {l : List Ptr} (hl : l.Nodup) : ∃ seen, Seen k l seen := by
  induction l generalizing k with
  | nil =>
    exact ⟨[], List.prefix_rfl, rfl, fun _ ↦ rfl, by simp, Or.inl ⟨rfl, rfl⟩,
      fun hidle ↦ absurd rfl hidle⟩
  | cons p l ih =>
    obtain ⟨hp, hl⟩ := List.nodup_cons.mp hl
    by_cases hrun : ((examineOne k p).proc p).state = .run
    · exact ⟨[p], .stopped hrun⟩
    · obtain ⟨seen, hseen⟩ := ih (examineOne k p) hl
      exact ⟨p :: seen, hseen.cons hp hrun⟩

/-! ## A turn -/

/-- A call of `schedule` on a nonempty list: the ring `l` as seen from the start of the search, and
the processes looked at. -/
structure Looked (fuel : ℕ) (k : Kernel) (ring l seen : List Ptr) (t : Kernel) : Prop where
  cycle : Cycle k.links.next (requeue k).1 l
  perm : l.Perm ring
  isPrefix : seen <+: l
  checks : checks fuel k = seen.map fun q ↦ (q, k.requeued q)
  frame : t = { k with proc := t.proc, cur := t.cur, self := t.self, needReschedule := false }
  proc : ∀ q, t.proc q =
    (fun x ↦ if q = t.cur then { x with state := .active } else x)
      (if q ∈ seen then checkTimers k.trampoline k.clkticks (k.requeued q) else k.requeued q)
  selected : ∀ q ∈ seen, (checkTimers k.trampoline k.clkticks (k.requeued q)).state = .run →
    t.cur = q
  stop : t.cur = k.idleTask ∧ seen = l ∨ ∃ seen', seen = seen' ++ [t.cur]
  ran : t.cur ≠ k.idleTask →
    (checkTimers k.trampoline k.clkticks (k.requeued t.cur)).state = .run

theorem schedule_checks {fuel : ℕ} {k t : Kernel} {ring : List Ptr} (hk : Listed k ring)
    (hprocs : k.procs ≠ NULL) (h : schedule fuel k = some t) :
    ∃ l seen, Looked fuel k ring l seen t := by
  obtain ⟨l, hl, hperm⟩ := hk.search_path hprocs
  obtain ⟨-, huniq⟩ := schedule_eq hprocs hl
  obtain rfl := huniq fuel t h
  set k₁ := (requeue k).2 with hk₁
  have hsame₁ : Kernel.SameBut k k₁ := requeue_sameBut k
  have hreq : ∀ q, k₁.proc q = k.requeued q := requeue_proc hk.cur_ne
  have henv : k₁.trampoline = k.trampoline ∧ k₁.clkticks = k.clkticks ∧
      k₁.idleTask = k.idleTask ∧ k₁.links = k.links := by
    rw [hsame₁]
    exact ⟨rfl, rfl, rfl, rfl⟩
  obtain ⟨htramp, hclk, hidle, hlinks⟩ := henv
  have hop : (requeue k).1 ∉ l.tail := by
    obtain ⟨l', rfl⟩ := hl.exists_eq_cons
    exact (List.nodup_cons.mp hl.nodup).1
  have hpath : Path k₁.links.next (requeue k).1 l (requeue k).1 := by
    rw [hlinks]
    exact hl.path
  obtain ⟨seen, hprefix, hchecks, hproc, hsel, hstop, hran⟩ := exists_seen k₁ hl.nodup
  rw [htramp, hclk] at hproc hsel hran
  simp only [hreq] at hchecks hproc hsel hran
  rw [hidle] at hstop hran
  refine ⟨l, seen, hl, hperm, hprefix, ?_, ?_, fun q ↦ ?_, hsel, hstop, hran⟩
  · rw [← hchecks, ← checks_mono (Nat.le_max_left fuel l.length) h]
    have hdef : checks (max fuel l.length) k =
        checksFrom (max fuel l.length) k₁ (requeue k).1 (requeue k).1 := if_neg hprocs
    rw [hdef, checksFrom_eq hpath hl.ne_nil hop (Nat.le_max_right fuel l.length)]
  · have hsame := hsame₁.trans (examine_sameBut k₁ l)
    rw [hsame]
    rfl
  · rw [← hproc]
    show ((examine k₁ l).2.setState (examine k₁ l).1 .active).proc q = _
    rw [Kernel.setState, Kernel.proc_modify]
    rfl

namespace Looked

variable {fuel : ℕ} {k t : Kernel} {ring l seen : List Ptr}

/-- The calls of `check_timers` are those for the processes looked at, each with the record that
`requeue` gave it. -/
theorem checks_iff (h : Looked fuel k ring l seen t) (hsched : schedule fuel k = some t) {p : Ptr}
    {x : Proc} : k.Checks p x ↔ p ∈ seen ∧ x = k.requeued p := by
  have hmem : (p, x) ∈ Ertos.checks fuel k ↔ p ∈ seen ∧ x = k.requeued p := by
    rw [h.checks, List.mem_map]
    refine ⟨fun ⟨q, hq, heq⟩ ↦ ?_, fun ⟨hp, hx⟩ ↦ ⟨p, hp, by rw [hx]⟩⟩
    obtain ⟨rfl, rfl⟩ := Prod.mk.inj heq
    exact ⟨hq, rfl⟩
  rw [← hmem]
  exact Kernel.checks_iff_mem (by rw [hsched]; rfl)

/-- What survives a change of state alone, and holds of the record of `p` as the search leaves it,
holds of `p` after the call. -/
theorem carries (h : Looked fuel k ring l seen t) {P : Proc → Prop} {p : Ptr}
    (hstate : ∀ x, P x → P { x with state := .active })
    (hp : P (if p ∈ seen then checkTimers k.trampoline k.clkticks (k.requeued p)
      else k.requeued p)) : P (t.proc p) := by
  rw [h.proc]
  -- the process selected is made active, the others are left as they are
  by_cases hcur : p = t.cur
  · simp only [if_pos hcur]
    exact hstate _ hp
  · simp only [if_neg hcur]
    exact hp

theorem nodup (h : Looked fuel k ring l seen t) : seen.Nodup :=
  h.cycle.nodup.sublist h.isPrefix.sublist

theorem checks_nodup (h : Looked fuel k ring l seen t) :
    ((Ertos.checks fuel k).map Prod.fst).Nodup := by
  have hfst : (Ertos.checks fuel k).map Prod.fst = seen := by
    rw [h.checks, List.map_map]
    exact List.map_id seen
  rw [hfst]
  exact h.nodup

end Looked

theorem Listed.of_checks {k : Kernel} {ring : List Ptr} (hk : Listed k ring) {p : Ptr} {x : Proc}
    (hx : k.Checks p x) : k.procs ≠ NULL ∧ p ∈ ring ∧ x = k.requeued p := by
  obtain ⟨fuel, hsome, hmem⟩ := id hx
  have hprocs : k.procs ≠ NULL := by
    intro h0
    rw [Ertos.checks, if_pos h0] at hmem
    exact List.not_mem_nil hmem
  obtain ⟨t, ht⟩ := Option.isSome_iff_exists.mp hsome
  obtain ⟨l, seen, hlook⟩ := schedule_checks hk hprocs ht
  obtain ⟨hseen, hx⟩ := (hlook.checks_iff ht).mp hx
  exact ⟨hprocs, hlook.perm.subset (hlook.isPrefix.subset hseen), hx⟩

end Ertos
