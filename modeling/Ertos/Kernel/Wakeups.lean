import Ertos.Kernel.Machine

/-!
# Waking processes

The two ways in which one process wakes others: `sys_event_set` wakes all processes that wait on an
event, and `sys_wake` all that wait on a completion.

The first walks around the ring of processes back to the caller, and changes the processes it
visits. The second takes processes out of a FIFO until it is empty. A process that `sys_wait` has
put into a FIFO stays there, whatever happens to other completions, until the next `sys_wake` finds
it.
-/

namespace Ertos

open Linked Transition

/-! ## Events -/

/-- The processes that `sys_event_set` wakes. -/
def Woke (k : Kernel) (ring : List Ptr) (mask : UInt32) (q : Ptr) : Prop :=
  q ∈ ring ∧ q ≠ k.cur ∧ (k.proc q).Hit mask

/-- What `sys_event_set` leaves behind. -/
structure EventSet (k : Kernel) (ring : List Ptr) (mask : UInt32) (t : Kernel) : Prop where
  woken : ∀ q, Woke k ring mask q →
    t.proc q = { k.proc q with state := .run, eventMask := (k.proc q).eventMask &&& ~~~mask }
  others : ∀ q, ¬Woke k ring mask q → t.proc q = k.proc q
  frame : t = { k with proc := t.proc, needReschedule := t.needReschedule }
  enabled : k.schedEnabled = true →
    (t.needReschedule = true ↔ k.needReschedule = true ∨ ∃ q, Woke k ring mask q)
  disabled : k.schedEnabled = false → t.needReschedule = k.needReschedule

theorem requestSchedule_eq (k : Kernel) :
    requestSchedule k = { k with needReschedule := k.needReschedule || k.schedEnabled } := by
  unfold requestSchedule
  split_ifs with h
  · rw [h, Bool.or_true]
  · have hsame : (k.needReschedule || k.schedEnabled) = k.needReschedule := by
      rw [Bool.eq_false_iff.mpr h, Bool.or_false]
    exact (congrArg (fun b ↦ { k with needReschedule := b }) hsame).symm

theorem hit_requestSchedule_eq (k : Kernel) (hit : Bool) :
    (if hit then requestSchedule k else k)
      = { k with needReschedule := k.needReschedule || hit && k.schedEnabled } := by
  cases hit with
  | false => simp
  | true => exact requestSchedule_eq k

section EventSet

variable {k v : Kernel} {ring l : List Ptr} {mask : UInt32} {hit : Bool}

theorem woke_iff (hperm : (k.cur :: l).Perm ring) (hnot : k.cur ∉ l) (q : Ptr) :
    Woke k ring mask q ↔ q ∈ l ∧ (k.proc q).Hit mask := by
  have hmem : q ∈ ring ∧ q ≠ k.cur ↔ q ∈ l := by
    rw [← hperm.mem_iff, List.mem_cons]
    constructor
    · exact fun hq ↦ hq.1.resolve_left hq.2
    · exact fun hq ↦ ⟨Or.inr hq, fun hqc ↦ hnot (hqc ▸ hq)⟩
  rw [Woke, ← and_assoc, hmem]

theorem eventSet_of_visited (hwoke : ∀ q, Woke k ring mask q ↔ q ∈ l ∧ (k.proc q).Hit mask)
    (hsame : Kernel.SameBut k v)
    (hproc : ∀ q, v.proc q = if q ∈ l then (k.proc q).eventSet mask else k.proc q)
    (hhit : hit = true ↔ ∃ q ∈ l, (k.proc q).Hit mask) :
    EventSet k ring mask
      { v with needReschedule := v.needReschedule || hit && v.schedEnabled } := by
  have hflag : hit = true ↔ ∃ q, Woke k ring mask q := hhit.trans (exists_congr hwoke).symm
  have hneed : (v.needReschedule || hit && v.schedEnabled)
      = (k.needReschedule || hit && k.schedEnabled) := by
    rw [hsame]
  refine ⟨fun q hq ↦ ?_, fun q hq ↦ ?_, ?_, fun hsched ↦ ?_, fun hsched ↦ ?_⟩
  · obtain ⟨hql, hqhit⟩ := (hwoke q).mp hq
    exact ((hproc q).trans (if_pos hql)).trans (if_pos hqhit)
  · refine (hproc q).trans ?_
    split_ifs with hql
    · exact if_neg fun hqhit ↦ hq ((hwoke q).mpr ⟨hql, hqhit⟩)
    · rfl
  · rw [hsame]
  · rw [hneed, hsched, Bool.and_true, Bool.or_eq_true, hflag]
  · rw [hneed, hsched, Bool.and_false, Bool.or_false]

/-- The call returns when the loop has ended. -/
theorem sysEventSet_eq_some_iff {n : ℕ}
    (hrun : ∀ fuel r, eventSetFrom fuel k mask (k.links.next k.cur) false = some r ↔
      n < fuel ∧ r = (hit, v)) (fuel : ℕ) (r : ℤ × Kernel) :
    sysEventSet fuel k mask = some r ↔ n < fuel ∧
      r = (0, { v with needReschedule := v.needReschedule || hit && v.schedEnabled }) := by
  rw [sysEventSet]
  cases hfrom : eventSetFrom fuel k mask (k.links.next k.cur) false with
  | none =>
    refine ⟨fun h ↦ by simp at h, fun h ↦ ?_⟩
    have hsome := (hrun fuel _).mpr ⟨h.1, rfl⟩
    rw [hfrom] at hsome
    exact absurd hsome (by simp)
  | some s =>
    obtain ⟨hfuel, hs⟩ := (hrun fuel s).mp hfrom
    rw [hs]
    dsimp only
    rw [hit_requestSchedule_eq, Option.some.injEq, eq_comm]
    exact (and_iff_right hfuel).symm

end EventSet

/-- **Events wake exactly the right processes.** On every ring that contains the caller,
`sys_event_set` goes around once. Every other process whose event mask meets the mask runs, with
these events cleared; nothing else changes, and a reschedule is requested exactly if there was such
a process. -/
theorem sysEventSet_exact {k : Kernel} {ring : List Ptr} (hring : Cycle k.links.next k.procs ring)
    (hcur : k.cur ∈ ring) (mask : UInt32) :
    ∃ t, EventSet k ring mask t ∧
      ∀ fuel r, sysEventSet fuel k mask = some r ↔ ring.length ≤ fuel ∧ r = (0, t) := by
  obtain ⟨l, hl, hperm⟩ := hring.rotate hcur
  obtain ⟨hnot, hnodup⟩ := List.nodup_cons.mp hl.nodup
  obtain ⟨v, hsame, hproc, hrun⟩ := eventSetFrom_spec mask hl.path.2 hnot hnodup
  obtain ⟨hit, hhit⟩ : ∃ hit, hit = decide (∃ q ∈ l, (k.proc q).Hit mask) := ⟨_, rfl⟩
  have hflag : hit = true ↔ ∃ q ∈ l, (k.proc q).Hit mask := by rw [hhit, decide_eq_true_iff]
  refine ⟨_, eventSet_of_visited (woke_iff hperm hnot) hsame hproc hflag, fun fuel r ↦ ?_⟩
  have hloop : ∀ fuel r, eventSetFrom fuel k mask (k.links.next k.cur) false = some r ↔
      l.length < fuel ∧ r = (hit, v) := by
    intro fuel r
    rw [hrun, Bool.false_or, ← hhit]
  have hlen : l.length < fuel ↔ ring.length ≤ fuel := by
    rw [← hperm.length_eq, List.length_cons, Nat.succ_le_iff]
  rw [sysEventSet_eq_some_iff hloop, hlen]

/-- Two processes, of which the one that does not run waits on two events. -/
def eventKernel : Kernel :=
  (last bootKernel (execRun 4 bootKernel [spawnA, spawnB, .schedule])).modify 0x9000
    fun x ↦ { x with state := .sleep, eventMask := 6 }

theorem sysEventSet_exact_two : ∃ t, sysEventSet 2 eventKernel 4 = some (0, t) ∧
    (t.proc 0x9000).state = .run ∧ (t.proc 0x9000).eventMask = 2 := by
  have hring : Cycle eventKernel.links.next eventKernel.procs [0x5000, 0x9000] :=
    ⟨⟨rfl, rfl, rfl⟩, by decide, by simp⟩
  obtain ⟨t, ht, hrun⟩ := sysEventSet_exact hring (by decide) 4
  have hproc := ht.woken 0x9000 ⟨by decide, by decide, by decide⟩
  refine ⟨t, (hrun 2 _).mpr ⟨le_rfl, rfl⟩, ?_, ?_⟩
  · rw [hproc]
  · rw [hproc]
    decide

/-! ## Completions -/

inductive CompletionCall
  /-- Process `p` calls `sys_wait`. -/
  | wait (p c : Ptr)
  | wake (c : Ptr)

/-- A call, with its return code. A process that waits is the current one. -/
inductive CompletionStep : Kernel → CompletionCall × ℤ → Kernel → Prop
  | wait {k t : Kernel} {p c : Ptr} {rc : ℤ} (hp : p ≠ NULL)
      (h : sysWait { k with cur := p } c = (rc, t)) : CompletionStep k (.wait p c, rc) t
  | wake {k t : Kernel} {c : Ptr} {rc : ℤ} {fuel : ℕ} (h : sysWake fuel k c = some (rc, t)) :
      CompletionStep k (.wake c, rc) t

/-- What a call does. -/
inductive CompletionLaw (k : Kernel) : CompletionCall × ℤ → Kernel → Prop
  | wait {t : Kernel} {p c : Ptr} (hstate : (t.proc p).state = .sleep)
      (hqueued : (t.wait c).contents = (k.wait c).contents ++ [p])
      (hothers : ∀ d, d ≠ c → t.wait d = k.wait d) : CompletionLaw k (.wait p c, 0) t
  | failed {t : Kernel} {p c : Ptr} (hfull : c = NULL ∨ (k.wait c).free = 0)
      (hproc : t.proc = k.proc) (hwait : t.wait = k.wait) : CompletionLaw k (.wait p c, -1) t
  | wake {t : Kernel} {c : Ptr}
      (hproc : ∀ q, t.proc q
        = if q ∈ (k.wait c).contents then { k.proc q with state := .run } else k.proc q)
      (hempty : (t.wait c).contents = [])
      (hothers : ∀ d, d ≠ c → t.wait d = k.wait d) : CompletionLaw k (.wake c, 0) t

/-- The next `sys_wake` on `c` sets `p` running. -/
def NextWakeRuns (p c : Ptr) : List ((CompletionCall × ℤ) × Kernel) → Prop
  | [] => True
  | ((.wait _ _, _), _) :: r => NextWakeRuns p c r
  | ((.wake d, _), t) :: r => if d = c then (t.proc p).state = .run else NextWakeRuns p c r

/-- Every call does what it should, and every successful wait is answered by the next wake. -/
def Matched : Kernel → List ((CompletionCall × ℤ) × Kernel) → Prop
  | _, [] => True
  | k, (e, t) :: r => CompletionLaw k e t ∧
      (∀ p c, e = (.wait p c, 0) → NextWakeRuns p c r) ∧ Matched t r

/-- Only processes are in the FIFOs. -/
def Kernel.Waiters (k : Kernel) : Prop := ∀ c, NULL ∉ (k.wait c).contents

theorem completionLaw_wait (k : Kernel) (p c : Ptr) :
    CompletionLaw k (.wait p c, (sysWait { k with cur := p } c).1)
      (sysWait { k with cur := p } c).2 := by
  by_cases hc : c = NULL
  · have hnull : sysWait { k with cur := p } c = (-1, { k with cur := p }) := if_pos hc
    rw [hnull]
    exact .failed (Or.inl hc) rfl rfl
  by_cases hfree : (k.wait c).free = 0
  · have hfull : sysWait { k with cur := p } c
        = (-1, ({ k with cur := p } : Kernel).setWait c (k.wait c)) := sysWait_of_full hc hfree
    rw [hfull]
    exact .failed (Or.inr hfree) rfl (Function.update_eq_self _ _)
  · obtain ⟨hrc, hqueued⟩ := queued_of_room (k := { k with cur := p }) hc hfree
    rw [hrc]
    exact .wait hqueued.state hqueued.contents hqueued.others

theorem completionStep_law {k t : Kernel} {e : CompletionCall × ℤ} (hk : k.Waiters)
    (h : CompletionStep k e t) : CompletionLaw k e t := by
  cases h with
  | @wait _ p c _ hp h =>
    have hlaw := completionLaw_wait k p c
    rwa [h] at hlaw
  | @wake _ c _ _ h =>
    obtain ⟨u, hu, hrc⟩ := Option.map_eq_some_iff.mp h
    obtain ⟨rfl, rfl⟩ := Prod.mk.inj hrc
    obtain ⟨v, hv, hloop⟩ := wakeFrom_spec (hk c)
    obtain ⟨-, rfl⟩ := (hloop _ u).mp hu
    exact .wake hv.proc hv.empty hv.others

/-- Every wake returns. -/
theorem exists_wake {k : Kernel} (hk : k.Waiters) (c : Ptr) :
    ∃ t, CompletionStep k (.wake c, 0) t := by
  obtain ⟨t, -, hloop⟩ := wakeFrom_spec (hk c)
  have hrun := (hloop ((k.wait c).contents.length + 1) t).mpr ⟨Nat.lt_succ_self _, rfl⟩
  have hwake : sysWake ((k.wait c).contents.length + 1) k c = some (0, t) := by
    rw [sysWake, hrun]
    rfl
  exact ⟨t, .wake hwake⟩

theorem CompletionLaw.mem {k t : Kernel} {e : CompletionCall × ℤ} (h : CompletionLaw k e t)
    {q d : Ptr} (hq : q ∈ (t.wait d).contents) :
    q ∈ (k.wait d).contents ∨ e = (.wait q d, 0) := by
  cases h with
  | @wait _ p c hstate hqueued hothers =>
    by_cases hd : d = c
    · rw [hd, hqueued] at hq
      rcases List.mem_append.mp hq with hq | hq
      · exact Or.inl (hd ▸ hq)
      · rw [List.mem_singleton.mp hq, hd]
        exact Or.inr rfl
    · exact Or.inl (hothers d hd ▸ hq)
  | failed _ _ hwait => exact Or.inl (hwait ▸ hq)
  | @wake _ c hproc hempty hothers =>
    by_cases hd : d = c
    · rw [hd, hempty] at hq
      exact absurd hq List.not_mem_nil
    · exact Or.inl (hothers d hd ▸ hq)

theorem CompletionLaw.stays {k t : Kernel} {e : CompletionCall × ℤ} (h : CompletionLaw k e t)
    {p c : Ptr} (hp : p ∈ (k.wait c).contents) :
    (e.1 = .wake c ∧ (t.proc p).state = .run) ∨ (e.1 ≠ .wake c ∧ p ∈ (t.wait c).contents) := by
  cases h with
  | @wait _ q d hstate hqueued hothers =>
    refine Or.inr ⟨by simp, ?_⟩
    by_cases hc : c = d
    · rw [hc, hqueued]
      exact List.mem_append_left _ (hc ▸ hp)
    · rw [hothers c hc]
      exact hp
  | failed _ _ hwait => exact Or.inr ⟨by simp, hwait ▸ hp⟩
  | @wake _ d hproc hempty hothers =>
    by_cases hc : c = d
    · refine Or.inl ⟨by rw [hc], ?_⟩
      rw [hproc p, if_pos (hc ▸ hp)]
    · refine Or.inr ⟨fun h ↦ hc (CompletionCall.wake.inj h).symm, ?_⟩
      rw [hothers c hc]
      exact hp

theorem completionStep_waiters {k t : Kernel} {e : CompletionCall × ℤ} (hk : k.Waiters)
    (h : CompletionStep k e t) : t.Waiters := by
  intro c hnull
  rcases (completionStep_law hk h).mem hnull with hnull | rfl
  · exact hk c hnull
  · cases h with
    | wait hp => exact hp rfl

/-- **A run** of calls: whoever is in a FIFO runs after the next wake. -/
theorem nextWakeRuns_of_mem {k : Kernel} (hk : k.Waiters) {p c : Ptr}
    (hp : p ∈ (k.wait c).contents) {r : List ((CompletionCall × ℤ) × Kernel)}
    (hrun : IsRun CompletionStep k r) : NextWakeRuns p c r := by
  induction r generalizing k with
  | nil => trivial
  | cons a r ih =>
    obtain ⟨⟨e, rc⟩, t⟩ := a
    obtain ⟨hstep, hrest⟩ := hrun
    have ht := completionStep_waiters hk hstep
    have hstays := (completionStep_law hk hstep).stays hp
    cases e with
    | wait q d => exact ih ht (hstays.resolve_left fun h ↦ by simp at h).2 hrest
    | wake d =>
      show if d = c then (t.proc p).state = .run else NextWakeRuns p c r
      split_ifs with hd
      · exact (hstays.resolve_right fun h ↦ h.1 (by rw [hd])).2
      · exact ih ht (hstays.resolve_left fun h ↦ hd (CompletionCall.wake.inj h.1)).2 hrest

/-- **Completions match waits with wakes.** Along every run of calls from empty FIFOs, of whatever
capacities: a wait returns `0` with the caller asleep in the FIFO, and the next wake of the
completion sets it running; or it returns `-1`, for a null pointer or a full FIFO, and changes no
process and no FIFO. A wake returns in every state, empties the FIFO, and changes the state of
exactly the processes in it. -/
theorem completions_matched {k : Kernel} (hempty : ∀ c, (k.wait c).contents = [])
    {r : List ((CompletionCall × ℤ) × Kernel)} (hrun : IsRun CompletionStep k r) :
    Matched k r ∧ Always (fun t ↦ ∀ c, ∃ u, CompletionStep t (.wake c, 0) u) k r := by
  have hwaiters : k.Waiters := by
    intro c hnull
    rw [hempty c] at hnull
    exact List.not_mem_nil hnull
  have halways : Always Kernel.Waiters k r :=
    always_of_step (fun _ _ _ hs hst ↦ completionStep_waiters hs hst) hwaiters hrun
  refine ⟨?_, halways.imp fun t ht c ↦ exists_wake ht c⟩
  clear hempty hwaiters
  induction r generalizing k with
  | nil => trivial
  | cons a r ih =>
    obtain ⟨e, t⟩ := a
    obtain ⟨hstep, hrest⟩ := hrun
    obtain ⟨hk, ht⟩ := halways
    have hlaw := completionStep_law hk hstep
    refine ⟨hlaw, ?_, ih hrest ht⟩
    rintro p c rfl
    refine nextWakeRuns_of_mem ht.head ?_ hrest
    cases hlaw with
    | wait _ hqueued =>
      rw [hqueued]
      exact List.mem_append_right _ (List.mem_singleton.mpr rfl)

/-- Two processes wait, and are woken. -/
def completionRun : List ((CompletionCall × ℤ) × Kernel) :=
  let s := (sysWait { bootKernel with cur := 0x5000 } 0x700).2
  let t := (sysWait { s with cur := 0x9000 } 0x700).2
  let u := ((sysWake 4 t 0x700).getD (0, t)).2
  [((.wait 0x5000 0x700, 0), s), ((.wait 0x9000 0x700, 0), t), ((.wake 0x700, 0), u)]

theorem completions_matched_two : Matched bootKernel completionRun ∧
    Always (fun t ↦ ∀ c, ∃ u, CompletionStep t (.wake c, 0) u) bootKernel completionRun := by
  have hrun : IsRun CompletionStep bootKernel completionRun :=
    ⟨.wait (by decide) rfl, .wait (by decide) rfl, @CompletionStep.wake _ _ _ _ 4 rfl, trivial⟩
  exact completions_matched booted_bootKernel.bootState.wait hrun

end Ertos
