import Ertos.Kernel.Checks
import Ertos.Kernel.Machine

/-!
# No process starves

The search of `schedule` starts behind the process that ran last, so that one turn takes up where
the last one ended: with `n` processes on the list, `n` turns go once around. A turn that ends with
the idle task has looked at all of them, and only then does the search start at the head of the
list.

What happens between the turns does not matter, as long as the list and the current process stay
what they are. The measure is the number of processes the search still has to pass before it reaches
a given one (`Ahead`).
-/

namespace Ertos

open Linked Transition

/-! ## Turns -/

/-- Between two calls of `schedule`: anything that leaves the list and the current process alone. -/
structure Interlude (k u : Kernel) : Prop where
  procs : u.procs = k.procs
  idleTask : u.idleTask = k.idleTask
  cur : u.cur = k.cur
  links : u.links = k.links

/-- An interlude to `u`, where `schedule` is called. -/
def Turn (k u t : Kernel) : Prop := Interlude k u ∧ ∃ fuel, schedule fuel u = some t

theorem Interlude.refl (k : Kernel) : Interlude k k := ⟨rfl, rfl, rfl, rfl⟩

theorem Interlude.trans {k u v : Kernel} (h : Interlude k u) (h' : Interlude u v) :
    Interlude k v :=
  ⟨h'.procs.trans h.procs, h'.idleTask.trans h.idleTask, h'.cur.trans h.cur, h'.links.trans h.links⟩

theorem Interlude.listed {k u : Kernel} {ring : List Ptr} (h : Interlude k u)
    (hk : Listed k ring) : Listed u ring where
  list := by
    rw [ProcList, h.procs, h.links]
    exact hk.list
  null_notMem := hk.null_notMem
  idle_ne := h.idleTask ▸ hk.idle_ne
  idle_notMem := h.idleTask ▸ hk.idle_notMem
  cur := by
    rw [h.cur, h.idleTask]
    exact hk.cur

theorem Interlude.requeue_fst {k u : Kernel} (h : Interlude k u) :
    (requeue u).1 = (requeue k).1 := by
  unfold requeue
  rw [h.procs, h.idleTask, h.cur, h.links]
  split_ifs <;> rfl

theorem Listed.schedule {k t : Kernel} {ring : List Ptr} {fuel : ℕ} (hk : Listed k ring)
    (h : schedule fuel k = some t) : Listed t ring := by
  by_cases hprocs : k.procs = NULL
  · rw [Ertos.schedule, if_pos hprocs] at h
    obtain rfl := Option.some.inj h
    exact ⟨hk.list, hk.null_notMem, hk.idle_ne, hk.idle_notMem, Or.inl rfl⟩
  obtain ⟨l, seen, hlook⟩ := schedule_checks hk hprocs h
  have hframe := hlook.frame
  have hsub : seen ⊆ ring := fun q hq ↦ hlook.perm.subset (hlook.isPrefix.subset hq)
  refine ⟨?_, hk.null_notMem, ?_, ?_, ?_⟩
  · rw [ProcList, hframe]
    exact hk.list
  · rw [hframe]
    exact hk.idle_ne
  · rw [hframe]
    exact hk.idle_notMem
  · rw [show t.idleTask = k.idleTask by rw [hframe]]
    rcases hlook.stop with ⟨hidle, -⟩ | ⟨seen', hseen⟩
    · exact Or.inl hidle
    · refine Or.inr (hsub ?_)
      rw [hseen]
      exact List.mem_append_right _ (List.mem_singleton.mpr rfl)

/-- `schedule` needs no more iterations than there are processes. -/
theorem Listed.exists_schedule {k : Kernel} {ring : List Ptr} (hk : Listed k ring) :
    (Ertos.schedule ring.length k).isSome := by
  by_cases hprocs : k.procs = NULL
  · rw [Ertos.schedule, if_pos hprocs]
    rfl
  · obtain ⟨l, hl, hperm⟩ := hk.search_path hprocs
    rw [(schedule_eq hprocs hl).1 _ hperm.length_eq.le]
    rfl

theorem Turn.listed {k u t : Kernel} {ring : List Ptr} (h : Turn k u t) (hk : Listed k ring) :
    Listed u ring ∧ Listed t ring := by
  obtain ⟨hint, fuel, hrun⟩ := h
  exact ⟨hint.listed hk, (hint.listed hk).schedule hrun⟩

theorem always_listed {k : Kernel} {ring : List Ptr} (hk : Listed k ring)
    {turns : List (Kernel × Kernel)} (hrun : IsRun Turn k turns) :
    Always (fun t ↦ Listed t ring) k turns :=
  always_of_step (fun _ _ _ hs ht ↦ (ht.listed hs).2) hk hrun

/-! ## Once around -/

/-- The search of the next turn passes at most `d` processes before it reaches `p`. -/
def Ahead (k : Kernel) (p : Ptr) (d : ℕ) : Prop :=
  ∃ l l', Cycle k.links.next (requeue k).1 (l ++ p :: l') ∧ l.length ≤ d

theorem Listed.ahead {k : Kernel} {ring : List Ptr} {p : Ptr} (hk : Listed k ring) (hp : p ∈ ring) :
    Ahead k p (ring.length - 1) := by
  obtain ⟨l, hl, hperm⟩ := hk.search_path (hk.procs_ne hp)
  obtain ⟨l₁, l₂, rfl⟩ := List.append_of_mem (hperm.mem_iff.mpr hp)
  refine ⟨l₁, l₂, hl, ?_⟩
  have hlen := hperm.length_eq
  rw [List.length_append, List.length_cons] at hlen
  omega

theorem exists_append_of_prefix {α : Type*} {l l₁ l₂ : List α} {p : α} (h : l <+: l₁ ++ p :: l₂)
    (hp : p ∉ l) : ∃ l₃, l₁ = l ++ l₃ := by
  obtain ⟨m, hm⟩ := h
  rcases List.append_eq_append_iff.mp hm with ⟨l₃, h, -⟩ | ⟨c, rfl, hc⟩
  · exact ⟨l₃, h⟩
  · cases c with
    | nil => exact ⟨[], by simp⟩
    | cons x c =>
      obtain rfl : p = x := (List.cons.inj hc).1
      exact absurd (by simp) hp

theorem Looked.requeue_fst {fuel : ℕ} {k t : Kernel} {ring l seen : List Ptr}
    (h : Looked fuel k ring l seen t) (hk : Listed k ring) (hmem : t.cur ∈ ring) :
    (requeue t).1 = k.links.next t.cur := by
  have hne : t.cur ≠ NULL := fun h0 ↦ hk.null_notMem (h0 ▸ hmem)
  have hidle : t.cur ≠ t.idleTask := by
    rw [show t.idleTask = k.idleTask by rw [h.frame]]
    exact fun hi ↦ hk.idle_notMem (hi ▸ hmem)
  have hlinks : t.links = k.links := by rw [h.frame]
  rw [requeue, if_neg hne, if_pos hidle, hlinks]

/-- **One turn** looks at `p` or comes closer to it. -/
theorem Ahead.turn {k t : Kernel} {ring : List Ptr} {p : Ptr} {d fuel : ℕ} (h : Ahead k p d)
    (hk : Listed k ring) (hp : p ∈ ring) (hrun : Ertos.schedule fuel k = some t) :
    (∃ x, k.Checks p x) ∨ ∃ d', d = d' + 1 ∧ Ahead t p d' := by
  obtain ⟨l, seen, hlook⟩ := schedule_checks hk (hk.procs_ne hp) hrun
  obtain ⟨l₁, l₂, hl, hd⟩ := h
  obtain rfl := hl.unique hlook.cycle
  -- `p` is looked at, unless the search stops before it
  by_cases hseen : p ∈ seen
  · exact Or.inl ⟨k.requeued p, (hlook.checks_iff hrun).mpr ⟨hseen, rfl⟩⟩
  rcases hlook.stop with ⟨-, rfl⟩ | ⟨seen', hcur⟩
  · exact absurd (by simp) hseen
  -- the turn ended at a process in front of `p`, and the next one starts behind it
  obtain ⟨l₃, rfl⟩ := exists_append_of_prefix hlook.isPrefix hseen
  have hcyc := hlook.cycle
  rw [List.append_assoc] at hcyc
  obtain ⟨c, hpath, hnext⟩ := hcyc.rotate_append (by simp)
  rw [hcur] at hpath
  obtain ⟨-, -, rfl, rfl⟩ := path_append.mp hpath
  have hmem : t.cur ∈ ring := by
    refine hlook.perm.subset (hlook.isPrefix.subset ?_)
    rw [hcur]
    exact List.mem_append_right _ (List.mem_singleton.mpr rfl)
  have hlinks : t.links = k.links := by rw [hlook.frame]
  have hlen : 0 < seen.length := by
    rw [hcur, List.length_append]
    exact Nat.lt_of_lt_of_le Nat.one_pos (Nat.le_add_left 1 _)
  rw [List.length_append] at hd
  refine Or.inr ⟨d - 1, by omega, l₃, l₂ ++ seen, ?_, by omega⟩
  rw [hlook.requeue_fst hk hmem, hlinks, ← List.cons_append, ← List.append_assoc]
  exact hnext

/-- **A run of turns** longer than that looks at `p`. -/
theorem Ahead.run {k : Kernel} {ring : List Ptr} {p : Ptr} {d : ℕ} (h : Ahead k p d)
    (hk : Listed k ring) (hp : p ∈ ring) {turns : List (Kernel × Kernel)}
    (hrun : IsRun Turn k turns) (hd : d < turns.length) : ∃ c ∈ turns, ∃ x, c.1.Checks p x := by
  induction turns generalizing k d with
  | nil => exact absurd hd (Nat.not_lt_zero d)
  | cons c turns ih =>
    obtain ⟨u, t⟩ := c
    obtain ⟨hturn, hrest⟩ := hrun
    obtain ⟨hu, ht⟩ := hturn.listed hk
    obtain ⟨hint, fuel, hsched⟩ := hturn
    -- what happened since the last turn leaves the start of the search where it was
    have hahead : Ahead u p d := by
      obtain ⟨l₁, l₂, hl, hle⟩ := h
      refine ⟨l₁, l₂, ?_, hle⟩
      rw [hint.links, hint.requeue_fst]
      exact hl
    rcases hahead.turn hu hp hsched with hseen | ⟨d', rfl, ht'⟩
    · exact ⟨(u, t), List.mem_cons_self, hseen⟩
    · obtain ⟨c, hc, hseen⟩ := ih ht' ht hrest (Nat.lt_of_succ_lt_succ hd)
      exact ⟨c, List.mem_cons_of_mem _ hc, hseen⟩

/-! ## Ready processes -/

/-- `p` may run, or sleeps past its deadline, and has no finished alarm handler to unwind. -/
structure Kernel.Ready (k : Kernel) (p : Ptr) : Prop where
  state : (k.proc p).state = .run ∨
    (k.proc p).state = .sleep ∧ (k.proc p).timer.ticksWakeup ≤ k.clkticks
  handler : ¬((k.proc p).timer.active = true ∧ (k.proc p).timer.done = true)

theorem checkSleep_run {clkticks : UInt32} {x : Proc}
    (h : x.state = .run ∨ x.state = .sleep ∧ x.timer.ticksWakeup ≤ clkticks) :
    (checkSleep clkticks x).state = .run := by
  unfold checkSleep
  split_ifs with hsleep
  · rfl
  · exact h.resolve_right hsleep

/-- **A ready process that is looked at is selected.** -/
theorem Kernel.Ready.selected {k t : Kernel} {ring : List Ptr} {p : Ptr} {x : Proc} {fuel : ℕ}
    (h : k.Ready p) (hk : Listed k ring) (hp : p ∈ ring) (hx : k.Checks p x)
    (hrun : schedule fuel k = some t) : t.cur = p := by
  obtain ⟨l, seen, hlook⟩ := schedule_checks hk (hk.procs_ne hp) hrun
  obtain ⟨hseen, rfl⟩ := (hlook.checks_iff hrun).mp hx
  refine hlook.selected p hseen ?_
  -- a ready process is not active, so `requeue` does not touch it
  have hreq : k.requeued p = k.proc p := by
    have hidle : k.idleTask ≠ p := fun hi ↦ hk.idle_notMem (hi ▸ hp)
    have hactive : (k.proc p).state ≠ .active := by
      rcases h.state with hs | ⟨hs, -⟩ <;> rw [hs] <;> simp
    unfold Kernel.requeued
    split_ifs with hcur hi
    · exact absurd (hi.symm.trans hcur.symm) hidle
    · rfl
    · rfl
  rw [hreq]
  have hspec := checkTimers_spec k.trampoline k.clkticks (k.proc p)
  generalize checkTimers k.trampoline k.clkticks (k.proc p) = y at hspec
  cases hspec with
  | fire => rfl
  | unwind hactive hdone => exact absurd ⟨hactive, hdone⟩ h.handler
  | check => exact checkSleep_run h.state

/-! ## The processes spawned -/

/-- What the event adds to the list of processes. -/
def Event.spawned (k : Kernel) : Event → List Ptr
  | .spawn a entry mode => if (Ertos.spawn k a entry mode).1 = NULL then [] else [a.proc]
  | _ => []

/-- The processes spawned along a run. -/
def spawned : Kernel → List (Event × Kernel) → List Ptr
  | _, [] => []
  | k, (e, t) :: r => e.spawned k ++ spawned t r

theorem ProcList.nodup {k : Kernel} {ring : List Ptr} (h : ProcList k ring) : ring.Nodup := by
  rcases h with ⟨-, rfl⟩ | ⟨-, hcyc⟩
  · exact List.nodup_nil
  · exact hcyc.nodup

theorem ringed_step {k t : Kernel} {ring : List Ptr} {e : Event} (hk : Ringed k ring)
    (h : Step k e t) : ∃ ring', Ringed t ring' ∧ ring'.Perm (e.spawned k ++ ring) := by
  obtain ⟨ring', heff⟩ := step_effect hk h
  have hsame : (∀ a entry mode, e ≠ .spawn a entry mode) → ring'.Perm ring := by
    intro he
    refine (List.perm_ext_iff_of_nodup heff.ringed.list.nodup hk.list.nodup).mpr fun q ↦ ⟨?_, ?_⟩
    · intro hq
      by_contra hnot
      obtain ⟨⟨a, entry, mode, hspawn, -⟩, -⟩ := heff.new q hq hnot
      exact he a entry mode hspawn
    · exact fun hq ↦ heff.subset hq
  cases h with
  | @spawn a entry mode ha =>
    obtain ⟨ring₂, heff₂, hperm⟩ := effect_spawn hk ha entry mode
    refine ⟨ring₂, heff₂.ringed, hperm.trans ?_⟩
    rw [Event.spawned]
    split_ifs <;> exact List.Perm.refl _
  | _ => exact ⟨ring', heff.ringed, hsame (by simp)⟩

theorem ringed_run {k : Kernel} {ring : List Ptr} (hk : Ringed k ring) {r : List (Event × Kernel)}
    (hrun : IsRun Step k r) :
    ∃ ring', Ringed (last k r) ring' ∧ ring'.Perm (spawned k r ++ ring) := by
  induction r generalizing k ring with
  | nil => exact ⟨ring, hk, List.Perm.refl _⟩
  | cons c r ih =>
    obtain ⟨e, t⟩ := c
    obtain ⟨ring₁, ht, hperm₁⟩ := ringed_step hk hrun.1
    obtain ⟨ring₂, hlast, hperm₂⟩ := ih ht hrun.2
    refine ⟨ring₂, hlast, hperm₂.trans ((hperm₁.append_left _).trans ?_)⟩
    rw [spawned, List.append_assoc]
    exact List.perm_append_comm_assoc _ _ _

/-! ## Steps between the turns -/

theorem Kernel.Agree.interlude {k t : Kernel} (h : Kernel.Agree k t) : Interlude k t :=
  ⟨h.procs, h.idleTask, h.cur, h.links⟩

theorem interlude_modify (k : Kernel) (p : Ptr) (f : Proc → Proc) : Interlude k (k.modify p f) :=
  ⟨rfl, rfl, rfl, rfl⟩

theorem interlude_requestSchedule (k : Kernel) : Interlude k (requestSchedule k) :=
  (agree_requestSchedule k).interlude

theorem interlude_sysWait (k : Kernel) (c : Ptr) : Interlude k (sysWait k c).2 := by
  have hset : ∀ f, Interlude k ((k.setWait c f).setState k.cur .sleep) :=
    fun f ↦ ⟨rfl, rfl, rfl, rfl⟩
  unfold sysWait
  dsimp only
  split_ifs
  · exact Interlude.refl k
  · exact (hset _).trans (interlude_requestSchedule _)
  · exact ⟨rfl, rfl, rfl, rfl⟩

theorem interlude_wakeFrom {fuel : ℕ} {k t : Kernel} {c : Ptr} (h : wakeFrom fuel k c = some t) :
    Interlude k t := by
  induction fuel generalizing k with
  | zero => simp [wakeFrom] at h
  | succ fuel ih =>
    rw [wakeFrom] at h
    dsimp only at h
    split_ifs at h
    · obtain rfl := Option.some.inj h
      exact ⟨rfl, rfl, rfl, rfl⟩
    · obtain ⟨hprocs, hidle, hcur, hlinks⟩ := ih h
      exact ⟨hprocs, hidle, hcur, hlinks⟩

theorem interlude_sysWake {fuel : ℕ} {k t : Kernel} {c : Ptr} {rc : ℤ}
    (h : sysWake fuel k c = some (rc, t)) : Interlude k t := by
  obtain ⟨u, hu, ht⟩ := Option.map_eq_some_iff.mp h
  obtain rfl := (Prod.mk.inj ht).2
  exact interlude_wakeFrom hu

theorem interlude_eventSetFrom {fuel : ℕ} {k t : Kernel} {mask : UInt32} {p : Ptr} {hit hit' : Bool}
    (h : eventSetFrom fuel k mask p hit = some (hit', t)) : Interlude k t := by
  induction fuel generalizing k p hit with
  | zero => simp [eventSetFrom] at h
  | succ fuel ih =>
    rw [eventSetFrom] at h
    split_ifs at h
    · obtain rfl := (Prod.mk.inj (Option.some.inj h)).2
      exact Interlude.refl k
    · exact (interlude_modify k p _).trans (ih h)
    · exact ih h

theorem interlude_call {fuel : ℕ} {k t : Kernel} {s : Syscall} {rc : ℤ}
    (h : s.call fuel k = some (rc, t)) : Interlude k t := by
  cases s with
  | wake c => exact interlude_sysWake h
  | eventSet mask =>
    rw [Syscall.call, sysEventSet] at h
    cases hfrom : eventSetFrom fuel k mask (k.links.next k.cur) false with
    | none =>
      rw [hfrom] at h
      simp at h
    | some r =>
      rw [hfrom] at h
      obtain rfl := (Prod.mk.inj (Option.some.inj h)).2
      split_ifs
      · exact (interlude_eventSetFrom hfrom).trans (interlude_requestSchedule _)
      · exact interlude_eventSetFrom hfrom
  | wait c =>
    obtain rfl : (sysWait k c).2 = t := by rw [Option.some.inj h]
    exact interlude_sysWait k c
  | sleep period =>
    obtain rfl : (sysSleep k period).2 = t := by rw [Option.some.inj h]
    exact (interlude_modify k k.cur _).trans (interlude_requestSchedule _)
  | yield =>
    obtain rfl : (sysYield k).2 = t := by rw [Option.some.inj h]
    exact interlude_requestSchedule k
  | eventWait mask =>
    obtain rfl : (sysEventWait k mask).2 = t := by rw [Option.some.inj h]
    exact (interlude_modify k k.cur _).trans (interlude_requestSchedule _)
  | alarm a =>
    obtain rfl : (sysAlarm k a).2 = t := by rw [Option.some.inj h]
    exact ⟨rfl, rfl, rfl, rfl⟩
  | uttDone =>
    obtain rfl : (sysUttDone k).2 = t := by rw [Option.some.inj h]
    exact (interlude_modify k k.cur _).trans (interlude_requestSchedule _)

/-- The events that leave the list and the current process alone. -/
def Event.Between : Event → Prop
  | .spawn _ _ _ | .schedule => False
  | _ => True

theorem interlude_step {k t : Kernel} {e : Event} (h : Step k e t) (he : e.Between) :
    Interlude k t := by
  have henter := (agree_enterKernel k).interlude
  cases h with
  | spawn => exact he.elim
  | schedule => exact he.elim
  | tick h =>
    obtain rfl : leaveKernel (timerInt (enterKernel k)) = t := Option.some.inj h
    have hclk : Interlude k { enterKernel k with clkticks := k.clkticks + 1 } :=
      ⟨rfl, rfl, rfl, rfl⟩
    exact (hclk.trans (interlude_requestSchedule _)).trans (agree_leaveKernel _).interlude
  | storeRegs => exact interlude_modify k k.cur _
  | svc _ h =>
    obtain ⟨⟨rc, u⟩, hcall, hu⟩ := Option.map_eq_some_iff.mp h
    obtain rfl := (Prod.mk.inj hu).2
    exact (henter.trans (interlude_call hcall)).trans (agree_leaveKernel u).interlude
  | irqWake h =>
    obtain ⟨u, hu, rfl⟩ := Option.map_eq_some_iff.mp h
    obtain ⟨⟨rc, v⟩, hcall, rfl⟩ := Option.map_eq_some_iff.mp hu
    exact (henter.trans (interlude_sysWake hcall)).trans (agree_leaveKernel v).interlude
  | userPageFault => exact (interlude_modify k k.cur _).trans (interlude_requestSchedule _)
  | enableScheduler => exact ⟨rfl, rfl, rfl, rfl⟩
  | disableScheduler => exact ⟨rfl, rfl, rfl, rfl⟩

/-- The calls of `schedule` along a run: the states before and after. -/
def calls : Kernel → List (Event × Kernel) → List (Kernel × Kernel)
  | _, [] => []
  | k, (.schedule, t) :: r => (k, t) :: calls t r
  | _, (_, t) :: r => calls t r

/-- No process is spawned along the run. -/
def NoSpawn (r : List (Event × Kernel)) : Prop :=
  ∀ c ∈ r, ∀ a entry mode, c.1 ≠ .spawn a entry mode

theorem isRun_calls {k₀ k : Kernel} (h₀ : Interlude k₀ k) {r : List (Event × Kernel)}
    (hrun : IsRun Step k r) (hr : NoSpawn r) : IsRun Turn k₀ (calls k r) := by
  induction r generalizing k₀ k with
  | nil => trivial
  | cons c r ih =>
    obtain ⟨e, t⟩ := c
    obtain ⟨hstep, hrest⟩ := hrun
    have hr' : NoSpawn r := fun c hc ↦ hr c (List.mem_cons_of_mem _ hc)
    cases e with
    | schedule =>
      cases hstep with
      | schedule h => exact ⟨⟨h₀, _, h⟩, ih (Interlude.refl t) hrest hr'⟩
    | spawn a entry mode => exact absurd rfl (hr _ List.mem_cons_self a entry mode)
    | _ => exact ih (h₀.trans (interlude_step hstep (by exact True.intro))) hrest hr'

/-! ## The theorem -/

/-- With the list `ring`, `schedule` ends, and as many turns as there are processes look at each of
them, and select each that is ready every time. -/
structure Fair (k : Kernel) (ring : List Ptr) : Prop where
  ends : ∀ turns, IsRun Turn k turns → ∀ u, Interlude (last k turns) u →
    (schedule ring.length u).isSome
  looked : ∀ turns, IsRun Turn k turns → turns.length = ring.length → ∀ p ∈ ring,
    ∃ c ∈ turns, ∃ x, c.1.Checks p x
  selected : ∀ turns, IsRun Turn k turns → turns.length = ring.length → ∀ p ∈ ring,
    (∀ c ∈ turns, c.1.Ready p) → ∃ c ∈ turns, c.2.cur = p

theorem Listed.fair {k : Kernel} {ring : List Ptr} (hk : Listed k ring) : Fair k ring := by
  have hlooked : ∀ turns, IsRun Turn k turns → turns.length = ring.length → ∀ p ∈ ring,
      ∃ c ∈ turns, ∃ x, c.1.Checks p x := by
    intro turns hrun hlen p hp
    have hpos := List.length_pos_of_mem hp
    exact (hk.ahead hp).run hk hp hrun (by omega)
  refine ⟨fun turns hrun u hu ↦ ?_, hlooked, fun turns hrun hlen p hp hready ↦ ?_⟩
  · exact (hu.listed (always_listed hk hrun).last).exists_schedule
  · obtain ⟨⟨u, t⟩, hc, x, hx⟩ := hlooked turns hrun hlen p hp
    obtain ⟨v, hv, hturn⟩ := hrun.step_of_mem (always_listed hk hrun) hc
    obtain ⟨hint, fuel, hsched⟩ := hturn
    exact ⟨(u, t), hc, (hready _ hc).selected (hint.listed hv) hp hx hsched⟩

/-- **Round robin.** After any run the process list is one ring, which holds each process spawned
once, and the scheduler is fair to its members; and the calls of `schedule` along any further run
without spawning are turns. -/
theorem round_robin {k : Kernel} (hk : Booted k) {r : List (Event × Kernel)}
    (hrun : IsRun Step k r) :
    ∃ ring, ProcList (last k r) ring ∧ ring.Nodup ∧ ring.Perm (spawned k r) ∧
      Fair (last k r) ring ∧ ∀ r', IsRun Step (last k r) r' → NoSpawn r' →
        IsRun Turn (last k r) (calls (last k r) r') := by
  obtain ⟨ring, hlast, hperm⟩ := ringed_run hk.bootState.ringed hrun
  rw [List.append_nil] at hperm
  exact ⟨ring, hlast.list, hlast.list.nodup, hperm, hlast.listed.fair,
    fun r' hrun' hr' ↦ isRun_calls (Interlude.refl _) hrun' hr'⟩

theorem round_robin_twoTasks : ∃ ring k,
    k = last bootKernel (execRun 4 bootKernel [spawnA, spawnB]) ∧
      ProcList k ring ∧ ring.Perm [0x5000, 0x9000] ∧ Fair k ring := by
  have hrun : IsRun Step bootKernel (execRun 4 bootKernel [spawnA, spawnB]) :=
    isRun_execRun ⟨enabled_spawnA, enabled_spawnB, trivial⟩
  obtain ⟨ring, hlist, -, hperm, hfair, -⟩ := round_robin booted_bootKernel hrun
  exact ⟨ring, _, rfl, hlist, hperm, hfair⟩

end Ertos
