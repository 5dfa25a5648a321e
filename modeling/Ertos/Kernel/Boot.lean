import Ertos.Kernel.RoundRobin

/-!
# Boot

`main` spawns the tasks of the network and then, in `run_boot_processes`, those of the table
`boot_processes`, with interrupts enabled and the scheduler not yet. The timer may interrupt it
anywhere; but as long as the scheduler is off no interrupt asks for another process, and the
context of `main` becomes that of the idle task.

`spawn` links each process behind the first one. So the list holds the first process spawned and
then all others, from the last to the second, and that is the order in which they get their first
turns.
-/

namespace Ertos

open Linked Transition

/-! ## The order of the list -/

/-- The list of the processes spawned, in the order in which `schedule` goes around. -/
def listOrder : List Ptr → List Ptr
  | [] => []
  | p :: l => p :: l.reverse

/-- To link a process behind the first one. -/
def linkSecond : List Ptr → Ptr → List Ptr
  | [], p => [p]
  | q :: l, p => q :: p :: l

theorem listOrder_perm (l : List Ptr) : (listOrder l).Perm l := by
  cases l with
  | nil => exact List.Perm.refl _
  | cons p l => exact l.reverse_perm.cons p

theorem listOrder_append_singleton (l : List Ptr) (p : Ptr) :
    listOrder (l ++ [p]) = linkSecond (listOrder l) p := by
  cases l with
  | nil => rfl
  | cons q l => simp [listOrder, linkSecond]

theorem procList_link {t : Kernel} {ring : List Ptr} {p : Ptr} (h : ProcList t ring)
    (hnull : p ≠ NULL) (hp : p ∉ ring) (hself : t.links.next p = p) :
    ProcList (t.link p) (linkSecond ring p) := by
  rcases h with ⟨h0, rfl⟩ | ⟨h0, hcyc⟩
  · refine Or.inr ⟨?_, ?_⟩
    · rwa [procs_link, if_pos h0]
    · rw [procs_link, if_pos h0, Kernel.link, if_pos h0]
      exact Cycle.singleton hself
  · obtain ⟨l, rfl⟩ := hcyc.exists_eq_cons
    have hne : t.procs ≠ p := fun h ↦ hp (h ▸ List.mem_cons_self)
    have hnext := next_link hself hne
    refine Or.inr ⟨?_, ?_⟩
    · rwa [procs_link, if_neg h0]
    rw [procs_link, if_neg h0]
    refine hcyc.insert hp ?_ ?_ fun y hy ↦ ?_
    · rw [hnext, if_neg hne, if_pos ⟨h0, rfl⟩]
    · rw [hnext, if_pos rfl, if_neg h0]
    · have hyp : y ≠ p := fun h ↦ hp (h ▸ List.mem_cons_of_mem _ hy)
      have hyk : y ≠ t.procs := fun h ↦ (List.nodup_cons.mp hcyc.nodup).1 (h ▸ hy)
      rw [hnext, if_neg hyp, if_neg fun h ↦ hyk h.2]

/-- **A spawn** puts the new process behind the first one, or leaves the list alone. -/
theorem procList_spawn {k : Kernel} {ring : List Ptr} (h : ProcList k ring) {a : SpawnAlloc}
    (ha : a.proc ∉ ring) (entry : UInt32) (mode : ProcMode) :
    ProcList (spawn k a entry mode).2
      (if (spawn k a entry mode).1 = NULL then ring else linkSecond ring a.proc) := by
  have hspec := doSpawn_spec k a entry mode
  cases hcall : doSpawn k a entry mode with
  | mk p t =>
  rw [hcall] at hspec
  rw [spawn_eq hcall]
  cases hspec with
  | failed frame =>
    rw [if_pos rfl, if_pos rfl, frame]
    exact h
  | ok hnull frame =>
    rw [if_neg hnull, if_neg hnull]
    have hself : t.links.next a.proc = a.proc := by
      rw [frame]
      simp
    refine procList_link ?_ hnull ha hself
    rw [ProcList, frame]
    refine h.imp_right fun hring ↦ ⟨hring.1, ?_, hring.2.nodup, hring.2.ne_nil⟩
    refine (path_congr fun y hy ↦ ?_).mpr hring.2.path
    have hne : y ≠ a.proc := fun h ↦ ha (h ▸ hy)
    simp [hne]

theorem procList_step {k t : Kernel} {l : List Ptr} {e : Event} (hk : Ringed k (listOrder l))
    (h : Step k e t) : Ringed t (listOrder (l ++ e.spawned k)) := by
  obtain ⟨ring, ht, -⟩ := ringed_step hk h
  have hlist : ProcList t (listOrder (l ++ e.spawned k)) := by
    cases e with
    | spawn a entry mode =>
      cases h with
      | spawn ha =>
        have hspawn := procList_spawn hk.list (ha.2 _ hk.list) entry mode
        rw [Event.spawned]
        split_ifs at hspawn ⊢ with hnull
        · rwa [List.append_nil]
        · rwa [listOrder_append_singleton]
    | schedule =>
      cases h with
      | schedule h =>
        simp only [Event.spawned, List.append_nil]
        exact (hk.listed.schedule h).list
    | _ =>
      simp only [Event.spawned, List.append_nil]
      exact ((interlude_step h trivial).listed hk.listed).list
  exact ht.list.unique hlist ▸ ht

theorem ringed_listOrder {k : Kernel} {l : List Ptr} (hk : Ringed k (listOrder l))
    {r : List (Event × Kernel)} (hrun : IsRun Step k r) :
    Ringed (last k r) (listOrder (l ++ spawned k r)) := by
  induction r generalizing k l with
  | nil => rwa [spawned, List.append_nil]
  | cons c r ih =>
    obtain ⟨e, t⟩ := c
    have ht := ih (procList_step hk hrun.1) hrun.2
    rwa [List.append_assoc] at ht

/-! ## Before the scheduler is on -/

/-- What happens while `main` spawns. -/
def Event.Boots : Event → Prop
  | .spawn _ _ _ | .tick | .irqWake _ => True
  | _ => False

/-- The scheduler is off, and `main` runs undisturbed. -/
structure Kernel.Booting (k : Kernel) : Prop where
  cur : k.cur = k.idleTask
  schedEnabled : k.schedEnabled = false
  needReschedule : k.needReschedule = false

theorem Kernel.Booting.requestSchedule {k : Kernel} (h : k.Booting) :
    requestSchedule k = k := if_neg (by simp [h.schedEnabled])

theorem Kernel.Booting.wakeFrom {fuel : ℕ} {k t : Kernel} {c : Ptr} (hk : k.Booting)
    (h : Ertos.wakeFrom fuel k c = some t) : t.Booting := by
  induction fuel generalizing k with
  | zero => simp [Ertos.wakeFrom] at h
  | succ fuel ih =>
    rw [Ertos.wakeFrom] at h
    dsimp only at h
    split_ifs at h
    · obtain rfl := Option.some.inj h
      exact ⟨hk.cur, hk.schedEnabled, hk.needReschedule⟩
    · refine ih (k := (k.setWait c _).setState _ _) ?_ h
      exact ⟨hk.cur, hk.schedEnabled, hk.needReschedule⟩

theorem Kernel.Booting.spawn {k : Kernel} (hk : k.Booting) (a : SpawnAlloc) (entry : UInt32)
    (mode : ProcMode) : (Ertos.spawn k a entry mode).2.Booting := by
  have hspec := doSpawn_spec k a entry mode
  cases hcall : doSpawn k a entry mode with
  | mk p t =>
  rw [hcall] at hspec
  rw [spawn_eq hcall]
  obtain ⟨hcur, hsched, hneed⟩ := hk
  cases hspec with
  | failed frame =>
    rw [if_pos rfl, frame]
    exact ⟨hcur, hsched, hneed⟩
  | ok hnull frame =>
    rw [if_neg hnull, Kernel.link, frame]
    split_ifs
    · exact ⟨hcur, hsched, hneed⟩
    · exact ⟨hcur, hsched, hneed⟩

/-- **No interrupt disturbs `main`.** -/
theorem Kernel.Booting.step {k t : Kernel} {e : Event} (hk : k.Booting) (he : e.Boots)
    (h : Step k e t) : t.Booting := by
  have henter : (enterKernel k).Booting := ⟨hk.cur, hk.schedEnabled, hk.needReschedule⟩
  cases h with
  | spawn => exact hk.spawn _ _ _
  | tick h =>
    obtain rfl := Option.some.inj h
    have hclk : Kernel.Booting { enterKernel k with clkticks := k.clkticks + 1 } :=
      ⟨hk.cur, hk.schedEnabled, hk.needReschedule⟩
    rw [timerInt, show (enterKernel k).clkticks = k.clkticks from rfl, hclk.requestSchedule]
    exact ⟨hk.cur, hk.schedEnabled, hk.needReschedule⟩
  | irqWake h =>
    obtain ⟨u, hu, rfl⟩ := Option.map_eq_some_iff.mp h
    obtain ⟨v, hv, rfl⟩ := Option.map_eq_some_iff.mp hu
    obtain ⟨w, hw, rfl⟩ := Option.map_eq_some_iff.mp hv
    obtain ⟨hcur, hsched, hneed⟩ := henter.wakeFrom hw
    exact ⟨hcur, hsched, hneed⟩
  | _ => exact he.elim

theorem Booted.booting {k : Kernel} (h : Booted k) : k.Booting := by
  have hcur := h.bootState.cur
  obtain ⟨k₀, a, entry, hk, h⟩ := h
  obtain ⟨-, frame, -⟩ := schedInit_spec h
  refine ⟨hcur, ?_, ?_⟩
  · rw [frame]
    exact hk.schedEnabled
  · rw [frame]
    exact hk.needReschedule

theorem ProcStep.new {k t : Kernel} {ring : List Ptr} {q : Ptr} {e : Event} {x : Proc}
    (h : ProcStep k ring t q e x) (hsched : e ≠ .schedule) (hq : q ≠ k.cur)
    (hnew : (k.proc q).New) : x.New := by
  cases h with
  | same => exact hnew
  | passed | selected => exact absurd rfl hsched
  | wake => exact ⟨rfl, hnew.eventMask, hnew.timer⟩
  | eventSet =>
    refine ⟨rfl, ?_, hnew.timer⟩
    rw [hnew.eventMask, UInt32.zero_and]
  | regs hcur | wait hcur | sleep hcur | eventWait hcur | alarm hcur | uttDone hcur
  | killed hcur => exact absurd hcur hq

/-- `main` has spawned `l`, and none of these has run. -/
structure Spawning (k : Kernel) (l : List Ptr) : Prop where
  ringed : Ringed k (listOrder l)
  booting : k.Booting
  new : ∀ p ∈ l, (k.proc p).New

theorem Spawning.step {k t : Kernel} {l : List Ptr} {e : Event} (hk : Spawning k l) (he : e.Boots)
    (h : Step k e t) : Spawning t (l ++ e.spawned k) := by
  have ht := procList_step hk.ringed h
  refine ⟨ht, hk.booting.step he h, fun p hp ↦ ?_⟩
  obtain ⟨ring, heff⟩ := step_effect hk.ringed h
  obtain rfl := heff.ringed.list.unique ht.list
  by_cases hold : p ∈ l
  · have hring : p ∈ listOrder l := (listOrder_perm l).mem_iff.mpr hold
    have hcur : p ≠ k.cur := by
      rintro rfl
      exact hk.ringed.idle_notMem (hk.booting.cur ▸ hring)
    have hsched : e ≠ .schedule := by
      rintro rfl
      exact he
    exact (heff.proc p (Or.inr hring)).new hsched hcur (hk.new p hold)
  · exact (heff.new p ((listOrder_perm _).mem_iff.mpr hp)
      (mt (listOrder_perm l).mem_iff.mp hold)).2

theorem Spawning.run {k : Kernel} {l : List Ptr} (hk : Spawning k l) {r : List (Event × Kernel)}
    (hrun : IsRun Step k r) (hboot : ∀ c ∈ r, c.1.Boots) :
    Always Kernel.Booting k r ∧ Spawning (last k r) (l ++ spawned k r) := by
  induction r generalizing k l with
  | nil =>
    rw [spawned, List.append_nil]
    exact ⟨hk.booting, hk⟩
  | cons c r ih =>
    obtain ⟨e, t⟩ := c
    obtain ⟨he, hboot⟩ := List.forall_mem_cons.mp hboot
    obtain ⟨halways, hlast⟩ := ih (hk.step he hrun.1) hrun.2 hboot
    rw [List.append_assoc] at hlast
    exact ⟨⟨hk.booting, halways⟩, hlast⟩

/-! ## The first turns -/

/-- The search of `schedule` comes to `rest` next, and none of these has run. -/
structure FirstTurns (k : Kernel) (ring rest : List Ptr) : Prop where
  ringed : Ringed k ring
  subset : rest ⊆ ring
  ahead : rest ≠ [] → ∃ l, Cycle k.links.next (requeue k).1 (rest ++ l)
  new : ∀ p ∈ rest, (k.proc p).New
  cur : k.cur ∉ rest

theorem Spawning.firstTurns {k : Kernel} {l : List Ptr} (hk : Spawning k l) :
    FirstTurns k (listOrder l) (listOrder l) where
  ringed := hk.ringed
  subset := List.Subset.refl _
  ahead hne := by
    have hcyc := (hk.ringed.list.resolve_left fun h ↦ hne h.2).2
    have hcur : k.cur ≠ NULL := hk.booting.cur ▸ hk.ringed.idle_ne
    refine ⟨[], ?_⟩
    rwa [List.append_nil, requeue, if_neg hcur, if_neg (not_not.mpr hk.booting.cur)]
  new p hp := hk.new p ((listOrder_perm l).mem_iff.mp hp)
  cur := hk.booting.cur ▸ hk.ringed.idle_notMem

namespace FirstTurns

variable {k t : Kernel} {ring rest : List Ptr} {p : Ptr} {e : Event}

theorem between (h : FirstTurns k ring rest) (hst : Step k e t) (he : e.Between) :
    ∃ ring', FirstTurns t ring' rest := by
  obtain ⟨ring', heff⟩ := step_effect h.ringed hst
  have hint := interlude_step hst he
  have hsched : e ≠ .schedule := by
    rintro rfl
    exact he
  refine ⟨ring', heff.ringed, List.Subset.trans h.subset heff.subset, ?_, fun p hp ↦ ?_, ?_⟩
  · rw [hint.links, hint.requeue_fst]
    exact h.ahead
  · have hpk : p ≠ k.cur := fun hcur ↦ h.cur (hcur ▸ hp)
    exact (heff.proc p (Or.inr (h.subset hp))).new hsched hpk (h.new p hp)
  · rw [hint.cur]
    exact h.cur

theorem schedule (h : FirstTurns k ring (p :: rest)) {fuel : ℕ}
    (hrun : Ertos.schedule fuel k = some t) : t.cur = p ∧ ∃ ring', FirstTurns t ring' rest := by
  have hk := h.ringed.listed
  have hp : p ∈ ring := h.subset List.mem_cons_self
  obtain ⟨l, seen, hlook⟩ := schedule_checks hk (hk.procs_ne hp) hrun
  obtain ⟨l', hl⟩ := h.ahead (List.cons_ne_nil p rest)
  rw [List.cons_append] at hl
  obtain rfl := hl.unique hlook.cycle
  obtain ⟨hpl, -⟩ := List.nodup_cons.mp hlook.cycle.nodup
  -- the search starts at `p`, and `p` is ready
  obtain ⟨seen', rfl, hpre⟩ : ∃ seen', seen = p :: seen' ∧ seen' <+: rest ++ l' := by
    cases seen with
    | nil =>
      rcases hlook.stop with ⟨-, hnil⟩ | ⟨seen', hnil⟩
      · exact absurd hnil.symm (List.cons_ne_nil _ _)
      · exact absurd hnil.symm (List.concat_ne_nil _ _)
    | cons x seen' =>
      obtain ⟨rfl, hpre⟩ := List.cons_prefix_cons.mp hlook.isPrefix
      exact ⟨seen', rfl, hpre⟩
  have hnew := h.new p List.mem_cons_self
  have hready : k.Ready p := by
    refine ⟨Or.inl hnew.state, fun ⟨hactive, _⟩ ↦ ?_⟩
    rw [hnew.timer] at hactive
    exact absurd hactive (by decide)
  have hcur : t.cur = p := hready.selected hk hp
    ((hlook.checks_iff hrun).mpr ⟨List.mem_cons_self, rfl⟩) hrun
  -- so no other process is looked at
  obtain rfl : seen' = [] := by
    rcases hlook.stop with ⟨hidle, -⟩ | ⟨m, hm⟩
    · exact absurd (hidle ▸ hcur ▸ hp) hk.idle_notMem
    · cases m with
      | nil => exact (List.cons.inj hm).2
      | cons x m =>
        refine absurd (hpre.subset ?_) hpl
        rw [(List.cons.inj hm).2, hcur]
        exact List.mem_append_right _ (List.mem_singleton.mpr rfl)
  obtain ⟨ring', heff⟩ := step_effect h.ringed (.schedule hrun)
  have hmem : t.cur ∈ ring := hcur ▸ hp
  refine ⟨hcur, ring', heff.ringed,
    List.Subset.trans (List.subset_of_cons_subset h.subset) heff.subset, fun hne ↦ ?_,
    fun q hq ↦ ?_, ?_⟩
  · have hsplit : Cycle k.links.next (requeue k).1 ([p] ++ (rest ++ l')) := hlook.cycle
    obtain ⟨c, ⟨rfl, rfl⟩, hnext⟩ := hsplit.rotate_append (by simp [hne])
    rw [hlook.requeue_fst hk hmem, hcur, hlook.frame]
    exact ⟨_, by rwa [List.append_assoc] at hnext⟩
  · have hqp : q ≠ t.cur := by
      rintro rfl
      exact hpl (List.mem_append_left _ (hcur ▸ hq))
    have hqk : q ≠ k.cur := by
      rintro rfl
      exact h.cur (List.mem_cons_of_mem p hq)
    have hseen : q ∉ [p] := fun hmem ↦ hqp ((List.mem_singleton.mp hmem).trans hcur.symm)
    rw [hlook.proc]
    simp only [if_neg hqp, if_neg hseen, Kernel.requeued, if_neg hqk]
    exact h.new q (List.mem_cons_of_mem p hq)
  · rw [hcur]
    exact fun hrest ↦ hpl (List.mem_append_left _ hrest)

theorem run (h : FirstTurns k ring rest) {r : List (Event × Kernel)} (hrun : IsRun Step k r)
    (hr : NoSpawn r) : ((calls k r).map fun c ↦ c.2.cur).take rest.length =
      rest.take (calls k r).length := by
  induction r generalizing k ring rest with
  | nil => simp [calls]
  | cons c r ih =>
    obtain ⟨e, t⟩ := c
    have hr' : NoSpawn r := fun c hc ↦ hr c (List.mem_cons_of_mem _ hc)
    cases e with
    | schedule =>
      cases rest with
      | nil => simp
      | cons p rest =>
        cases hrun.1 with
        | schedule hsched =>
          obtain ⟨hcur, ring', ht⟩ := h.schedule hsched
          rw [calls, List.map_cons, List.length_cons, List.take_succ_cons, List.length_cons,
            List.take_succ_cons, ih ht hrun.2 hr', hcur]
    | spawn a entry mode => exact absurd rfl (hr _ List.mem_cons_self a entry mode)
    | _ =>
      obtain ⟨ring', ht⟩ := h.between hrun.1 trivial
      exact ih ht hrun.2 hr'

end FirstTurns

/-! ## Three processes are spawned -/

theorem fst_mem_of_mem_execRun {fuel : ℕ} {k : Kernel} {es : List Event} {c : Event × Kernel}
    (h : c ∈ execRun fuel k es) : c.1 ∈ es := by
  induction es generalizing k with
  | nil => exact absurd h List.not_mem_nil
  | cons e es ih =>
    rw [execRun] at h
    cases hx : e.exec fuel k with
    | none =>
      rw [hx] at h
      exact absurd h List.not_mem_nil
    | some t =>
      rw [hx] at h
      rcases List.mem_cons.mp h with rfl | h
      · exact List.mem_cons_self
      · exact List.mem_cons_of_mem e (ih h)

def spawnC : Event := .spawn ⟨0xD000, 0xE000, 0xF000, 0x10000⟩ 0x600 .user

def mainRun : List (Event × Kernel) := execRun 4 bootKernel [spawnA, spawnB, .tick, spawnC]

theorem isRun_mainRun : IsRun Step bootKernel mainRun := by
  have hrun : IsRun Step bootKernel (execRun 4 bootKernel [spawnA, spawnB, .tick]) :=
    isRun_execRun ⟨enabled_spawnA, enabled_spawnB, trivial, trivial⟩
  have hlist := (ringed_listOrder (l := []) booted_bootKernel.bootState.ringed hrun).list
  exact isRun_execRun ⟨enabled_spawnA, enabled_spawnB, trivial,
    unused_of_list hlist (by decide) (by decide), trivial⟩

def firstTurnsRun : List (Event × Kernel) :=
  execRun 4 (last bootKernel mainRun) [.enableScheduler, .schedule, .tick, .schedule, .schedule,
    .schedule]

/-! ## The theorems -/

theorem Booted.spawning {k : Kernel} (h : Booted k) : Spawning k [] :=
  ⟨h.bootState.ringed, h.booting, by simp⟩

/-- **The order of the list.** Whatever happens, `schedule` goes around the processes in the order
first, last, ..., second of their spawning. -/
theorem list_order {k : Kernel} (hk : Booted k) {r : List (Event × Kernel)}
    (hrun : IsRun Step k r) : ProcList (last k r) (listOrder (spawned k r)) :=
  (ringed_listOrder (l := []) hk.bootState.ringed hrun).list

theorem list_order_three : ProcList (last bootKernel mainRun) [0x5000, 0xD000, 0x9000] :=
  list_order booted_bootKernel isRun_mainRun

/-- **The first turns.** No interrupt takes the processor from `main` while it spawns; afterwards
the processes get their first turns in the order of the list, whatever those do that have had
theirs. -/
theorem boot_turns {k : Kernel} (hk : Booted k) {r : List (Event × Kernel)}
    (hrun : IsRun Step k r) (hboot : ∀ c ∈ r, c.1.Boots) {r' : List (Event × Kernel)}
    (hrun' : IsRun Step (last k r) r') (hr' : NoSpawn r') :
    let order := listOrder (spawned k r)
    let turns := (calls (last k r) r').map fun c ↦ c.2.cur
    Always Kernel.Booting k r ∧ turns.take order.length = order.take turns.length := by
  intro order turns
  obtain ⟨halways, hlast⟩ := hk.spawning.run hrun hboot
  refine ⟨halways, ?_⟩
  rw [List.length_map]
  exact hlast.firstTurns.run hrun' hr'

theorem boot_turns_three : Always Kernel.Booting bootKernel mainRun ∧
    ((calls (last bootKernel mainRun) firstTurnsRun).map fun c ↦ c.2.cur).take 3 =
      [0x5000, 0xD000, 0x9000] := by
  have hboot : ∀ c ∈ mainRun, c.1.Boots := by
    intro c hc
    have hmem := fst_mem_of_mem_execRun hc
    simp only [List.mem_cons, List.not_mem_nil, or_false] at hmem
    rcases hmem with h | h | h | h <;> rw [h] <;> trivial
  have hr : NoSpawn firstTurnsRun := by
    rintro c hc a entry mode h
    have hmem := fst_mem_of_mem_execRun hc
    simp [h] at hmem
  exact boot_turns booted_bootKernel isRun_mainRun hboot
    (isRun_execRun ⟨trivial, trivial, trivial, trivial, trivial, trivial, trivial⟩) hr

end Ertos
