import Ertos.Arch.Board
import Mathlib.Tactic.FinCases

/-!
# Switching between processes

The board follows the abstract machine. What the kernel does to the registers of a process is read
off `ProcStep`: nothing outside of `schedule`, and there only what an alarm does. What the exception
entries do is in `armSvcEntry_spec`, `armIrqEntry_return`, `saved_scheduleCall` and
`armIrqEntry_switch`; here the two are put together, one lemma for each kind of step.
-/

namespace Ertos

open Arm Cpu Linked Transition

/-! ## What the kernel does to registers -/

theorem Ringed.has_iff {k : Kernel} {ring : List Ptr} (hk : Ringed k ring) {q : Ptr} :
    k.Has q ↔ q = k.idleTask ∨ q ∈ ring :=
  ⟨fun ⟨_, hlist, h⟩ ↦ hlist.unique hk.list ▸ h, fun h ↦ ⟨ring, hk.list, h⟩⟩

theorem Ringed.has_cur {k : Kernel} {ring : List Ptr} (hk : Ringed k ring) : k.Has k.cur :=
  hk.has_iff.mpr hk.cur

/-- Only `spawn` makes processes. -/
theorem Effect.has_iff {k t : Kernel} {ring ring' : List Ptr} {e : Event}
    (heff : Effect k ring e t ring') (hk : Ringed k ring)
    (hspawn : ∀ a entry mode, e ≠ .spawn a entry mode) {q : Ptr} : t.Has q ↔ k.Has q := by
  rw [heff.ringed.has_iff, heff.idleTask, hk.has_iff]
  refine ⟨fun hq ↦ hq.imp_right fun hmem ↦ ?_, fun hq ↦ hq.imp_right fun hmem ↦ heff.subset hmem⟩
  by_contra hnot
  obtain ⟨⟨a, entry, mode, he, -⟩, -⟩ := heff.new q hmem hnot
  exact hspawn a entry mode he

/-- Registers that two records have in common. -/
def Proc.SameRegs (x y : Proc) : Prop := y.regs = x.regs ∧ y.backupRegs = x.backupRegs

/-- Only a switch touches registers. -/
theorem ProcStep.sameRegs {k t : Kernel} {ring : List Ptr} {q : Ptr} {e : Event} {x : Proc}
    (h : ProcStep k ring t q e x) (hsched : e ≠ .schedule) (hstore : ∀ r, e ≠ .storeRegs r) :
    (k.proc q).SameRegs x := by
  cases h with
  | passed => exact absurd rfl hsched
  | selected => exact absurd rfl hsched
  | regs => exact absurd rfl (hstore _)
  | _ => exact ⟨rfl, rfl⟩

/-- Only a process itself sets its alarm. -/
theorem ProcStep.quiet {k t : Kernel} {ring : List Ptr} {q : Ptr} {e : Event} {x : Proc}
    (h : ProcStep k ring t q e x) (hsched : e ≠ .schedule)
    (halarm : ∀ a, e = .svc (.alarm a) → q ≠ k.cur) (hquiet : (k.proc q).Quiet) : x.Quiet := by
  cases h with
  | passed => exact absurd rfl hsched
  | selected => exact absurd rfl hsched
  | alarm hq => exact absurd hq (halarm _ rfl)
  | _ => exact hquiet

theorem sameRegs_checkSleep (clkticks : UInt32) (x : Proc) :
    x.SameRegs (checkSleep clkticks x) := by
  unfold checkSleep
  split_ifs <;> exact ⟨rfl, rfl⟩

theorem quiet_checkSleep {clkticks : UInt32} {x : Proc} (h : x.Quiet) :
    (checkSleep clkticks x).Quiet := by
  unfold checkSleep
  split_ifs <;> exact h

theorem quiet_requeued {k : Kernel} {q : Ptr} : (k.requeued q).Quiet ↔ (k.proc q).Quiet := by
  unfold Kernel.requeued
  split_ifs <;> exact Iff.rfl

theorem quiet_checkTimers {trampoline clkticks : UInt32} {x : Proc} (h : x.Quiet) :
    (checkTimers trampoline clkticks x).Quiet := by
  have hspec := checkTimers_spec trampoline clkticks x
  generalize checkTimers trampoline clkticks x = y at hspec
  cases hspec with
  | fire hnext => exact absurd (h.1 ▸ hnext) (by decide)
  | unwind hactive => simp [h.2] at hactive
  | check => exact quiet_checkSleep h

theorem Examined.quiet {k : Kernel} {ring : List Ptr} {q : Ptr} {x : Proc}
    (h : Examined k ring q x) (hquiet : (k.proc q).Quiet) : x.Quiet := by
  have hquiet := quiet_requeued.mpr hquiet
  cases h with
  | skipped => exact hquiet
  | checked => exact quiet_checkTimers hquiet

theorem sameRegs_requeued (k : Kernel) (q : Ptr) : (k.proc q).SameRegs (k.requeued q) := by
  unfold Kernel.requeued
  split_ifs <;> exact ⟨rfl, rfl⟩

theorem loadContext_handler (x : Proc) (trampoline clkticks : UInt32) :
    loadContext (handleTaskTimer trampoline clkticks x).regs =
      handlerContext (loadContext x.regs) trampoline x.timer.handler := by
  refine congrArg (Context.mk (x.regs 0) trampoline) (funext fun i ↦ ?_)
  fin_cases i <;> rfl

theorem turns_checkTimers (trampoline clkticks : UInt32) (x : Proc) :
    Turns (¬x.Quiet) (loadContext x.regs) (loadContext x.backupRegs)
      (loadContext (checkTimers trampoline clkticks x).regs)
      (loadContext (checkTimers trampoline clkticks x).backupRegs) := by
  have hspec := checkTimers_spec trampoline clkticks x
  generalize checkTimers trampoline clkticks x = y at hspec
  cases hspec with
  | fire hnext =>
    rw [loadContext_handler]
    exact .alarm (fun hquiet ↦ absurd (hquiet.1 ▸ hnext) (by decide)) trampoline x.timer.handler
  | unwind hactive =>
    obtain ⟨hregs, hbackup⟩ := sameRegs_checkSleep clkticks (handleTaskTimerDone x)
    rw [hregs, hbackup]
    exact .done fun hquiet ↦ by simp [hquiet.2] at hactive
  | check =>
    obtain ⟨hregs, hbackup⟩ := sameRegs_checkSleep clkticks x
    rw [hregs, hbackup]
    exact .kept

theorem Examined.turns {k : Kernel} {ring : List Ptr} {q : Ptr} {x : Proc}
    (h : Examined k ring q x) :
    Turns (¬(k.proc q).Quiet) (loadContext (k.proc q).regs) (loadContext (k.proc q).backupRegs)
      (loadContext x.regs) (loadContext x.backupRegs) := by
  obtain ⟨hregs, hbackup⟩ := sameRegs_requeued k q
  cases h with
  | skipped =>
    rw [hregs, hbackup]
    exact .kept
  | checked =>
    have hturns := turns_checkTimers k.trampoline k.clkticks (k.requeued q)
    rw [hregs, hbackup] at hturns
    exact hturns.imp (mt quiet_requeued.mpr)

/-! ## Storing the registers -/

section Store

variable {L : Layout} {k : Kernel} {ring : List Ptr} {m m' : Ram} {c : Context}

theorem proc_storeRegs (r : Regs) (q : Ptr) :
    ((k.storeRegs r).proc q).regs = if q = k.cur then r else (k.proc q).regs := by
  rw [Kernel.storeRegs, Kernel.proc_modify]
  split_ifs <;> rfl

theorem backup_storeRegs (r : Regs) (q : Ptr) :
    ((k.storeRegs r).proc q).backupRegs = (k.proc q).backupRegs := by
  rw [Kernel.storeRegs, Kernel.proc_modify]
  split_ifs <;> rfl

theorem quiet_storeRegs {r : Regs} {q : Ptr} :
    ((k.storeRegs r).proc q).Quiet ↔ (k.proc q).Quiet := by
  rw [Kernel.storeRegs, Kernel.proc_modify]
  split_ifs <;> exact Iff.rfl

theorem Shows.clear (h : Shows L m k) (hk : Ringed k ring) :
    Clear L.toSymbols L.irqTop (m L.cur) where
  cur_ne := L.cur_ne
  cur_stack := L.vars_stack _ (by simp)
  handler_stack := L.vars_stack _ (by simp)
  handler_regs := h.cur ▸ L.vars_slot _ (by simp) _ (h.slot _ hk.has_cur)

/-- Stores into the saved registers of the current process, and elsewhere only where the kernel does
not look. -/
theorem Shows.stored (h : Shows L m k) (hk : Ringed k ring) {r : Regs}
    (hregs : savedRegs m' (UInt32.ofNat k.cur) = r) (hcur : m' L.cur = m L.cur)
    (hflag : m' L.needReschedule = m L.needReschedule)
    (hslot : ∀ q, L.slot q → (∀ i < 17, ∀ j < 17,
      word (UInt32.ofNat q + 16) i ≠ word (UInt32.ofNat k.cur + 16) j) →
      ∀ i < 17, m' (word (UInt32.ofNat q + 16) i) = m (word (UInt32.ofNat q + 16) i)) :
    Shows L m' (k.storeRegs r) := by
  refine ⟨hcur.trans h.cur, hflag.trans h.flag, h.slot, fun q hq ↦ ?_⟩
  rw [proc_storeRegs]
  split_ifs with hqc
  · rw [hqc]
    exact hregs
  · -- another process: its registers are elsewhere
    rw [← h.regs q hq]
    funext i
    exact hslot q (h.slot q hq) (L.slots q _ (h.slot q hq) (h.slot _ hk.has_cur) hqc) i i.isLt

/-- What the interrupt entry saves is what the kernel sees in the current process. -/
theorem Shows.saved (h : Shows L m k) (hk : Ringed k ring)
    (hs : Saved L.toSymbols c L.irqTop m m') : Shows L m' (k.storeRegs (saveContext c)) := by
  obtain ⟨hregs, -, hother⟩ := hs
  rw [h.cur] at hregs hother
  have hslot := h.slot _ hk.has_cur
  refine h.stored hk hregs ?_ ?_ fun q hq hne i hi ↦ ?_
  · exact hother _ (L.vars_slot _ (by simp) _ hslot) L.cur_ne (L.vars_stack _ (by simp))
  · exact hother _ (L.vars_slot _ (by simp) _ hslot) L.need_ne (L.vars_stack _ (by simp))
  · exact hother _ (hne i hi) (L.vars_slot _ (by simp) q hq i hi).symm (L.slot_stack q hq i hi)

end Store

theorem ProcStep.turns {k t : Kernel} {ring : List Ptr} {q : Ptr} {x : Proc}
    (h : ProcStep k ring t q .schedule x) :
    Turns (¬(k.proc q).Quiet) (loadContext (k.proc q).regs) (loadContext (k.proc q).backupRegs)
      (loadContext x.regs) (loadContext x.backupRegs) := by
  cases h with
  | same hsched => exact absurd rfl hsched
  | passed hx => exact hx.turns
  | selected hx => exact hx.turns
  | wake he => simp [Event.Wakes] at he

theorem ProcStep.quiet_schedule {k t : Kernel} {ring : List Ptr} {q : Ptr} {x : Proc}
    (h : ProcStep k ring t q .schedule x) (hquiet : (k.proc q).Quiet) : x.Quiet := by
  cases h with
  | same hsched => exact absurd rfl hsched
  | passed hx => exact hx.quiet hquiet
  | selected hx => exact hx.quiet hquiet
  | wake he => simp [Event.Wakes] at he

theorem Ringed.storeRegs {k : Kernel} {ring : List Ptr} (hk : Ringed k ring) (r : Regs) :
    Ringed (k.storeRegs r) ring :=
  ⟨hk.list, hk.null_notMem, hk.idle_ne, hk.idle_notMem, hk.idle_next, hk.cur, hk.wait⟩

theorem Ringed.has_of_schedule {k k' : Kernel} {ring : List Ptr} (hk : Ringed k ring) {r : Regs}
    (hst : Step (k.storeRegs r) .schedule k') {q : Ptr} : k'.Has q ↔ k.Has q := by
  obtain ⟨ring', heff⟩ := step_effect (hk.storeRegs r) hst
  rw [heff.has_iff (hk.storeRegs r) (by simp), (hk.storeRegs r).has_iff, hk.has_iff]
  rfl

/-! ## The steps -/

section Step

variable {L : Layout} {m : Board} {v : Vcpus}

theorem Virtual.of_same (h : Virtual L m v) {k : Kernel} {ram : Ram} {c : Context}
    {alarmed : Ptr → Prop} (hk : ∃ ring, Ringed k ring) (hram : Shows L ram k)
    (hcur : k.cur = m.kernel.cur) (hhas : ∀ q, k.Has q ↔ m.kernel.Has q)
    (hregs : ∀ q, m.kernel.Has q → (m.kernel.proc q).SameRegs (k.proc q))
    (hquiet : ∀ q, m.kernel.Has q → ¬alarmed q → (k.proc q).Quiet) :
    Virtual L { m with ctx := c, ram := ram, kernel := k }
      { v with cpu := Function.update v.cpu v.cur c, alarmed := alarmed } where
  ringed := hk
  shows := hram
  irqSp := h.irqSp
  svcSp := h.svcSp
  has := fun q ↦ (h.has q).trans (hhas q).symm
  cur := h.cur.trans hcur.symm
  cpu := fun q hq ↦ by
    show Function.update v.cpu v.cur c q = if q = k.cur then c else loadContext (k.proc q).regs
    by_cases hqc : q = k.cur
    · rw [if_pos hqc, hqc, hcur, ← h.cur, Function.update_self]
    · have hne : q ≠ v.cur := by rwa [h.cur, ← hcur]
      rw [if_neg hqc, Function.update_of_ne hne, h.cpu q ((hhas q).mp hq), Board.vcpu,
        if_neg (hcur ▸ hqc), (hregs q ((hhas q).mp hq)).1]
  backup := fun q hq ↦ by
    rw [h.backup q ((hhas q).mp hq), (hregs q ((hhas q).mp hq)).2]
  quiet := fun q hq ↦ hquiet q ((hhas q).mp hq)

/-- What is stored for the current process nobody reads before it is stored again. -/
theorem Virtual.storeRegs (h : Virtual L m v) {r : Regs} {ram : Ram}
    (hram : Shows L ram (m.kernel.storeRegs r)) :
    Virtual L { m with ram := ram, kernel := m.kernel.storeRegs r } v where
  ringed := h.ringed.imp fun _ hk ↦ hk.storeRegs r
  shows := hram
  irqSp := h.irqSp
  svcSp := h.svcSp
  has := h.has
  cur := h.cur
  cpu := fun q hq ↦ by
    rw [h.cpu q hq, Board.vcpu, Board.vcpu]
    show _ = if q = m.kernel.cur then m.ctx else _
    split_ifs with hqc
    · rfl
    · rw [proc_storeRegs, if_neg hqc]
  backup := fun q hq ↦ (h.backup q hq).trans (congrArg loadContext (backup_storeRegs r q).symm)
  quiet := fun q hq hal ↦ quiet_storeRegs.mpr (h.quiet q hq hal)

theorem Virtual.cpu_cur (h : Virtual L m v) : v.cpu v.cur = m.ctx := by
  obtain ⟨ring, hk⟩ := h.ringed
  rw [h.cur, h.cpu _ hk.has_cur, Board.vcpu, if_pos rfl]

/-- Without a spawn or a switch the kernel leaves the processes alone. -/
theorem Ringed.same_of_step {k k' : Kernel} {ring : List Ptr} {e : Event} (hk : Ringed k ring)
    (hst : Step k e k') (hsched : e ≠ .schedule) (hstore : ∀ r, e ≠ .storeRegs r)
    (hspawn : ∀ a entry mode, e ≠ .spawn a entry mode) :
    (∃ ring', Ringed k' ring') ∧ k'.cur = k.cur ∧ (∀ q, k'.Has q ↔ k.Has q) ∧
      (∀ q, k.Has q → (k.proc q).SameRegs (k'.proc q)) ∧
      ∀ q, k.Has q → (∀ a, e = .svc (.alarm a) → q ≠ k.cur) → (k.proc q).Quiet →
        (k'.proc q).Quiet := by
  obtain ⟨ring', heff⟩ := step_effect hk hst
  refine ⟨⟨ring', heff.ringed⟩, heff.cur hsched, fun q ↦ heff.has_iff hk hspawn, fun q hq ↦ ?_,
    fun q hq ↦ ?_⟩
  · exact (heff.proc q (hk.has_iff.mp hq)).sameRegs hsched hstore
  · exact (heff.proc q (hk.has_iff.mp hq)).quiet hsched

theorem proc_spawn {k : Kernel} {a : SpawnAlloc} {entry : UInt32} {mode : ProcMode}
    (h : (Ertos.spawn k a entry mode).1 ≠ NULL) :
    (Ertos.spawn k a entry mode).2.proc a.proc = spawnedProc k a entry mode := by
  have hspec := doSpawn_spec k a entry mode
  rw [spawn_proc]
  cases hcall : doSpawn k a entry mode with
  | mk p t =>
  rw [hcall] at hspec
  cases hspec with
  | failed =>
    rw [spawn_eq hcall, if_pos rfl] at h
    exact absurd rfl h
  | ok _ _ _ hnew => exact hnew

/-- **A spawn.** The new process starts in the context of its entry. -/
theorem Virtual.spawn (h : Virtual L m v) {a : SpawnAlloc} {entry : UInt32} {mode : ProcMode}
    {k : Kernel} {ram : Ram} {c : Context} (hst : Step m.kernel (.spawn a entry mode) k)
    (hram : Shows L ram k) :
    Virtual L { m with ctx := c, ram := ram, kernel := k }
      { v with
        has := fun q ↦ v.has q ∨ (Ertos.spawn m.kernel a entry mode).1 ≠ NULL ∧ q = a.proc
        cpu := Function.update (Function.update v.cpu a.proc (spawnContext a entry mode)) v.cur c
        backup := Function.update v.backup a.proc (loadContext fun _ ↦ 0)
        alarmed := fun q ↦ q ≠ a.proc ∧ v.alarmed q } := by
  obtain ⟨ring, hk⟩ := h.ringed
  cases hst with
  | spawn ha =>
  obtain ⟨ring', heff, hperm⟩ := effect_spawn hk ha entry mode
  set k := (Ertos.spawn m.kernel a entry mode).2 with hkdef
  have hcur : k.cur = m.kernel.cur := heff.cur (by simp)
  -- a process of `k` is an old one, or the new one
  have hold : ∀ q, m.kernel.Has q → q ≠ a.proc ∧ (m.kernel.proc q).SameRegs (k.proc q) ∧
      ((m.kernel.proc q).Quiet → (k.proc q).Quiet) := by
    intro q hq
    have hmem := hk.has_iff.mp hq
    have hstep := heff.proc q hmem
    refine ⟨?_, hstep.sameRegs (by simp) (by simp), hstep.quiet (by simp) (by simp)⟩
    rintro rfl
    exact hmem.elim ha.1 (ha.2 ring hk.list)
  have hhas : ∀ q, k.Has q ↔
      m.kernel.Has q ∨ (Ertos.spawn m.kernel a entry mode).1 ≠ NULL ∧ q = a.proc := by
    intro q
    rw [heff.ringed.has_iff, heff.idleTask, hk.has_iff, hperm.mem_iff]
    split_ifs with hnull
    · simp [hnull]
    · simp [hnull, or_comm, or_left_comm]
  have hcases : ∀ q, k.Has q → m.kernel.Has q ∨
      q = a.proc ∧ k.proc q = spawnedProc m.kernel a entry mode := by
    intro q hq
    refine ((hhas q).mp hq).imp_right ?_
    rintro ⟨hnull, rfl⟩
    exact ⟨rfl, proc_spawn hnull⟩
  have hne : m.kernel.cur ≠ a.proc := (hold _ hk.has_cur).1
  refine ⟨⟨⟨ring', heff.ringed⟩, hram, h.irqSp, h.svcSp⟩, fun q ↦ ?_, h.cur.trans hcur.symm,
    fun q hq ↦ ?_, fun q hq ↦ ?_, fun q hq halarmed ↦ ?_⟩
  · show v.has q ∨ _ ↔ _
    rw [h.has, hhas]
  · show Function.update (Function.update v.cpu a.proc (spawnContext a entry mode)) v.cur c q =
      if q = k.cur then c else loadContext (k.proc q).regs
    by_cases hqc : q = k.cur
    · rw [if_pos hqc, hqc, hcur, ← h.cur, Function.update_self]
    · have hqv : q ≠ v.cur := by rwa [h.cur, ← hcur]
      rw [if_neg hqc, Function.update_of_ne hqv]
      rcases hcases q hq with hq | ⟨rfl, hnew⟩
      · obtain ⟨hqa, hregs, -⟩ := hold q hq
        rw [Function.update_of_ne hqa, h.cpu q hq, Board.vcpu, if_neg (hcur ▸ hqc), hregs.1]
      · rw [Function.update_self, hnew]
        rfl
  · show Function.update v.backup a.proc (loadContext fun _ ↦ 0) q = _
    rcases hcases q hq with hq | ⟨rfl, hnew⟩
    · obtain ⟨hqa, hregs, -⟩ := hold q hq
      rw [Function.update_of_ne hqa, h.backup q hq, hregs.2]
    · rw [Function.update_self, hnew]
      rfl
  · rcases hcases q hq with hq | ⟨rfl, hnew⟩
    · obtain ⟨hqa, -, hquiet⟩ := hold q hq
      exact hquiet (h.quiet q hq fun hal ↦ halarmed ⟨hqa, hal⟩)
    · rw [hnew]
      exact ⟨rfl, rfl⟩

theorem Virtual.svc (h : Virtual L m v) {c : Syscall} {m' : Board}
    (hst : BoardStep L m (.svc c) m') : ∃ v', VcpuStep v (.svc c) v' ∧ Virtual L m' v' := by
  obtain ⟨ring, hk⟩ := h.ringed
  have hroom : 32 ≤ m.svcSp.toNat := by
    rw [h.svcSp]
    exact L.svc_room
  have htop : m.svcSp ≤ L.svcTop := by
    rw [h.svcSp]
    exact UInt32.le_refl _
  have hself := h.cpu_cur
  cases hst with
  | svc hs hmade hst hcall hr =>
  obtain ⟨hringed, hcur, hhas, hregs, hquiet⟩ := hk.same_of_step hst (by simp) (by simp) (by simp)
  obtain ⟨h0, h1⟩ := svcCall_args hroom hs
  obtain ⟨hctx, hsp, hret⟩ := armSvcEntry_spec hroom htop hs hcall.keeps
  rw [h0, h1, ← hself] at hmade
  refine ⟨_, .svc hmade, ?_⟩
  rw [hr, hctx, hsp, hret, hself]
  refine h.of_same hringed hcall.shows hcur hhas hregs fun q hq hal ↦ ?_
  rw [not_or] at hal
  refine hquiet q hq (fun a ha hqc ↦ ?_) (h.quiet q hq hal.1)
  rw [Event.svc.injEq] at ha
  exact hal.2 ⟨hqc.trans h.cur.symm, a, ha⟩

open Classical in
/-- **A switch.** The kernel `k` is the one that asked for it. -/
theorem Virtual.switch (h : Virtual L m v) {k k' : Kernel} {ring : List Ptr}
    (hk : Ringed k ring) (hcur : k.cur = m.kernel.cur) (hhas : ∀ q, k.Has q ↔ m.kernel.Has q)
    (hregs : ∀ q, m.kernel.Has q → (m.kernel.proc q).SameRegs (k.proc q))
    (hquiet : ∀ q, m.kernel.Has q → (m.kernel.proc q).Quiet → (k.proc q).Quiet) {ram : Ram}
    (hst : Step (k.storeRegs (saveContext m.ctx)) .schedule k') (hram : Shows L ram k')
    (e : Event) : ∃ v', VcpuStep v (.irq e) v' ∧
      Virtual L ⟨loadContext (savedRegs ram (ram L.cur)), m.irqSp, m.svcSp, ram, k'⟩ v' := by
  obtain ⟨ring', heff⟩ := step_effect (hk.storeRegs (saveContext m.ctx)) hst
  have hhas' : ∀ q, k'.Has q ↔ m.kernel.Has q := fun q ↦
    (hk.has_of_schedule hst).trans (hhas q)
  set u := k.storeRegs (saveContext m.ctx) with hu
  have hquietu : ∀ q, m.kernel.Has q → ¬v.alarmed q → (u.proc q).Quiet := fun q hq hal ↦
    quiet_storeRegs.mpr (hquiet q hq (h.quiet q hq hal))
  have hturns : ∀ q, m.kernel.Has q → Turns (v.alarmed q) (v.cpu q) (v.backup q)
      (loadContext (k'.proc q).regs) (loadContext (k'.proc q).backupRegs) := by
    intro q hq
    obtain ⟨hr, hb⟩ := hregs q hq
    have hcpu : loadContext (u.proc q).regs = v.cpu q := by
      rw [hu, proc_storeRegs, h.cpu q hq, Board.vcpu, hcur]
      split_ifs
      · exact loadContext_saveContext m.ctx
      · rw [hr]
    have hbackup : loadContext (u.proc q).backupRegs = v.backup q := by
      rw [hu, backup_storeRegs, h.backup q hq, hb]
    rw [← hcpu, ← hbackup]
    refine (heff.proc q (hk.has_iff.mp ((hhas q).mpr hq))).turns.imp fun hnot ↦ ?_
    by_contra hal
    exact hnot (hquietu q hq hal)
  have hctx : ∀ q, k'.Has q → Board.vcpu ⟨loadContext (savedRegs ram (ram L.cur)), m.irqSp, m.svcSp,
      ram, k'⟩ q = loadContext (k'.proc q).regs := by
    intro q hq
    rw [Board.vcpu]
    split_ifs with hqc
    · rw [hram.cur, ← hqc, hram.regs q hq]
    · rfl
  refine ⟨⟨v.has, k'.cur, fun q ↦ if m.kernel.Has q then loadContext (k'.proc q).regs else v.cpu q,
    fun q ↦ if m.kernel.Has q then loadContext (k'.proc q).backupRegs else v.backup q, v.alarmed⟩,
    .irq rfl rfl fun q ↦ ?_, ⟨⟨ring', heff.ringed⟩, hram, h.irqSp, h.svcSp⟩,
    fun q ↦ (h.has q).trans (hhas' q).symm, rfl, fun q hq ↦ ?_, fun q hq ↦ ?_, fun q hq hal ↦ ?_⟩
  · by_cases hq : m.kernel.Has q
    · simp only [if_pos hq]
      exact hturns q hq
    · simp only [if_neg hq]
      exact .kept
  · rw [hctx q hq]
    exact if_pos ((hhas' q).mp hq)
  · exact if_pos ((hhas' q).mp hq)
  · have hq' := (hhas' q).mp hq
    exact (heff.proc q (hk.has_iff.mp ((hhas q).mpr hq'))).quiet_schedule (hquietu q hq' hal)

theorem Virtual.irq (h : Virtual L m v) {e : Event} {m' : Board}
    (hst : BoardStep L m (.irq e) m') : ∃ v', VcpuStep v (.irq e) v' ∧ Virtual L m' v' := by
  obtain ⟨ring, hk⟩ := h.ringed
  have hroom : 24 ≤ m.irqSp.toNat := by
    rw [h.irqSp]
    exact L.irq_room
  have htop : m.irqSp ≤ L.irqTop := by
    rw [h.irqSp]
    exact UInt32.le_refl _
  cases hst with
  | irq he hs hst hcall hno ht hsched hr =>
  rename_i k k' cIrq schedule s t r
  obtain ⟨⟨ring', hk'⟩, hcur, hhas, hregs, hquiet⟩ :=
    hk.same_of_step hst (by rintro rfl; exact he) (by rintro r rfl; exact he)
      (by rintro a entry mode rfl; exact he)
  have hquiet' : ∀ q, m.kernel.Has q → (m.kernel.proc q).Quiet → (k.proc q).Quiet :=
    fun q hq ↦ hquiet q hq (by rintro a rfl; exact he.elim)
  have hflag := hcall.shows.flag
  cases hneed : k.needReschedule with
  | true =>
    have hne : (cIrq s).ram L.needReschedule ≠ 0 := by
      rw [hflag, hneed]
      decide
    obtain ⟨hctx, hsp, hret⟩ := armIrqEntry_switch schedule hs hne ht
    have hclear := hcall.shows.clear hk'
    rw [← h.irqSp] at hclear
    obtain ⟨hsaved, -⟩ := saved_scheduleCall hroom htop hs hcall.keeps hclear
    rw [← ht, h.irqSp] at hsaved
    obtain ⟨hstep, hreturn⟩ := hsched hneed (saveContext m.ctx) (hcall.shows.saved hk' hsaved)
    have hsp' : r.2.sp = m.irqSp := by
      rw [hr, hsp, hreturn.handler, hsaved.handler, h.irqSp]
    rw [hr] at hsp' ⊢
    rw [hctx, hsp', hret]
    exact h.switch hk' hcur hhas hregs hquiet' hstep hreturn.shows e
  | false =>
    have heq : (cIrq s).ram L.needReschedule = 0 := by
      rw [hflag, hneed]
      rfl
    obtain ⟨hctx, hsp, hret⟩ := armIrqEntry_return schedule hroom htop hs hcall.keeps heq
    refine ⟨v, .irq rfl rfl fun _ ↦ .kept, ?_⟩
    rw [hr, hctx, hsp, hret, hno hneed]
    have hsame := h.of_same (c := m.ctx) ⟨ring', hk'⟩ hcall.shows hcur hhas hregs
      fun q hq hal ↦ hquiet' q hq (h.quiet q hq hal)
    have hself : Function.update v.cpu v.cur m.ctx = v.cpu := by
      rw [← h.cpu_cur, Function.update_eq_self]
    rwa [hself] at hsame

theorem Virtual.call (h : Virtual L m v) {e : Event} {c : Context} {m' : Board}
    (hst : BoardStep L m (.call e c) m') : ∃ v', VcpuStep v (.call e c) v' ∧ Virtual L m' v' := by
  obtain ⟨ring, hk⟩ := h.ringed
  cases hst with
  | call he hst hram =>
  by_cases hspawn : ∃ a entry mode, e = .spawn a entry mode
  · obtain ⟨a, entry, mode, rfl⟩ := hspawn
    have ha : ¬v.has a.proc := by
      rw [h.has, hk.has_iff]
      cases hst with
      | spawn ha => exact fun hmem ↦ hmem.elim ha.1 (ha.2 ring hk.list)
    exact ⟨_, .spawn ha _, h.spawn hst hram⟩
  · have hspawn : ∀ a entry mode, e ≠ .spawn a entry mode :=
      fun a entry mode he ↦ hspawn ⟨a, entry, mode, he⟩
    obtain ⟨hringed, hcur, hhas, hregs, hquiet⟩ := hk.same_of_step hst (by rintro rfl; exact he)
      (by rintro r rfl; exact he) hspawn
    exact ⟨_, .call hspawn, h.of_same hringed hram hcur hhas hregs
      fun q hq hal ↦ hquiet q hq (by rintro a rfl; exact he.elim) (h.quiet q hq hal)⟩

theorem Virtual.exec (h : Virtual L m v) {c : Context} {m' : Board}
    (hst : BoardStep L m (.exec c) m') : ∃ v', VcpuStep v (.exec c) v' ∧ Virtual L m' v' := by
  cases hst with
  | exec hram =>
    exact ⟨_, .exec, h.of_same h.ringed hram rfl (fun _ ↦ Iff.rfl) (fun _ _ ↦ ⟨rfl, rfl⟩) h.quiet⟩

end Step

theorem board_simulation (L : Layout) : Simulation (BoardStep L) VcpuStep (Virtual L) := by
  intro m v e m' h hst
  cases e with
  | exec c => exact h.exec hst
  | call e c => exact h.call hst
  | svc s => exact h.svc hst
  | irq e => exact h.irq hst

/-! ## A board with two processes -/

/-- Two processes, the idle task among them. -/
def twoLayout : Layout where
  cur := 0x100
  needReschedule := 0x104
  handlerIrqstack := 0x10000
  armIrqEntry := 0x40000
  armSvcEntry := 0x40100
  slot := fun p ↦ p = 0x1000 ∨ p = 0x5000
  irqTop := 0x20000
  svcTop := 0x30000
  irq_room := by decide
  svc_room := by decide
  cur_ne := by decide
  need_ne := by decide
  slots := by
    rintro p q (rfl | rfl) (rfl | rfl) hpq
    · exact absurd rfl hpq
    · decide +kernel
    · decide +kernel
    · exact absurd rfl hpq
  slot_stack := by
    rintro p (rfl | rfl) <;> decide +kernel
  -- case by case: `decide` on the list would go through all words
  vars_slot := by
    rintro a ha p hp
    simp only [List.mem_cons, List.not_mem_nil, or_false] at ha
    rcases ha with rfl | rfl | rfl <;> rcases hp with rfl | rfl <;> decide +kernel
  vars_stack := by
    rintro a ha
    simp only [List.mem_cons, List.not_mem_nil, or_false] at ha
    rcases ha with rfl | rfl | rfl <;> decide +kernel

/-- The kernel's part of memory. -/
def image (k : Kernel) : Ram := fun b ↦
  if b = 0x100 then UInt32.ofNat k.cur
  else if b = 0x104 then if k.needReschedule then 1 else 0
  else if b < 0x5000 then (k.proc 0x1000).regs (Fin.ofNat 17 ((b - 0x1010) / 4).toNat)
  else (k.proc 0x5000).regs (Fin.ofNat 17 ((b - 0x5010) / 4).toNat)

def overlay (k : Kernel) (m : Ram) : Ram := fun b ↦ if b < 0x10000 then image k b else m b

theorem shows_overlay {k : Kernel} (hk : ∀ q, k.Has q → q = 0x1000 ∨ q = 0x5000) (m : Ram) :
    Shows twoLayout (overlay k m) k where
  cur := rfl
  flag := rfl
  slot := hk
  regs := fun q hq ↦ by
    funext i
    rcases hk q hq with rfl | rfl
    · fin_cases i <;> rfl
    · fin_cases i <;> rfl

/-- A function that leaves the kernel `k`. -/
def leaves (k : Kernel) (s : Cpu) : Cpu := { s with ram := overlay k s.ram }

theorem called_leaves {k : Kernel} (hk : ∀ q, k.Has q → q = 0x1000 ∨ q = 0x5000) {s : Cpu}
    (hs : 0x10000 ≤ s.sp) (top : UInt32) : Called twoLayout top s (leaves k s) k where
  keeps := ⟨fun _ _ ↦ rfl, rfl, rfl, rfl, fun _ hb _ ↦
    if_neg (UInt32.not_lt.mpr (UInt32.le_trans hs hb))⟩
  handler := rfl
  shows := shows_overlay hk s.ram

/-- The board behind an interrupt whose handler leaves `k`, and after which `schedule` leaves
`k'`. -/
def Board.switched (m : Board) (k k' : Kernel) : Board :=
  let r := armIrqEntry twoLayout.toSymbols (leaves k) (leaves k') (enter m.ctx m.irqSp m.ram)
  ⟨r.1, r.2.sp, m.svcSp, r.2.ram, k'⟩

/-- The board behind a system call that leaves `k`. -/
def Board.returned (m : Board) (k : Kernel) : Board :=
  let r := armSvcEntry twoLayout.toSymbols (leaves k) (enter m.ctx m.svcSp m.ram)
  ⟨r.1, m.irqSp, r.2.sp, r.2.ram, k⟩

section TwoProcesses

variable {m : Board} {e : Event} {k k' : Kernel} {fuel : ℕ}

theorem le_sp_irqCall (c : Context) (ram : Ram) :
    0x10000 ≤ (irqCall twoLayout.toSymbols (enter c 0x20000 ram)).sp := by
  rw [(keeps_irqCall twoLayout.irqTop).sp]
  show (0x10000 : UInt32) ≤ 0x20000 - 24
  decide

theorem le_sp_svcCall (c : Context) (ram : Ram) :
    0x10000 ≤ (svcCall twoLayout.toSymbols (enter c 0x30000 ram)).sp := by
  rw [(keeps_svcCall twoLayout.svcTop _).sp]
  show (0x10000 : UInt32) ≤ 0x30000 - 24 - 8
  decide

/-- The registers that `schedule` finds are those of the interrupted process. -/
theorem Board.Ready.irq_called (hm : m.Ready twoLayout) (he : e.Handled)
    (hst : Step m.kernel e k) :
    (∃ ring, Ringed k ring) ∧ (∀ q, k.Has q → twoLayout.slot q) ∧
      Called twoLayout 0x20000 (irqCall twoLayout.toSymbols (enter m.ctx m.irqSp m.ram))
        (leaves k (irqCall twoLayout.toSymbols (enter m.ctx m.irqSp m.ram))) k ∧
      0x10000 ≤ (scheduleCall twoLayout.toSymbols (leaves k) (enter m.ctx m.irqSp m.ram)).sp ∧
      ∀ regs, Shows twoLayout
        (scheduleCall twoLayout.toSymbols (leaves k) (enter m.ctx m.irqSp m.ram)).ram
        (k.storeRegs regs) → regs = saveContext m.ctx := by
  obtain ⟨ring, hk⟩ := hm.ringed
  obtain ⟨⟨ring', hk'⟩, -, hhas, -, -⟩ := hk.same_of_step hst (by rintro rfl; exact he)
    (by rintro r rfl; exact he) (by rintro a entry mode rfl; exact he)
  have hslot : ∀ q, k.Has q → twoLayout.slot q := fun q hq ↦ hm.shows.slot q ((hhas q).mp hq)
  have hsp : m.irqSp = 0x20000 := hm.irqSp
  have hcall : Called twoLayout 0x20000
      (irqCall twoLayout.toSymbols (enter m.ctx m.irqSp m.ram))
      (leaves k (irqCall twoLayout.toSymbols (enter m.ctx m.irqSp m.ram))) k :=
    called_leaves hslot (hsp ▸ le_sp_irqCall _ _) _
  have hroom : 24 ≤ m.irqSp.toNat := by
    rw [hsp]
    decide
  have hclear := hcall.shows.clear hk'
  rw [show twoLayout.irqTop = m.irqSp from hsp.symm] at hclear
  obtain ⟨hsaved, hspSched⟩ :=
    saved_scheduleCall hroom (UInt32.le_of_eq hsp) rfl hcall.keeps hclear
  refine ⟨⟨ring', hk'⟩, hslot, hcall, ?_, fun regs hshows ↦ ?_⟩
  · rw [hspSched, hsp]
    decide
  · have hregs := hshows.regs k.cur (hk'.storeRegs regs).has_cur
    rw [proc_storeRegs, if_pos rfl, ← hcall.shows.cur] at hregs
    exact hregs.symm.trans hsaved.regs

theorem Board.Ready.irq_switched (hm : m.Ready twoLayout) (he : e.Handled)
    (hst : Step m.kernel e k) (hneed : k.needReschedule = true)
    (hsched : schedule fuel (k.storeRegs (saveContext m.ctx)) = some k') :
    BoardStep twoLayout m (.irq e) (m.switched k k') ∧
      (m.switched k k').ctx = loadContext (k'.proc k'.cur).regs := by
  obtain ⟨⟨ring, hk⟩, hslot, hcall, hsp, hsaved⟩ := hm.irq_called he hst
  have hstep : Step (k.storeRegs (saveContext m.ctx)) .schedule k' := .schedule hsched
  have hcalled : Called twoLayout 0x20000 _ (leaves k' _) k' :=
    called_leaves (fun q hq ↦ hslot q ((hk.has_of_schedule hstep).mp hq)) hsp _
  constructor
  · refine .irq (k := k) he rfl hst hcall (fun h ↦ absurd (hneed.symm.trans h) (by decide)) rfl
      (fun _ regs hshows ↦ ?_) rfl
    obtain rfl := hsaved regs hshows
    exact ⟨hstep, hcalled⟩
  · have hflag := hcall.shows.flag
    rw [hneed] at hflag
    have hne : (leaves k (irqCall twoLayout.toSymbols (enter m.ctx m.irqSp m.ram))).ram
        twoLayout.needReschedule ≠ 0 := by
      rw [hflag]
      decide
    obtain ⟨ring', heff⟩ := step_effect (hk.storeRegs _) hstep
    obtain ⟨hctx, -, -⟩ := armIrqEntry_switch (leaves k') rfl hne rfl
    rw [hcalled.shows.cur, hcalled.shows.regs _ heff.ringed.has_cur] at hctx
    exact hctx

theorem Board.Ready.svc_returned (hm : m.Ready twoLayout) {c : Syscall}
    (hmade : c.Made (m.ctx.usr 0) (m.ctx.usr 1)) (hst : Step m.kernel (.svc c) k) :
    BoardStep twoLayout m (.svc c) (m.returned k) := by
  obtain ⟨ring, hk⟩ := hm.ringed
  obtain ⟨-, -, hhas, -, -⟩ := hk.same_of_step hst (by simp) (by simp) (by simp)
  have hsp : m.svcSp = 0x30000 := hm.svcSp
  have hroom : 32 ≤ m.svcSp.toNat := by
    rw [hsp]
    decide
  set s := svcCall twoLayout.toSymbols (enter m.ctx m.svcSp m.ram) with hs
  obtain ⟨h0, h1⟩ := svcCall_args hroom hs
  refine .svc rfl ?_ hst (called_leaves (fun q hq ↦ hm.shows.slot q ((hhas q).mp hq)) ?_ _) rfl
  · rwa [h0, h1]
  · rw [hsp]
    exact le_sp_svcCall _ _

end TwoProcesses

def switchKernel : Kernel := last bootKernel (execRun 4 bootKernel [spawnA, .enableScheduler])

/-- What the idle task is interrupted in. -/
def idleContext : Context := ⟨0x1F, 0x304, fun r ↦ UInt32.ofNat r⟩

def switchBoard : Board where
  ctx := idleContext
  irqSp := 0x20000
  svcSp := 0x30000
  ram := overlay switchKernel fun _ ↦ 0
  kernel := switchKernel

theorem ringed_switchKernel : Ringed switchKernel [0x5000] := by
  have hrun : IsRun Step bootKernel (execRun 4 bootKernel [spawnA, .enableScheduler]) :=
    isRun_execRun ⟨enabled_spawnA, trivial, trivial⟩
  obtain ⟨ring, hring⟩ := (always_ringed booted_bootKernel hrun).last
  have hlist : ProcList switchKernel [0x5000] := Or.inr ⟨by decide, Cycle.singleton rfl⟩
  exact hring.list.unique hlist ▸ hring

theorem has_of_list {k : Kernel} (hidle : k.idleTask = 0x1000) (hlist : ProcList k [0x5000]) :
    ∀ q, k.Has q → q = 0x1000 ∨ q = 0x5000 := by
  rintro q ⟨ring, hring, hq⟩
  rw [hring.unique hlist, hidle] at hq
  exact hq.imp_right List.mem_singleton.mp

theorem ready_switchBoard : switchBoard.Ready twoLayout where
  ringed := ⟨_, ringed_switchKernel⟩
  shows := shows_overlay (has_of_list rfl ringed_switchKernel.list) _
  irqSp := rfl
  svcSp := rfl

/-- The kernel after events. -/
def after (k : Kernel) (es : List Event) : Kernel := last k (execRun 4 k es)

/-- A tick that switches. -/
def Board.ticked (m : Board) : Board :=
  let k := after m.kernel [.tick]
  m.switched k (after k [.storeRegs (saveContext m.ctx), .schedule])

/-- The task is about to sleep for five ticks. -/
def sleepContext : Context := ⟨0x10, 0x500, fun r ↦ if r = 0 then 2 else 5⟩

def Board.slept (m : Board) : Board := m.returned (after m.kernel [.svc (.sleep 5)])

/-- The tick gives the processor to the task. -/
def taskBoard : Board := switchBoard.ticked

theorem tick_switchBoard : BoardStep twoLayout switchBoard (.irq .tick) taskBoard := by
  have hsched : schedule 4 ((after switchKernel [.tick]).storeRegs (saveContext idleContext)) =
    some taskBoard.kernel := rfl
  exact (ready_switchBoard.irq_switched (e := .tick) trivial (.tick rfl) rfl hsched).1

/-! ## The theorems -/

/-- The abstract machine that a board stands for. -/
def Board.vcpus (m : Board) : Vcpus where
  has := m.kernel.Has
  cur := m.kernel.cur
  cpu := m.vcpu
  backup := fun q ↦ loadContext (m.kernel.proc q).backupRegs
  alarmed := fun q ↦ ¬(m.kernel.proc q).Quiet

theorem Board.Ready.virtual {L : Layout} {m : Board} (h : m.Ready L) : Virtual L m m.vcpus :=
  ⟨h, fun _ ↦ Iff.rfl, rfl, fun _ _ ↦ rfl, fun _ _ ↦ rfl, fun _ _ ↦ not_not.mp⟩

theorem Board.Ready.step {L : Layout} {m m' : Board} (h : m.Ready L) {e : BoardEvent}
    (hst : BoardStep L m e m') : m'.Ready L := by
  obtain ⟨v', -, hv⟩ := board_simulation L m m.vcpus e m' h.virtual hst
  exact hv.toReady

/-- **Every process has a processor of its own.** Whatever the interrupts and the system calls, the
contexts of the processes are those of the abstract machine after the same events. -/
theorem vcpus_follow {L : Layout} {m : Board} (h : m.Ready L) {r : List (BoardEvent × Board)}
    (hrun : IsRun (BoardStep L) m r) :
    ∃ r', IsRun VcpuStep m.vcpus r' ∧ Follows (Virtual L) m r m.vcpus r' :=
  (board_simulation L).follows h.virtual hrun

/-- The tick gives the processor to the task, which starts at its entry. -/
theorem vcpus_follow_tick : ∃ r', IsRun VcpuStep switchBoard.vcpus r' ∧
    Follows (Virtual twoLayout) switchBoard [(BoardEvent.irq .tick, taskBoard)]
      switchBoard.vcpus r' :=
  vcpus_follow ready_switchBoard ⟨tick_switchBoard, trivial⟩

/-- While it is current, `q` is only interrupted. -/
def OnlyInterrupted (q : Ptr) (m : Board) (e : BoardEvent) : Prop :=
  m.kernel.cur = q → ∃ i, e = .irq i

theorem VcpuStep.untouched {v v' : Vcpus} {e : BoardEvent} {q : Ptr} (h : VcpuStep v e v')
    (hq : v.has q) (hal : ¬v.alarmed q) (hint : v.cur = q → ∃ i, e = .irq i) :
    v'.has q ∧ ¬v'.alarmed q ∧ v'.cpu q = v.cpu q := by
  have hcur : (∀ i, e ≠ .irq i) → q ≠ v.cur := by
    rintro he rfl
    obtain ⟨i, rfl⟩ := hint rfl
    exact he i rfl
  cases h with
  | exec => exact ⟨hq, hal, Function.update_of_ne (hcur (by simp)) _ _⟩
  | @spawn a entry mode c ha ok =>
    have hqa : q ≠ a.proc := by
      rintro rfl
      exact ha hq
    refine ⟨Or.inl hq, fun h ↦ hal h.2, ?_⟩
    exact (Function.update_of_ne (hcur (by simp)) _ _).trans (Function.update_of_ne hqa _ _)
  | call => exact ⟨hq, hal, Function.update_of_ne (hcur (by simp)) _ _⟩
  | svc =>
    have hne := hcur (by simp)
    exact ⟨hq, fun h ↦ h.elim hal fun h ↦ hne h.1, Function.update_of_ne hne _ _⟩
  | irq hhas halarmed hturns =>
    refine ⟨hhas ▸ hq, halarmed ▸ hal, ?_⟩
    have hturns := hturns q
    generalize v'.cpu q = c, v'.backup q = b at hturns
    cases hturns with
    | kept => rfl
    | alarm h => exact absurd h hal
    | done h => exact absurd h hal

/-- **A preempted process continues where it was interrupted.** A process that has no alarm, and of
which nothing is executed but interrupts, has the same context throughout: whenever it is current,
it is the one in the processor. -/
theorem preempted_resumes {L : Layout} {m : Board} (h : m.Ready L) {q : Ptr} (hq : m.kernel.Has q)
    (hquiet : (m.kernel.proc q).Quiet) {r : List (BoardEvent × Board)}
    (hrun : IsRun (BoardStep L) m r) (hint : Guarded (OnlyInterrupted q) m r) :
    Always (fun t ↦ t.kernel.cur = q → t.ctx = m.vcpu q) m r := by
  set I : Board → Prop := fun t ↦ ∃ v, Virtual L t v ∧ v.has q ∧ ¬v.alarmed q ∧ v.cpu q = m.vcpu q
  have hstep : ∀ s e t, I s → OnlyInterrupted q s e → BoardStep L s e t → I t := by
    rintro s e t ⟨v, hv, hhas, hal, hcpu⟩ hint hst
    obtain ⟨v', hv', ht⟩ := board_simulation L s v e t hv hst
    obtain ⟨hhas', hal', hcpu'⟩ := hv'.untouched hhas hal fun h ↦ hint (hv.cur ▸ h)
    exact ⟨v', ht, hhas', hal', hcpu'.trans hcpu⟩
  have hI : I m := ⟨m.vcpus, h.virtual, hq, not_not.mpr hquiet, rfl⟩
  refine (always_of_guarded hstep hI hrun hint).imp ?_
  rintro t ⟨v, hv, -, -, hcpu⟩ rfl
  rw [← hcpu, ← hv.cur]
  exact hv.cpu_cur.symm

/-- The task makes its call. -/
def callBoard : Board := { taskBoard with ctx := sleepContext }

/-- The idle task is interrupted, and goes on when the task sleeps. -/
def resumeRun : List (BoardEvent × Board) :=
  [(.irq .tick, taskBoard), (.exec sleepContext, callBoard), (.svc (.sleep 5), callBoard.slept),
    (.irq .tick, callBoard.slept.ticked)]

theorem isRun_resumeRun : IsRun (BoardStep twoLayout) switchBoard resumeRun := by
  have htask := ready_switchBoard.step tick_switchBoard
  have hexec : BoardStep twoLayout taskBoard (.exec sleepContext) callBoard := .exec htask.shows
  have hcall := htask.step hexec
  have hsleep : Step callBoard.kernel (.svc (.sleep 5)) callBoard.slept.kernel :=
    @Step.svc _ _ _ 4 _ (Or.inl rfl) rfl
  have hsvc := hcall.svc_returned (c := .sleep 5) ⟨rfl, rfl⟩ hsleep
  have hsched : schedule 4 ((after callBoard.slept.kernel [.tick]).storeRegs
      (saveContext callBoard.slept.ctx)) = some callBoard.slept.ticked.kernel := rfl
  exact ⟨tick_switchBoard, hexec, hsvc,
    ((hcall.step hsvc).irq_switched (e := .tick) trivial (.tick rfl) rfl hsched).1, trivial⟩

theorem preempted_resumes_tick : (last switchBoard resumeRun).kernel.cur = 0x1000 ∧
    Always (fun t ↦ t.kernel.cur = 0x1000 → t.ctx = switchBoard.vcpu 0x1000) switchBoard
      resumeRun :=
  ⟨rfl, preempted_resumes ready_switchBoard ringed_switchKernel.has_cur ⟨rfl, rfl⟩ isRun_resumeRun
    ⟨fun _ ↦ ⟨_, rfl⟩, fun h ↦ absurd h (by decide), fun h ↦ absurd h (by decide),
      fun h ↦ absurd h (by decide), trivial⟩⟩

end Ertos
