import Ertos.Arch.Switch

/-!
# Data aborts

`arm_da_entry` of `cpu.S`. It stores what it has of the faulting process where `cur` points, tells
the kernel, enables interrupts, and branches to itself: the instructions that would pop the frame
and return are never reached. So the processor stays in abort mode, in the middle of the routine,
and that is the context which the next interrupt saves for the process and which is loaded should
the process ever be selected again.

It follows that a fault is harmless for the others, and final for the process itself, unless an
alarm gives it another context. It follows as well that the frame is left on the abort stack, which
all faults share.
-/

namespace Ertos

open Arm Cpu Linked Transition

/-! ## The routine -/

/-- The size of the abort stack. -/
def abtStackSize : ℕ := 4096

structure AbortLayout extends Layout where
  armDaEntry : UInt32
  abtBase : UInt32
  abtTop : UInt32
  abt_size : abtTop.toNat = abtBase.toNat + abtStackSize
  vars_abt : ∀ a ∈ [cur, needReschedule], a < abtBase ∨ abtTop ≤ a
  slot_abt : ∀ p, slot p → ∀ i < 17,
    word (UInt32.ofNat p + 16) i < abtBase ∨ abtTop ≤ word (UInt32.ofNat p + 16) i

/-- `r0` to `r12` and `lr`. -/
def abortFrame : List Reg := [0, 1, 2, 3, 4, 5, 6, 7, 8, 9, 10, 11, 12, 14]

/-- `arm_da_entry`, up to the test of the mode. -/
def abortEnter (s : Cpu) : Cpu :=
  let s := s.stmdb abortFrame               -- stmdb sp!, {r0-r12,lr}
  let s := s.setReg 0 s.spsr                -- mrs r0, spsr
  s.setReg 0 (s.getReg 0 &&& 0x1F)          -- and r0, r0, #MODE_MASK

variable (L : AbortLayout)

/-- `.Lhandleuserfault` and `.Lhandlesysfault`, which are the same up to the call. -/
def storeFault (w : UInt32) (s : Cpu) : Cpu :=
  let s := s.setReg 0 s.sp                  -- mov r0, sp
  let s := s.setReg 13 L.cur                -- ldr sp, =cur
  let s := s.ldr 13 13                      -- ldr sp, [sp]
  let s := s.setReg 13 (s.sp + 16)          -- add sp, sp, #16
  let s := s.setReg 1 s.spsr                -- mrs r1, spsr
  let s := s.stmiaWb w [1, 14]              -- stmia sp!, {r1,r14}
  let s := s.stmiaWb w (List.finRange 15)   -- stmia sp!, {r0-r14}
  s.setReg 13 (s.getReg 0)                  -- mov sp, r0

/-- The processor when `_user_page_fault` or `_system_page_fault` starts. -/
def pageFaultCall (mode : ProcMode) (w : UInt32) (s : Cpu) : Cpu :=
  (storeFault L w (abortEnter s)).setReg 14
    (L.armDaEntry + if mode = .user then 108 else 68)

/-- `.Lhandlingdone`. -/
def handlingDone (cpsr : UInt32) (s : Cpu) : Context × Cpu :=
  let s := s.setReg 0 cpsr                  -- mrs r0, cpsr
  let s := s.setReg 0 (s.getReg 0 &&& ~~~0x80) -- bic r0, r0, #IRQ_MASK
  -- msr cpsr_cxfs, r0; b .
  (⟨s.getReg 0, L.armDaEntry + 120, s.usr⟩, s)

/-- The context in which the routine ends up; `none` if it went to the generic handler, which never
returns. -/
def armDaEntry (pageFault : ProcMode → Cpu → Cpu) (w cpsr : UInt32) (s : Cpu) :
    Option (Context × Cpu) :=
  -- cmp r0, #USR_MODE; beq .Lhandleuserfault
  if (abortEnter s).getReg 0 = 0x10 then
    some (handlingDone L cpsr (pageFault .user (pageFaultCall L .user w s)))
  -- cmp r0, #SYS_MODE; beq .Lhandlesysfault
  else if (abortEnter s).getReg 0 = 0x1F then
    some (handlingDone L cpsr (pageFault .system (pageFaultCall L .system w s)))
  -- b .Ldogeneric
  else none

/-! ## The board with faults -/

structure AbortBoard extends Board where
  abtSp : UInt32

inductive FaultEvent
  | board (e : BoardEvent)
  | fault

def FaultEvent.isFault : FaultEvent → Bool
  | .board _ => false
  | .fault => true

/-- In the branch of `arm_da_entry` to itself, in abort mode with interrupts enabled. -/
def AbortLayout.Spins (c : Context) : Prop := c.pc = L.armDaEntry + 120 ∧ c.psr &&& 0x9F = 0x17

inductive FaultStep (m : AbortBoard) : FaultEvent → AbortBoard → Prop
  | board {e : BoardEvent} {t : Board} (hspin : L.Spins m.ctx → ∃ i, e = .irq i)
      (hst : BoardStep L.toLayout m.toBoard e t) : FaultStep m (.board e) ⟨t, m.abtSp⟩
  | fault {k : Kernel} {pageFault : ProcMode → Cpu → Cpu} {w cpsr : UInt32} {r : Context × Cpu}
      (hcpsr : cpsr &&& 0x1F = 0x17)
      -- like `schedule`, it works on whatever registers it finds stored
      (hcall : ∀ mode s, s = pageFaultCall L mode w (enterAbort m.ctx m.abtSp m.ram) →
        ∀ regs, Shows L.toLayout s.ram (m.kernel.storeRegs regs) →
          Step (m.kernel.storeRegs regs) .userPageFault k ∧
            Called L.toLayout L.abtTop s (pageFault mode s) k)
      (hr : armDaEntry L pageFault w cpsr (enterAbort m.ctx m.abtSp m.ram) = some r) :
      FaultStep m .fault ⟨⟨r.1, m.irqSp, m.svcSp, r.2.ram, k⟩, r.2.sp⟩

/-- A fault only makes the context of the current process that of the branch. -/
inductive FaultVcpuStep (v : Vcpus) : FaultEvent → Vcpus → Prop
  | board {e : BoardEvent} {v' : Vcpus} (hst : VcpuStep v e v') : FaultVcpuStep v (.board e) v'
  | fault {c : Context} (hc : L.Spins c) :
      FaultVcpuStep v .fault { v with cpu := Function.update v.cpu v.cur c }

/-- A fault finds room for its frame on the abort stack. -/
def AbortLayout.Fits (m : AbortBoard) (e : FaultEvent) : Prop :=
  e = .fault → L.abtBase.toNat + 56 ≤ m.abtSp.toNat

/-- How many faults there are in a run. -/
def faults {σ : Type*} (r : List (FaultEvent × σ)) : ℕ := r.countP fun p ↦ p.1.isFault

/-! ## What the entry does to memory -/

variable {L} {s : Cpu} {b w cpsr : UInt32}

theorem ram_abortEnter_of_outside (hroom : L.abtBase.toNat + 56 ≤ s.sp.toNat)
    (htop : s.sp ≤ L.abtTop) (hb : b < L.abtBase ∨ L.abtTop ≤ b) :
    (abortEnter s).ram b = s.ram b := by
  rw [abortEnter, ram_setReg, ram_setReg]
  refine storeMany_of_ne fun i hi ↦ ?_
  rw [List.length_map] at hi
  rintro rfl
  have hpush : 4 * abortFrame.length ≤ s.sp.toNat := by
    show 56 ≤ _
    omega
  have hword := word_stmdb hpush hi
  rw [UInt32.le_iff_toNat_le] at htop
  rw [UInt32.lt_iff_toNat_lt, UInt32.le_iff_toNat_le] at hb
  have hlen : abortFrame.length = 14 := rfl
  rw [hlen] at hi hword hb
  omega

theorem sp_abortEnter (s : Cpu) : (abortEnter s).sp = s.sp - 56 := by
  rw [abortEnter, sp_setReg, if_neg (by decide), sp_setReg, if_neg (by decide)]
  rfl

theorem storeFault_eq (w : UInt32) (s : Cpu) :
    storeFault L w s = { s with
      usr := Function.update (Function.update s.usr 0 s.sp) 1 s.spsr
      ram := (storeFault L w s).ram } := by
  simp [storeFault, setReg, ldr, getReg, stmiaWb]

theorem ram_storeFault_of_ne (hb : ∀ i < 17, b ≠ word (s.ram L.cur + 16) i) :
    (storeFault L w s).ram b = s.ram b := by
  set u : Cpu := { s with
    usr := Function.update (Function.update s.usr 0 s.sp) 1 s.spsr
    sp := word (s.ram L.cur + 16) 2 } with hu
  set l := (List.finRange 15).map fun r ↦ if r = 13 then w else u.getReg r with hl
  have hlen : l.length = 15 := by rw [hl, List.length_map, List.length_finRange]
  have hram : (storeFault L w s).ram = storeMany (storeMany s.ram (s.ram L.cur + 16)
      [s.spsr, s.lr]) (word (s.ram L.cur + 16) 2) l := by
    simp [storeFault, setReg, ldr, getReg, stmiaWb, hl, hu]
  rw [hram]
  refine (storeMany_of_ne fun i hi ↦ ?_).trans (storeMany_of_ne fun i hi ↦ ?_)
  · rw [word_word]
    exact hb (2 + i) (by omega)
  · exact hb i (Nat.lt_of_lt_of_le hi (by simp))

variable {m : Board} {ring : List Ptr}

/-- What the kernel sees when it is told of the fault. -/
theorem Shows.faulted (h : Shows L.toLayout m.ram m.kernel) (hk : Ringed m.kernel ring)
    {sp : UInt32} (hroom : L.abtBase.toNat + 56 ≤ sp.toNat) (htop : sp ≤ L.abtTop)
    {mode : ProcMode} (hs : s = pageFaultCall L mode w (enterAbort m.ctx sp m.ram)) :
    ∃ regs, Shows L.toLayout s.ram (m.kernel.storeRegs regs) := by
  subst hs
  set s₁ := abortEnter (enterAbort m.ctx sp m.ram) with hs₁
  have hpush : ∀ b, b < L.abtBase ∨ L.abtTop ≤ b → s₁.ram b = m.ram b :=
    fun b hb ↦ ram_abortEnter_of_outside hroom htop hb
  have hcur : s₁.ram L.cur = UInt32.ofNat m.kernel.cur :=
    (hpush _ (L.vars_abt _ (by simp))).trans h.cur
  have hstore : ∀ b, (∀ i < 17, b ≠ word (UInt32.ofNat m.kernel.cur + 16) i) →
      (pageFaultCall L mode w (enterAbort m.ctx sp m.ram)).ram b = s₁.ram b := by
    intro b hb
    rw [pageFaultCall, ram_setReg]
    exact ram_storeFault_of_ne (hcur.symm ▸ hb)
  have hslot := h.slot _ hk.has_cur
  refine ⟨_, h.stored hk rfl ?_ ?_ fun q hq hne i hi ↦ ?_⟩
  · exact (hstore _ (L.vars_slot _ (by simp) _ hslot)).trans (hpush _ (L.vars_abt _ (by simp)))
  · exact (hstore _ (L.vars_slot _ (by simp) _ hslot)).trans (hpush _ (L.vars_abt _ (by simp)))
  · exact (hstore _ (hne i hi)).trans (hpush _ (L.slot_abt q hq i hi))

theorem sp_pageFaultCall (mode : ProcMode) (w : UInt32) (c : Context) (sp : UInt32) (ram : Ram) :
    (pageFaultCall L mode w (enterAbort c sp ram)).sp = sp - 56 := by
  rw [pageFaultCall, sp_setReg, if_neg (by decide), storeFault_eq]
  exact sp_abortEnter _

/-! ## What the routine does -/

theorem armDaEntry_eq {pageFault : ProcMode → Cpu → Cpu} {r : Context × Cpu}
    (h : armDaEntry L pageFault w cpsr s = some r) :
    ∃ mode, r = handlingDone L cpsr (pageFault mode (pageFaultCall L mode w s)) := by
  unfold armDaEntry at h
  split_ifs at h
  · exact ⟨.user, (Option.some.inj h).symm⟩
  · exact ⟨.system, (Option.some.inj h).symm⟩

theorem spins_handlingDone (hcpsr : cpsr &&& 0x1F = 0x17) (s : Cpu) :
    L.Spins (handlingDone L cpsr s).1 := by
  refine ⟨rfl, ?_⟩
  have hpsr : (handlingDone L cpsr s).1.psr = cpsr &&& ~~~0x80 := by
    simp [handlingDone, getReg_setReg]
  rw [hpsr, UInt32.and_assoc]
  exact hcpsr

theorem sp_handlingDone (s : Cpu) : (handlingDone L cpsr s).2.sp = s.sp := by
  simp [handlingDone, sp_setReg]

theorem ram_handlingDone (s : Cpu) : (handlingDone L cpsr s).2.ram = s.ram := by
  simp [handlingDone]

/-! ## The abstract machine follows -/

variable {m t : AbortBoard} {v : Vcpus} {e : FaultEvent}

theorem FaultStep.spins (hst : FaultStep L m .fault t) : L.Spins t.ctx := by
  cases hst with
  | fault hcpsr _ hr =>
    obtain ⟨mode, rfl⟩ := armDaEntry_eq hr
    exact spins_handlingDone hcpsr _

/-- **A fault is the business of one process.** -/
theorem Virtual.fault (h : Virtual L.toLayout m.toBoard v) (htop : m.abtSp ≤ L.abtTop)
    (hfit : L.Fits m .fault) (hst : FaultStep L m .fault t) :
    ∃ v', FaultVcpuStep L v .fault v' ∧ Virtual L.toLayout t.toBoard v' ∧
      t.abtSp = m.abtSp - 56 := by
  obtain ⟨ring, hk⟩ := h.ringed
  cases hst with
  | @fault k pageFault w cpsr r hcpsr hcall hr =>
  obtain ⟨mode, rfl⟩ := armDaEntry_eq hr
  set u := pageFault mode (pageFaultCall L mode w (enterAbort m.ctx m.abtSp m.ram)) with hu
  obtain ⟨regs, hshows⟩ := h.shows.faulted hk (hfit rfl) htop rfl
  obtain ⟨hst, hcalled⟩ := hcall mode _ rfl regs hshows
  have hstored := h.storeRegs hshows
  obtain ⟨hringed, hcur, hhas, hregs, hquiet⟩ := (hk.storeRegs regs).same_of_step hst (by simp)
    (by simp) (by simp)
  refine ⟨_, .fault (spins_handlingDone hcpsr u), ?_, ?_⟩
  · rw [ram_handlingDone]
    exact hstored.of_same hringed hcalled.shows hcur hhas hregs
      fun q hq hal ↦ hquiet q hq (by simp) (hstored.quiet q hq hal)
  · show (handlingDone L cpsr u).2.sp = _
    rw [sp_handlingDone, hcalled.keeps.sp, sp_pageFaultCall]

theorem Virtual.faultStep (h : Virtual L.toLayout m.toBoard v) (htop : m.abtSp ≤ L.abtTop)
    (hfit : L.Fits m e) (hst : FaultStep L m e t) :
    ∃ v', FaultVcpuStep L v e v' ∧ Virtual L.toLayout t.toBoard v' ∧
      t.abtSp = if e.isFault then m.abtSp - 56 else m.abtSp := by
  cases e with
  | fault => exact h.fault htop hfit hst
  | board e =>
    cases hst with
    | board _ hst =>
      obtain ⟨v', hv', ht⟩ := board_simulation L.toLayout _ v e _ h hst
      exact ⟨v', .board hv', ht, rfl⟩

/-! ## The abort stack -/

theorem faults_cons {σ : Type*} (e : FaultEvent) (t : σ) (r : List (FaultEvent × σ)) :
    faults ((e, t) :: r) = faults r + if e.isFault then 1 else 0 := List.countP_cons

/-- With `n` frames on the stack there is room for one more exactly if 73 is not yet reached. -/
theorem fits_fault_iff {n : ℕ} (hsp : m.abtSp.toNat + 56 * n = L.abtTop.toNat) :
    L.Fits m .fault ↔ n + 1 ≤ 73 := by
  have hsize : L.abtTop.toNat = L.abtBase.toNat + 4096 := L.abt_size
  rw [AbortLayout.Fits, imp_iff_right rfl]
  omega

theorem toNat_sub_frame {sp : UInt32} (h : 56 ≤ sp.toNat) : (sp - 56).toNat + 56 = sp.toNat := by
  have hle : (56 : UInt32) ≤ sp := UInt32.le_iff_toNat_le.mpr h
  rw [UInt32.toNat_sub_of_le _ _ hle]
  exact Nat.sub_add_cancel h

theorem guarded_fits_iff {n : ℕ} (h : Virtual L.toLayout m.toBoard v)
    (hsp : m.abtSp.toNat + 56 * n = L.abtTop.toNat) (hn : n ≤ 73)
    {r : List (FaultEvent × AbortBoard)} (hrun : IsRun (FaultStep L) m r) :
    Guarded L.Fits m r ↔ n + faults r ≤ 73 := by
  induction r generalizing m v n with
  | nil => exact iff_of_true trivial hn
  | cons p r ih =>
    obtain ⟨e, t⟩ := p
    obtain ⟨hst, hrun⟩ := hrun
    have htop : m.abtSp ≤ L.abtTop := UInt32.le_iff_toNat_le.mpr (hsp ▸ Nat.le_add_right _ _)
    rw [guarded_cons, faults_cons]
    cases e with
    | board e =>
      have hfit : L.Fits m (.board e) := by simp [AbortLayout.Fits]
      obtain ⟨v', -, ht, hsp'⟩ := h.faultStep htop hfit hst
      have hsp' : t.abtSp = m.abtSp := hsp'
      rw [ih ht (hsp'.symm ▸ hsp) hn hrun]
      exact and_iff_right hfit
    | fault =>
      show _ ↔ n + (faults r + 1) ≤ 73
      by_cases hfit : L.Fits m .fault
      · obtain ⟨v', -, ht, hsp'⟩ := h.fault htop hfit hst
        have hroom : L.abtBase.toNat + 56 ≤ m.abtSp.toNat := hfit rfl
        have hframe := toNat_sub_frame (Nat.le_of_add_left_le hroom)
        rw [← hsp'] at hframe
        rw [ih ht (n := n + 1) (by omega) ((fits_fault_iff hsp).mp hfit) hrun, and_iff_right hfit]
        omega
      · have hfull := mt (fits_fault_iff hsp).mpr hfit
        exact iff_of_false (fun hg ↦ hfit hg.1) (by omega)

/-! ## Runs -/

/-- Related states, with the abort stack in bounds. -/
def Followed (L : AbortLayout) (m : AbortBoard) (v : Vcpus) : Prop :=
  Virtual L.toLayout m.toBoard v ∧ m.abtSp ≤ L.abtTop

theorem Followed.step (h : Followed L m v) (hfit : L.Fits m e) (hst : FaultStep L m e t) :
    ∃ v', FaultVcpuStep L v e v' ∧ Followed L t v' := by
  obtain ⟨v', hv', ht, hsp⟩ := h.1.faultStep h.2 hfit hst
  refine ⟨v', hv', ht, ?_⟩
  rw [hsp]
  split_ifs with hfault
  · cases e with
    | board => exact absurd hfault (by simp [FaultEvent.isFault])
    | fault =>
      have hframe := toNat_sub_frame (Nat.le_of_add_left_le (hfit rfl))
      refine UInt32.le_trans (UInt32.le_iff_toNat_le.mpr ?_) h.2
      exact hframe ▸ Nat.le_add_right _ _
  · exact h.2

/-- The board while the abort stack has room. -/
def FitStep (L : AbortLayout) (m : AbortBoard) (e : FaultEvent) (t : AbortBoard) : Prop :=
  L.Fits m e ∧ FaultStep L m e t

theorem fault_simulation (L : AbortLayout) :
    Simulation (FitStep L) (FaultVcpuStep L) (Followed L) :=
  fun _ _ _ _ h hst ↦ h.step hst.1 hst.2

theorem Board.Ready.followed (h : m.toBoard.Ready L.toLayout) (htop : m.abtSp ≤ L.abtTop) :
    Followed L m m.vcpus := ⟨h.virtual, htop⟩

theorem Board.Ready.guarded_fits (h : m.toBoard.Ready L.toLayout) (hsp : m.abtSp = L.abtTop)
    {r : List (FaultEvent × AbortBoard)} (hrun : IsRun (FaultStep L) m r)
    (hfaults : faults r ≤ 73) : Guarded L.Fits m r := by
  have hzero : m.abtSp.toNat + 56 * 0 = L.abtTop.toNat := congrArg UInt32.toNat hsp
  exact (guarded_fits_iff h.virtual hzero (Nat.zero_le _) hrun).mpr
    ((zero_add (faults r)).symm ▸ hfaults)

theorem FaultVcpuStep.spins {v v' : Vcpus} {q : Ptr} (h : FaultVcpuStep L v e v') (hq : v.has q)
    (hal : ¬v.alarmed q) (hspin : L.Spins (v.cpu q))
    (hint : ∀ b, e = .board b → v.cur = q → ∃ i, b = .irq i) :
    v'.has q ∧ ¬v'.alarmed q ∧ L.Spins (v'.cpu q) := by
  cases h with
  | board hst =>
    obtain ⟨hq', hal', hcpu⟩ := hst.untouched hq hal (hint _ rfl)
    exact ⟨hq', hal', hcpu.symm ▸ hspin⟩
  | @fault c hc =>
    refine ⟨hq, hal, ?_⟩
    show L.Spins (Function.update v.cpu v.cur c q)
    rw [Function.update_apply]
    split_ifs
    · exact hc
    · exact hspin

/-- From a fault on, `q` is in the branch whenever it is current. -/
theorem always_spins {q : Ptr} (h : m.toBoard.Ready L.toLayout) (htop : m.abtSp ≤ L.abtTop)
    (hq : m.kernel.Has q) (hquiet : (m.kernel.proc q).Quiet) (hspin : L.Spins (m.vcpu q))
    {r : List (FaultEvent × AbortBoard)} (hrun : IsRun (FaultStep L) m r)
    (hfit : Guarded L.Fits m r) :
    Always (fun u ↦ u.kernel.cur = q → L.Spins u.ctx) m r := by
  set I : AbortBoard → Prop := fun u ↦
    ∃ v, Followed L u v ∧ v.has q ∧ ¬v.alarmed q ∧ L.Spins (v.cpu q)
  have hcur : ∀ u : AbortBoard, I u → u.kernel.cur = q → L.Spins u.ctx := by
    rintro u ⟨v, hv, -, -, hspin⟩ rfl
    rwa [← hv.1.cur, hv.1.cpu_cur] at hspin
  have hstep : ∀ s e t, I s → L.Fits s e → FaultStep L s e t → I t := by
    rintro s e t hI hfit hst
    have hself := hcur s hI
    obtain ⟨v, hv, hhas, hal, hspin⟩ := hI
    obtain ⟨v', hv', ht⟩ := hv.step hfit hst
    refine ⟨v', ht, hv'.spins hhas hal hspin ?_⟩
    rintro b rfl hvq
    cases hst with
    | board hirq => exact hirq (hself (hv.1.cur ▸ hvq))
  have hI : I m := ⟨m.vcpus, h.followed htop, hq, not_not.mpr hquiet, hspin⟩
  exact (always_of_guarded hstep hI hrun hfit).imp hcur

/-! ## A fault of the idle task -/

theorem twoLayout_vars_apart : ∀ a ∈ [twoLayout.cur, twoLayout.needReschedule],
    a < 0x50000 ∨ 0x51000 ≤ a := by
  rintro a ha
  simp only [List.mem_cons, List.not_mem_nil, or_false] at ha
  rcases ha with rfl | rfl <;> decide +kernel

theorem twoLayout_slots_apart (p : Ptr) (hp : twoLayout.slot p) (i : ℕ) (hi : i < 17) :
    word (UInt32.ofNat p + 16) i < 0x50000 ∨ 0x51000 ≤ word (UInt32.ofNat p + 16) i := by
  revert i
  rcases hp with rfl | rfl <;> decide +kernel

/-- `twoLayout` with an abort stack. -/
def faultLayout : AbortLayout where
  toLayout := twoLayout
  armDaEntry := 0x40200
  abtBase := 0x50000
  abtTop := 0x51000
  abt_size := rfl
  vars_abt := twoLayout_vars_apart
  slot_abt := twoLayout_slots_apart

def idleBoard : AbortBoard := ⟨switchBoard, 0x51000⟩

/-- What the entry finds stored for the idle task. -/
def faultRegs : Regs :=
  savedRegs (pageFaultCall faultLayout .system 0
    (enterAbort idleContext 0x51000 switchBoard.ram)).ram 0x1000

def faultKernel : Kernel := userPageFault (switchKernel.storeRegs faultRegs)

/-- The board after an access of the idle task is aborted. -/
def faultedBoard : AbortBoard :=
  let r := handlingDone faultLayout 0x97 (leaves faultKernel (pageFaultCall faultLayout .system 0
    (enterAbort idleContext 0x51000 switchBoard.ram)))
  ⟨⟨r.1, 0x20000, 0x30000, r.2.ram, faultKernel⟩, r.2.sp⟩

theorem fault_idleBoard : FaultStep faultLayout idleBoard .fault faultedBoard := by
  have hlist : ProcList faultKernel [0x5000] := Or.inr ⟨by decide, Cycle.singleton rfl⟩
  refine @FaultStep.fault faultLayout idleBoard faultKernel (fun _ ↦ leaves faultKernel) 0 0x97 _
    rfl ?_ rfl
  rintro mode s rfl regs hshows
  -- the registers that the handler finds are those that the entry stored
  obtain rfl : regs = faultRegs := by
    have hregs := hshows.regs idleBoard.kernel.cur (ringed_switchKernel.storeRegs regs).has_cur
    rw [proc_storeRegs, if_pos rfl] at hregs
    refine hregs.symm.trans ?_
    rw [faultRegs, pageFaultCall, pageFaultCall, ram_setReg, ram_setReg]
    rfl
  refine ⟨.userPageFault, called_leaves (has_of_list rfl hlist) ?_ _⟩
  rw [sp_pageFaultCall]
  decide

theorem ready_faultedBoard : faultedBoard.toBoard.Ready twoLayout := by
  have hfit : faultLayout.Fits idleBoard .fault := fun _ ↦ by decide
  obtain ⟨v', -, ht⟩ :=
    Followed.step (Board.Ready.followed (m := idleBoard) ready_switchBoard (UInt32.le_refl _)) hfit
      fault_idleBoard
  exact ht.1.toReady

/-- The other process gets the processor, and calls `sleep`. -/
def otherBoard : Board := { faultedBoard.ticked with ctx := sleepContext }

def onBoard (t : Board) : AbortBoard := ⟨t, faultedBoard.abtSp⟩

/-- A fault of the idle task, and what follows until it is current again. -/
def faultRun : List (FaultEvent × AbortBoard) :=
  [(.fault, faultedBoard), (.board (.irq .tick), onBoard faultedBoard.ticked),
    (.board (.exec sleepContext), onBoard otherBoard),
    (.board (.svc (.sleep 5)), onBoard otherBoard.slept),
    (.board (.irq .tick), onBoard otherBoard.slept.ticked)]

theorem run_idleBoard : IsRun (FaultStep faultLayout) idleBoard faultRun := by
  have hsched : schedule 4 ((after faultedBoard.kernel [.tick]).storeRegs
      (saveContext faultedBoard.ctx)) = some faultedBoard.ticked.kernel := rfl
  obtain ⟨htick, hctx⟩ :=
    ready_faultedBoard.irq_switched (e := .tick) trivial (.tick rfl) rfl hsched
  have htask := ready_faultedBoard.step htick
  have hexec : BoardStep twoLayout faultedBoard.ticked (.exec sleepContext) otherBoard :=
    .exec htask.shows
  have hcall := htask.step hexec
  have hsleep : Step otherBoard.kernel (.svc (.sleep 5)) otherBoard.slept.kernel :=
    @Step.svc _ _ _ 4 _ (Or.inl rfl) rfl
  have hsvc := hcall.svc_returned (c := .sleep 5) ⟨rfl, rfl⟩ hsleep
  have hsched' : schedule 4 ((after otherBoard.slept.kernel [.tick]).storeRegs
      (saveContext otherBoard.slept.ctx)) = some otherBoard.slept.ticked.kernel := rfl
  obtain ⟨htick', -⟩ :=
    (hcall.step hsvc).irq_switched (e := .tick) trivial (.tick rfl) rfl hsched'
  refine ⟨fault_idleBoard, .board (fun _ ↦ ⟨_, rfl⟩) htick, .board (fun hspin ↦ ?_) hexec,
    .board (fun hspin ↦ ?_) hsvc, .board (fun _ ↦ ⟨_, rfl⟩) htick', trivial⟩
  · have hspin' : faultLayout.Spins faultedBoard.ticked.ctx := hspin
    rw [show faultedBoard.ticked.ctx = _ from hctx] at hspin'
    exact absurd hspin'.1 (by decide)
  · exact absurd hspin.1 (by decide)

/-! ## The theorems -/

section Theorems

variable {r : List (FaultEvent × AbortBoard)}

/-- **The abort stack is used up.** No frame is ever popped, so the stack has room for the frame of
every fault of a run exactly if there are no more than 73. -/
theorem faults_fit_iff (h : m.toBoard.Ready L.toLayout) (hsp : m.abtSp = L.abtTop)
    (hrun : IsRun (FaultStep L) m r) : Guarded L.Fits m r ↔ faults r ≤ 73 := by
  have hzero : m.abtSp.toNat + 56 * 0 = L.abtTop.toNat := congrArg UInt32.toNat hsp
  rw [guarded_fits_iff h.virtual hzero (Nat.zero_le _) hrun, zero_add]

theorem faults_fit_iff_idle :
    Guarded faultLayout.Fits idleBoard faultRun ↔ faults faultRun ≤ 73 :=
  faults_fit_iff ready_switchBoard rfl run_idleBoard

/-- **Faults are contained.** In a run with no more than 73 faults, the contexts of the processes
are those of the abstract machine, where a fault changes that of the current process and no
other. -/
theorem faults_contained (h : m.toBoard.Ready L.toLayout) (hsp : m.abtSp = L.abtTop)
    (hrun : IsRun (FaultStep L) m r) (hfaults : faults r ≤ 73) :
    ∃ r', IsRun (FaultVcpuStep L) m.vcpus r' ∧ Follows (Followed L) m r m.vcpus r' := by
  have hfit := h.guarded_fits hsp hrun hfaults
  have hlaw : IsRun (FitStep L) m r := isRun_of_guarded (I := fun _ ↦ True)
    (fun _ _ _ _ _ _ ↦ trivial) (fun _ _ _ _ hfit hst ↦ ⟨hfit, hst⟩) trivial hrun hfit
  exact (fault_simulation L).follows (h.followed (UInt32.le_of_eq hsp)) hlaw

theorem faults_contained_idle : ∃ r', IsRun (FaultVcpuStep faultLayout) idleBoard.vcpus r' ∧
    Follows (Followed faultLayout) idleBoard faultRun idleBoard.vcpus r' :=
  faults_contained ready_switchBoard rfl run_idleBoard (by decide)

/-- **A fault is final.** Whatever else happens to it, a process that faulted while it had no alarm
executes no instruction of its own any more: whenever it is current, the processor is in the branch
of `arm_da_entry` to itself. -/
theorem faulted_spins (h : m.toBoard.Ready L.toLayout) (hsp : m.abtSp = L.abtTop)
    (hrun : IsRun (FaultStep L) m r) (hfaults : faults r ≤ 73) :
    Following (fun e t r ↦ e = .fault → (t.kernel.proc t.kernel.cur).Quiet →
      Always (fun u ↦ u.kernel.cur = t.kernel.cur → L.Spins u.ctx) t r) r := by
  have hfit := h.guarded_fits hsp hrun hfaults
  refine following_of_guarded (I := fun u ↦ ∃ v, Followed L u v) (fun s e t ⟨v, hv⟩ hfit hst ↦ ?_)
    ?_ ⟨_, h.followed (UInt32.le_of_eq hsp)⟩ hrun hfit
  · obtain ⟨v', -, ht⟩ := hv.step hfit hst
    exact ⟨v', ht⟩
  · rintro s e t r ⟨v, hv⟩ hfit hst hrest hguard rfl hquiet
    obtain ⟨v', hv', ht⟩ := hv.step hfit hst
    obtain ⟨ring, hk⟩ := ht.1.ringed
    have hspin : L.Spins (t.vcpu t.kernel.cur) := by
      rw [Board.vcpu, if_pos rfl]
      exact hst.spins
    exact always_spins ht.1.toReady ht.2 hk.has_cur hquiet hspin hrest hguard

theorem faulted_spins_idle : (last idleBoard faultRun).kernel.cur = 0x1000 ∧
    Following (fun e t r ↦ e = FaultEvent.fault → (t.kernel.proc t.kernel.cur).Quiet →
      Always (fun u ↦ u.kernel.cur = t.kernel.cur → faultLayout.Spins u.ctx) t r) faultRun :=
  ⟨rfl, faulted_spins (m := idleBoard) ready_switchBoard rfl run_idleBoard (by decide)⟩

end Theorems

end Ertos
