import Ertos.Basis.Arm
import Ertos.Kernel.Proc
import Mathlib.Data.List.OfFn

/-!
# Exception entry

`arm_irq_entry` and `arm_svc_entry` of `irq.S`, instruction by instruction. The functions they call
are parameters, of which only what the procedure call standard promises is used.

A system call returns with every register of the caller as it was, so what `c_svc` returned never
reaches the caller. An interrupt that does not ask for another process is invisible. One that does
leaves the caller's context in the process structure that `cur` points at before `schedule` is
called, and continues with the context found in the one that `cur` points at afterwards.
-/

namespace Ertos

open Arm Cpu

/-! ## The routines -/

/-- The addresses of the variables and the routines. -/
structure Symbols where
  cur : UInt32
  needReschedule : UInt32
  handlerIrqstack : UInt32
  armIrqEntry : UInt32
  armSvcEntry : UInt32

variable (L : Symbols)

def readRescheduleFlag (s : Cpu) : Cpu :=
  let s := s.setReg 0 L.needReschedule      -- ldr r0, =_need_reschedule
  s.ldr 0 0                                 -- ldr r0, [r0]

/-- `cpu_idle` waits for an interrupt. -/
def cpuIdle (s : Cpu) : Cpu := s

/-- `arm_svc_entry`, up to the call of `c_svc`. -/
def svcEnter (s : Cpu) : Cpu :=
  let s := s.stmdb [0, 1, 2, 3, 12, 14]     -- stmdb sp!, {r0-r3,r12,lr}
  let s := s.setReg 1 s.sp                  -- mov r1, sp
  let s := s.setReg 0 s.spsr                -- mrs r0, spsr
  let s := s.stmdb [0, 3]                   -- stmdb sp!, {r0, r3}
  let s := s.setReg 0 (s.ram (s.lr - 4))    -- ldr r0, [lr, #-4]
  s.setReg 0 (s.getReg 0 &&& ~~~0xFF000000) -- bic r0, r0, #0xFF000000

/-- The processor when `c_svc` starts. -/
def svcCall (s : Cpu) : Cpu := (svcEnter s).setReg 14 (L.armSvcEntry + 28)

def armSvcEntry (cSvc : Cpu → Cpu) (s : Cpu) : Context × Cpu :=
  let s := cSvc (svcCall L s)               -- bl c_svc
  let s := s.bl (L.armSvcEntry + 32) (readRescheduleFlag L)
  -- cmp r0, #1; bleq cpu_idle
  let s := if s.getReg 0 = 1 then s.bl (L.armSvcEntry + 40) cpuIdle else s
  let s := s.ldmia [0, 3]                   -- ldmia sp!, {r0, r3}
  let s := { s with spsr := s.getReg 0 }    -- msr spsr_cxsf, r0
  s.ldmiaPc [0, 1, 2, 3, 12]                -- ldmia sp!, {r0-r3,r12,pc}^

/-- `arm_irq_entry`, up to the call of `c_irq`. -/
def irqEnter (s : Cpu) : Cpu :=
  let s := s.setReg 14 (s.lr - 4)           -- sub lr, lr, #4
  s.stmdb [0, 1, 2, 3, 12, 14]              -- stmdb sp!, {r0-r3,r12,lr}

/-- Record the original `sp` in `handler_irqstack`. -/
def recordSp (s : Cpu) : Cpu :=
  let s := s.stmdb [0, 1]                   -- stmdb sp!, {r0,r1}
  let s := s.setReg 0 s.sp                  -- mov r0, sp
  let s := s.setReg 0 (s.getReg 0 + 8)      -- add r0, r0, #8
  let s := s.setReg 1 L.handlerIrqstack     -- ldr r1, =handler_irqstack
  let s := s.str 0 1                        -- str r0, [r1]
  s.ldmia [0, 1]                            -- ldmia sp!, {r0, r1}

/-- Store the current task. -/
def storeTask (s : Cpu) : Cpu :=
  let s := s.setReg 13 L.cur                -- ldr sp, =cur
  let s := s.ldr 13 13                      -- ldr sp, [sp]
  let s := s.setReg 13 (s.sp + 24)          -- add sp, sp, #24
  let s := s.stmiaUsr                       -- stmia sp, {r0-r14}^
  let s := s.setReg 13 (s.sp - 8)           -- sub sp, sp, #8
  let s := s.setReg 0 s.spsr                -- mrs r0, spsr
  s.stmia [0, 14]                           -- stmia sp, {r0,r14}

/-- Reload the original `sp`. -/
def reloadSp (s : Cpu) : Cpu :=
  let s := s.setReg 13 L.handlerIrqstack    -- ldr sp, =handler_irqstack
  s.ldr 13 13                               -- ldr sp, [sp]

/-- Load the next task. -/
def loadTask (s : Cpu) : Cpu :=
  let s := s.setReg 0 L.cur                 -- ldr r0, =cur
  let s := s.ldr 0 0                        -- ldr r0, [r0]
  let s := s.setReg 13 L.cur                -- ldr sp, =cur
  let s := s.ldr 13 13                      -- ldr sp, [sp]
  let s := s.setReg 13 (s.sp + 16)          -- add sp, sp, #16
  let s := s.ldmia [0, 14]                  -- ldmia sp!, {r0,lr}
  let s := { s with spsr := s.getReg 0 }    -- msr spsr_cxsf, r0
  s.ldmiaUsr                                -- ldmia sp, {r0-r14}^

/-- From the return of `c_irq` to the call of `schedule`. -/
def irqSave (s : Cpu) : Cpu :=
  let s := s.ldmia [0, 1, 2, 3, 12, 14]     -- ldmia sp!, {r0-r3,r12,lr}
  reloadSp L (storeTask L (recordSp L s))

/-- The processor when `c_irq` starts. -/
def irqCall (s : Cpu) : Cpu := (irqEnter s).setReg 14 (L.armIrqEntry + 12)

/-- The processor when the flag is tested. -/
def irqFlag (cIrq : Cpu → Cpu) (s : Cpu) : Cpu :=
  let s := cIrq (irqCall L s)               -- bl c_irq
  s.bl (L.armIrqEntry + 16) (readRescheduleFlag L)

/-- The processor when `schedule` starts. -/
def scheduleCall (cIrq : Cpu → Cpu) (s : Cpu) : Cpu :=
  (irqSave L (irqFlag L cIrq s)).setReg 14 (L.armIrqEntry + 92)

def armIrqEntry (cIrq schedule : Cpu → Cpu) (s : Cpu) : Context × Cpu :=
  -- cmp r0, #0; ldmeqia sp!, {r0-r3,r12,pc}^
  if (irqFlag L cIrq s).getReg 0 = 0 then (irqFlag L cIrq s).ldmiaPc [0, 1, 2, 3, 12]
  else
    let s := schedule (scheduleCall L cIrq s) -- bl schedule
    (reloadSp L (loadTask L s)).movsPcLr    -- movs pc, lr

/-! ## System calls -/

variable {L} {c : Context} {sp top : UInt32} {ram : Ram}

theorem keeps_readRescheduleFlag (top : UInt32) (s : Cpu) :
    Keeps top s (readRescheduleFlag L s) :=
  (keeps_setReg top s (r := 0) (by decide) _).trans (keeps_setReg top _ (r := 0) (by decide) _)

/-- The processor when `arm_svc_entry` pushes for the second time. -/
def svcFrame (s : Cpu) : Cpu :=
  let s := s.stmdb scratch
  let s := s.setReg 1 s.sp
  s.setReg 0 s.spsr

theorem sp_svcFrame (s : Cpu) : (svcFrame s).sp = (s.stmdb scratch).sp := by
  simp [svcFrame, sp_setReg]

theorem keeps_svcFrame (top : UInt32) (s : Cpu) : Keeps top (s.stmdb scratch) (svcFrame s) :=
  (keeps_setReg top _ (r := 1) (by decide) _).trans (keeps_setReg top _ (r := 0) (by decide) _)

theorem keeps_svcEnter (top : UInt32) (s : Cpu) :
    Keeps top ((svcFrame s).stmdb [0, 3]) (svcEnter s) :=
  (keeps_setReg top _ (r := 0) (by decide) _).trans (keeps_setReg top _ (r := 0) (by decide) _)

theorem keeps_svcCall (top : UInt32) (s : Cpu) :
    Keeps top ((svcFrame s).stmdb [0, 3]) (svcCall L s) :=
  (keeps_svcEnter top s).trans (keeps_setReg top _ (r := 14) (by decide) _)

theorem room_svcFrame {s : Cpu} (hroom : 32 ≤ s.sp.toNat) :
    4 * [(0 : Reg), 3].length ≤ (svcFrame s).sp.toNat := by
  rw [sp_svcFrame, toNat_sp_stmdb (show 4 * scratch.length ≤ s.sp.toNat by
    show 24 ≤ _
    omega) (by decide)]
  show 8 ≤ s.sp.toNat - 24
  omega

/-- `c_svc` finds the registers `r0` and `r1` of the caller where its second argument points. -/
theorem svcCall_args (hroom : 32 ≤ sp.toNat) {s : Cpu} (hs : s = svcCall L (enter c sp ram)) :
    s.ram (word (s.getReg 1) 0) = c.usr 0 ∧ s.ram (word (s.getReg 1) 1) = c.usr 1 := by
  subst hs
  set s₀ := enter c sp ram
  have hr1 : (svcCall L s₀).getReg 1 = (s₀.stmdb scratch).sp := by
    simp only [svcCall, svcEnter, getReg_setReg]
    rfl
  have hroom₀ : 4 * scratch.length ≤ s₀.sp.toNat := by
    show 24 ≤ sp.toNat
    omega
  have hword : ∀ i (hi : i < scratch.length),
      (svcCall L s₀).ram (word (s₀.stmdb scratch).sp i) = s₀.getReg scratch[i] := by
    intro i hi
    -- the second push is below the first
    have hle := le_word_stmdb hroom₀ hi
    have hsecond : (svcCall L s₀).ram = ((svcFrame s₀).stmdb [0, 3]).ram := by
      simp only [svcCall, svcEnter, ram_setReg]
      rfl
    have hfirst : (svcFrame s₀).ram = (s₀.stmdb scratch).ram := by simp [svcFrame]
    rw [← sp_svcFrame] at hle
    rw [← ram_stmdb_word hroom₀ hi, hsecond, ← sp_svcFrame,
      ram_stmdb_of_le (room_svcFrame hroom) hle, hfirst]
  rw [hr1]
  exact ⟨hword 0 (by decide), hword 1 (by decide)⟩

/-- **A system call returns to the next instruction with every register as it was.** -/
theorem armSvcEntry_spec {cSvc : Cpu → Cpu} (hroom : 32 ≤ sp.toNat) (htop : sp ≤ top) {s : Cpu}
    (hs : s = svcCall L (enter c sp ram)) (hcall : Keeps top s (cSvc s)) :
    (armSvcEntry L cSvc (enter c sp ram)).1 = ⟨c.psr, c.pc + 4, c.usr⟩ ∧
      (armSvcEntry L cSvc (enter c sp ram)).2.sp = sp ∧
      (armSvcEntry L cSvc (enter c sp ram)).2.ram = (cSvc s).ram := by
  subst hs
  set s₀ := enter c sp ram
  set t := cSvc (svcCall L s₀) with ht
  set u := (t.bl (L.armSvcEntry + 32) (readRescheduleFlag L)) with hu
  set v := if u.getReg 0 = 1 then u.bl (L.armSvcEntry + 40) cpuIdle else u with hv
  have hku : Keeps top t u :=
    (keeps_setReg top t (r := 14) (by decide) _).trans (keeps_readRescheduleFlag top _)
  have hkv : Keeps top u v := by
    rw [hv]
    split_ifs
    · exact keeps_setReg top u (r := 14) (by decide) _
    · exact Keeps.refl top u
  have hvram : v.ram = t.ram := by
    rw [hv]
    split_ifs <;> simp [hu, bl, readRescheduleFlag, ldr, cpuIdle]
  have hpushed := (keeps_svcCall (L := L) top s₀).trans (hcall.trans (hku.trans hkv))
  have hle : s₀.sp ≤ top := htop
  have hroom₀ : 4 * scratch.length ≤ s₀.sp.toNat := by
    show 24 ≤ sp.toNat
    omega
  obtain ⟨hpop, hget⟩ := hpushed.pop (by decide) (room_svcFrame hroom)
    (sp_svcFrame s₀ ▸ UInt32.le_trans (sp_stmdb_le hroom₀) htop)
  -- the saved program status is written back where it was read
  have hspsr : (v.ldmia [0, 3]).getReg 0 = (v.ldmia [0, 3]).spsr := by
    rw [hget 0 (by decide), hpop.spsr]
    simp [svcFrame, getReg_setReg]
  have hmsr : { v.ldmia [0, 3] with spsr := (v.ldmia [0, 3]).getReg 0 } = v.ldmia [0, 3] := by
    rw [hspsr]
  have hentry : armSvcEntry L cSvc s₀ = (v.ldmia [0, 3]).ldmiaPc [0, 1, 2, 3, 12] :=
    congrArg (fun s : Cpu ↦ s.ldmiaPc [0, 1, 2, 3, 12]) hmsr
  obtain ⟨hctx, hsp, hram⟩ := ((keeps_svcFrame top s₀).trans hpop).ldmiaPc_stmdb hroom₀ htop
  rw [hentry]
  exact ⟨hctx, hsp, (hram.trans (ram_setRegs v _ _)).trans hvram⟩

/-! ## Saved contexts -/

/-- The order in which a context is kept in `regs`. -/
def saveContext (c : Context) : Regs := fun i ↦
  if i = 0 then c.psr else if i = 1 then c.pc else c.usr ⟨i - 2, by omega⟩

def loadContext (r : Regs) : Context := ⟨r 0, r 1, fun i ↦ r ⟨i + 2, by omega⟩⟩

theorem saveContext_add_two (c : Context) (i : Reg) :
    saveContext c ⟨i + 2, by omega⟩ = c.usr i := by
  have hne : ∀ j : Fin 17, j.val < 2 → (⟨i + 2, by omega⟩ : Fin 17) ≠ j := by
    intro j hj h
    have hval : i.val + 2 = j.val := congrArg Fin.val h
    omega
  rw [saveContext, if_neg (hne 0 (by decide)), if_neg (hne 1 (by decide))]
  rfl

theorem loadContext_saveContext (c : Context) : loadContext (saveContext c) = c :=
  congrArg (Context.mk c.psr c.pc) (funext (saveContext_add_two c))

/-- The registers in the process structure at `p`. -/
def savedRegs (ram : Ram) (p : UInt32) : Regs := fun i ↦ ram (word (p + 16) i)

theorem word_add_24 (p : UInt32) (i : ℕ) : word (p + 24) i = word (p + 16) (i + 2) := by
  rw [add_comm i 2, ← word_word]
  congr 1
  rw [word, add_assoc]
  rfl

/-! ## The sections of the interrupt entry -/

theorem recordSp_eq {s : Cpu} (hh : ∀ i < 2, L.handlerIrqstack ≠ word (s.sp - 8) i) :
    recordSp L s = { s with
      ram := Function.update (storeMany s.ram (s.sp - 8) [s.usr 0, s.usr 1]) L.handlerIrqstack
        s.sp } := by
  set m := Function.update (storeMany s.ram (s.sp - 8) [s.usr 0, s.usr 1]) L.handlerIrqstack s.sp
    with hm
  have hload : loadMany m (s.sp - 8) 2 = [s.usr 0, s.usr 1] := by
    rw [← loadMany_storeMany (m := s.ram) (a := s.sp - 8) (l := [s.usr 0, s.usr 1]) (by simp)]
    exact loadMany_congr fun i hi ↦ Function.update_of_ne (hh i hi).symm _ _
  have hsp : word (s.sp - 8) 2 = s.sp := sp_ldmia_stmdb s.sp 2
  have hrecord : recordSp L s = Cpu.ldmia ⟨Function.update (Function.update s.usr 0 s.sp) 1
      L.handlerIrqstack, s.sp - 8, s.lr, s.spsr, m⟩ [0, 1] := by
    simp [recordSp, stmdb, setReg, getReg, str, hm]
  have husr : Function.update (Function.update (Function.update (Function.update s.usr 0 s.sp) 1
      L.handlerIrqstack) 0 (s.usr 0)) 1 (s.usr 1) = s.usr := by
    funext r
    by_cases h1 : r = 1
    · rw [h1, Function.update_self]
    by_cases h0 : r = 0 <;> simp [h0, h1]
  rw [hrecord, ldmia, show [(0 : Reg), 1].length = 2 from rfl, hload, hsp]
  exact Cpu.ext husr rfl rfl rfl rfl

theorem storeTask_eq (s : Cpu) :
    storeTask L s = { s with
      usr := Function.update s.usr 0 s.spsr
      sp := s.ram L.cur + 16
      ram := storeMany (storeMany s.ram (s.ram L.cur + 24) (List.ofFn s.usr)) (s.ram L.cur + 16)
        [s.spsr, s.lr] } := by
  have hsub : s.ram L.cur + 24 - 8 = s.ram L.cur + 16 := by
    rw [add_sub_assoc]
    rfl
  simp [storeTask, setReg, ldr, getReg, stmiaUsr, stmia, hsub]

theorem reloadSp_eq (s : Cpu) : reloadSp L s = { s with sp := s.ram L.handlerIrqstack } := rfl

theorem loadTask_eq (s : Cpu) :
    (reloadSp L (loadTask L s)).movsPcLr =
      (loadContext (savedRegs s.ram (s.ram L.cur)),
        { s with
          usr := (loadContext (savedRegs s.ram (s.ram L.cur))).usr
          sp := s.ram L.handlerIrqstack
          lr := savedRegs s.ram (s.ram L.cur) 1
          spsr := savedRegs s.ram (s.ram L.cur) 0 }) := by
  set q := s.ram L.cur with hq
  have hload : (loadTask L s) = { s with
      usr := fun i ↦ s.ram (word (word (q + 16) 2) i)
      sp := word (q + 16) 2
      lr := s.ram (q + 16 + 4)
      spsr := s.ram (q + 16) } := by
    simp [loadTask, setReg, ldr, getReg, ldmia, setRegs, loadMany, ldmiaUsr, ← hq]
  have husr : (loadContext (savedRegs s.ram q)).usr =
      fun i : Reg ↦ s.ram (word (word (q + 16) 2) i) := by
    funext i
    rw [word_word, add_comm 2]
    rfl
  have hpsr : savedRegs s.ram q 0 = s.ram (q + 16) := congrArg s.ram (word_zero _)
  rw [hload, reloadSp_eq, husr, hpsr, movsPcLr]
  exact congrArg (Prod.mk · _) (congrArg₂ (fun psr usr ↦ Context.mk psr _ usr) hpsr.symm husr.symm)

/-- The two stores of `storeTask` fill the saved registers and nothing else. -/
theorem savedRegs_storeTask (s : Cpu) :
    savedRegs (storeTask L s).ram (s.ram L.cur) = saveContext ⟨s.spsr, s.lr, s.usr⟩ := by
  set p := s.ram L.cur with hp
  have hlen : (List.ofFn s.usr).length < 2 ^ 30 := by simp
  rw [storeTask_eq, ← hp]
  funext i
  by_cases hi : i.val < 2
  · have hword := storeMany_word (m := storeMany s.ram (p + 24) (List.ofFn s.usr)) (a := p + 16)
      (l := [s.spsr, s.lr]) (by simp) hi
    refine hword.trans ?_
    obtain rfl | rfl : i = 0 ∨ i = 1 := by omega
    · rfl
    · rfl
  · -- behind the first two words, which the second store leaves alone
    have hne : ∀ j < [s.spsr, s.lr].length, word (p + 16) i ≠ word (p + 16) j := by
      intro j hj h
      have hij := word_inj (by omega) (Nat.lt_trans hj (by simp)) h
      exact hi (hij ▸ hj)
    obtain ⟨r, rfl⟩ : ∃ r : Reg, i = ⟨r + 2, Nat.add_lt_add_right r.isLt 2⟩ := by
      refine ⟨⟨i - 2, by omega⟩, Fin.ext ?_⟩
      show i.val = i.val - 2 + 2
      omega
    have hword := storeMany_word (m := s.ram) (a := p + 24) (i := r) hlen (by simp)
    rw [saveContext_add_two]
    refine (storeMany_of_ne hne).trans ?_
    rw [← word_add_24, hword]
    exact List.getElem_ofFn _

theorem ram_storeTask_of_ne {s : Cpu} {b : UInt32} (hb : ∀ i < 17, b ≠ word (s.ram L.cur + 16) i) :
    (storeTask L s).ram b = s.ram b := by
  rw [storeTask_eq]
  have h15 : ∀ i < (List.ofFn s.usr).length, b ≠ word (s.ram L.cur + 24) i := by
    intro i hi
    rw [List.length_ofFn] at hi
    rw [word_add_24]
    exact hb (i + 2) (by omega)
  have h2 : ∀ i < [s.spsr, s.lr].length, b ≠ word (s.ram L.cur + 16) i :=
    fun i hi ↦ hb i (Nat.lt_of_lt_of_le hi (by simp))
  exact (storeMany_of_ne h2).trans (storeMany_of_ne h15)

/-! ## Interrupts -/

/-- The processor in an interrupt of `c`, with the return address corrected. -/
def interrupted (c : Context) (sp : UInt32) (ram : Ram) : Cpu := ⟨c.usr, sp, c.pc, c.psr, ram⟩

theorem irqEnter_enter : irqEnter (enter c sp ram) = (interrupted c sp ram).stmdb scratch := by
  have hlr : c.pc + 4 - 4 = c.pc := add_sub_cancel_right _ _
  simp [irqEnter, enter, setReg, interrupted, hlr, scratch]

theorem keeps_irqCall (top : UInt32) :
    Keeps top ((interrupted c sp ram).stmdb scratch) (irqCall L (enter c sp ram)) := by
  rw [← irqEnter_enter]
  exact keeps_setReg top _ (r := 14) (by decide) _

variable {cIrq : Cpu → Cpu}

theorem keeps_irqFlag
    (hcall : Keeps top (irqCall L (enter c sp ram)) (cIrq (irqCall L (enter c sp ram)))) :
    Keeps top ((interrupted c sp ram).stmdb scratch) (irqFlag L cIrq (enter c sp ram)) :=
  (keeps_irqCall top).trans (hcall.trans
    ((keeps_setReg top _ (r := 14) (by decide) _).trans (keeps_readRescheduleFlag top _)))

@[simp] theorem ram_irqFlag (s : Cpu) : (irqFlag L cIrq s).ram = (cIrq (irqCall L s)).ram := by
  simp [irqFlag, bl, readRescheduleFlag, ldr]

theorem getReg_irqFlag (s : Cpu) :
    (irqFlag L cIrq s).getReg 0 = (cIrq (irqCall L s)).ram L.needReschedule := by
  simp [irqFlag, bl, readRescheduleFlag, ldr, getReg_setReg]

/-- **An interrupt that asks for no other process is invisible.** -/
theorem armIrqEntry_return (schedule : Cpu → Cpu) (hroom : 24 ≤ sp.toNat) (htop : sp ≤ top)
    {s : Cpu} (hs : s = irqCall L (enter c sp ram)) (hcall : Keeps top s (cIrq s))
    (hflag : (cIrq s).ram L.needReschedule = 0) :
    (armIrqEntry L cIrq schedule (enter c sp ram)).1 = c ∧
      (armIrqEntry L cIrq schedule (enter c sp ram)).2.sp = sp ∧
      (armIrqEntry L cIrq schedule (enter c sp ram)).2.ram = (cIrq s).ram := by
  subst hs
  obtain ⟨hctx, hsp, hram⟩ := (keeps_irqFlag hcall).ldmiaPc_stmdb hroom htop
  rw [armIrqEntry, if_pos ((getReg_irqFlag _).trans hflag)]
  exact ⟨hctx, hsp, hram.trans (ram_irqFlag _)⟩

/-- The memory in which `schedule` starts, when `c_irq` left `m` and interrupted `c`: the context is
saved in the process structure at `m cur`, `handler_irqstack` holds the stack pointer, and nothing
else but two words below the stack pointer has changed. -/
structure Saved (L : Symbols) (c : Context) (sp : UInt32) (m m' : Ram) : Prop where
  regs : savedRegs m' (m L.cur) = saveContext c
  handler : m' L.handlerIrqstack = sp
  other : ∀ b, (∀ i < 17, b ≠ word (m L.cur + 16) i) → b ≠ L.handlerIrqstack →
    (∀ i < 2, b ≠ word (sp - 8) i) → m' b = m b

/-- Where the variables may not be while `p` is the current process: in its saved registers, or
where the stack is used. -/
structure Clear (L : Symbols) (sp p : UInt32) : Prop where
  cur_ne : L.cur ≠ L.handlerIrqstack
  cur_stack : ∀ i < 2, L.cur ≠ word (sp - 8) i
  handler_stack : ∀ i < 2, L.handlerIrqstack ≠ word (sp - 8) i
  handler_regs : ∀ i < 17, L.handlerIrqstack ≠ word (p + 16) i

/-- **The context goes into the process structure at `cur`.** -/
theorem saved_scheduleCall (hroom : 24 ≤ sp.toNat) (htop : sp ≤ top) {s : Cpu}
    (hs : s = irqCall L (enter c sp ram)) (hcall : Keeps top s (cIrq s))
    (hclear : Clear L sp ((cIrq s).ram L.cur)) :
    Saved L c sp (cIrq s).ram (scheduleCall L cIrq (enter c sp ram)).ram ∧
      (scheduleCall L cIrq (enter c sp ram)).sp = sp := by
  subst hs
  have hpop := (keeps_irqFlag hcall).ldmia_stmdb hroom htop
  rw [ram_irqFlag] at hpop
  set m := (cIrq (irqCall L (enter c sp ram))).ram with hm
  set m₁ := Function.update (storeMany m (sp - 8) [c.usr 0, c.usr 1]) L.handlerIrqstack sp with hm₁
  have hrecord : recordSp L ((irqFlag L cIrq (enter c sp ram)).ldmia scratch) =
      ⟨c.usr, sp, c.pc, c.psr, m₁⟩ := by
    rw [hpop]
    exact recordSp_eq hclear.handler_stack
  have hcur : m₁ L.cur = m L.cur := by
    rw [hm₁, Function.update_of_ne hclear.cur_ne]
    exact storeMany_of_ne hclear.cur_stack
  set s₁ : Cpu := ⟨c.usr, sp, c.pc, c.psr, m₁⟩ with hs₁
  have hsave : irqSave L (irqFlag L cIrq (enter c sp ram)) = reloadSp L (storeTask L s₁) := by
    rw [← hrecord]
    rfl
  have hram : (scheduleCall L cIrq (enter c sp ram)).ram = (storeTask L s₁).ram := by
    rw [scheduleCall, ram_setReg, hsave, reloadSp_eq]
  have hother : ∀ b, (∀ i < 17, b ≠ word (m L.cur + 16) i) → (storeTask L s₁).ram b = m₁ b :=
    fun b hb ↦ ram_storeTask_of_ne (by rwa [show s₁.ram L.cur = m L.cur from hcur])
  have hhandler : (storeTask L s₁).ram L.handlerIrqstack = sp := by
    rw [hother _ hclear.handler_regs, hm₁, Function.update_self]
  refine ⟨⟨?_, ?_, fun b hb hb' hb'' ↦ ?_⟩, ?_⟩
  · rw [hram, ← hcur]
    exact savedRegs_storeTask s₁
  · rw [hram, hhandler]
  · rw [hram, hother b hb, hm₁, Function.update_of_ne hb']
    exact storeMany_of_ne hb''
  · rw [scheduleCall, sp_setReg, if_neg (by decide), hsave, reloadSp_eq]
    exact hhandler

/-- **The context that `schedule` leaves at `cur` is continued.** -/
theorem armIrqEntry_switch (schedule : Cpu → Cpu) {s t u : Cpu} (ht : t = irqCall L s)
    (hflag : (cIrq t).ram L.needReschedule ≠ 0) (hu : u = scheduleCall L cIrq s) :
    (armIrqEntry L cIrq schedule s).1 =
        loadContext (savedRegs (schedule u).ram ((schedule u).ram L.cur)) ∧
      (armIrqEntry L cIrq schedule s).2.sp = (schedule u).ram L.handlerIrqstack ∧
      (armIrqEntry L cIrq schedule s).2.ram = (schedule u).ram := by
  subst ht hu
  rw [armIrqEntry, if_neg (getReg_irqFlag s ▸ hflag)]
  simp only [loadTask_eq, and_self]

end Ertos
