import Ertos.Arch.Entry

/-!
# The user's side of a system call

`__syscall` of `syscall_arm.s`, from the call by a C function to the return to it. It saves the
scratch registers around the `swi`, as `arm_svc_entry` does a second time around `c_svc`. The first
of them is the one a C function returns its result in. So what `wait` and its like return is the
number of the system call, for which they were written to return what `c_svc` returns.
-/

namespace Ertos

open Arm Cpu

/-- `swi`: what the processor is in, and what memory, when the next instruction is executed. -/
def swi (L : Symbols) (cSvc : Cpu → Cpu) (svcSp : UInt32) (c : Context) (m : Ram) : Context × Ram :=
  let r := armSvcEntry L cSvc (enter c svcSp m)
  (r.1, r.2.ram)

/-- `__syscall`, called with the number in `r0` and the argument in `r1`. -/
def syscall (swi : Context → Ram → Context × Ram) (c : Context) (m : Ram) : Context × Ram :=
  let p := c.stmdb m [0, 1, 2, 3, 12, 14]   -- stmdb sp!, {r0-r3,r12,lr}
  let p := swi p.1 p.2                      -- swi 0x0
  (p.1.ldmiaPc p.2 [0, 1, 2, 3, 12], p.2)   -- ldmia sp!, {r0-r3,r12,pc}

variable {L : Symbols} {cSvc : Cpu → Cpu} {c : Context} {m : Ram} {svcSp top : UInt32}

/-- **A system call returns its number.** `c_svc` finds the number and the argument, and whatever it
returns, the caller continues with all of its registers as they were. -/
theorem syscall_returns_number (hroom : 32 ≤ svcSp.toNat) (htop : svcSp ≤ top) {p : Context × Ram}
    (hp : p = c.stmdb m [0, 1, 2, 3, 12, 14]) {s : Cpu} (hs : s = svcCall L (enter p.1 svcSp p.2))
    (hcall : Keeps top s (cSvc s))
    -- the kernel writes elsewhere
    (hframe : ∀ i < 6, (cSvc s).ram (word (p.1.usr 13) i) = p.2 (word (p.1.usr 13) i)) :
    (s.ram (word (s.getReg 1) 0) = c.usr 0 ∧ s.ram (word (s.getReg 1) 1) = c.usr 1) ∧
      syscall (swi L cSvc svcSp) c m = (⟨c.psr, c.usr 14, c.usr⟩, (cSvc s).ram) := by
  obtain ⟨h0, h1⟩ := svcCall_args hroom hs
  obtain ⟨hctx, -, hram⟩ := armSvcEntry_spec hroom htop hs hcall
  have hpushed : p.1 = { c with
      pc := c.pc + 4, usr := Function.update c.usr 13 (c.usr 13 - 24) } := congrArg Prod.fst hp
  refine ⟨⟨h0.trans ?_, h1.trans ?_⟩, ?_⟩
  · rw [hpushed]
    rfl
  · rw [hpushed]
    rfl
  · have hload : loadMany (cSvc s).ram (p.1.usr 13) 6 = [0, 1, 2, 3, 12, 14].map c.usr := by
      rw [loadMany_congr hframe, hp]
      exact loadMany_storeMany (by simp)
    set t : Context := ⟨p.1.psr, p.1.pc + 4, p.1.usr⟩
    have husr : t.usr = (c.stmdb m ([0, 1, 2, 3, 12] ++ [14])).1.usr := congrArg (·.1.usr) hp
    have hpsr : t.psr = c.psr := by
      show p.1.psr = c.psr
      rw [hpushed]
    have hret := Context.ldmiaPc_stmdb husr hload
    rw [hpsr] at hret
    rw [syscall, ← hp, swi, hctx, hram]
    exact congrArg (·, (cSvc s).ram) hret

/-- A call of `SYS_SLEEP`, for which `c_svc` returns -1. -/
theorem syscall_returns_number_sleep :
    let L : Symbols := ⟨0x100, 0x104, 0x108, 0x40000, 0x40100⟩
    let c : Context := ⟨0x10, 0x2000, fun r ↦ if r = 13 then 0x60000 else 2⟩
    let s := svcCall L (enter (c.stmdb (fun _ ↦ 0) [0, 1, 2, 3, 12, 14]).1 0x30000
      (c.stmdb (fun _ ↦ 0) [0, 1, 2, 3, 12, 14]).2)
    (s.ram (word (s.getReg 1) 0) = 2 ∧ s.ram (word (s.getReg 1) 1) = 2) ∧
      syscall (swi L (·.setReg 0 0xFFFFFFFF) 0x30000) c (fun _ ↦ 0) = (⟨0x10, 2, c.usr⟩, s.ram) :=
  @syscall_returns_number _ _ _ _ _ 0x30000 (by decide) (by decide) _ rfl _ rfl
    (keeps_setReg _ _ (by decide) _) (by decide +kernel)

end Ertos
