import Ertos.Arch.Entry
import Ertos.Basis.Simulation
import Ertos.Kernel.Stack

/-!
# Every process has a processor of its own

What the exception entries, the scheduler and the alarms are for. On the abstract machine each
process has a context, and one to come back to after an alarm handler; a process executes, makes
system calls, and takes an alarm, and nothing else ever touches its context.

On the board there is one processor. `Board` is that processor outside the exception modes, the
stack pointers of the two modes, the memory as the assembly language routines see it, and the kernel
as the C functions see it; `Shows` says that the two views of memory agree on what both can see: the
current process, the flag, and the saved registers. A C function is any function on the processor
that does to the kernel what its model does, and keeps to the procedure call standard.

`Virtual` is the connection: the context of a process is that of the processor while the
process is current, and otherwise the saved one.
-/

namespace Ertos

open Arm Cpu Transition

/-! ## Memory -/

/-- Where the linker and `malloc` put things. -/
structure Layout extends Symbols where
  /-- The addresses that process structures can have. -/
  slot : Ptr → Prop
  irqTop : UInt32
  svcTop : UInt32
  irq_room : 24 ≤ irqTop.toNat
  svc_room : 32 ≤ svcTop.toNat
  cur_ne : cur ≠ handlerIrqstack
  need_ne : needReschedule ≠ handlerIrqstack
  slots : ∀ p q, slot p → slot q → p ≠ q → ∀ i < 17, ∀ j < 17,
    word (UInt32.ofNat p + 16) i ≠ word (UInt32.ofNat q + 16) j
  slot_stack : ∀ p, slot p → ∀ i < 17, ∀ j < 2,
    word (UInt32.ofNat p + 16) i ≠ word (irqTop - 8) j
  vars_slot : ∀ a ∈ [cur, needReschedule, handlerIrqstack], ∀ p, slot p → ∀ i < 17,
    a ≠ word (UInt32.ofNat p + 16) i
  vars_stack : ∀ a ∈ [cur, needReschedule, handlerIrqstack], ∀ i < 2, a ≠ word (irqTop - 8) i

/-- A process that the scheduler knows. -/
def Kernel.Has (k : Kernel) (q : Ptr) : Prop :=
  ∃ ring, ProcList k ring ∧ (q = k.idleTask ∨ q ∈ ring)

/-- The memory that the routines see is that of the kernel. -/
structure Shows (L : Layout) (ram : Ram) (k : Kernel) : Prop where
  cur : ram L.cur = UInt32.ofNat k.cur
  flag : ram L.needReschedule = if k.needReschedule then 1 else 0
  slot : ∀ q, k.Has q → L.slot q
  regs : ∀ q, k.Has q → savedRegs ram (UInt32.ofNat q) = (k.proc q).regs

/-- A function, called in state `s`, returned in state `t` and left the kernel `k`. -/
structure Called (L : Layout) (top : UInt32) (s t : Cpu) (k : Kernel) : Prop where
  keeps : Keeps top s t
  handler : t.ram L.handlerIrqstack = s.ram L.handlerIrqstack
  shows : Shows L t.ram k

/-! ## The board -/

structure Board where
  ctx : Context
  irqSp : UInt32
  svcSp : UInt32
  ram : Ram
  kernel : Kernel

inductive BoardEvent
  /-- The current process executes, and its context becomes `c`. -/
  | exec (c : Context)
  /-- It calls `spawn`, `enable_scheduler` or `disable_scheduler`. -/
  | call (e : Event) (c : Context)
  | svc (s : Syscall)
  /-- An interrupt, whose handler is the timer's or wakes the processes waiting on a completion. -/
  | irq (e : Event)

/-- The number of a system call. -/
def Syscall.num : Syscall → UInt32
  | .wait _ => 0
  | .wake _ => 1
  | .sleep _ => 2
  | .yield => 3
  | .eventSet _ => 4
  | .eventWait _ => 5
  | .alarm _ => 6
  | .uttDone => 7

/-- The call that `c_svc` makes of a number and an argument. The argument of an alarm points to a
structure in the memory of the process. -/
def Syscall.Made (num arg : UInt32) (s : Syscall) : Prop :=
  num = s.num ∧
    match s with
    | .wait c | .wake c => c = arg.toNat
    | .sleep n | .eventSet n | .eventWait n => n = arg
    | .yield | .alarm _ | .uttDone => True

/-- The kernel with the registers of the current process stored. -/
def Kernel.storeRegs (k : Kernel) (r : Regs) : Kernel :=
  k.modify k.cur fun x ↦ { x with regs := r }

/-- The events that `spawn` and its like are. -/
def Event.Called : Event → Prop
  | .spawn _ _ _ | .enableScheduler | .disableScheduler => True
  | _ => False

/-- The events that a handler is. -/
def Event.Handled : Event → Prop
  | .tick | .irqWake _ => True
  | _ => False

inductive BoardStep (L : Layout) (m : Board) : BoardEvent → Board → Prop
  | exec {c : Context} {ram : Ram} (hram : Shows L ram m.kernel) :
      BoardStep L m (.exec c) { m with ctx := c, ram := ram }
  | call {e : Event} {c : Context} {ram : Ram} {k : Kernel} (he : e.Called)
      (hst : Step m.kernel e k) (hram : Shows L ram k) :
      BoardStep L m (.call e c) { m with ctx := c, ram := ram, kernel := k }
  | svc {c : Syscall} {k : Kernel} {cSvc : Cpu → Cpu} {s : Cpu} {r : Context × Cpu}
      (hs : s = svcCall L.toSymbols (enter m.ctx m.svcSp m.ram))
      (hmade : c.Made (s.ram (word (s.getReg 1) 0)) (s.ram (word (s.getReg 1) 1)))
      (hst : Step m.kernel (.svc c) k) (hcall : Called L L.svcTop s (cSvc s) k)
      (hr : r = armSvcEntry L.toSymbols cSvc (enter m.ctx m.svcSp m.ram)) :
      BoardStep L m (.svc c) ⟨r.1, m.irqSp, r.2.sp, r.2.ram, k⟩
  | irq {e : Event} {k k' : Kernel} {cIrq schedule : Cpu → Cpu} {s t : Cpu} {r : Context × Cpu}
      (he : e.Handled) (hs : s = irqCall L.toSymbols (enter m.ctx m.irqSp m.ram))
      (hst : Step m.kernel e k) (hcall : Called L L.irqTop s (cIrq s) k)
      (hno : k.needReschedule = false → k' = k)
      (ht : t = scheduleCall L.toSymbols cIrq (enter m.ctx m.irqSp m.ram))
      -- `schedule` works on whatever registers it finds stored
      (hsched : k.needReschedule = true → ∀ regs, Shows L t.ram (k.storeRegs regs) →
        Step (k.storeRegs regs) .schedule k' ∧ Called L L.irqTop t (schedule t) k')
      (hr : r = armIrqEntry L.toSymbols cIrq schedule (enter m.ctx m.irqSp m.ram)) :
      BoardStep L m (.irq e) ⟨r.1, r.2.sp, m.svcSp, r.2.ram, k'⟩

/-! ## The abstract machine -/

structure Vcpus where
  /-- The processes. -/
  has : Ptr → Prop
  cur : Ptr
  cpu : Ptr → Context
  /-- What a process comes back to when its alarm handler is done. -/
  backup : Ptr → Context
  /-- The processes that have asked for an alarm. -/
  alarmed : Ptr → Prop

/-- The context in which the handler of an alarm starts. -/
def handlerContext (c : Context) (trampoline handler : UInt32) : Context where
  psr := c.psr
  pc := trampoline
  usr := fun r ↦ if r = 0 then handler else if r = 14 then trampoline else c.usr r

/-- What an interrupt may do to a process: nothing, or, if it is `alarmed`, start its alarm handler
or end it. -/
inductive Turns (alarmed : Prop) (c b : Context) : Context → Context → Prop
  | kept : Turns alarmed c b c b
  | alarm (h : alarmed) (trampoline handler : UInt32) :
      Turns alarmed c b (handlerContext c trampoline handler) c
  | done (h : alarmed) : Turns alarmed c b b b

theorem Turns.imp {P Q : Prop} {c b c' b' : Context} (h : Turns P c b c' b') (hPQ : P → Q) :
    Turns Q c b c' b' := by
  cases h with
  | kept => exact .kept
  | alarm hP => exact .alarm (hPQ hP) _ _
  | done hP => exact .done (hPQ hP)

/-- The context in which a process starts. -/
def spawnContext (a : SpawnAlloc) (entry : UInt32) (mode : ProcMode) : Context :=
  loadContext (spawnRegs (if mode = .system then 0x1F else 0x10) entry
    (a.stackBase + procStackSize - 4))

inductive VcpuStep (v : Vcpus) : BoardEvent → Vcpus → Prop
  | exec {c : Context} : VcpuStep v (.exec c) { v with cpu := Function.update v.cpu v.cur c }
  | spawn {a : SpawnAlloc} {entry : UInt32} {mode : ProcMode} {c : Context} (ha : ¬v.has a.proc)
      (ok : Prop) : VcpuStep v (.call (.spawn a entry mode) c) { v with
        has := fun q ↦ v.has q ∨ ok ∧ q = a.proc
        cpu := Function.update (Function.update v.cpu a.proc (spawnContext a entry mode)) v.cur c
        backup := Function.update v.backup a.proc (loadContext fun _ ↦ 0)
        alarmed := fun q ↦ q ≠ a.proc ∧ v.alarmed q }
  | call {e : Event} {c : Context} (he : ∀ a entry mode, e ≠ .spawn a entry mode) :
      VcpuStep v (.call e c) { v with cpu := Function.update v.cpu v.cur c }
  | svc {s : Syscall} (hmade : s.Made ((v.cpu v.cur).usr 0) ((v.cpu v.cur).usr 1)) :
      VcpuStep v (.svc s) { v with
        cpu := Function.update v.cpu v.cur { v.cpu v.cur with pc := (v.cpu v.cur).pc + 4 }
        alarmed := fun q ↦ v.alarmed q ∨ q = v.cur ∧ ∃ a, s = .alarm a }
  | irq {e : Event} {v' : Vcpus} (hhas : v'.has = v.has) (halarmed : v'.alarmed = v.alarmed)
      (hturns : ∀ q, Turns (v.alarmed q) (v.cpu q) (v.backup q) (v'.cpu q) (v'.backup q)) :
      VcpuStep v (.irq e) v'

/-! ## The connection -/

/-- The context of a process. -/
def Board.vcpu (m : Board) (q : Ptr) : Context :=
  if q = m.kernel.cur then m.ctx else loadContext (m.kernel.proc q).regs

/-- No alarm is set, and no handler runs. -/
def Proc.Quiet (x : Proc) : Prop := x.timer.next = 0 ∧ x.timer.active = false

/-- The board between two steps. -/
structure Board.Ready (L : Layout) (m : Board) : Prop where
  ringed : ∃ ring, Ringed m.kernel ring
  shows : Shows L m.ram m.kernel
  irqSp : m.irqSp = L.irqTop
  svcSp : m.svcSp = L.svcTop

structure Virtual (L : Layout) (m : Board) (v : Vcpus) : Prop extends Board.Ready L m where
  has : ∀ q, v.has q ↔ m.kernel.Has q
  cur : v.cur = m.kernel.cur
  cpu : ∀ q, m.kernel.Has q → v.cpu q = m.vcpu q
  backup : ∀ q, m.kernel.Has q → v.backup q = loadContext (m.kernel.proc q).backupRegs
  quiet : ∀ q, m.kernel.Has q → ¬v.alarmed q → (m.kernel.proc q).Quiet

end Ertos
