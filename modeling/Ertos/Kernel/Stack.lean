import Ertos.Kernel.Machine
import Ertos.Kernel.MemPartition

/-!
# The stacks of new processes

`do_spawn` computes the top of the new stack twice: `proc->stack` is already four bytes below the
end of the block, and the stack pointer it stores adds the stack size to that once more. The
descending stack of every process therefore starts almost a stack size above its own block.

The runs here are those of `malloc`, `free` and `spawn`, with an allocator of which nothing is
assumed but that it hands out memory nobody holds.
-/

namespace Ertos

open Transition

/-! ## The memory of a process -/

/-- `sizeof(struct proc)`. -/
abbrev sizeofProc : ℕ := 224

/-- `sizeof(struct self)`. -/
abbrev sizeofSelf : ℕ := 16

abbrev stdoutSize : ℕ := 1024

/-- All four calls of `malloc` succeed. -/
structure SpawnAlloc.Complete (a : SpawnAlloc) : Prop where
  proc : a.proc ≠ NULL
  stackBase : a.stackBase ≠ NULL
  self : a.self ≠ NULL
  stdout : a.stdout ≠ NULL

/-- The blocks a new process holds. -/
def SpawnAlloc.blocks (a : SpawnAlloc) : List (ℕ × ℕ) :=
  [(a.stdout, stdoutSize), (a.self, sizeofSelf), (a.stackBase, procStackSize),
    (a.proc, sizeofProc)]

theorem spawn_proc (k : Kernel) (a : SpawnAlloc) (entry : UInt32) (mode : ProcMode) :
    (spawn k a entry mode).2.proc = (doSpawn k a entry mode).2.proc := by
  cases hcall : doSpawn k a entry mode with
  | mk p t =>
    rw [spawn_eq hcall]
    split_ifs
    · rfl
    · exact proc_link t p

theorem spawn_of_complete (k : Kernel) {a : SpawnAlloc} (ha : a.Complete) (entry : UInt32)
    (mode : ProcMode) : (spawn k a entry mode).2.proc a.proc = spawnedProc k a entry mode := by
  rw [spawn_proc, doSpawn]
  simp only [if_neg ha.proc, if_neg ha.stackBase, if_neg (not_or.mpr ⟨ha.self, ha.stdout⟩)]
  exact Kernel.proc_modify_self { k with nextPid := k.nextPid + 1 } a.proc
    fun _ ↦ spawnedProc k a entry mode

/-- The stack pointer a new process starts with, `sp` being the sixteenth register. -/
theorem sp_spawnedProc (k : Kernel) (a : SpawnAlloc) (entry : UInt32) (mode : ProcMode) :
    ((spawnedProc k a entry mode).regs 15).toNat = (a.stackBase + 8184) % 2 ^ 32 := by
  have htop (b : ℕ) : b + 4096 - 4 + 4096 - 4 = b + 8184 := by omega
  show (UInt32.ofNat (a.stackBase + 4096 - 4 + 4096 - 4)).toNat = _
  rw [htop, UInt32.toNat_ofNat']

/-! ## Runs -/

structure StackState where
  kernel : Kernel
  /-- The blocks in use: their addresses and sizes. -/
  live : List (ℕ × ℕ)

/-- What `malloc` may return for `n` bytes when `live` is in use: nothing, or a block within the
address space that shares no byte with another. -/
def Hands (live : List (ℕ × ℕ)) (p n : ℕ) : Prop :=
  p = NULL ∨ p + n ≤ 2 ^ 32 ∧ ∀ b ∈ live, ¬Share (p, n) b

/-- What the calls of `do_spawn` may return, one after the other. -/
structure HandsSpawn (live : List (ℕ × ℕ)) (a : SpawnAlloc) : Prop where
  proc : Hands live a.proc sizeofProc
  stackBase : Hands ((a.proc, sizeofProc) :: live) a.stackBase procStackSize
  self : Hands ((a.stackBase, procStackSize) :: (a.proc, sizeofProc) :: live) a.self sizeofSelf
  stdout : Hands ((a.self, sizeofSelf) :: (a.stackBase, procStackSize) :: (a.proc, sizeofProc) ::
    live) a.stdout stdoutSize

inductive StackOp
  | malloc (p n : ℕ)
  | free (b : ℕ × ℕ)
  | spawn (a : SpawnAlloc) (entry : UInt32) (mode : ProcMode)
  | spawnFails (a : SpawnAlloc) (entry : UInt32) (mode : ProcMode)

/-- A failing `do_spawn` frees what it had allocated. -/
inductive StackStep : StackState → StackOp → StackState → Prop
  | malloc {s : StackState} {p n : ℕ} (h : Hands s.live p n) :
      StackStep s (.malloc p n) { s with live := if p = NULL then s.live else (p, n) :: s.live }
  | free {s : StackState} {b : ℕ × ℕ} (h : b ∈ s.live) :
      StackStep s (.free b) { s with live := s.live.erase b }
  | spawn {s : StackState} {a : SpawnAlloc} {entry : UInt32} {mode : ProcMode}
      (ha : a.Complete) (h : HandsSpawn s.live a) :
      StackStep s (.spawn a entry mode)
        ⟨(Ertos.spawn s.kernel a entry mode).2, a.blocks ++ s.live⟩
  | spawnFails {s : StackState} {a : SpawnAlloc} {entry : UInt32} {mode : ProcMode}
      (ha : ¬a.Complete) (h : HandsSpawn s.live a) :
      StackStep s (.spawnFails a entry mode) ⟨(Ertos.spawn s.kernel a entry mode).2, s.live⟩

/-- The stack pointer of `x` lies inside the block allocated as its stack. -/
def Proc.SpInStack (x : Proc) : Prop :=
  x.stackBase ≤ (x.regs 15).toNat ∧ (x.regs 15).toNat ≤ x.stackBase + procStackSize

theorem stackTop_outside (b : ℕ) : b + 4096 ≤ 2 ^ 32 →
    ¬(b ≤ (b + 8184) % 2 ^ 32 ∧ (b + 8184) % 2 ^ 32 ≤ b + 4096) := by omega

theorem not_spInStack_of_step {s t : StackState} {a : SpawnAlloc} {entry : UInt32}
    {mode : ProcMode} (h : StackStep s (.spawn a entry mode) t) :
    ¬(t.kernel.proc a.proc).SpInStack := by
  cases h with
  | spawn ha h =>
    have hfits : a.stackBase + 4096 ≤ 2 ^ 32 := (h.stackBase.resolve_left ha.stackBase).1
    rw [spawn_of_complete s.kernel ha, Proc.SpInStack, sp_spawnedProc]
    exact stackTop_outside a.stackBase hfits

/-- **No process starts inside its stack.** In every run of `malloc`, `free` and `spawn`, the stack
pointer of every process created is outside the block allocated for its stack. -/
theorem spawned_sp_outside_stack {s : StackState} {r : List (StackOp × StackState)}
    (hrun : IsRun StackStep s r) :
    ∀ a entry mode t, (StackOp.spawn a entry mode, t) ∈ r →
      ¬(t.kernel.proc a.proc).SpInStack := by
  intro a entry mode t ht
  obtain ⟨u, -, hstep⟩ := hrun.step_of_mem (P := fun _ ↦ True) (always_of_step
    (fun _ _ _ _ _ ↦ trivial) trivial hrun) ht
  exact not_spInStack_of_step hstep

/-! ## A corrupted neighbour -/

def neighbourAlloc : SpawnAlloc := ⟨0x5000, 0x6000, 0x8000, 0x9000⟩

/-- A page is handed out, then a process is created whose stack lies right below it. -/
def neighbourRun : List (StackOp × StackState) :=
  [(.malloc 0x7000 4096, ⟨bootKernel, [(0x7000, 4096)]⟩),
    (.spawn neighbourAlloc 0x400 .user,
      ⟨(spawn bootKernel neighbourAlloc 0x400 .user).2, neighbourAlloc.blocks ++ [(0x7000, 4096)]⟩)]

theorem complete_neighbourAlloc : neighbourAlloc.Complete :=
  ⟨by decide, by decide, by decide, by decide⟩

theorem not_share_of_apart {p n q m : ℕ} (h : p + n ≤ q ∨ q + m ≤ p) : ¬Share (p, n) (q, m) := by
  rintro ⟨x, hp, hpn, hq, hqm⟩
  dsimp only at hp hpn hq hqm
  omega

theorem isRun_neighbourRun : IsRun StackStep ⟨bootKernel, []⟩ neighbourRun := by
  have hmalloc : Hands [] 0x7000 4096 := Or.inr ⟨by decide, fun b hb ↦ absurd hb List.not_mem_nil⟩
  refine ⟨.malloc hmalloc, .spawn complete_neighbourAlloc ⟨?_, ?_, ?_, ?_⟩, trivial⟩ <;>
    refine Or.inr ⟨by decide, ?_⟩ <;>
    simp only [neighbourAlloc, List.forall_mem_cons, List.not_mem_nil, false_imp_iff, implies_true,
      and_true]
  · exact not_share_of_apart (by decide)
  · exact ⟨not_share_of_apart (by decide), not_share_of_apart (by decide)⟩
  · exact ⟨not_share_of_apart (by decide), not_share_of_apart (by decide),
      not_share_of_apart (by decide)⟩
  · exact ⟨not_share_of_apart (by decide), not_share_of_apart (by decide),
      not_share_of_apart (by decide), not_share_of_apart (by decide)⟩

theorem spawned_sp_outside_stack_neighbourRun :
    ¬(((spawn bootKernel neighbourAlloc 0x400 .user).2).proc neighbourAlloc.proc).SpInStack :=
  spawned_sp_outside_stack isRun_neighbourRun neighbourAlloc 0x400 .user _
    (List.mem_cons_of_mem _ List.mem_cons_self)

/-- **The new stack pointer is inside another block.** -/
theorem neighbour_stack_corrupted :
    IsRun StackStep ⟨bootKernel, []⟩ neighbourRun ∧
      ∃ t, (StackOp.spawn neighbourAlloc 0x400 .user, t) ∈ neighbourRun ∧
        ¬(t.kernel.proc neighbourAlloc.proc).SpInStack ∧ (0x7000, 4096) ∈ t.live ∧
        0x7000 ≤ ((t.kernel.proc neighbourAlloc.proc).regs 15).toNat ∧
        ((t.kernel.proc neighbourAlloc.proc).regs 15).toNat < 0x7000 + 4096 := by
  refine ⟨isRun_neighbourRun, _, List.mem_cons_of_mem _ List.mem_cons_self, ?_, by decide, ?_⟩
  · exact not_spInStack_of_step isRun_neighbourRun.2.1
  · rw [spawn_of_complete bootKernel complete_neighbourAlloc, sp_spawnedProc]
    decide

end Ertos
