import Ertos.Sys.Bfifo
import Mathlib.Tactic.IntervalCases
import Mathlib.Tactic.Ring

/-!
# The allocator of `kernel/mem.c`

Memory comes from a bump allocator, `smalloc`. At boot `mem_init` carves `9 * 128` chunks out of it:
nine regions, one behind the other, the `i`-th holding `128` chunks of `32 * 2^i` bytes. Each region
has a descriptor with its bounds and a FIFO of its free chunks. Afterwards `malloc` takes a chunk
from the first FIFO whose size suffices and that is not empty, and `free` queues a pointer on the
FIFO of every region whose bounds contain it.

Addresses and sizes are 32-bit words; the arithmetic of `smalloc` wraps, and the model keeps the
remainders. That nothing wraps during `mem_init` is a consequence of `HeapStart`, the guarantee of
the linker scripts about `__end__`.
-/

namespace Ertos

/-! ## Constants of the source -/

/-- Smallest allocation chunk. -/
abbrev allocMin : ℕ := 32

/-- Number of allocation shifts. -/
abbrev allocSteps : ℕ := 9

/-- Number of chunks per allocation step. -/
abbrev allocNum : ℕ := 128

abbrev smallocSize : ℕ := 0x00100000

/-- `sizeof(struct mem_desc)`. -/
abbrev sizeofMemDesc : ℕ := 20

/-- `sizeof(struct bfifo) + sizeof(void *) * (ALLOC_NUM - 1)`. -/
abbrev fsize : ℕ := 20 + 4 * (allocNum - 1)

/-- The heap size `mem_init` computes. -/
def heapSizeInit : ℕ :=
  smallocSize + (fsize + sizeofMemDesc) * allocSteps
    + ((List.range allocSteps).map fun i ↦ (allocMin <<< i) * allocNum).sum

/-- Subtraction of 32-bit words. -/
def wordSub (a b : ℕ) : ℕ := (a + (2 ^ 32 - b % 2 ^ 32)) % 2 ^ 32

theorem wordSub_of_le {a b : ℕ} (hba : b ≤ a) (ha : a < 2 ^ 32 + b) (hb : b < 2 ^ 32) :
    wordSub a b = a - b := by
  unfold wordSub
  rw [Nat.mod_eq_of_lt hb, show a + (2 ^ 32 - b) = a - b + 2 ^ 32 by omega, Nat.add_mod_right]
  exact Nat.mod_eq_of_lt (by omega)

/-! ## State -/

/-- `struct mem_desc`. -/
structure MemDesc where
  /-- Least number of remaining chunks ever seen. -/
  leastFree : ℕ
  /-- Chunk size. -/
  size : ℕ
  /-- Allocation region start. -/
  start : ℕ
  /-- Allocation region end. -/
  end_ : ℕ
  /-- Free chunks. -/
  allocations : BoundedFifo

/-- The static variables of `mem.c`. -/
structure Mem where
  heapStart : ℕ
  heapSize : ℕ
  heapCur : ℕ
  memDesc : ℕ → MemDesc
  dmallocEnabled : Bool

def Mem.setDesc (m : Mem) (i : ℕ) (d : MemDesc) : Mem :=
  { m with memDesc := Function.update m.memDesc i d }

section SetDesc

variable (m : Mem) (i j : ℕ) (d : MemDesc)

@[simp] theorem Mem.memDesc_setDesc_self : (m.setDesc i d).memDesc i = d :=
  Function.update_self _ _ _

theorem Mem.memDesc_setDesc_of_ne (h : j ≠ i) : (m.setDesc i d).memDesc j = m.memDesc j :=
  Function.update_of_ne h _ _

@[simp] theorem Mem.heapStart_setDesc : (m.setDesc i d).heapStart = m.heapStart := rfl

@[simp] theorem Mem.heapSize_setDesc : (m.setDesc i d).heapSize = m.heapSize := rfl

@[simp] theorem Mem.heapCur_setDesc : (m.setDesc i d).heapCur = m.heapCur := rfl

@[simp] theorem Mem.dmallocEnabled_setDesc : (m.setDesc i d).dmallocEnabled = m.dmallocEnabled :=
  rfl

end SetDesc

/-! ## The bump allocator -/

def smalloc (m : Mem) (size : ℕ) : ℕ × Mem :=
  if size ≤ wordSub m.heapSize (wordSub m.heapCur m.heapStart) then
    let cur := (m.heapCur + size) % 2 ^ 32
    let cur := if cur % 4 ≠ 0 then (cur + (4 - cur % 4)) % 2 ^ 32 else cur
    (m.heapCur, { m with heapCur := cur })
  else (NULL, m)

theorem smalloc_of_fits {m : Mem} (size : ℕ) (hpos : 0 < m.heapStart)
    (hstart : m.heapStart ≤ m.heapCur)
    (hfits : m.heapCur + size < m.heapStart + m.heapSize)
    (hend : m.heapStart + m.heapSize ≤ 2 ^ 32) (halign : 4 ∣ m.heapCur + size) :
    smalloc m size = (m.heapCur, { m with heapCur := m.heapCur + size }) := by
  have hused : wordSub m.heapCur m.heapStart = m.heapCur - m.heapStart :=
    wordSub_of_le hstart (by omega) (by omega)
  have hleft : wordSub m.heapSize (m.heapCur - m.heapStart)
      = m.heapSize - (m.heapCur - m.heapStart) :=
    wordSub_of_le (by omega) (by omega) (by omega)
  have hcur : (m.heapCur + size) % 2 ^ 32 = m.heapCur + size := Nat.mod_eq_of_lt (by omega)
  rw [smalloc, hused, hleft, if_pos (by omega), hcur]
  simp only [Nat.mod_eq_zero_of_dvd halign, ne_eq, not_true_eq_false, if_false]

/-! ## The pool allocator -/

/-- The search of `malloc` over the remaining descriptors. -/
def mallocFrom (size : ℕ) : List ℕ → Mem → ℕ × Mem
  | [], m => (NULL, m)
  | i :: is, m =>
    let d := m.memDesc i
    if d.size < size then mallocFrom size is m
    else
      let (p, q) := d.allocations.dequeue
      let m := m.setDesc i { d with allocations := q }
      if p ≠ NULL then
        (p, m.setDesc i { d with
          allocations := q
          leastFree := if q.free < d.leastFree then q.free else d.leastFree })
      else mallocFrom size is m

def malloc (m : Mem) (size : ℕ) : ℕ × Mem :=
  if m.dmallocEnabled = false then smalloc m size
  else mallocFrom size (List.range allocSteps) m

/-- One iteration of the loop of `free`: both bounds are inclusive. -/
def freeDesc (ptr : ℕ) (m : Mem) (i : ℕ) : Mem :=
  let d := m.memDesc i
  if d.start ≤ ptr ∧ ptr ≤ d.end_ then
    m.setDesc i { d with allocations := (d.allocations.queue ptr).2 }
  else m

def free (m : Mem) (ptr : ℕ) : Mem :=
  if m.dmallocEnabled = false then m
  else (List.range allocSteps).foldl (freeDesc ptr) m

/-! ## Boot

Both loops of `mem_init` return from the function when `smalloc` fails, leaving the pools disabled;
an early return is an `Except` error carrying the state it leaves behind. -/

/-- One iteration of the first loop: a descriptor and its FIFO. -/
def memInitDesc (m : Mem) (i : ℕ) : Except Mem Mem :=
  let (p, m) := smalloc m sizeofMemDesc
  if p = NULL then .error m
  else
    let m := m.setDesc i { m.memDesc i with leastFree := allocNum, size := allocMin <<< i }
    let (p, m) := smalloc m fsize
    if p = NULL then .error m
    else .ok (m.setDesc i { m.memDesc i with allocations := BoundedFifo.init allocNum })

/-- One iteration of the inner loop: the `j`-th chunk of region `i`. -/
def memInitChunk (i : ℕ) (s : ℕ × Mem) (j : ℕ) : Except Mem (ℕ × Mem) :=
  let (p, m) := smalloc s.2 (s.2.memDesc i).size
  if p = NULL then .error m
  else
    let d := m.memDesc i
    let d := { d with allocations := (d.allocations.queue p).2 }
    .ok (p, m.setDesc i (if j = 0 then { d with start := p } else d))

/-- One iteration of the second loop: the chunks of region `i`, and its end. -/
def memInitPool (m : Mem) (i : ℕ) : Except Mem Mem :=
  match (List.range allocNum).foldlM (memInitChunk i) (NULL, m) with
  | .error m => .error m
  | .ok (p, m) =>
    .ok (m.setDesc i { m.memDesc i with end_ := (p + (m.memDesc i).size) % 2 ^ 32 })

/-- Memory before `mem_init`: the static variables are zero. -/
def memCleared : Mem where
  heapStart := NULL
  heapSize := 0
  heapCur := NULL
  memDesc := fun _ ↦ ⟨0, 0, NULL, NULL, BoundedFifo.init 0⟩
  dmallocEnabled := false

/-- `mem_init`, with the linker's `__end__` as its argument. -/
def memInit (end_ : ℕ) : Mem :=
  let m := { memCleared with heapSize := heapSizeInit, heapStart := end_, heapCur := end_ }
  match (List.range allocSteps).foldlM memInitDesc m with
  | .error m => m
  | .ok m =>
    match (List.range allocSteps).foldlM memInitPool m with
    | .error m => m
    | .ok m => { m with dmallocEnabled := true }

/-- What the linker scripts guarantee about `__end__`: it is aligned, lies in RAM, and the heap
placed there ends within the address space. -/
structure HeapStart where
  addr : ℕ
  pos : 0 < addr
  aligned : 4 ∣ addr
  fits : addr + heapSizeInit ≤ 2 ^ 32

end Ertos
