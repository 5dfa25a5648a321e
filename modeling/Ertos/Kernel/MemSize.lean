import Ertos.Kernel.MemPartition

/-!
# Blocks are large enough

Also in runs that break the partition (`MemPartition.lean`), what `malloc` returns is the start of a
chunk with room for the request. A chunk can be queued on the FIFO of a region other than its own,
but only on that of the region before it, where the chunks are smaller: the inclusive end of the
test in `free` errs to the safe side. So every element of the FIFO of region `i` is a chunk of at
least the size of region `i`, which is all that `malloc` relies on.
-/

namespace Ertos

open Transition

/-- A chunk of some region that is at least as large as those of region `i`. -/
def ChunkFrom (e i p : ℕ) : Prop := ∃ k < 9, i ≤ k ∧ p ∈ chunks e k

/-- The block is the start of a chunk, and ends inside it. -/
def InChunk (e : ℕ) (b : ℕ × ℕ) : Prop := ∃ k < 9, b.1 ∈ chunks e k ∧ b.2 ≤ chunkSize k

theorem chunkSize_mono {i k : ℕ} (h : i ≤ k) : chunkSize i ≤ chunkSize k := by
  rw [chunkSize_eq, chunkSize_eq]
  exact Nat.mul_le_mul_left 32 (Nat.pow_le_pow_right Nat.two_pos h)

theorem InChunk.not_share {e j c : ℕ} {b : ℕ × ℕ} (h : InChunk e b) (hc : c ∈ chunks e j)
    (hne : b.1 ≠ c) : ¬Share b (c, chunkSize j) := by
  obtain ⟨k, -, hb, hsize⟩ := h
  rintro ⟨x, h₁, h₂, h₃, h₄⟩
  rcases chunks_separated hb hc hne with h | h
  · omega
  · exact absurd (h₄.trans_le h) (Nat.not_lt.mpr h₁)

/-! ## The invariant -/

structure SizeInv (e : HeapStart) (s : HeapState) : Prop where
  pools : Pools e.addr s.mem
  fifo : ∀ i < 9, ∀ p ∈ s.mem.fifo i, ChunkFrom e.addr i p
  live : ∀ b ∈ s.live, InChunk e.addr b

theorem sizeInv_boot (e : HeapStart) : SizeInv e (heapBoot e) := by
  obtain ⟨hpools, hcont⟩ := memInit_pools e
  refine ⟨hpools, fun i hi p hp ↦ ⟨i, hi, le_rfl, ?_⟩, by simp [heapBoot]⟩
  rw [← hcont i hi]
  exact hp

namespace SizeInv

variable {e : HeapStart} {s t : HeapState}

theorem zero_notMem (hs : SizeInv e s) {i : ℕ} (hi : i < 9) : 0 ∉ s.mem.fifo i := by
  intro h
  obtain ⟨k, -, -, hmem⟩ := hs.fifo i hi 0 h
  exact absurd (pos_of_mem_chunks e hmem) (lt_irrefl 0)

theorem malloc_spec (hs : SizeInv e s) (size : ℕ) :
    MallocSpec e.addr size s.mem (malloc s.mem size) :=
  Ertos.malloc_spec hs.pools (fun _ hi ↦ hs.zero_notMem hi) size

/-- **What `malloc` returns has room for the request.** -/
theorem inChunk (hs : SizeInv e s) (size : ℕ) (hp : (Ertos.malloc s.mem size).1 ≠ NULL) :
    InChunk e.addr ((Ertos.malloc s.mem size).1, size) := by
  have hspec := hs.malloc_spec size
  generalize Ertos.malloc s.mem size = r at hp hspec
  cases hspec with
  | null => exact absurd rfl hp
  | @take i p l m' hi hsize hfifo hne =>
    have hmem : p ∈ s.mem.fifo i := by
      rw [hfifo]
      exact List.mem_cons_self
    obtain ⟨k, hk, hik, hpk⟩ := hs.fifo i hi p hmem
    exact ⟨k, hk, hpk, hsize.trans (chunkSize_mono hik)⟩

theorem malloc (hs : SizeInv e s) {size : ℕ} (h : HeapStep s (.malloc size) t) : SizeInv e t := by
  cases h
  have hspec := hs.malloc_spec size
  have hblock := hs.inChunk size
  generalize Ertos.malloc s.mem size = r at hspec hblock
  cases hspec with
  | null => exact hs
  | @take i p l m' hi hsize hfifo hne hpools hfifo' hframe =>
    refine ⟨hpools, fun j hj q hq ↦ ?_, fun b hb ↦ ?_⟩
    · -- what is left in a FIFO was in it before
      by_cases hji : j = i
      · subst hji
        rw [hfifo'] at hq
        refine hs.fifo j hj q ?_
        rw [hfifo]
        exact List.mem_cons_of_mem p hq
      · rw [hframe j hji] at hq
        exact hs.fifo j hj q hq
    · simp only [if_neg (show p ≠ NULL from hne)] at hb
      rcases List.mem_cons.mp hb with rfl | hb
      · exact hblock hne
      · exact hs.live b hb

/-- A chunk comes to its own FIFO or to the one of the region before. -/
theorem free (hs : SizeInv e s) {p : ℕ} (h : HeapStep s (.free p) t) : SizeInv e t := by
  cases h with
  | free _ hp =>
  obtain ⟨b, hb, rfl⟩ := List.mem_map.mp hp
  obtain ⟨k, hk, hpk, -⟩ := hs.live b hb
  obtain ⟨hpools, hfifo⟩ := free_spec hs.pools hpk
  refine ⟨hpools, fun i hi q hq ↦ ?_, fun c hc ↦ hs.live c (List.mem_of_mem_eraseP hc)⟩
  rw [hfifo i hi] at hq
  split_ifs at hq with hhit
  · rcases List.mem_append.mp hq with hq | hq
    · exact hs.fifo i hi q hq
    · obtain rfl := List.mem_singleton.mp hq
      refine ⟨k, hk, ?_, hpk⟩
      rcases hhit.1 with rfl | hend
      · exact le_rfl
      · -- the inclusive end: the chunk is the first of the next region, and larger
        have hnext : b.1 ∈ chunks e.addr (i + 1) := by
          rw [hend]
          exact poolBase_mem e (i + 1)
        exact (eq_of_mem_chunks hpk hnext).ge.trans' (Nat.le_succ i)
  · exact hs.fifo i hi q hq

theorem step {o : HeapOp} (hs : SizeInv e s) (h : HeapStep s o t) : SizeInv e t := by
  cases o with
  | malloc size => exact hs.malloc h
  | free p => exact hs.free h

end SizeInv

/-! ## The theorem -/

/-- Whatever is requested next, a block that `malloc` returns is the start of a chunk at least as
large as the request, and shares no byte with another chunk. -/
def MallocFits (e : HeapStart) (s : HeapState) : Prop :=
  ∀ size, (malloc s.mem size).1 ≠ NULL →
    ∃ k < 9, (malloc s.mem size).1 ∈ chunks e.addr k ∧ size ≤ chunkSize k ∧
      ∀ j < 9, ∀ c ∈ chunks e.addr j, c ≠ (malloc s.mem size).1 →
        ¬Share ((malloc s.mem size).1, size) (c, chunkSize j)

/-- **Blocks are large enough** in every state that a run of `malloc` and `free` reaches, also when
a chunk is stored twice. -/
theorem always_mallocFits (e : HeapStart) {r : List (HeapOp × HeapState)}
    (hrun : IsRun HeapStep (heapBoot e) r) : Always (MallocFits e) (heapBoot e) r := by
  have hinv : Always (SizeInv e) (heapBoot e) r :=
    always_of_step (fun _ _ _ hs h ↦ hs.step h) (sizeInv_boot e) hrun
  refine hinv.imp fun s hs size hp ↦ ?_
  have hblock := hs.inChunk size hp
  obtain ⟨k, hk, hmem, hsize⟩ := id hblock
  exact ⟨k, hk, hmem, hsize, fun j _ c hc hne ↦ hblock.not_share hc hne.symm⟩

theorem always_mallocFits_twoBlocks :
    Always (MallocFits heapExample) (heapBoot heapExample)
      (twoBlocksRun heapExample (poolBase heapExample.addr 1)) :=
  always_mallocFits heapExample (isRun_twoBlocksRun heapExample List.mem_cons_self)

end Ertos
