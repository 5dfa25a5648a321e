import Ertos.Kernel.Mem
import Mathlib.Data.List.Nodup

/-!
# The state `mem_init` builds

None of the `smalloc` calls of `mem_init` fails, so it reaches its end with the pools enabled: the
nine regions lie one behind the other, region `i` starting at `poolBase e i`, and the FIFO of region
`i` holds exactly its `128` chunks in address order.

Each of the three nested loops has an invariant of its own (`DescsDone`, `ChunksDone`, `PoolsDone`),
and `foldlM_range_ok` turns a step lemma into a statement about the loop.
-/

namespace Ertos

/-! ## The layout -/

/-- The chunk size of region `i`. -/
def chunkSize (i : ℕ) : ℕ := allocMin <<< i

/-- The start of region `i`, for a heap at `e`. Descriptors and FIFOs come first. -/
def poolBase (e : ℕ) : ℕ → ℕ
  | 0 => e + (sizeofMemDesc + fsize) * allocSteps
  | i + 1 => poolBase e i + chunkSize i * allocNum

/-- The chunks of region `i`, in address order. -/
def chunks (e i : ℕ) : List ℕ := (List.range allocNum).map fun j ↦ poolBase e i + chunkSize i * j

theorem chunkSize_eq (i : ℕ) : chunkSize i = 32 * 2 ^ i := Nat.shiftLeft_eq _ _

theorem chunkSize_pos (i : ℕ) : 0 < chunkSize i := by
  rw [chunkSize_eq]
  positivity

theorem four_dvd_chunkSize (i : ℕ) : 4 ∣ chunkSize i := by
  rw [chunkSize_eq]
  exact (by decide : 4 ∣ 32).mul_right _

theorem poolBase_succ (e i : ℕ) : poolBase e (i + 1) = poolBase e i + chunkSize i * 128 := rfl

theorem poolBase_mono (e : ℕ) {i j : ℕ} (h : i ≤ j) : poolBase e i ≤ poolBase e j := by
  induction h with
  | refl => exact le_rfl
  | step _ ih => exact ih.trans (Nat.le_add_right _ _)

theorem poolBase_nine (e : ℕ) : poolBase e 9 = e + 2097988 := by
  have h₀ : poolBase e 0 = e + 4932 := rfl
  simp only [poolBase_succ, chunkSize_eq, h₀]
  omega

theorem heapSizeInit_eq : heapSizeInit = 3146564 := by decide

theorem four_dvd_poolBase {e : ℕ} (he : 4 ∣ e) (i : ℕ) : 4 ∣ poolBase e i := by
  induction i with
  | zero => exact Nat.dvd_add he (by decide)
  | succ i ih => exact Nat.dvd_add ih ((four_dvd_chunkSize i).mul_right _)

theorem chunk_end_le (e i : ℕ) {j : ℕ} (hj : j < 128) :
    poolBase e i + chunkSize i * j + chunkSize i ≤ poolBase e (i + 1) := by
  have h : chunkSize i * (j + 1) ≤ chunkSize i * 128 := Nat.mul_le_mul_left _ hj
  rw [poolBase_succ]
  rw [Nat.mul_add, Nat.mul_one] at h
  omega

theorem mem_chunks {e i p : ℕ} :
    p ∈ chunks e i ↔ ∃ j < 128, p = poolBase e i + chunkSize i * j := by
  simp [chunks, eq_comm]

theorem le_of_mem_chunks {e i p : ℕ} (hp : p ∈ chunks e i) : poolBase e i ≤ p := by
  obtain ⟨j, -, rfl⟩ := mem_chunks.mp hp
  exact Nat.le_add_right _ _

theorem end_le_of_mem_chunks {e i p : ℕ} (hp : p ∈ chunks e i) :
    p + chunkSize i ≤ poolBase e (i + 1) := by
  obtain ⟨j, hj, rfl⟩ := mem_chunks.mp hp
  exact chunk_end_le e i hj

theorem nodup_chunks (e i : ℕ) : (chunks e i).Nodup := by
  refine List.Nodup.map (fun a b h ↦ ?_) List.nodup_range
  exact Nat.eq_of_mul_eq_mul_left (chunkSize_pos i) (Nat.add_left_cancel h)

/-! ## The loops -/

/-- A loop over `0, …, n - 1` whose body never returns early, and the invariant it establishes. -/
theorem foldlM_range_ok {ε β : Type*} {f : β → ℕ → Except ε β} {P : ℕ → β → Prop} {n : ℕ} {b : β}
    (h0 : P 0 b) (hstep : ∀ k < n, ∀ b, P k b → ∃ b', f b k = .ok b' ∧ P (k + 1) b') :
    ∃ b', (List.range n).foldlM f b = .ok b' ∧ P n b' := by
  induction n with
  | zero => exact ⟨b, rfl, h0⟩
  | succ n ih =>
    obtain ⟨b', hb', hP⟩ := ih fun k hk ↦ hstep k (by omega)
    obtain ⟨b'', hb'', hP'⟩ := hstep n (by omega) b' hP
    refine ⟨b'', ?_, hP'⟩
    rw [List.range_succ, List.foldlM_append, hb']
    show (List.foldlM f b' [n] : Except ε β) = _
    rw [List.foldlM_cons, hb'']
    rfl

theorem Mem.forall_setDesc {m : Mem} {k n : ℕ} {d : MemDesc} {P : ℕ → MemDesc → Prop}
    (hself : P k d) (hother : ∀ i < n, i ≠ k → P i (m.memDesc i)) :
    ∀ i < n, P i ((m.setDesc k d).memDesc i) := by
  intro i hi
  by_cases hik : i = k
  · rw [hik, Mem.memDesc_setDesc_self]
    exact hself
  · rw [Mem.memDesc_setDesc_of_ne _ _ _ _ hik]
    exact hother i hi hik

/-- The first `k` descriptors have been set up, for the heap at `e`. -/
structure DescsDone (e : ℕ) (k : ℕ) (m : Mem) : Prop where
  heapStart : m.heapStart = e
  heapSize : m.heapSize = heapSizeInit
  heapCur : m.heapCur = e + 548 * k
  size : ∀ i < k, (m.memDesc i).size = chunkSize i
  allocations : ∀ i < k, (m.memDesc i).allocations = BoundedFifo.init allocNum

theorem memInitDesc_ok (e : HeapStart) {k : ℕ} (hk : k < 9) {m : Mem} (hm : DescsDone e.addr k m) :
    ∃ m', memInitDesc m k = .ok m' ∧ DescsDone e.addr (k + 1) m' := by
  have hpos := e.pos
  have hfits := e.fits
  obtain ⟨a, ha⟩ := e.aligned
  rw [heapSizeInit_eq] at hfits
  obtain ⟨hstart, hsize, hcur, hsz, hal⟩ := hm
  rw [heapSizeInit_eq] at hsize
  -- the call for the descriptor itself, and the call for its FIFO
  have h₁ : smalloc m sizeofMemDesc = (m.heapCur, { m with heapCur := m.heapCur + 20 }) :=
    smalloc_of_fits 20 (by omega) (by omega) (by omega) (by omega) (by omega)
  set m₁ := ({ m with heapCur := m.heapCur + 20 } : Mem).setDesc k
    { m.memDesc k with leastFree := allocNum, size := allocMin <<< k } with hm₁
  have hcur₁ : m₁.heapCur = m.heapCur + 20 := rfl
  have hstart₁ : m₁.heapStart = m.heapStart := rfl
  have hsize₁ : m₁.heapSize = m.heapSize := rfl
  have hframe : ∀ i, i ≠ k → Mem.memDesc { m₁ with heapCur := m₁.heapCur + 528 } i = m.memDesc i :=
    fun i hik ↦ Mem.memDesc_setDesc_of_ne _ _ _ _ hik
  have h₂ : smalloc m₁ fsize = (m₁.heapCur, { m₁ with heapCur := m₁.heapCur + 528 }) :=
    smalloc_of_fits 528 (by omega) (by omega) (by omega) (by omega) (by omega)
  refine ⟨({ m₁ with heapCur := m₁.heapCur + 528 } : Mem).setDesc k
    { m₁.memDesc k with allocations := BoundedFifo.init allocNum }, ?_, ?_⟩
  · have hne : m.heapCur ≠ 0 := by omega
    have hne₁ : m₁.heapCur ≠ 0 := by omega
    simp only [memInitDesc, h₁, if_neg hne, ← hm₁, h₂, if_neg hne₁]
  · refine ⟨by simp [hm₁, hstart], by simp [hm₁, hsize, heapSizeInit_eq],
      by show m₁.heapCur + 528 = _; omega, ?_, ?_⟩
    · refine Mem.forall_setDesc (P := fun i d ↦ d.size = chunkSize i) ?_ fun i hi hik ↦ ?_
      · simp [hm₁, chunkSize]
      · rw [hframe i hik]
        exact hsz i (by omega)
    · refine Mem.forall_setDesc (P := fun _ d ↦ d.allocations = BoundedFifo.init allocNum) rfl
        fun i hi hik ↦ ?_
      rw [hframe i hik]
      exact hal i (by omega)

/-- The first `n` chunks of region `k` have been carved; the other descriptors are those of `m₀`. -/
structure ChunksDone (e : ℕ) (k : ℕ) (m₀ : Mem) (n : ℕ) (s : ℕ × Mem) : Prop where
  heapStart : s.2.heapStart = e
  heapSize : s.2.heapSize = heapSizeInit
  heapCur : s.2.heapCur = poolBase e k + chunkSize k * n
  last : 0 < n → s.1 + chunkSize k = s.2.heapCur
  start : 0 < n → (s.2.memDesc k).start = poolBase e k
  size : (s.2.memDesc k).size = chunkSize k
  capacity : (s.2.memDesc k).allocations.size = allocNum
  contents : (s.2.memDesc k).allocations.contents
    = (List.range n).map fun j ↦ poolBase e k + chunkSize k * j
  frame : ∀ i, i ≠ k → s.2.memDesc i = m₀.memDesc i

theorem memInitChunk_ok (e : HeapStart) {k n : ℕ} (hk : k < 9) (hn : n < 128) {m₀ : Mem}
    {s : ℕ × Mem} (hs : ChunksDone e.addr k m₀ n s) :
    ∃ s', memInitChunk k s n = .ok s' ∧ ChunksDone e.addr k m₀ (n + 1) s' := by
  obtain ⟨p, m⟩ := s
  have hpos := e.pos
  have hfits := e.fits
  have halign : 4 ∣ m.heapCur + chunkSize k := by
    rw [hs.heapCur]
    exact Nat.dvd_add (Nat.dvd_add (four_dvd_poolBase e.aligned k)
      ((four_dvd_chunkSize k).mul_right _)) (four_dvd_chunkSize k)
  have hlow : e.addr ≤ poolBase e.addr k :=
    (Nat.le_add_right _ _).trans (poolBase_mono e.addr (Nat.zero_le k))
  have hhigh : poolBase e.addr k + chunkSize k * n + chunkSize k ≤ e.addr + 2097988 :=
    (chunk_end_le e.addr k hn).trans ((poolBase_mono e.addr hk).trans_eq (poolBase_nine _))
  rw [heapSizeInit_eq] at hfits
  obtain ⟨hstart, hsize, hcur, hlast, hst, hsz, hcap, hcont, hframe⟩ := hs
  simp only at hstart hsize hcur hlast hst hsz hcap hcont hframe
  rw [heapSizeInit_eq] at hsize
  have hcall : smalloc m (m.memDesc k).size
      = (m.heapCur, { m with heapCur := m.heapCur + chunkSize k }) := by
    rw [hsz]
    exact smalloc_of_fits _ (by omega) (by omega) (by omega) (by omega) halign
  have hne : m.heapCur ≠ 0 := by omega
  -- with `n` of 128 chunks stored there is room for another
  have hfree : (m.memDesc k).allocations.free ≠ 0 := by
    rw [Ne, BoundedFifo.free_eq_zero_iff, hcont, hcap, List.length_map, List.length_range]
    exact Nat.ne_of_lt hn
  refine ⟨_, by simp only [memInitChunk, hcall, if_neg hne]; rfl, ?_⟩
  refine ⟨by simp [hstart], by simp [hsize, heapSizeInit_eq], ?_, ?_, fun _ ↦ ?_, ?_, ?_, ?_, ?_⟩
  · simp only [Mem.heapCur_setDesc, hcur, Nat.mul_add, Nat.mul_one, Nat.add_assoc]
  · simp
  · by_cases h0 : n = 0
    · simp [h0, hcur]
    · simp [h0, hst (Nat.pos_of_ne_zero h0)]
  · by_cases h0 : n = 0 <;> simp [h0, hsz]
  · by_cases h0 : n = 0 <;> simp [h0, hcap]
  · have hq := BoundedFifo.contents_queue m.heapCur hfree
    rw [hcont, hcur] at hq
    rw [List.range_succ, List.map_append]
    by_cases h0 : n = 0 <;> simp only [h0, if_true, if_false, Mem.memDesc_setDesc_self, hcur]
    · subst h0
      exact hq
    · exact hq
  · intro i hi
    show ((Mem.setDesc _ k _).memDesc i) = _
    rw [Mem.memDesc_setDesc_of_ne _ _ _ _ hi]
    exact hframe i hi

/-- The first `k` regions are complete. -/
structure PoolsDone (e : ℕ) (k : ℕ) (m : Mem) : Prop where
  heapStart : m.heapStart = e
  heapSize : m.heapSize = heapSizeInit
  heapCur : m.heapCur = poolBase e k
  size : ∀ i < 9, (m.memDesc i).size = chunkSize i
  capacity : ∀ i < 9, (m.memDesc i).allocations.size = allocNum
  start : ∀ i < k, (m.memDesc i).start = poolBase e i
  end_ : ∀ i < k, (m.memDesc i).end_ = poolBase e (i + 1)
  contents : ∀ i < k, (m.memDesc i).allocations.contents = chunks e i
  empty : ∀ i, k ≤ i → i < 9 → (m.memDesc i).allocations.contents = []

theorem memInitPool_ok (e : HeapStart) {k : ℕ} (hk : k < 9) {m : Mem} (hm : PoolsDone e.addr k m) :
    ∃ m', memInitPool m k = .ok m' ∧ PoolsDone e.addr (k + 1) m' := by
  have hfits := e.fits
  have hbase : poolBase e.addr (k + 1) ≤ e.addr + 2097988 :=
    (poolBase_mono e.addr hk).trans_eq (poolBase_nine _)
  rw [heapSizeInit_eq] at hfits
  have h0 : ChunksDone e.addr k m 0 (NULL, m) :=
    ⟨hm.heapStart, hm.heapSize, hm.heapCur, by simp, by simp, hm.size k hk, hm.capacity k hk,
      hm.empty k le_rfl hk, fun _ _ ↦ rfl⟩
  obtain ⟨⟨p, m'⟩, hfold, hc⟩ := foldlM_range_ok (n := allocNum) h0
    fun n hn s hs ↦ memInitChunk_ok e hk hn hs
  obtain ⟨hstart, hsize, hcur, hlast, hst, hsz, hcap, hcont, hframe⟩ := hc
  simp only at hstart hsize hcur hlast hst hsz hcap hcont hframe
  have hp : p + chunkSize k = poolBase e.addr (k + 1) := (hlast (by decide)).trans hcur
  -- the end is one byte behind the last chunk
  have hend : (p + (m'.memDesc k).size) % 2 ^ 32 = poolBase e.addr (k + 1) := by
    rw [hsz, hp]
    exact Nat.mod_eq_of_lt (by omega)
  refine ⟨m'.setDesc k { m'.memDesc k with end_ := poolBase e.addr (k + 1) },
    by simp only [memInitPool, hfold, hend], ?_⟩
  refine ⟨hstart, hsize, hcur, ?_, ?_, ?_, ?_, ?_, fun i hi hi9 ↦ ?_⟩
  · refine Mem.forall_setDesc (P := fun i d ↦ d.size = chunkSize i) hsz fun i hi hik ↦ ?_
    rw [hframe i hik, hm.size i hi]
  · refine Mem.forall_setDesc (P := fun _ d ↦ d.allocations.size = allocNum) hcap fun i hi hik ↦ ?_
    rw [hframe i hik, hm.capacity i hi]
  · refine Mem.forall_setDesc (P := fun i d ↦ d.start = poolBase e.addr i) (hst (by decide))
      fun i hi hik ↦ ?_
    rw [hframe i hik, hm.start i (by omega)]
  · refine Mem.forall_setDesc (P := fun i d ↦ d.end_ = poolBase e.addr (i + 1)) rfl
      fun i hi hik ↦ ?_
    rw [hframe i hik, hm.end_ i (by omega)]
  · refine Mem.forall_setDesc (P := fun i d ↦ d.allocations.contents = chunks e.addr i) hcont
      fun i hi hik ↦ ?_
    rw [hframe i hik, hm.contents i (by omega)]
  · -- the regions behind have not been carved yet
    have hik : i ≠ k := by omega
    rw [Mem.memDesc_setDesc_of_ne _ _ _ _ hik, hframe i hik]
    exact hm.empty i (by omega) hi9

/-! ## The result -/

/-- The pools are enabled and every descriptor describes its region. `malloc` and `free` only touch
the FIFOs, so this holds from `mem_init` on. -/
structure Pools (e : ℕ) (m : Mem) : Prop where
  enabled : m.dmallocEnabled = true
  size : ∀ i < 9, (m.memDesc i).size = chunkSize i
  start : ∀ i < 9, (m.memDesc i).start = poolBase e i
  end_ : ∀ i < 9, (m.memDesc i).end_ = poolBase e (i + 1)
  capacity : ∀ i < 9, (m.memDesc i).allocations.size = allocNum

theorem memInit_ok (e : HeapStart) : ∃ m₁ m₂,
    (List.range allocSteps).foldlM memInitDesc { memCleared with
      heapSize := heapSizeInit, heapStart := e.addr, heapCur := e.addr } = .ok m₁ ∧
    (List.range allocSteps).foldlM memInitPool m₁ = .ok m₂ ∧ PoolsDone e.addr allocSteps m₂ := by
  have hd0 : DescsDone e.addr 0 { memCleared with
      heapSize := heapSizeInit, heapStart := e.addr, heapCur := e.addr } :=
    ⟨rfl, rfl, rfl, by simp, by simp⟩
  obtain ⟨m₁, hfold₁, hd⟩ := foldlM_range_ok (n := allocSteps) hd0
    fun k hk m hm ↦ memInitDesc_ok e hk hm
  have hp0 : PoolsDone e.addr 0 m₁ :=
    ⟨hd.heapStart, hd.heapSize, hd.heapCur, hd.size, fun i hi ↦ by rw [hd.allocations i hi]; rfl,
      by simp, by simp, by simp, fun i _ hi ↦ by rw [hd.allocations i hi]; simp⟩
  obtain ⟨m₂, hfold₂, hp⟩ := foldlM_range_ok (n := allocSteps) hp0
    fun k hk m hm ↦ memInitPool_ok e hk hm
  exact ⟨m₁, m₂, hfold₁, hfold₂, hp⟩

theorem memInit_eq {end_ : ℕ} {m₁ m₂ : Mem}
    (h₁ : (List.range allocSteps).foldlM memInitDesc { memCleared with
      heapSize := heapSizeInit, heapStart := end_, heapCur := end_ } = .ok m₁)
    (h₂ : (List.range allocSteps).foldlM memInitPool m₁ = .ok m₂) :
    memInit end_ = { m₂ with dmallocEnabled := true } := by
  simp only [memInit, h₁, h₂]

/-- **Boot succeeds.** The pools are enabled and each FIFO holds exactly the chunks of
its region. -/
theorem memInit_pools (e : HeapStart) :
    Pools e.addr (memInit e.addr) ∧
      ∀ i < 9, ((memInit e.addr).memDesc i).allocations.contents = chunks e.addr i := by
  obtain ⟨m₁, m₂, h₁, h₂, hp⟩ := memInit_ok e
  rw [memInit_eq h₁ h₂]
  exact ⟨⟨rfl, hp.size, hp.start, hp.end_, hp.capacity⟩, hp.contents⟩

end Ertos
