import Ertos.Basis.Transition
import Ertos.Kernel.MemInit
import Mathlib.Algebra.Order.BigOperators.Group.Finset

/-!
# Runs of `malloc` and `free`

A `HeapState` is the allocator together with the blocks its callers hold. The property of interest,
`Partitioned`, says that held blocks share no byte and that every chunk is in exactly one place:
held, or stored once in one of the nine FIFOs.

The test `ptr <= mem_desc[i]->end` of `free` is inclusive, while the end of region `i` is the first
chunk of region `i + 1`. Freeing that chunk therefore queues it twice, unless the FIFO of region `i`
is full. `always_partitioned_iff_guarded` says that this is the only way to break the partition.
-/

namespace Ertos

open Transition

/-! ## Chunks of distinct regions -/

theorem eq_of_mem_chunks {e i j p : ℕ} (hi : p ∈ chunks e i) (hj : p ∈ chunks e j) : i = j := by
  have key : ∀ {a b : ℕ}, p ∈ chunks e a → p ∈ chunks e b → ¬a < b := by
    intro a b ha hb hab
    have h₁ := end_le_of_mem_chunks ha
    have h₂ := chunkSize_pos a
    have h₃ := poolBase_mono e (show a + 1 ≤ b from hab)
    have h₄ := le_of_mem_chunks hb
    omega
  have h₁ := key hi hj
  have h₂ := key hj hi
  omega

theorem chunks_separated {e i j p q : ℕ} (hp : p ∈ chunks e i) (hq : q ∈ chunks e j) (hpq : p ≠ q) :
    p + chunkSize i ≤ q ∨ q + chunkSize j ≤ p := by
  rcases Nat.lt_trichotomy i j with h | rfl | h
  · have h₁ := end_le_of_mem_chunks hp
    have h₂ := poolBase_mono e (show i + 1 ≤ j from h)
    have h₃ := le_of_mem_chunks hq
    exact Or.inl (by omega)
  · obtain ⟨a, -, rfl⟩ := mem_chunks.mp hp
    obtain ⟨b, -, rfl⟩ := mem_chunks.mp hq
    rcases Nat.lt_trichotomy a b with h | rfl | h
    · have := Nat.mul_le_mul_left (chunkSize i) (show a + 1 ≤ b from h)
      rw [Nat.mul_add, Nat.mul_one] at this
      exact Or.inl (by omega)
    · exact absurd rfl hpq
    · have := Nat.mul_le_mul_left (chunkSize i) (show b + 1 ≤ a from h)
      rw [Nat.mul_add, Nat.mul_one] at this
      exact Or.inr (by omega)
  · have h₁ := end_le_of_mem_chunks hq
    have h₂ := poolBase_mono e (show j + 1 ≤ i from h)
    have h₃ := le_of_mem_chunks hp
    exact Or.inr (by omega)

theorem pos_of_mem_chunks (e : HeapStart) {i p : ℕ} (hp : p ∈ chunks e.addr i) : 0 < p :=
  calc 0 < e.addr := e.pos
    _ ≤ poolBase e.addr 0 := Nat.le_add_right _ _
    _ ≤ poolBase e.addr i := poolBase_mono _ (Nat.zero_le i)
    _ ≤ p := le_of_mem_chunks hp

/-- The regions whose inclusive bounds contain a chunk: its own, and the one that ends with it. -/
theorem mem_bounds_iff {e k p : ℕ} (hp : p ∈ chunks e k) (i : ℕ) :
    (poolBase e i ≤ p ∧ p ≤ poolBase e (i + 1)) ↔ i = k ∨ p = poolBase e (i + 1) := by
  have hlow := le_of_mem_chunks hp
  have hhigh := end_le_of_mem_chunks hp
  have hpos := chunkSize_pos k
  constructor
  · rintro ⟨h₁, h₂⟩
    rcases Nat.lt_trichotomy i k with h | h | h
    · have := poolBase_mono e (show i + 1 ≤ k from h)
      exact Or.inr (by omega)
    · exact Or.inl h
    · have := poolBase_mono e (show k + 1 ≤ i from h)
      omega
  · rintro (rfl | rfl)
    · omega
    · exact ⟨poolBase_mono e (Nat.le_succ i), le_rfl⟩

/-! ## What the two operations do -/

/-- The FIFO of region `i`. -/
def Mem.fifo (m : Mem) (i : ℕ) : List ℕ := (m.memDesc i).allocations.contents

theorem Mem.setDesc_eq_self (m : Mem) (i : ℕ) : m.setDesc i (m.memDesc i) = m := by
  rw [Mem.setDesc, Function.update_eq_self]

theorem Pools.setDesc {e k : ℕ} {m : Mem} (hm : Pools e m) {d : MemDesc}
    (hsize : d.size = (m.memDesc k).size) (hstart : d.start = (m.memDesc k).start)
    (hend : d.end_ = (m.memDesc k).end_)
    (hcap : d.allocations.size = (m.memDesc k).allocations.size) : Pools e (m.setDesc k d) := by
  refine ⟨hm.enabled, fun i hi ↦ ?_, fun i hi ↦ ?_, fun i hi ↦ ?_, fun i hi ↦ ?_⟩
  all_goals
    by_cases hik : i = k
    · subst hik
      rw [Mem.memDesc_setDesc_self]
      first
        | exact hsize.trans (hm.size i hi)
        | exact hstart.trans (hm.start i hi)
        | exact hend.trans (hm.end_ i hi)
        | exact hcap.trans (hm.capacity i hi)
    · rw [Mem.memDesc_setDesc_of_ne _ _ _ _ hik]
      first
        | exact hm.size i hi
        | exact hm.start i hi
        | exact hm.end_ i hi
        | exact hm.capacity i hi

/-- `malloc` fails and changes nothing, or takes the first element of a FIFO of large enough
chunks. -/
inductive MallocSpec (e size : ℕ) (m : Mem) : ℕ × Mem → Prop
  | null : MallocSpec e size m (NULL, m)
  | take {k p : ℕ} {l : List ℕ} {m' : Mem} (hk : k < 9) (hsize : size ≤ chunkSize k)
      (hfifo : m.fifo k = p :: l) (hp : p ≠ 0) (hpools : Pools e m') (hfifo' : m'.fifo k = l)
      (hframe : ∀ i, i ≠ k → m'.fifo i = m.fifo i) : MallocSpec e size m (p, m')

theorem mallocFrom_spec {e size : ℕ} {m : Mem} (hm : Pools e m) {is : List ℕ}
    (his : ∀ i ∈ is, i < 9 ∧ 0 ∉ m.fifo i) : MallocSpec e size m (mallocFrom size is m) := by
  induction is with
  | nil => exact .null
  | cons i is ih =>
    obtain ⟨hi, hnull⟩ := his i List.mem_cons_self
    have ih := ih fun j hj ↦ his j (List.mem_cons_of_mem _ hj)
    rw [mallocFrom]
    by_cases hsz : (m.memDesc i).size < size
    · -- the chunks of this region are too small
      rw [if_pos hsz]
      exact ih
    rw [if_neg hsz]
    rcases BoundedFifo.dequeue_cases (f := (m.memDesc i).allocations) with ⟨-, hd⟩ | hd
    · -- nothing to take here: writing the descriptor back changes nothing
      simp only [hd, ne_eq, not_true_eq_false, if_false]
      rwa [Mem.setDesc_eq_self]
    · -- the only region written is this one, once to take the chunk and once for the statistics
      have hp : (m.memDesc i).allocations.dequeue.1 ≠ 0 := by
        intro h0
        rw [h0] at hd
        exact hnull (show (0 : ℕ) ∈ Bfifo.contents _ by rw [hd]; exact List.mem_cons_self)
      simp only [ne_eq, hp, not_false_eq_true, if_true]
      refine .take hi (by rw [← hm.size i hi]; omega) hd hp ?_ ?_ fun j hj ↦ ?_
      · refine (hm.setDesc (k := i) ?_ ?_ ?_ ?_).setDesc ?_ ?_ ?_ ?_ <;> simp
      · simp [Mem.fifo]
      · simp only [Mem.fifo, Mem.memDesc_setDesc_of_ne _ _ _ _ hj]

theorem malloc_spec {e : ℕ} {m : Mem} (hm : Pools e m) (hnull : ∀ i < 9, 0 ∉ m.fifo i)
    (size : ℕ) : MallocSpec e size m (malloc m size) := by
  rw [malloc, if_neg (by simp [hm.enabled])]
  exact mallocFrom_spec hm fun i hi ↦ ⟨List.mem_range.mp hi, hnull i (List.mem_range.mp hi)⟩

/-- The first region of large enough chunks serves the request when it can. -/
theorem malloc_of_cons {e k size p : ℕ} {l : List ℕ} {m : Mem} (hm : Pools e m) (hk : k < 9)
    (hsmall : ∀ i < k, chunkSize i < size) (hsize : size ≤ chunkSize k)
    (hfifo : m.fifo k = p :: l) (hp : p ≠ 0) : (malloc m size).1 = p := by
  -- the loop passes the regions before `k`; by induction on how many of them are left
  have skip : ∀ n ≤ k, ∀ is, mallocFrom size (List.range' (k - n) n ++ is) m
      = mallocFrom size is m := by
    intro n
    induction n with
    | zero => exact fun _ _ ↦ rfl
    | succ n ih =>
      intro hn is
      rw [List.range'_succ, List.cons_append, mallocFrom, if_pos,
        show k - (n + 1) + 1 = k - n by omega]
      · exact ih (by omega) is
      · rw [hm.size _ (by omega)]
        exact hsmall _ (by omega)
  have hrange : List.range 9 = List.range' (k - k) k ++ k :: List.range' (k + 1) (8 - k) := by
    rw [List.range_eq_range', Nat.sub_self, ← List.range'_succ, show 8 - k + 1 = 9 - k by omega]
    have h := List.range'_append_1 (s := 0) (m := k) (n := 9 - k)
    rw [Nat.zero_add, show k + (9 - k) = 9 by omega] at h
    exact h.symm
  rw [malloc, if_neg (by simp [hm.enabled]), hrange, skip k le_rfl, mallocFrom,
    if_neg (by rw [hm.size k hk]; omega)]
  obtain ⟨hd, -⟩ := BoundedFifo.dequeue_of_cons hfifo
  simp only [hd, ne_eq, hp, not_false_eq_true, if_true]

/-- The test of the loop of `free`. -/
def MemDesc.Bounds (d : MemDesc) (p : ℕ) : Prop := d.start ≤ p ∧ p ≤ d.end_

instance (d : MemDesc) (p : ℕ) : Decidable (d.Bounds p) := inferInstanceAs (Decidable (_ ∧ _))

theorem freeDesc_eq (m : Mem) (p i : ℕ) :
    freeDesc p m i = if (m.memDesc i).Bounds p
      then m.setDesc i { m.memDesc i with allocations := ((m.memDesc i).allocations.queue p).2 }
      else m := rfl

theorem freeDesc_memDesc_self (m : Mem) (p i : ℕ) :
    (freeDesc p m i).memDesc i =
      if (m.memDesc i).Bounds p
      then { m.memDesc i with allocations := ((m.memDesc i).allocations.queue p).2 }
      else m.memDesc i := by
  rw [freeDesc_eq]
  split_ifs
  · exact Mem.memDesc_setDesc_self _ _ _
  · rfl

theorem freeDesc_memDesc_of_ne (m : Mem) (p : ℕ) {i j : ℕ} (h : j ≠ i) :
    (freeDesc p m i).memDesc j = m.memDesc j := by
  rw [freeDesc_eq]
  split_ifs
  · exact Mem.memDesc_setDesc_of_ne _ _ _ _ h
  · rfl

theorem freeDesc_pools {e : ℕ} {m : Mem} (hm : Pools e m) (p i : ℕ) :
    Pools e (freeDesc p m i) := by
  rw [freeDesc_eq]
  split_ifs
  · exact hm.setDesc rfl rfl rfl (BoundedFifo.size_queue _ _)
  · exact hm

theorem foldl_freeDesc {e : ℕ} {m : Mem} (hm : Pools e m) (p n : ℕ) :
    Pools e ((List.range n).foldl (freeDesc p) m) ∧
      ∀ i, ((List.range n).foldl (freeDesc p) m).memDesc i
        = if i < n then (freeDesc p m i).memDesc i else m.memDesc i := by
  induction n with
  | zero => exact ⟨hm, fun i ↦ rfl⟩
  | succ n ih =>
    obtain ⟨hpools, hdesc⟩ := ih
    rw [List.range_succ, List.foldl_append, List.foldl_cons, List.foldl_nil]
    refine ⟨freeDesc_pools hpools p n, fun i ↦ ?_⟩
    by_cases hi : i = n
    · subst hi
      have hself := hdesc i
      rw [if_neg (lt_irrefl i)] at hself
      rw [if_pos (Nat.lt_succ_self i), freeDesc_memDesc_self, freeDesc_memDesc_self, hself]
    · rw [freeDesc_memDesc_of_ne _ _ hi, hdesc]
      by_cases hlt : i < n
      · rw [if_pos hlt, if_pos (by omega)]
      · rw [if_neg hlt, if_neg (by omega)]

/-- `free` queues a chunk on its own FIFO and on the one whose region ends with it, as far as they
have room. -/
theorem free_spec {e k p : ℕ} {m : Mem} (hm : Pools e m) (hp : p ∈ chunks e k) :
    Pools e (free m p) ∧ ∀ i < 9, (free m p).fifo i =
      if (i = k ∨ p = poolBase e (i + 1)) ∧ (m.memDesc i).allocations.free ≠ 0
      then m.fifo i ++ [p] else m.fifo i := by
  rw [free, if_neg (by simp [hm.enabled])]
  obtain ⟨hpools, hdesc⟩ := foldl_freeDesc hm p allocSteps
  refine ⟨hpools, fun i hi ↦ ?_⟩
  rw [Mem.fifo, hdesc, if_pos hi, freeDesc_memDesc_self]
  have hbounds : (m.memDesc i).Bounds p ↔ i = k ∨ p = poolBase e (i + 1) := by
    rw [← mem_bounds_iff hp i, ← hm.start i hi, ← hm.end_ i hi]
    rfl
  simp only [hbounds]
  by_cases hhit : i = k ∨ p = poolBase e (i + 1)
  · rw [if_pos hhit]
    by_cases hfull : (m.memDesc i).allocations.free = 0
    · rw [if_neg (by simp [hfull]), BoundedFifo.queue_full p hfull]
      rfl
    · rw [if_pos ⟨hhit, hfull⟩, BoundedFifo.contents_queue p hfull]
      rfl
  · rw [if_neg hhit, if_neg (fun h ↦ hhit h.1)]
    rfl

/-! ## Runs -/

/-- The allocator, and the blocks that are held: their addresses and requested sizes. -/
structure HeapState where
  mem : Mem
  live : List (ℕ × ℕ)

/-- The addresses of the held blocks. -/
def HeapState.held (s : HeapState) : List ℕ := s.live.map Prod.fst

inductive HeapOp
  | malloc (size : ℕ)
  | free (p : ℕ)

inductive HeapStep : HeapState → HeapOp → HeapState → Prop
  | malloc (s : HeapState) (size : ℕ) :
    HeapStep s (.malloc size)
      { mem := (malloc s.mem size).2
        live := if (malloc s.mem size).1 = NULL then s.live
          else ((malloc s.mem size).1, size) :: s.live }
  | free (s : HeapState) (p : ℕ) (hp : p ∈ s.held) :
    HeapStep s (.free p) { mem := free s.mem p, live := s.live.eraseP fun b ↦ b.1 == p }

/-- The state after `mem_init`, when nothing has been handed out. -/
def heapBoot (e : HeapStart) : HeapState := ⟨memInit e.addr, []⟩

/-- The blocks `a` and `b` have a byte in common. -/
def Share (a b : ℕ × ℕ) : Prop := ∃ x, a.1 ≤ x ∧ x < a.1 + a.2 ∧ b.1 ≤ x ∧ x < b.1 + b.2

/-- How often `c` is stored among the free FIFOs. -/
def Mem.stored (m : Mem) (c : ℕ) : ℕ := ∑ i ∈ Finset.range 9, (m.fifo i).count c

/-- No two held blocks share a byte, and every chunk is either held or stored exactly once. -/
structure Partitioned (e : HeapStart) (s : HeapState) : Prop where
  disjoint : s.live.Pairwise fun a b ↦ ¬Share a b
  once : ∀ i < 9, ∀ c ∈ chunks e.addr i, s.held.count c + s.mem.stored c = 1

/-- The pointer does not end a region whose FIFO has room. -/
def FreeSafe (s : HeapState) : HeapOp → Prop
  | .malloc _ => True
  | .free p => ∀ i < 9, (s.mem.memDesc i).end_ = p → (s.mem.memDesc i).allocations.free = 0

/-! ## The invariant -/

/-- `Partitioned`, region by region. -/
structure HeapInv (e : HeapStart) (s : HeapState) : Prop where
  pools : Pools e.addr s.mem
  subset : ∀ i < 9, s.mem.fifo i ⊆ chunks e.addr i
  fits : ∀ b ∈ s.live, ∃ i < 9, b.1 ∈ chunks e.addr i ∧ b.2 ≤ chunkSize i
  once : ∀ i < 9, ∀ c ∈ chunks e.addr i, s.held.count c + (s.mem.fifo i).count c = 1

theorem heapInv_boot (e : HeapStart) : HeapInv e (heapBoot e) := by
  obtain ⟨hpools, hcont⟩ := memInit_pools e
  refine ⟨hpools, fun i hi ↦ ?_, by simp [heapBoot], fun i hi c hc ↦ ?_⟩
  · rw [Mem.fifo, heapBoot, hcont i hi]
    exact List.Subset.refl _
  · rw [Mem.fifo, heapBoot, hcont i hi, List.count_eq_one_of_mem (nodup_chunks _ i) hc]
    rfl

namespace HeapInv

variable {e : HeapStart} {s : HeapState}

theorem zero_not_mem (hs : HeapInv e s) {i : ℕ} (hi : i < 9) : 0 ∉ s.mem.fifo i :=
  fun h ↦ absurd (pos_of_mem_chunks e (hs.subset i hi h)) (lt_irrefl 0)

theorem stored_eq (hs : HeapInv e s) {i c : ℕ} (hi : i < 9) (hc : c ∈ chunks e.addr i) :
    s.mem.stored c = (s.mem.fifo i).count c := by
  refine Finset.sum_eq_single i (fun j hj hji ↦ ?_) fun h ↦ absurd (Finset.mem_range.mpr hi) h
  refine List.count_eq_zero_of_not_mem fun hmem ↦ hji ?_
  exact eq_of_mem_chunks (hs.subset j (Finset.mem_range.mp hj) hmem) hc

theorem exists_chunks_of_held (hs : HeapInv e s) {p : ℕ} (hp : p ∈ s.held) :
    ∃ i < 9, p ∈ chunks e.addr i := by
  obtain ⟨b, hb, rfl⟩ := List.mem_map.mp hp
  obtain ⟨i, hi, hmem, -⟩ := hs.fits b hb
  exact ⟨i, hi, hmem⟩

theorem nodup_held (hs : HeapInv e s) : s.held.Nodup := by
  refine List.nodup_iff_count_le_one.mpr fun p ↦ ?_
  by_cases hp : p ∈ s.held
  · obtain ⟨i, hi, hmem⟩ := hs.exists_chunks_of_held hp
    have := hs.once i hi p hmem
    omega
  · rw [List.count_eq_zero_of_not_mem hp]
    exact Nat.zero_le 1

/-- A held chunk is missing from its FIFO, which therefore has room. -/
theorem free_ne_zero (hs : HeapInv e s) {i p : ℕ} (hi : i < 9) (hp : p ∈ s.held)
    (hmem : p ∈ chunks e.addr i) : (s.mem.memDesc i).allocations.free ≠ 0 := by
  have hpos : 0 < s.held.count p := List.count_pos_iff.mpr hp
  have hnot : p ∉ s.mem.fifo i := by
    intro h
    have := hs.once i hi p hmem
    have := List.count_pos_iff.mpr h
    omega
  have hnodup : (s.mem.fifo i).Nodup := by
    refine List.nodup_iff_count_le_one.mpr fun q ↦ ?_
    by_cases hq : q ∈ s.mem.fifo i
    · have := hs.once i hi q (hs.subset i hi hq)
      omega
    · rw [List.count_eq_zero_of_not_mem hq]
      exact Nat.zero_le 1
  have hlen : (p :: s.mem.fifo i).length ≤ (chunks e.addr i).length :=
    List.Nodup.length_le_of_subset (List.nodup_cons.mpr ⟨hnot, hnodup⟩)
      (List.cons_subset.mpr ⟨hmem, hs.subset i hi⟩)
  rw [Ne, BoundedFifo.free_eq_zero_iff, hs.pools.capacity i hi]
  simp only [chunks, List.length_cons, List.length_map, List.length_range, Mem.fifo] at hlen
  exact fun h ↦ by rw [h] at hlen; exact absurd hlen (Nat.not_succ_le_self _)

theorem partitioned (hs : HeapInv e s) : Partitioned e s := by
  refine ⟨?_, fun i hi c hc ↦ by rw [hs.stored_eq hi hc]; exact hs.once i hi c hc⟩
  have hne : s.live.Pairwise fun a b ↦ a.1 ≠ b.1 := List.pairwise_map.mp hs.nodup_held
  refine hne.imp_of_mem fun {a b} ha hb hab ↦ ?_
  obtain ⟨i, -, hai, hsa⟩ := hs.fits a ha
  obtain ⟨j, -, hbj, hsb⟩ := hs.fits b hb
  rintro ⟨x, hx⟩
  rcases chunks_separated hai hbj hab with h | h <;> omega

theorem malloc (hs : HeapInv e s) (size : ℕ) {t : HeapState} (h : HeapStep s (.malloc size) t) :
    HeapInv e t := by
  cases h
  have hspec := malloc_spec hs.pools (fun i hi ↦ hs.zero_not_mem hi) size
  revert hspec
  generalize Ertos.malloc s.mem size = r
  rintro (_ | @⟨k, p, l, m', hk, hsize, hfifo, hp, hpools, hfifo', hframe⟩)
  · exact hs
  have hpk : p ∈ chunks e.addr k := hs.subset k hk (hfifo ▸ List.mem_cons_self)
  -- the chunk moves from the FIFO of its region to the blocks in use
  simp only [if_neg hp]
  refine ⟨hpools, fun i hi ↦ ?_, fun b hb ↦ ?_, fun i hi c hc ↦ ?_⟩
  · by_cases hik : i = k
    · subst hik
      rw [hfifo']
      exact fun q hq ↦ hs.subset i hi (hfifo ▸ List.mem_cons_of_mem _ hq)
    · rw [hframe i hik]
      exact hs.subset i hi
  · rcases List.mem_cons.mp hb with rfl | hb
    · exact ⟨k, hk, hpk, hsize⟩
    · exact hs.fits b hb
  · have honce := hs.once i hi c hc
    show (p :: s.held).count c + (m'.fifo i).count c = 1
    by_cases hik : i = k
    · subst hik
      rw [hfifo']
      rw [hfifo] at honce
      simp only [List.count_cons] at honce ⊢
      omega
    · have hcp : p ≠ c := fun h ↦ hik (eq_of_mem_chunks hc (h ▸ hpk))
      rw [hframe i hik, List.count_cons_of_ne hcp]
      exact honce

theorem held_eraseP (s : HeapState) (p : ℕ) :
    (s.live.eraseP fun b ↦ b.1 == p).map Prod.fst = s.held.erase p := by
  rw [HeapState.held, List.erase_eq_eraseP', List.eraseP_map]
  rfl

theorem free (hs : HeapInv e s) {p : ℕ} (hsafe : FreeSafe s (.free p)) {t : HeapState}
    (h : HeapStep s (.free p) t) : HeapInv e t := by
  have hp : p ∈ s.held := by
    cases h
    assumption
  cases h
  obtain ⟨k, hk, hpk⟩ := hs.exists_chunks_of_held hp
  obtain ⟨hpools, hspec⟩ := free_spec hs.pools hpk
  have hroom := hs.free_ne_zero hk hp hpk
  have hheld : 0 < s.held.count p := List.count_pos_iff.mpr hp
  have hself : (Ertos.free s.mem p).fifo k = s.mem.fifo k ++ [p] := by
    rw [hspec k hk, if_pos ⟨Or.inl rfl, hroom⟩]
  -- a safe call stores nothing elsewhere, although the end of another region may be met
  have hother : ∀ i < 9, i ≠ k → (Ertos.free s.mem p).fifo i = s.mem.fifo i := by
    intro i hi hik
    rw [hspec i hi, if_neg]
    rintro ⟨rfl | hend, hne⟩
    · exact hik rfl
    · exact hne (hsafe i hi (by rw [hs.pools.end_ i hi, hend]))
  refine ⟨hpools, fun i hi ↦ ?_, fun b hb ↦ ?_, fun i hi c hc ↦ ?_⟩
  · by_cases hik : i = k
    · subst hik
      rw [hself]
      exact List.append_subset.mpr ⟨hs.subset i hi, by simpa using hpk⟩
    · rw [hother i hi hik]
      exact hs.subset i hi
  · exact hs.fits b (List.mem_of_mem_eraseP hb)
  · have honce := hs.once i hi c hc
    show ((s.live.eraseP fun b ↦ b.1 == p).map Prod.fst).count c + _ = 1
    rw [held_eraseP, List.count_erase]
    by_cases hcp : c = p
    · subst hcp
      obtain rfl := eq_of_mem_chunks hc hpk
      rw [hself, List.count_append, List.count_singleton_self, beq_self_eq_true, if_pos rfl]
      omega
    · have hne : (p == c) = false := beq_eq_false_iff_ne.mpr (Ne.symm hcp)
      rw [hne, if_neg Bool.false_ne_true, Nat.sub_zero]
      by_cases hik : i = k
      · subst hik
        rw [hself, List.count_append, List.count_singleton, hne, if_neg Bool.false_ne_true]
        exact honce
      · rw [hother i hi hik]
        exact honce

/-- **The defect.** Freeing the first chunk of region `i + 1` while region `i` has room stores the
chunk twice. -/
theorem not_partitioned_of_not_safe (hs : HeapInv e s) {o : HeapOp} (hbad : ¬FreeSafe s o)
    {t : HeapState} (h : HeapStep s o t) : ¬Partitioned e t := by
  cases h with
  | malloc size => exact absurd trivial hbad
  | free p hp =>
    obtain ⟨k, hk, hpk⟩ := hs.exists_chunks_of_held hp
    obtain ⟨i, hi, hend, hroom⟩ : ∃ i < 9, (s.mem.memDesc i).end_ = p ∧
        (s.mem.memDesc i).allocations.free ≠ 0 := by
      simpa only [FreeSafe, not_forall, exists_prop] using hbad
    rw [hs.pools.end_ i hi] at hend
    have hik : i ≠ k := by
      rintro rfl
      have h₁ := end_le_of_mem_chunks hpk
      have h₂ := chunkSize_pos i
      omega
    obtain ⟨-, hspec⟩ := free_spec hs.pools hpk
    have hstored : ∀ j < 9, (j = k ∨ p = poolBase e.addr (j + 1)) ∧
        (s.mem.memDesc j).allocations.free ≠ 0 → 1 ≤ ((Ertos.free s.mem p).fifo j).count p := by
      intro j hj hhit
      rw [hspec j hj, if_pos hhit]
      exact List.one_le_count_iff.mpr (by simp)
    -- once by its own region, and once by the region that it ends
    have hi₁ := hstored i hi ⟨Or.inr hend.symm, hroom⟩
    have hk₁ := hstored k hk ⟨Or.inl rfl, hs.free_ne_zero hk hp hpk⟩
    have hsum : _ + _ ≤ (Ertos.free s.mem p).stored p := Finset.add_le_sum
      (fun j _ ↦ Nat.zero_le _) (Finset.mem_range.mpr hi) (Finset.mem_range.mpr hk) hik
    intro hpart
    have honce : _ + (Ertos.free s.mem p).stored p = 1 := hpart.once k hk p hpk
    omega

end HeapInv

theorem HeapInv.step {e : HeapStart} {s : HeapState} {o : HeapOp} {t : HeapState}
    (hs : HeapInv e s) (hsafe : FreeSafe s o) (h : HeapStep s o t) : HeapInv e t := by
  cases o with
  | malloc size => exact hs.malloc size h
  | free p => exact hs.free hsafe h

/-! ## Two blocks

The shortest runs on which the two cases of `FreeSafe` differ: take the first chunk of each of the
two smallest regions, then give one of them back. -/

/-- A heap at the two-megabyte mark. -/
def heapExample : HeapStart := ⟨0x200000, by decide, by decide, by decide⟩

section TwoBlocks

variable (e : HeapStart)

def oneBlock : HeapState := ⟨(malloc (heapBoot e).mem 32).2, [(poolBase e.addr 0, 32)]⟩

def twoBlocks : HeapState :=
  ⟨(malloc (oneBlock e).mem 64).2, [(poolBase e.addr 1, 64), (poolBase e.addr 0, 32)]⟩

/-- The run that ends by giving back `p`. -/
def twoBlocksRun (p : ℕ) : List (HeapOp × HeapState) :=
  [(.malloc 32, oneBlock e), (.malloc 64, twoBlocks e), (.free p,
    { mem := free (twoBlocks e).mem p, live := (twoBlocks e).live.eraseP fun b ↦ b.1 == p })]

theorem chunks_eq_cons (i : ℕ) : ∃ l, chunks e.addr i = poolBase e.addr i :: l :=
  ⟨_, rfl⟩

theorem poolBase_mem (i : ℕ) : poolBase e.addr i ∈ chunks e.addr i := by
  obtain ⟨l, hl⟩ := chunks_eq_cons e i
  rw [hl]
  exact List.mem_cons_self

theorem poolBase_ne_zero (i : ℕ) : poolBase e.addr i ≠ 0 :=
  (pos_of_mem_chunks e (poolBase_mem e i)).ne'

theorem malloc_heapBoot : (malloc (heapBoot e).mem 32).1 = poolBase e.addr 0 := by
  obtain ⟨hpools, hcont⟩ := memInit_pools e
  obtain ⟨l, hl⟩ := chunks_eq_cons e 0
  exact malloc_of_cons hpools (by decide) (by simp) (by decide) ((hcont 0 (by decide)).trans hl)
    (poolBase_ne_zero e 0)

theorem heapStep_oneBlock : HeapStep (heapBoot e) (.malloc 32) (oneBlock e) := by
  have h := HeapStep.malloc (heapBoot e) 32
  rwa [malloc_heapBoot, if_neg (poolBase_ne_zero e 0)] at h

theorem heapInv_oneBlock : HeapInv e (oneBlock e) :=
  (heapInv_boot e).malloc 32 (heapStep_oneBlock e)

theorem fifo_oneBlock : (oneBlock e).mem.fifo 1 = chunks e.addr 1 := by
  obtain ⟨hpools, hcont⟩ := memInit_pools e
  have hp := malloc_heapBoot e
  have hspec := malloc_spec (heapInv_boot e).pools
    (fun i hi ↦ (heapInv_boot e).zero_not_mem hi) 32
  rw [oneBlock]
  revert hp hspec
  generalize malloc (heapBoot e).mem 32 = r
  rintro hp (_ | @⟨k, p, l, m', hk, -, hfifo, -, -, -, hframe⟩)
  · exact absurd hp.symm (poolBase_ne_zero e 0)
  subst hp
  have hmem : poolBase e.addr 0 ∈ chunks e.addr k :=
    (heapInv_boot e).subset k hk (hfifo ▸ List.mem_cons_self)
  obtain rfl := eq_of_mem_chunks hmem (poolBase_mem e 0)
  exact (hframe 1 (by decide)).trans (hcont 1 (by decide))

theorem heapStep_twoBlocks : HeapStep (oneBlock e) (.malloc 64) (twoBlocks e) := by
  obtain ⟨l, hl⟩ := chunks_eq_cons e 1
  have hp : (malloc (oneBlock e).mem 64).1 = poolBase e.addr 1 := by
    refine malloc_of_cons (heapInv_oneBlock e).pools (by decide) (fun i hi ↦ ?_) (by decide)
      ((fifo_oneBlock e).trans hl) (poolBase_ne_zero e 1)
    obtain rfl : i = 0 := by omega
    decide
  have h := HeapStep.malloc (oneBlock e) 64
  rwa [hp, if_neg (poolBase_ne_zero e 1)] at h

theorem heapInv_twoBlocks : HeapInv e (twoBlocks e) :=
  (heapInv_oneBlock e).malloc 64 (heapStep_twoBlocks e)

theorem isRun_twoBlocksRun {p : ℕ} (hp : p ∈ (twoBlocks e).held) :
    IsRun HeapStep (heapBoot e) (twoBlocksRun e p) :=
  ⟨heapStep_oneBlock e, heapStep_twoBlocks e, .free _ p hp, trivial⟩

theorem freeSafe_twoBlocks : FreeSafe (twoBlocks e) (.free (poolBase e.addr 0)) := by
  intro i hi hend
  rw [(heapInv_twoBlocks e).pools.end_ i hi] at hend
  have h₁ := poolBase_mono e.addr (Nat.zero_le i)
  have h₂ := chunkSize_pos i
  rw [poolBase_succ] at hend
  omega

/-- The start of region `1` ends region `0`, which has room: one of its chunks is held. -/
theorem not_freeSafe_twoBlocks : ¬FreeSafe (twoBlocks e) (.free (poolBase e.addr 1)) := by
  have hs := heapInv_twoBlocks e
  intro h
  refine hs.free_ne_zero (i := 0) (by decide) ?_ (poolBase_mem e 0)
    (h 0 (by decide) (hs.pools.end_ 0 (by decide)))
  exact List.mem_cons_of_mem _ List.mem_cons_self

end TwoBlocks

/-! ## The theorem -/

/-- **The partition of the heap, exactly.** In a run from boot, the held blocks are disjoint and
every chunk is in exactly one place throughout, if and only if no `free` is given the end of a
region whose FIFO has room. -/
theorem always_partitioned_iff_guarded (e : HeapStart) {r : List (HeapOp × HeapState)}
    (hrun : IsRun HeapStep (heapBoot e) r) :
    Always (Partitioned e) (heapBoot e) r ↔ Guarded FreeSafe (heapBoot e) r :=
  always_iff_guarded (fun _ ↦ HeapInv.partitioned) (fun _ _ _ hs hsafe h ↦ hs.step hsafe h)
    (fun _ _ _ hs hbad h ↦ hs.not_partitioned_of_not_safe hbad h) (heapInv_boot e) hrun

/-- Giving back the smaller of two blocks keeps the partition. -/
theorem always_partitioned_twoBlocks :
    Always (Partitioned heapExample) (heapBoot heapExample)
      (twoBlocksRun heapExample (poolBase heapExample.addr 0)) :=
  (always_partitioned_iff_guarded heapExample
    (isRun_twoBlocksRun heapExample (List.mem_cons_of_mem _ List.mem_cons_self))).mpr
    ⟨trivial, trivial, freeSafe_twoBlocks heapExample, trivial⟩

/-- Giving back the larger one does not: afterwards its chunk is stored twice. -/
theorem free_region_end_breaks_partition :
    IsRun HeapStep (heapBoot heapExample)
        (twoBlocksRun heapExample (poolBase heapExample.addr 1)) ∧
      ¬Always (Partitioned heapExample) (heapBoot heapExample)
        (twoBlocksRun heapExample (poolBase heapExample.addr 1)) := by
  have hheld : poolBase heapExample.addr 1 ∈ (twoBlocks heapExample).held := List.mem_cons_self
  refine ⟨isRun_twoBlocksRun heapExample hheld, fun h ↦ ?_⟩
  exact (heapInv_twoBlocks heapExample).not_partitioned_of_not_safe
    (not_freeSafe_twoBlocks heapExample) (.free _ _ hheld) h.last

end Ertos
