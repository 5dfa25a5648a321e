import Ertos.Kernel.MemPartition

/-!
# The static allocator at its limits

`smalloc` hands out the heap from its start on. It checks for room before it realigns `heap_cur`, so
that the realignment could step over the end of the heap, and the next subtraction below zero. It
does not: `heap_cur` is a multiple of four, counted from `_heap_start`, and so is the size of the
heap. When the heap ends with the address space, `heap_cur` may wrap to zero.

An `AllocState` is the allocator with the log of its blocks. `mem_init` is itself a run of the
operations considered here, which leaves every chunk in the log (`exists_memInit_run`); the blocks
that come before, during and after it are all disjoint.
-/

namespace Ertos

open Transition

/-! ## Runs -/

/-- The allocator, and the blocks `smalloc` has handed out, the latest first. -/
structure AllocState where
  mem : Mem
  blocks : List (ℕ × ℕ)

/-- Calls of the three functions, and the writes of `mem_init` to its descriptors. -/
inductive AllocOp
  | smalloc (size : ℕ)
  | malloc (size : ℕ)
  | free (p : ℕ)
  | setDesc (i : ℕ) (d : MemDesc)
  | enable

/-- A call of `smalloc`. -/
def AllocState.smalloc (s : AllocState) (size : ℕ) : AllocState where
  mem := (Ertos.smalloc s.mem size).2
  blocks := if (Ertos.smalloc s.mem size).1 = NULL then s.blocks
    else ((Ertos.smalloc s.mem size).1, size) :: s.blocks

/-- `malloc` falls back to `smalloc` until the pools are enabled. -/
def AllocOp.exec (s : AllocState) : AllocOp → AllocState
  | .smalloc size => s.smalloc size
  | .malloc size =>
    if s.mem.dmallocEnabled = false then s.smalloc size
    else { s with mem := (Ertos.malloc s.mem size).2 }
  | .free p => { s with mem := Ertos.free s.mem p }
  | .setDesc i d => { s with mem := s.mem.setDesc i d }
  | .enable => { s with mem := { s.mem with dmallocEnabled := true } }

def AllocStep (s : AllocState) (o : AllocOp) (t : AllocState) : Prop := o.exec s = t

/-- Where `mem_init` stands before its first call of `smalloc`. -/
def allocBoot (e : HeapStart) : AllocState where
  mem := { memCleared with heapSize := heapSizeInit, heapStart := e.addr, heapCur := e.addr }
  blocks := []

/-! ## What does not touch the heap -/

/-- The three variables of the static allocator are the same. -/
structure Mem.SameHeap (m m' : Mem) : Prop where
  heapStart : m'.heapStart = m.heapStart
  heapSize : m'.heapSize = m.heapSize
  heapCur : m'.heapCur = m.heapCur

namespace Mem.SameHeap

variable {m m' m'' : Mem}

theorem refl (m : Mem) : SameHeap m m := ⟨rfl, rfl, rfl⟩

theorem trans (h : SameHeap m m') (h' : SameHeap m' m'') : SameHeap m m'' :=
  ⟨h'.heapStart.trans h.heapStart, h'.heapSize.trans h.heapSize, h'.heapCur.trans h.heapCur⟩

theorem setDesc (m : Mem) (i : ℕ) (d : MemDesc) : SameHeap m (m.setDesc i d) := ⟨rfl, rfl, rfl⟩

theorem mallocFrom (size : ℕ) (is : List ℕ) (m : Mem) :
    SameHeap m (mallocFrom size is m).2 := by
  induction is generalizing m with
  | nil => exact refl m
  | cons i is ih =>
    rw [Ertos.mallocFrom]
    dsimp only
    split_ifs
    · exact ih m
    · exact (setDesc m i _).trans (setDesc _ i _)
    · exact (setDesc m i _).trans (setDesc _ i _)
    · exact (setDesc m i _).trans (ih _)

theorem malloc {m : Mem} (henabled : m.dmallocEnabled ≠ false) (size : ℕ) :
    SameHeap m (malloc m size).2 := by
  rw [Ertos.malloc, if_neg henabled]
  exact mallocFrom size _ m

theorem freeDesc (p : ℕ) (m : Mem) (i : ℕ) : SameHeap m (freeDesc p m i) := by
  rw [freeDesc_eq]
  split_ifs
  · exact setDesc m i _
  · exact refl m

theorem foldl_freeDesc (p : ℕ) (is : List ℕ) (m : Mem) :
    SameHeap m (is.foldl (Ertos.freeDesc p) m) := by
  induction is generalizing m with
  | nil => exact refl m
  | cons i is ih => exact (freeDesc p m i).trans (ih _)

theorem free (m : Mem) (p : ℕ) : SameHeap m (free m p) := by
  rw [Ertos.free]
  split_ifs
  · exact refl m
  · exact foldl_freeDesc p _ m

end Mem.SameHeap

/-! ## The invariant -/

/-- The heap is used up to `used`, a multiple of four, and the blocks lie in that part. -/
structure AllocInv (e : HeapStart) (s : AllocState) (used : ℕ) : Prop where
  heapStart : s.mem.heapStart = e.addr
  heapSize : s.mem.heapSize = heapSizeInit
  heapCur : s.mem.heapCur = (e.addr + used) % 2 ^ 32
  aligned : 4 ∣ used
  le_size : used ≤ heapSizeInit
  block : ∀ b ∈ s.blocks, 4 ∣ b.1 ∧ e.addr ≤ b.1 ∧ b.1 + b.2 ≤ e.addr + used
  disjoint : s.blocks.Pairwise fun a b ↦ ¬Share a b

/-- The next multiple of four. -/
def alignUp (n : ℕ) : ℕ := if n % 4 ≠ 0 then n + (4 - n % 4) else n

theorem le_alignUp (n : ℕ) : n ≤ alignUp n := by
  unfold alignUp
  split_ifs <;> omega

theorem four_dvd_alignUp (n : ℕ) : 4 ∣ alignUp n := by
  unfold alignUp
  split_ifs <;> omega

theorem alignUp_le {n b : ℕ} (hn : n ≤ b) (hb : 4 ∣ b) : alignUp n ≤ b := by
  unfold alignUp
  split_ifs <;> omega

namespace AllocInv

variable {e : HeapStart} {s : AllocState} {used : ℕ}

/-- The distance of `heap_cur` from the start, in words that wrap. -/
theorem wordSub_heapCur (h : AllocInv e s used) :
    wordSub s.mem.heapCur s.mem.heapStart = used := by
  have hfits := e.fits
  have hpos := e.pos
  have hle := h.le_size
  rw [heapSizeInit_eq] at hfits hle
  rw [h.heapCur, h.heapStart, wordSub]
  omega

theorem wordSub_heapSize (h : AllocInv e s used) :
    wordSub s.mem.heapSize used = heapSizeInit - used := by
  have hle := h.le_size
  rw [heapSizeInit_eq] at hle
  rw [h.heapSize, heapSizeInit_eq]
  exact wordSub_of_le hle (by omega) (by omega)

theorem smalloc_eq (h : AllocInv e s used) (size : ℕ) :
    smalloc s.mem size =
      if used + size ≤ heapSizeInit then
        ((e.addr + used) % 2 ^ 32,
          { s.mem with heapCur := (e.addr + alignUp (used + size)) % 2 ^ 32 })
      else (NULL, s.mem) := by
  have hfits := e.fits
  have hle := h.le_size
  obtain ⟨a, ha⟩ := e.aligned
  obtain ⟨u, hu⟩ := h.aligned
  rw [smalloc, h.wordSub_heapCur, h.wordSub_heapSize]
  by_cases hroom : used + size ≤ heapSizeInit
  · rw [if_pos (by omega), if_pos hroom, h.heapCur]
    have hcur : ((e.addr + used) % 2 ^ 32 + size) % 2 ^ 32 = (e.addr + (used + size)) % 2 ^ 32 := by
      rw [Nat.mod_add_mod, Nat.add_assoc]
    have hmod : (e.addr + (used + size)) % 2 ^ 32 % 4 = (used + size) % 4 := by omega
    rw [hcur]
    simp only [hmod, alignUp]
    split_ifs with halign
    · rw [Nat.mod_add_mod, Nat.add_assoc]
    · rfl
  · rw [if_neg (by omega), if_neg hroom]

theorem of_sameHeap (h : AllocInv e s used) {m : Mem} (hm : Mem.SameHeap s.mem m) :
    AllocInv e { s with mem := m } used :=
  ⟨hm.heapStart.trans h.heapStart, hm.heapSize.trans h.heapSize, hm.heapCur.trans h.heapCur,
    h.aligned, h.le_size, h.block, h.disjoint⟩

/-- A block that is returned is aligned and lies behind all others. -/
theorem new_block (h : AllocInv e s used) {size : ℕ} (hp : (smalloc s.mem size).1 ≠ NULL) :
    (smalloc s.mem size).1 = e.addr + used ∧ used + size ≤ heapSizeInit := by
  have hfits := e.fits
  rw [h.smalloc_eq] at hp ⊢
  by_cases hroom : used + size ≤ heapSizeInit
  · rw [if_pos hroom] at hp ⊢
    refine ⟨Nat.mod_eq_of_lt ?_, hroom⟩
    -- only the end of the address space would wrap, and it wraps to `NULL`
    by_contra hge
    have hend : e.addr + used = 2 ^ 32 := by omega
    rw [hend, Nat.mod_self] at hp
    exact hp rfl
  · rw [if_neg hroom] at hp
    exact absurd rfl hp

theorem not_share (h : AllocInv e s used) {size : ℕ} {b : ℕ × ℕ} (hb : b ∈ s.blocks) :
    ¬Share (e.addr + used, size) b := by
  obtain ⟨-, -, hend⟩ := h.block b hb
  rintro ⟨x, h₁, -, -, h₂⟩
  exact absurd (h₂.trans_le hend) (Nat.not_lt.mpr h₁)

theorem smalloc_of_room (h : AllocInv e s used) {size : ℕ} (hroom : used + size ≤ heapSizeInit) :
    AllocInv e (s.smalloc size) (alignUp (used + size)) := by
  have hup := le_alignUp (used + size)
  have hsize : 4 ∣ heapSizeInit := by
    rw [heapSizeInit_eq]
    decide
  have hmem : (s.smalloc size).mem =
      { s.mem with heapCur := (e.addr + alignUp (used + size)) % 2 ^ 32 } := by
    rw [AllocState.smalloc, h.smalloc_eq, if_pos hroom]
  have hold : ∀ b ∈ s.blocks,
      4 ∣ b.1 ∧ e.addr ≤ b.1 ∧ b.1 + b.2 ≤ e.addr + alignUp (used + size) := by
    intro b hb
    obtain ⟨hdvd, hlow, hhigh⟩ := h.block b hb
    exact ⟨hdvd, hlow, by omega⟩
  refine ⟨by rw [hmem, ← h.heapStart], by rw [hmem, ← h.heapSize], by rw [hmem],
    four_dvd_alignUp _, alignUp_le hroom hsize, ?_, ?_⟩
  · intro b hb
    rw [AllocState.smalloc] at hb
    dsimp only at hb
    split_ifs at hb with hp
    · exact hold b hb
    rcases List.mem_cons.mp hb with rfl | hb
    · rw [(h.new_block hp).1]
      refine ⟨Nat.dvd_add e.aligned h.aligned, Nat.le_add_right _ _, ?_⟩
      rw [Nat.add_assoc]
      exact Nat.add_le_add_left hup e.addr
    · exact hold b hb
  · rw [AllocState.smalloc]
    dsimp only
    split_ifs with hp
    · exact h.disjoint
    · refine List.pairwise_cons.mpr ⟨fun b hb ↦ ?_, h.disjoint⟩
      rw [(h.new_block hp).1]
      exact h.not_share hb

theorem smalloc (h : AllocInv e s used) (size : ℕ) :
    ∃ used', AllocInv e (s.smalloc size) used' := by
  have hcall := h.smalloc_eq size
  by_cases hroom : used + size ≤ heapSizeInit
  · exact ⟨_, h.smalloc_of_room hroom⟩
  · rw [if_neg hroom] at hcall
    have hsame : s.smalloc size = s := by
      rw [AllocState.smalloc, hcall]
      rfl
    rw [hsame]
    exact ⟨used, h⟩

theorem step (h : AllocInv e s used) {o : AllocOp} {t : AllocState} (hst : AllocStep s o t) :
    ∃ used', AllocInv e t used' := by
  obtain rfl := hst
  cases o with
  | smalloc size => exact h.smalloc size
  | malloc size =>
    rw [AllocOp.exec]
    split_ifs with henabled
    · exact h.smalloc size
    · exact ⟨used, h.of_sameHeap (.malloc henabled size)⟩
  | free p => exact ⟨used, h.of_sameHeap (.free s.mem p)⟩
  | setDesc i d => exact ⟨used, h.of_sameHeap (.setDesc s.mem i d)⟩
  | enable => exact ⟨used, h.of_sameHeap ⟨rfl, rfl, rfl⟩⟩

theorem boot (e : HeapStart) : AllocInv e (allocBoot e) 0 := by
  have hpos := e.fits
  rw [heapSizeInit_eq] at hpos
  refine ⟨rfl, rfl, ?_, Nat.dvd_zero 4, Nat.zero_le _, by simp [allocBoot], List.Pairwise.nil⟩
  rw [Nat.add_zero, Nat.mod_eq_of_lt (by omega)]
  rfl

end AllocInv

/-! ## `mem_init` as a run -/

/-- Every free chunk is in the log, with the chunk size of the region where it is stored. -/
def AllocState.Logged (s : AllocState) : Prop :=
  ∀ i, ∀ p ∈ s.mem.fifo i, (p, (s.mem.memDesc i).size) ∈ s.blocks

/-- There is a run from `m` to `m'` that keeps the log complete. -/
def Mem.Logs (m m' : Mem) : Prop :=
  ∀ bs, AllocState.Logged ⟨m, bs⟩ →
    ∃ bs', Leads AllocStep ⟨m, bs⟩ ⟨m', bs'⟩ ∧ AllocState.Logged ⟨m', bs'⟩

theorem Mem.Logs.refl (m : Mem) : Mem.Logs m m := fun bs h ↦ ⟨bs, .refl _, h⟩

theorem Mem.Logs.trans {m m' m'' : Mem} (h : Mem.Logs m m') (h' : Mem.Logs m' m'') :
    Mem.Logs m m'' := by
  intro bs hbs
  obtain ⟨bs', hreach, hlog⟩ := h bs hbs
  obtain ⟨bs'', hreach', hlog'⟩ := h' bs' hlog
  exact ⟨bs'', hreach.trans hreach', hlog'⟩

theorem logs_of_foldlM {β : Type*} (mem : β → Mem) {f : β → ℕ → Except Mem β}
    (hstep : ∀ b i b', f b i = .ok b' → Mem.Logs (mem b) (mem b')) {is : List ℕ} {b b' : β}
    (h : is.foldlM f b = .ok b') : Mem.Logs (mem b) (mem b') := by
  induction is generalizing b with
  | nil =>
    obtain rfl : b = b' := Except.ok.inj h
    exact .refl _
  | cons i is ih =>
    rw [List.foldlM_cons] at h
    cases hb : f b i with
    | error m =>
      rw [hb] at h
      exact absurd h (by simp [bind, Except.bind])
    | ok b₁ =>
      rw [hb] at h
      exact (hstep b i b₁ hb).trans (ih h)

theorem memDesc_smalloc (m : Mem) (size : ℕ) : (smalloc m size).2.memDesc = m.memDesc := by
  unfold smalloc
  split_ifs <;> rfl

theorem leads_smalloc (m : Mem) (bs : List (ℕ × ℕ)) {size : ℕ}
    (hp : (smalloc m size).1 ≠ NULL) :
    Leads AllocStep ⟨m, bs⟩ ⟨(smalloc m size).2, ((smalloc m size).1, size) :: bs⟩ := by
  refine .single (e := .smalloc size) ?_
  show AllocState.smalloc ⟨m, bs⟩ size = _
  rw [AllocState.smalloc, if_neg hp]

theorem leads_setDesc (m : Mem) (bs : List (ℕ × ℕ)) (i : ℕ) (d : MemDesc) :
    Leads AllocStep ⟨m, bs⟩ ⟨m.setDesc i d, bs⟩ := .single (e := .setDesc i d) rfl

/-- What a step leaves in the log must be the FIFOs it did not touch, or newly logged. -/
theorem logged_of {m m' : Mem} {bs bs' : List (ℕ × ℕ)} {i : ℕ} (h : AllocState.Logged ⟨m, bs⟩)
    (hbs : bs ⊆ bs') (hother : ∀ j, j ≠ i → m'.memDesc j = m.memDesc j)
    (hself : ∀ p ∈ m'.fifo i, (p, (m'.memDesc i).size) ∈ bs') :
    AllocState.Logged ⟨m', bs'⟩ := by
  intro j p hp
  by_cases hj : j = i
  · rw [hj] at hp ⊢
    exact hself p hp
  · have hp' : p ∈ (m'.memDesc j).allocations.contents := hp
    show (p, (m'.memDesc j).size) ∈ bs'
    rw [hother j hj] at hp' ⊢
    exact hbs (h j p hp')

theorem logs_memInitDesc {m m' : Mem} {i : ℕ} (h : memInitDesc m i = .ok m') : Mem.Logs m m' := by
  intro bs hbs
  unfold memInitDesc at h
  dsimp only at h
  split_ifs at h with h₁ h₂
  obtain rfl := Except.ok.inj h
  refine ⟨_, ((leads_smalloc m bs h₁).trans (leads_setDesc _ _ i _)).trans
    ((leads_smalloc _ _ h₂).trans (leads_setDesc _ _ i _)), logged_of (i := i) hbs ?_ ?_ ?_⟩
  · exact fun b hb ↦ List.mem_cons_of_mem _ (List.mem_cons_of_mem _ hb)
  · intro j hj
    rw [Mem.memDesc_setDesc_of_ne _ _ _ _ hj, memDesc_smalloc, Mem.memDesc_setDesc_of_ne _ _ _ _ hj,
      memDesc_smalloc]
  · -- the new FIFO is empty
    intro p hp
    rw [Mem.fifo, Mem.memDesc_setDesc_self] at hp
    simp at hp

theorem mem_queue {f : BoundedFifo} {elem p : Ptr} (hp : p ∈ (f.queue elem).2.contents) :
    p ∈ f.contents ∨ p = elem := by
  by_cases hfree : f.free = 0
  · rw [BoundedFifo.queue_full elem hfree] at hp
    exact Or.inl hp
  · rw [BoundedFifo.contents_queue elem hfree] at hp
    exact (List.mem_append.mp hp).imp_right List.mem_singleton.mp

theorem logs_memInitChunk {i j : ℕ} {s s' : ℕ × Mem} (h : memInitChunk i s j = .ok s') :
    Mem.Logs s.2 s'.2 := by
  intro bs hbs
  obtain ⟨q, m⟩ := s
  have hdesc := memDesc_smalloc m (m.memDesc i).size
  unfold memInitChunk at h
  dsimp only at h
  by_cases hp : (smalloc m (m.memDesc i).size).1 = NULL
  · rw [if_pos hp] at h
    exact absurd h (by simp)
  rw [if_neg hp, hdesc] at h
  set p := (smalloc m (m.memDesc i).size).1
  set d := { m.memDesc i with allocations := ((m.memDesc i).allocations.queue p).2 } with hd
  -- the start of the region is no concern of the log
  obtain ⟨d', hd', hsize, hqueue⟩ : ∃ d', (if j = 0 then { d with start := p } else d) = d' ∧
      d'.size = d.size ∧ d'.allocations = d.allocations := by
    refine ⟨_, rfl, ?_, ?_⟩ <;> split_ifs <;> rfl
  rw [hd'] at h
  obtain rfl := Except.ok.inj h
  refine ⟨_, (leads_smalloc m bs hp).trans (leads_setDesc _ _ i d'),
    logged_of (i := i) hbs (fun b hb ↦ List.mem_cons_of_mem _ hb) (fun k hk ↦ ?_) fun x hx ↦ ?_⟩
  · rw [Mem.memDesc_setDesc_of_ne _ _ _ _ hk, hdesc]
  · rw [Mem.fifo, Mem.memDesc_setDesc_self, hqueue] at hx
    rw [Mem.memDesc_setDesc_self, hsize]
    rcases mem_queue hx with hx | rfl
    · exact List.mem_cons_of_mem _ (hbs i x hx)
    · exact List.mem_cons_self

theorem logs_memInitPool {m m' : Mem} {i : ℕ} (h : memInitPool m i = .ok m') : Mem.Logs m m' := by
  unfold memInitPool at h
  cases hfold : (List.range allocNum).foldlM (memInitChunk i) (NULL, m) with
  | error u =>
    rw [hfold] at h
    exact absurd h (by simp)
  | ok s =>
    obtain ⟨p, u⟩ := s
    rw [hfold] at h
    obtain rfl := Except.ok.inj h
    have hchunks : Mem.Logs m u :=
      logs_of_foldlM Prod.snd (fun _ _ _ h ↦ logs_memInitChunk h) hfold
    refine hchunks.trans fun bs hbs ↦ ⟨bs, leads_setDesc u bs i _, ?_⟩
    refine logged_of hbs (List.Subset.refl bs)
      (fun j hj ↦ Mem.memDesc_setDesc_of_ne _ _ _ _ hj) fun x hx ↦ ?_
    rw [Mem.fifo, Mem.memDesc_setDesc_self] at hx
    rw [Mem.memDesc_setDesc_self]
    exact hbs i x hx

/-- Every chunk is in the log. -/
def AllocState.Carved (e : HeapStart) (s : AllocState) : Prop :=
  ∀ i < 9, ∀ c ∈ chunks e.addr i, (c, chunkSize i) ∈ s.blocks

/-- **`mem_init` is a run**, and its chunks are blocks of `smalloc`. -/
theorem exists_memInit_run (e : HeapStart) : ∃ r, IsRun AllocStep (allocBoot e) r ∧
    (last (allocBoot e) r).mem = memInit e.addr ∧ (last (allocBoot e) r).Carved e := by
  obtain ⟨m₁, m₂, hfold₁, hfold₂, -⟩ := memInit_ok e
  have hinit := memInit_eq hfold₁ hfold₂
  have hlogs : Mem.Logs (allocBoot e).mem m₂ :=
    (logs_of_foldlM id (fun _ _ _ h ↦ logs_memInitDesc h) hfold₁).trans
      (logs_of_foldlM id (fun _ _ _ h ↦ logs_memInitPool h) hfold₂)
  have hempty : AllocState.Logged ⟨(allocBoot e).mem, []⟩ := by
    intro i p hp
    rw [show (Mem.fifo (allocBoot e).mem i) = [] from BoundedFifo.contents_init 0] at hp
    exact absurd hp List.not_mem_nil
  obtain ⟨bs, hreach, hlog⟩ := hlogs [] hempty
  obtain ⟨r, hrun, hlast⟩ := hreach.trans (.single (e := AllocOp.enable) rfl)
  replace hlast : last (allocBoot e) r = ⟨{ m₂ with dmallocEnabled := true }, bs⟩ := hlast
  obtain ⟨hpools, hcont⟩ := memInit_pools e
  refine ⟨r, hrun, by rw [hlast, hinit], fun i hi c hc ↦ ?_⟩
  rw [hinit] at hpools hcont
  have hmem : c ∈ Mem.fifo m₂ i := by
    rw [← hcont i hi] at hc
    exact hc
  rw [hlast, ← hpools.size i hi]
  exact hlog i c hmem

/-! ## The theorem -/

/-- Whatever is requested next: the room left is computed without wrapping; a block is aligned, lies
inside the heap, and shares no byte with the blocks before it; a failure leaves `heap_cur` alone. -/
structure SmallocSound (e : HeapStart) (s : AllocState) : Prop where
  noWrap : wordSub s.mem.heapCur s.mem.heapStart ≤ s.mem.heapSize
  heap : s.mem.heapStart = e.addr ∧ s.mem.heapSize = heapSizeInit
  block : ∀ size, (smalloc s.mem size).1 ≠ NULL →
    4 ∣ (smalloc s.mem size).1 ∧ e.addr ≤ (smalloc s.mem size).1 ∧
      (smalloc s.mem size).1 + size ≤ e.addr + heapSizeInit ∧
      ∀ b ∈ s.blocks, ¬Share ((smalloc s.mem size).1, size) b
  failed : ∀ size, (smalloc s.mem size).1 = NULL →
    (smalloc s.mem size).2.heapCur = s.mem.heapCur

theorem AllocInv.sound {e : HeapStart} {s : AllocState} {used : ℕ} (h : AllocInv e s used) :
    SmallocSound e s := by
  refine ⟨?_, ⟨h.heapStart, h.heapSize⟩, fun size hp ↦ ?_, fun size hp ↦ ?_⟩
  · rw [h.wordSub_heapCur, h.heapSize]
    exact h.le_size
  · obtain ⟨hstart, hroom⟩ := h.new_block hp
    rw [hstart]
    refine ⟨Nat.dvd_add e.aligned h.aligned, Nat.le_add_right _ _, ?_, fun b hb ↦ h.not_share hb⟩
    rw [Nat.add_assoc]
    exact Nat.add_le_add_left hroom e.addr
  · have hfits := e.fits
    have hpos := e.pos
    have haligned := h.aligned
    rw [h.smalloc_eq] at hp ⊢
    by_cases hroom : used + size ≤ heapSizeInit
    · -- the end of the address space: a request of no bytes
      rw [if_pos hroom] at hp ⊢
      have hwrap : (e.addr + used) % 2 ^ 32 = 0 := hp
      have hzero : size = 0 := by omega
      rw [h.heapCur, hzero, Nat.add_zero, alignUp, if_neg (by omega)]
    · rw [if_neg hroom]

theorem blocks_subset {s t : AllocState} {o : AllocOp} (h : AllocStep s o t) :
    s.blocks ⊆ t.blocks := by
  have hsmalloc : ∀ size, s.blocks ⊆ (s.smalloc size).blocks := by
    intro size
    rw [AllocState.smalloc]
    dsimp only
    split_ifs
    · exact List.Subset.refl _
    · exact List.subset_cons_self _ _
  obtain rfl := h
  cases o with
  | smalloc size => exact hsmalloc size
  | malloc size =>
    rw [AllocOp.exec]
    split_ifs
    · exact hsmalloc size
    · exact List.Subset.refl _
  | free p => exact List.Subset.refl _
  | setDesc i d => exact List.Subset.refl _
  | enable => exact List.Subset.refl _

/-- **The static allocator is sound** in every state that a run of calls reaches, with the blocks of
`mem_init` and without. `mem_init` is such a run, after which every chunk is among the blocks. -/
theorem smalloc_sound (e : HeapStart) :
    (∀ r, IsRun AllocStep (allocBoot e) r → Always (SmallocSound e) (allocBoot e) r) ∧
      ∃ r₀, IsRun AllocStep (allocBoot e) r₀ ∧ (last (allocBoot e) r₀).mem = memInit e.addr ∧
        ∀ r, IsRun AllocStep (last (allocBoot e) r₀) r →
          Always (fun s ↦ SmallocSound e s ∧ s.Carved e) (last (allocBoot e) r₀) r := by
  have hstep : ∀ s o t, (∃ used, AllocInv e s used) → AllocStep s o t →
      ∃ used, AllocInv e t used := fun s o t ⟨_, hs⟩ h ↦ hs.step h
  have hsound : ∀ r, IsRun AllocStep (allocBoot e) r →
      Always (fun s ↦ ∃ used, AllocInv e s used) (allocBoot e) r :=
    fun r hrun ↦ always_of_step hstep ⟨0, .boot e⟩ hrun
  refine ⟨fun r hrun ↦ (hsound r hrun).imp fun s ⟨_, hs⟩ ↦ hs.sound, ?_⟩
  obtain ⟨r₀, hrun₀, hmem, hcarved⟩ := exists_memInit_run e
  refine ⟨r₀, hrun₀, hmem, fun r hrun ↦ ?_⟩
  have hboth : Always (fun s ↦ (∃ used, AllocInv e s used) ∧ s.Carved e)
      (last (allocBoot e) r₀) r := by
    refine always_of_step (fun s o t hs h ↦ ⟨hstep s o t hs.1 h, fun i hi c hc ↦ ?_⟩)
      ⟨(hsound r₀ hrun₀).last, hcarved⟩ hrun
    exact blocks_subset h (hs.2 i hi c hc)
  exact hboth.imp fun s ⟨⟨_, hs⟩, hc⟩ ↦ ⟨hs.sound, hc⟩

end Ertos
