import Ertos.Basis.Ring
import Ertos.Sys.List
import Mathlib.Data.Int.Notation

/-!
# The bounded FIFO of `kernel/list.c`

`struct bfifo` is a ring of `size` pointers with a count of its free slots. The record below is the
structure in memory; `Bfifo.Wf` is what `bfifo_alloc` establishes and the two operations keep, and
`BoundedFifo` packages a FIFO with that fact, so that later files never restate it. The queue a
FIFO stands for is `contents`.
-/

namespace Ertos

open Ring

/-- `struct bfifo`. The flexible array `elems` is a function on indices. -/
structure Bfifo where
  head : ℕ
  tail : ℕ
  free : ℕ
  size : ℕ
  elems : ℕ → Ptr

/-- The FIFO `bfifo_alloc` leaves in a block it could allocate: cleared, with all slots free. -/
def bfifoInit (nelems : ℕ) : Bfifo where
  head := 0
  tail := 0
  free := nelems
  size := nelems
  elems := fun _ ↦ NULL

def bfifoQueue (f : Bfifo) (elem : Ptr) : ℤ × Bfifo :=
  if f.free = 0 then (-1, f)
  else (0, { f with
    elems := Function.update f.elems f.tail elem
    tail := if f.size ≤ f.tail + 1 then 0 else f.tail + 1
    free := f.free - 1 })

def bfifoDequeue (f : Bfifo) : Ptr × Bfifo :=
  if f.size ≤ f.free then (NULL, f)
  else (f.elems f.head, { f with
    head := if f.size ≤ f.head + 1 then 0 else f.head + 1
    free := f.free + 1 })

namespace Bfifo

/-- The indices are in range and the tail is as far ahead of the head as there are elements. -/
structure Wf (f : Bfifo) : Prop where
  free_le : f.free ≤ f.size
  head_lt : 0 < f.size → f.head < f.size
  tail_eq : f.tail = (f.head + (f.size - f.free)) % f.size

/-- The stored elements, the oldest first. -/
def contents (f : Bfifo) : List Ptr := window f.elems f.size f.head (f.size - f.free)

variable {f : Bfifo}

@[simp] theorem length_contents : f.contents.length = f.size - f.free := length_window _ _ _ _

theorem wf_init (nelems : ℕ) : (bfifoInit nelems).Wf where
  free_le := le_rfl
  head_lt := id
  tail_eq := by simp [bfifoInit]

@[simp] theorem contents_init (nelems : ℕ) : (bfifoInit nelems).contents = [] := by
  simp [contents, bfifoInit]

theorem queue_full (h : f.free = 0) (elem : Ptr) : bfifoQueue f elem = (-1, f) := if_pos h

theorem queue_fst (h : f.free ≠ 0) (elem : Ptr) : (bfifoQueue f elem).1 = 0 := by
  rw [bfifoQueue, if_neg h]

theorem contents_queue (hf : f.Wf) (h : f.free ≠ 0) (elem : Ptr) :
    (bfifoQueue f elem).2.contents = f.contents ++ [elem] := by
  have hle := hf.free_le
  rw [bfifoQueue, if_neg h, contents, contents, hf.tail_eq,
    show f.size - (f.free - 1) = f.size - f.free + 1 by omega]
  exact window_update _ (by omega) _

theorem wf_queue (hf : f.Wf) (elem : Ptr) : (bfifoQueue f elem).2.Wf := by
  by_cases h : f.free = 0
  · rw [queue_full h]
    exact hf
  have hle := hf.free_le
  have htail : f.tail < f.size := by
    rw [hf.tail_eq]
    exact Nat.mod_lt _ (by omega)
  rw [bfifoQueue, if_neg h]
  refine ⟨by simp only; omega, hf.head_lt, ?_⟩
  show advance f.size f.tail = (f.head + (f.size - (f.free - 1))) % f.size
  rw [advance_eq_mod htail, hf.tail_eq, Nat.mod_add_mod]
  congr 1
  omega

theorem dequeue_empty (h : f.size ≤ f.free) : bfifoDequeue f = (NULL, f) := if_pos h

theorem contents_eq_cons (hf : f.Wf) (h : f.free < f.size) :
    f.contents = (bfifoDequeue f).1 :: (bfifoDequeue f).2.contents := by
  have hhead := hf.head_lt (by omega)
  rw [bfifoDequeue, if_neg (by omega), contents,
    show f.size - f.free = f.size - (f.free + 1) + 1 by omega, window_succ_left _ hhead]
  rfl

theorem wf_dequeue (hf : f.Wf) : (bfifoDequeue f).2.Wf := by
  by_cases h : f.size ≤ f.free
  · rw [dequeue_empty h]
    exact hf
  have hhead := hf.head_lt (by omega)
  rw [bfifoDequeue, if_neg h]
  refine ⟨by simp only; omega, fun hpos ↦ advance_lt hpos, ?_⟩
  show f.tail = (advance f.size f.head + (f.size - (f.free + 1))) % f.size
  rw [advance_eq_mod hhead, Nat.mod_add_mod, hf.tail_eq]
  congr 1
  omega

@[simp] theorem size_queue (elem : Ptr) : (bfifoQueue f elem).2.size = f.size := by
  unfold bfifoQueue
  split_ifs <;> rfl

@[simp] theorem size_dequeue : (bfifoDequeue f).2.size = f.size := by
  unfold bfifoDequeue
  split_ifs <;> rfl

end Bfifo

/-! ## FIFOs that carry their invariant -/

/-- A FIFO as the program ever holds one. -/
structure BoundedFifo extends Bfifo where
  wf : toBfifo.Wf

namespace BoundedFifo

/-- A freshly allocated FIFO. -/
def init (nelems : ℕ) : BoundedFifo := ⟨bfifoInit nelems, Bfifo.wf_init nelems⟩

def queue (f : BoundedFifo) (elem : Ptr) : ℤ × BoundedFifo :=
  ((bfifoQueue f.toBfifo elem).1, ⟨(bfifoQueue f.toBfifo elem).2, Bfifo.wf_queue f.wf elem⟩)

def dequeue (f : BoundedFifo) : Ptr × BoundedFifo :=
  ((bfifoDequeue f.toBfifo).1, ⟨(bfifoDequeue f.toBfifo).2, Bfifo.wf_dequeue f.wf⟩)

variable (f : BoundedFifo) (elem : Ptr)

@[simp] theorem contents_init (nelems : ℕ) : (init nelems).contents = [] :=
  Bfifo.contents_init nelems

@[simp] theorem size_init (nelems : ℕ) : (init nelems).size = nelems := rfl

@[simp] theorem size_queue : (f.queue elem).2.size = f.size := Bfifo.size_queue elem

@[simp] theorem size_dequeue : f.dequeue.2.size = f.size := Bfifo.size_dequeue

variable {f}

theorem free_eq_zero_iff : f.free = 0 ↔ f.contents.length = f.size := by
  have := f.wf.free_le
  rw [Bfifo.length_contents]
  omega

theorem queue_full (h : f.free = 0) : f.queue elem = (-1, f) := by
  simp [queue, Bfifo.queue_full h]

theorem queue_fst (h : f.free ≠ 0) : (f.queue elem).1 = 0 := Bfifo.queue_fst h elem

theorem contents_queue (h : f.free ≠ 0) : (f.queue elem).2.contents = f.contents ++ [elem] :=
  Bfifo.contents_queue f.wf h elem

theorem dequeue_cases :
    (f.contents = [] ∧ f.dequeue = (NULL, f)) ∨
      f.contents = f.dequeue.1 :: f.dequeue.2.contents := by
  rcases Nat.lt_or_ge f.free f.size with h | h
  · exact Or.inr (Bfifo.contents_eq_cons f.wf h)
  · refine Or.inl ⟨List.eq_nil_of_length_eq_zero ?_, ?_⟩
    · rw [Bfifo.length_contents]
      omega
    · simp [dequeue, Bfifo.dequeue_empty h]

theorem dequeue_of_nil (h : f.contents = []) : f.dequeue = (NULL, f) := by
  rcases dequeue_cases (f := f) with ⟨-, hd⟩ | hd
  · exact hd
  · rw [h] at hd
    exact absurd hd (List.cons_ne_nil _ _).symm

theorem dequeue_of_cons {x : Ptr} {l : List Ptr} (h : f.contents = x :: l) :
    f.dequeue.1 = x ∧ f.dequeue.2.contents = l := by
  rcases dequeue_cases (f := f) with ⟨hnil, -⟩ | hd
  · rw [h] at hnil
    exact absurd hnil (List.cons_ne_nil _ _)
  · rw [h] at hd
    obtain ⟨rfl, rfl⟩ := List.cons.inj hd
    exact ⟨rfl, rfl⟩

end BoundedFifo

end Ertos
