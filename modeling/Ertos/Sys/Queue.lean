import Ertos.Basis.Simulation
import Ertos.Sys.Bfifo

/-!
# A `bfifo` is a bounded queue

The specification is a list of at most `n` elements: `bfifo_queue` appends to it unless it is full,
and `bfifo_dequeue` takes its head. The three counters of the structure are redundant, and
`Represents` says how they are related to each other and to the list.
-/

namespace Ertos

open Transition

/-! ## The two systems -/

/-- A call together with its result. -/
inductive FifoCall
  | queue (elem : Ptr) (rc : ℤ)
  | dequeue (elem : Ptr)

/-- The calls on a `struct bfifo`. A stored `NULL` could not be told from a failure. -/
inductive BfifoStep : Bfifo → FifoCall → Bfifo → Prop
  | queue {f : Bfifo} {elem : Ptr} (helem : elem ≠ NULL) :
      BfifoStep f (.queue elem (bfifoQueue f elem).1) (bfifoQueue f elem).2
  | dequeue {f : Bfifo} : BfifoStep f (.dequeue (bfifoDequeue f).1) (bfifoDequeue f).2

/-- The calls on a queue of at most `n` elements, the oldest first. -/
inductive QueueStep (n : ℕ) : List Ptr → FifoCall → List Ptr → Prop
  | full {l : List Ptr} {elem : Ptr} (h : l.length = n) : QueueStep n l (.queue elem (-1)) l
  | queue {l : List Ptr} {elem : Ptr} (h : l.length < n) :
      QueueStep n l (.queue elem 0) (l ++ [elem])
  | empty : QueueStep n [] (.dequeue NULL) []
  | dequeue {l : List Ptr} {elem : Ptr} : QueueStep n (elem :: l) (.dequeue elem) l

/-! ## The relation -/

/-- The FIFO stands for the queue `l` of capacity `n`. -/
structure Represents (n : ℕ) (f : Bfifo) (l : List Ptr) : Prop where
  wf : f.Wf
  size : f.size = n
  contents : f.contents = l
  notNull : NULL ∉ l

namespace Represents

variable {n : ℕ} {f : Bfifo} {l : List Ptr}

theorem init (n : ℕ) : Represents n (bfifoInit n) [] :=
  ⟨Bfifo.wf_init n, rfl, Bfifo.contents_init n, List.not_mem_nil⟩

theorem length_add_free (h : Represents n f l) : l.length + f.free = n := by
  have hle := h.wf.free_le
  rw [← h.contents, Bfifo.length_contents, ← h.size]
  omega

theorem queue (h : Represents n f l) {elem : Ptr} (helem : elem ≠ NULL) (hroom : l.length < n) :
    Represents n (bfifoQueue f elem).2 (l ++ [elem]) := by
  have hfree : f.free ≠ 0 := by
    have hlen := h.length_add_free
    omega
  refine ⟨Bfifo.wf_queue h.wf elem, (Bfifo.size_queue elem).trans h.size, ?_, ?_⟩
  · rw [Bfifo.contents_queue h.wf hfree, h.contents]
  · rw [List.mem_append, List.mem_singleton, not_or]
    exact ⟨h.notNull, helem.symm⟩

theorem dequeue {x : Ptr} (h : Represents n f (x :: l)) :
    (bfifoDequeue f).1 = x ∧ Represents n (bfifoDequeue f).2 l := by
  have hlt : f.free < f.size := by
    have hlen := h.length_add_free
    rw [h.size]
    rw [List.length_cons] at hlen
    omega
  have hcons := Bfifo.contents_eq_cons h.wf hlt
  rw [h.contents] at hcons
  obtain ⟨hx, hl⟩ := List.cons.inj hcons
  exact ⟨hx.symm, Bfifo.wf_dequeue h.wf, Bfifo.size_dequeue.trans h.size, hl.symm,
    fun hmem ↦ h.notNull (List.mem_cons_of_mem x hmem)⟩

end Represents

theorem simulation_bfifo (n : ℕ) : Simulation BfifoStep (QueueStep n) (Represents n) := by
  intro f l e f' h hst
  have hlen := h.length_add_free
  cases hst with
  | @queue elem helem =>
    -- the counter `free` decides, which counts the slots the queue does not use
    by_cases hfull : f.free = 0
    · rw [Bfifo.queue_full hfull]
      exact ⟨l, .full (by omega), h⟩
    · have hroom : l.length < n := by omega
      rw [Bfifo.queue_fst hfull]
      exact ⟨l ++ [elem], .queue hroom, h.queue helem hroom⟩
  | dequeue =>
    cases l with
    | nil =>
      have hempty : f.size ≤ f.free := by
        rw [h.size, ← hlen, List.length_nil, Nat.zero_add]
      rw [Bfifo.dequeue_empty hempty]
      exact ⟨[], .empty, h⟩
    | cons x l =>
      obtain ⟨hx, hl⟩ := h.dequeue
      rw [hx]
      exact ⟨l, .dequeue, hl⟩

/-! ## The theorem -/

/-- The state of a FIFO that stands for `l`: its counters, and the answers to the calls that change
nothing and to those that do. -/
structure BfifoState (n : ℕ) (f : Bfifo) (l : List Ptr) : Prop where
  represents : Represents n f l
  head_lt : f.head < n
  tail_lt : f.tail < n
  tail_eq : f.tail = (f.head + n - f.free) % n
  full : l.length = n → ∀ elem, bfifoQueue f elem = (-1, f)
  room : l.length ≠ n → ∀ elem, (bfifoQueue f elem).1 = 0
  empty : l = [] → bfifoDequeue f = (NULL, f)
  oldest : l ≠ [] → (bfifoDequeue f).1 ≠ NULL

theorem Represents.bfifoState {n : ℕ} {f : Bfifo} {l : List Ptr} (hn : 1 ≤ n)
    (h : Represents n f l) : BfifoState n f l := by
  have hlen := h.length_add_free
  have htail := h.wf.tail_eq
  rw [h.size] at htail
  refine ⟨h, ?_, ?_, ?_, fun hl elem ↦ ?_, fun hl elem ↦ ?_, fun hl ↦ ?_, fun hl ↦ ?_⟩
  · rw [← h.size]
    exact h.wf.head_lt (by rw [h.size]; exact hn)
  · rw [htail]
    exact Nat.mod_lt _ hn
  · rw [htail, Nat.add_sub_assoc (by omega)]
  · exact Bfifo.queue_full (by omega) elem
  · exact Bfifo.queue_fst (by omega) elem
  · subst hl
    exact Bfifo.dequeue_empty (by rw [h.size, ← hlen, List.length_nil, Nat.zero_add])
  · obtain ⟨x, l, rfl⟩ := List.exists_cons_of_ne_nil hl
    rw [h.dequeue.1]
    exact fun hx ↦ h.notNull (hx ▸ List.mem_cons_self)

/-- **A `bfifo` refines a bounded queue.** Every sequence of calls on a fresh FIFO is followed by
the queue, call for call and result for result, and in every state the FIFO stands for the queue. -/
theorem bfifo_refines_queue {n : ℕ} (hn : 1 ≤ n) {r : List (FifoCall × Bfifo)}
    (hrun : IsRun BfifoStep (bfifoInit n) r) :
    ∃ r', IsRun (QueueStep n) [] r' ∧ Follows (BfifoState n) (bfifoInit n) r [] r' := by
  have hsim : Simulation BfifoStep (QueueStep n) (BfifoState n) := by
    intro f l e f' h hst
    obtain ⟨l', hl', h'⟩ := simulation_bfifo n f l e f' h.represents hst
    exact ⟨l', hl', h'.bfifoState hn⟩
  exact hsim.follows ((Represents.init n).bfifoState hn) hrun

/-- One slot: a second element does not fit, and then a second one does not come out. -/
def oneSlotRun : List (FifoCall × Bfifo) :=
  let f := (bfifoQueue (bfifoInit 1) 7).2
  let f' := (bfifoDequeue f).2
  [(.queue 7 0, f), (.queue 8 (-1), f), (.dequeue 7, f'), (.dequeue NULL, f')]

theorem bfifo_refines_queue_oneSlot :
    ∃ r', IsRun (QueueStep 1) [] r' ∧ Follows (BfifoState 1) (bfifoInit 1) oneSlotRun [] r' :=
  bfifo_refines_queue le_rfl
    ⟨.queue (by decide), .queue (by decide), .dequeue, .dequeue, trivial⟩

end Ertos
