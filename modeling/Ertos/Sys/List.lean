import Ertos.Basis.Linked
import Ertos.Basis.Transition

/-!
# The intrusive list of `include/sys/list.h`

Structures that are kept on lists start with a `struct list`, so a pointer to such a structure is
also a pointer to its list node. The model keeps the nodes of all structures in one map from
addresses to nodes, and an object of the program is its address. `NULL` is the address `0`.

`list_add_after` writes three of the four links of a doubly linked insertion: the back link of the
old successor keeps pointing at the list head. Every member's back link is therefore the *head*, and
`list_remove` on any member but the first unlinks all the members before it as well. The last part
of this file proves that this is the only thing that goes wrong: along a run of additions and
removals the forward traversal is the list of members exactly as long as only first members are
removed.
-/

namespace Ertos

open Linked Transition

/-- An address. -/
abbrev Ptr := ℕ

/-- The null pointer. -/
abbrev NULL : Ptr := 0

/-- `struct list`. -/
structure ListNode where
  next : Ptr
  prev : Ptr
  deriving DecidableEq

/-- The list nodes of all structures in memory. -/
abbrev ListHeap := Ptr → ListNode

namespace ListHeap

def setNext (h : ListHeap) (x y : Ptr) : ListHeap :=
  Function.update h x { h x with next := y }

def setPrev (h : ListHeap) (x y : Ptr) : ListHeap :=
  Function.update h x { h x with prev := y }

/-- The successor function the traversals follow. -/
def next (h : ListHeap) (x : Ptr) : Ptr := (h x).next

def prev (h : ListHeap) (x : Ptr) : Ptr := (h x).prev

variable (h : ListHeap) (x y z : Ptr)

@[simp] theorem next_setNext : (h.setNext x y).next z = if z = x then y else h.next z := by
  unfold next setNext
  by_cases hz : z = x <;> simp [hz]

@[simp] theorem prev_setNext : (h.setNext x y).prev z = h.prev z := by
  unfold prev setNext
  by_cases hz : z = x <;> simp [hz]

@[simp] theorem next_setPrev : (h.setPrev x y).next z = h.next z := by
  unfold next setPrev
  by_cases hz : z = x <;> simp [hz]

@[simp] theorem prev_setPrev : (h.setPrev x y).prev z = if z = x then y else h.prev z := by
  unfold prev setPrev
  by_cases hz : z = x <;> simp [hz]

end ListHeap

/-! ## The two operations -/

def listAddAfter (h : ListHeap) (l a : Ptr) : ListHeap :=
  let h := h.setNext a (h.next l)
  let h := h.setPrev a l
  h.setNext l a

def listRemove (h : ListHeap) (l : Ptr) : ListHeap :=
  let h := if h.prev l ≠ NULL then h.setNext (h.prev l) (h.next l) else h
  if h.next l ≠ NULL then h.setPrev (h.next l) (h.prev l) else h

def listEmpty (h : ListHeap) (l : Ptr) : Bool := h.next l = NULL

/-- The traversal `for (p = head->next; p != NULL; p = p->next)`, started at `p`: the nodes visited,
or `none` if `fuel` iterations do not reach `NULL`. -/
def listWalk (h : ListHeap) : ℕ → Ptr → Option (List Ptr)
  | 0, p => if p = NULL then some [] else none
  | fuel + 1, p => if p = NULL then some [] else (listWalk h fuel (h.next p)).map (p :: ·)

section Links

variable (h : ListHeap) {l a x : Ptr}

theorem next_listAddAfter :
    (listAddAfter h l a).next x = if x = l then a else if x = a then h.next l else h.next x := by
  simp [listAddAfter]

theorem prev_listAddAfter : (listAddAfter h l a).prev x = if x = a then l else h.prev x := by
  simp [listAddAfter]

theorem next_listRemove :
    (listRemove h l).next x = if h.prev l ≠ NULL ∧ x = h.prev l then h.next l else h.next x := by
  unfold listRemove
  by_cases hp : h.prev l = NULL <;> by_cases hn : h.next l = NULL <;> simp [hp, hn]

/-- The back links after a removal, for a member that is not its own predecessor. -/
theorem prev_listRemove (hl : h.prev l ≠ l) :
    (listRemove h l).prev x = if h.next l ≠ NULL ∧ x = h.next l then h.prev l else h.prev x := by
  unfold listRemove
  by_cases hp : h.prev l = NULL <;> by_cases hn : h.next l = NULL <;> simp [hp, hn, hl.symm]

end Links

/-! ## Traversals are paths -/

theorem listWalk_eq_some {h : ListHeap} {p : Ptr} {l : List Ptr} :
    (∃ fuel, listWalk h fuel p = some l) ↔ Path h.next p l NULL ∧ NULL ∉ l := by
  constructor
  · rintro ⟨fuel, hf⟩
    induction fuel generalizing p l with
    | zero =>
      rw [listWalk] at hf
      split_ifs at hf with hp
      obtain rfl := Option.some.inj hf
      exact ⟨hp, List.not_mem_nil⟩
    | succ fuel ih =>
      rw [listWalk] at hf
      split_ifs at hf with hp
      · obtain rfl := Option.some.inj hf
        exact ⟨hp, List.not_mem_nil⟩
      · obtain ⟨l, hl, rfl⟩ := Option.map_eq_some_iff.mp hf
        obtain ⟨hpath, hnull⟩ := ih hl
        exact ⟨⟨rfl, hpath⟩, by simp [hnull, Ne.symm hp]⟩
  · rintro ⟨hpath, hnull⟩
    refine ⟨l.length, ?_⟩
    induction l generalizing p with
    | nil => simp [listWalk, show p = NULL from hpath]
    | cons x l ih =>
      obtain ⟨rfl, hpath⟩ := hpath
      have hp : p ≠ NULL := fun hp ↦ hnull (hp ▸ List.mem_cons_self)
      rw [List.length_cons, listWalk, if_neg hp,
        ih hpath fun hm ↦ hnull (List.mem_cons_of_mem _ hm), Option.map_some]

/-! ## Runs of additions and removals

The list state pairs the nodes in memory with the specification of the list: the members added and
not yet removed, the most recent first. -/

/-- A list in memory and its intended members. -/
structure ListState where
  heap : ListHeap
  members : List Ptr

inductive ListOp
  | add (x : Ptr)
  | remove (y : Ptr)

/-- One call of `list_add_after(head, x)` with `x` not in the list, or of `list_remove(y)` with `y`
any member. -/
inductive ListStep (head : Ptr) : ListState → ListOp → ListState → Prop
  | add {s : ListState} {x : Ptr} : x ≠ NULL → x ≠ head → x ∉ s.members →
      ListStep head s (.add x) ⟨listAddAfter s.heap head x, x :: s.members⟩
  | remove {s : ListState} {y : Ptr} : y ∈ s.members →
      ListStep head s (.remove y) ⟨listRemove s.heap y, s.members.erase y⟩

/-- The forward traversal from the head ends, and visits exactly the members, each once. -/
def Visits (head : Ptr) (s : ListState) : Prop :=
  ∃ fuel l, listWalk s.heap fuel (s.heap.next head) = some l ∧ l.Nodup ∧
    ∀ x, x ∈ l ↔ x ∈ s.members

/-- A removal takes the member the head points at. -/
def RemovesFirst (head : Ptr) (s : ListState) : ListOp → Prop
  | .add _ => True
  | .remove y => s.heap.next head = y

/-- What the two operations really maintain: the forward links are right, and *every* back link is
the head. -/
structure ListInv (head : Ptr) (s : ListState) : Prop where
  path : Path s.heap.next (s.heap.next head) s.members NULL
  nodup : s.members.Nodup
  null_notMem : NULL ∉ s.members
  head_notMem : head ∉ s.members
  prev_eq : ∀ x ∈ s.members, s.heap.prev x = head

namespace ListInv

variable {head : Ptr} {s : ListState}

theorem init {h : ListHeap} (hnext : h.next head = NULL) : ListInv head ⟨h, []⟩ where
  path := hnext
  nodup := List.nodup_nil
  null_notMem := List.not_mem_nil
  head_notMem := List.not_mem_nil
  prev_eq := by simp

theorem visits (hs : ListInv head s) : Visits head s := by
  obtain ⟨fuel, hf⟩ := listWalk_eq_some.mpr ⟨hs.path, hs.null_notMem⟩
  exact ⟨fuel, s.members, hf, hs.nodup, fun x ↦ Iff.rfl⟩

theorem add (hs : ListInv head s) {x : Ptr} (hnull : x ≠ NULL) (hhead : x ≠ head)
    (hx : x ∉ s.members) : ListInv head ⟨listAddAfter s.heap head x, x :: s.members⟩ where
  path := by
    have hframe : ∀ y ∈ s.members, (listAddAfter s.heap head x).next y = s.heap.next y := by
      intro y hy
      have hyh : y ≠ head := fun h ↦ hs.head_notMem (h ▸ hy)
      have hyx : y ≠ x := fun h ↦ hx (h ▸ hy)
      rw [next_listAddAfter, if_neg hyh, if_neg hyx]
    have hnext : (listAddAfter s.heap head x).next x = s.heap.next head := by
      rw [next_listAddAfter, if_neg hhead, if_pos rfl]
    refine ⟨by rw [next_listAddAfter, if_pos rfl], ?_⟩
    rw [hnext]
    exact (path_congr hframe).mpr hs.path
  nodup := List.nodup_cons.mpr ⟨hx, hs.nodup⟩
  null_notMem := by simp [hs.null_notMem, hnull.symm]
  head_notMem := by simp [hs.head_notMem, hhead.symm]
  prev_eq := by
    intro y hy
    rw [prev_listAddAfter]
    rcases List.mem_cons.mp hy with rfl | hy
    · rw [if_pos rfl]
    · have hyx : y ≠ x := fun h ↦ hx (h ▸ hy)
      rw [if_neg hyx, hs.prev_eq y hy]

section Remove

variable {y : Ptr} (hhead : head ≠ NULL)

include hhead

theorem next_remove (hs : ListInv head s) (hy : y ∈ s.members) (x : Ptr) :
    (listRemove s.heap y).next x = if x = head then s.heap.next y else s.heap.next x := by
  rw [next_listRemove, hs.prev_eq y hy]
  simp [hhead]

theorem remove_first (hs : ListInv head s) (hy : y ∈ s.members) (hfirst : s.heap.next head = y) :
    ListInv head ⟨listRemove s.heap y, s.members.erase y⟩ := by
  obtain ⟨l, hl⟩ : ∃ l, s.members = y :: l := by
    cases hm : s.members with
    | nil => simp [hm] at hy
    | cons x l =>
      have hpath := hs.path
      rw [hm] at hpath
      exact ⟨l, by rw [← hfirst, ← hpath.1]⟩
  have hnodup := hs.nodup
  have hpath := hs.path
  have hnull := hs.null_notMem
  have hhd := hs.head_notMem
  -- the head takes over the link of the first member, and no other link changes
  rw [hl, List.nodup_cons] at hnodup
  rw [hl] at hpath hnull hhd
  rw [List.mem_cons, not_or] at hnull hhd
  rw [hl, List.erase_cons_head]
  refine ⟨?_, hnodup.2, hnull.2, hhd.2, ?_⟩
  · have hframe : ∀ x ∈ l, (listRemove s.heap y).next x = s.heap.next x := by
      intro x hx
      have hxh : x ≠ head := fun h ↦ hhd.2 (h ▸ hx)
      rw [hs.next_remove hhead hy, if_neg hxh]
    show Path (listRemove s.heap y).next ((listRemove s.heap y).next head) l NULL
    rw [hs.next_remove hhead hy, if_pos rfl]
    exact (path_congr hframe).mpr hpath.2
  · intro x hx
    have hprev : s.heap.prev x = head := hs.prev_eq x (hl ▸ List.mem_cons_of_mem _ hx)
    have hne : s.heap.prev y ≠ y := by
      rw [hs.prev_eq y hy]
      exact hhd.1
    show (listRemove s.heap y).prev x = head
    rw [prev_listRemove _ hne, hprev, hs.prev_eq y hy, ite_self]

/-- Removing a later member makes the head skip everything before it, so the first member
is lost. -/
theorem not_visits_remove (hs : ListInv head s) (hy : y ∈ s.members)
    (hfirst : s.heap.next head ≠ y) : ¬Visits head ⟨listRemove s.heap y, s.members.erase y⟩ := by
  rintro ⟨fuel, l, hwalk, -, hmem⟩
  obtain ⟨l₁, l₂, hl⟩ := List.append_of_mem hy
  have hnodup := hs.nodup
  have hnull := hs.null_notMem
  have hhd := hs.head_notMem
  have hpath := hs.path
  rw [hl] at hnodup hnull hhd hpath
  obtain ⟨c, hpre, rfl, htail⟩ := path_append.mp hpath
  -- The new traversal is `l₂`: the head now points past `c`, and no link in `l₂` changed.
  have hframe : ∀ x ∈ l₂, (listRemove s.heap c).next x = s.heap.next x := by
    intro x hx
    rw [hs.next_remove hhead hy, if_neg fun h ↦ hhd (by simp [← h, hx])]
  have hnew : Path (listRemove s.heap c).next ((listRemove s.heap c).next head) l₂ NULL := by
    rw [hs.next_remove hhead hy, if_pos rfl]
    exact (path_congr hframe).mpr htail
  obtain ⟨hwalk, hwnull⟩ := listWalk_eq_some.mp ⟨fuel, hwalk⟩
  obtain rfl : l = l₂ := path_unique hwalk hnew hwnull fun h ↦ hnull (by simp [h])
  -- The first member is still wanted, but it is not in `l₂`.
  cases l₁ with
  | nil => exact hfirst hpre
  | cons x l₁ =>
    have hx : x ∈ s.members.erase c := by
      rw [hl, List.mem_erase_of_ne (by grind)]
      exact List.mem_cons_self
    have hxl : x ∈ l := (hmem x).mpr hx
    grind

end Remove

theorem step (hhead : head ≠ NULL) (hs : ListInv head s) {o : ListOp} {t : ListState}
    (ho : RemovesFirst head s o) (hst : ListStep head s o t) : ListInv head t := by
  cases hst with
  | add hnull hne hx => exact hs.add hnull hne hx
  | remove hy => exact hs.remove_first hhead hy ho

theorem not_visits_of_step (hhead : head ≠ NULL) (hs : ListInv head s) {o : ListOp} {t : ListState}
    (ho : ¬RemovesFirst head s o) (hst : ListStep head s o t) : ¬Visits head t := by
  cases hst with
  | add => exact absurd trivial ho
  | remove hy => exact hs.not_visits_remove hhead hy ho

end ListInv

/-- **The exact run law of the intrusive list.** From an empty head, the traversal is the list of
members in every state reached if and only if every removal took the first member. -/
theorem always_visits_iff {head : Ptr} (hhead : head ≠ NULL) {h : ListHeap}
    (hnext : h.next head = NULL) {r : List (ListOp × ListState)}
    (hrun : IsRun (ListStep head) ⟨h, []⟩ r) :
    Always (Visits head) ⟨h, []⟩ r ↔ Guarded (RemovesFirst head) ⟨h, []⟩ r :=
  always_iff_guarded (fun _ hs ↦ hs.visits) (fun _ _ _ hs ho hst ↦ hs.step hhead ho hst)
    (fun _ _ _ hs ho hst ↦ hs.not_visits_of_step hhead ho hst) (ListInv.init hnext) hrun

end Ertos
