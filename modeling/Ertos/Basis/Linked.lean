import Mathlib.Data.List.Nodup
import Mathlib.Logic.Function.Basic

/-!
# Paths through a successor function

A linked structure is a successor function `next`. `Path next a l b` says that starting at `a` and
following `next` one visits exactly the nodes of `l`, in order, and then stands at `b`. A
null-terminated list is a path that ends at the null node; a ring is a path from a node back to
itself.

Updating the successor of a node off the path changes nothing, and a path that stops at its first
visit to `b` is determined by its start.
-/

namespace Linked

variable {α : Type*}

/-- From `a`, following `next`, one visits the nodes of `l` and then reaches `b`. -/
def Path (next : α → α) : α → List α → α → Prop
  | a, [], b => a = b
  | a, x :: l, b => a = x ∧ Path next (next x) l b

variable {next next' : α → α} {a b c x : α} {l l' : List α}

@[simp] theorem path_nil : Path next a [] b ↔ a = b := Iff.rfl

@[simp] theorem path_cons : Path next a (x :: l) b ↔ a = x ∧ Path next (next x) l b := Iff.rfl

theorem path_append : Path next a (l ++ l') b ↔ ∃ c, Path next a l c ∧ Path next c l' b := by
  induction l generalizing a with
  | nil => simp
  | cons x l ih => simp only [List.cons_append, path_cons, ih]; grind

/-- A path that stops at its first visit to `b` starts there exactly if it is empty. -/
theorem Path.eq_iff_nil (h : Path next a l b) (hb : b ∉ l) : a = b ↔ l = [] := by
  cases l with
  | nil => exact iff_of_true h rfl
  | cons x l =>
    obtain ⟨rfl, -⟩ := h
    exact iff_of_false (fun hab ↦ hb (hab ▸ List.mem_cons_self)) (List.cons_ne_nil _ _)

/-- Only the successors of the nodes visited matter. -/
theorem path_congr (h : ∀ y ∈ l, next' y = next y) : Path next' a l b ↔ Path next a l b := by
  induction l generalizing a with
  | nil => rfl
  | cons x l ih =>
    rw [path_cons, path_cons, h x List.mem_cons_self,
      ih fun y hy ↦ h y (List.mem_cons_of_mem x hy)]

/-- Two paths that stop at their first visit to `b` visit the same nodes. -/
theorem path_unique (h : Path next a l b) (h' : Path next a l' b) (hb : b ∉ l) (hb' : b ∉ l') :
    l = l' := by
  induction l generalizing a l' with
  | nil =>
    cases l' with
    | nil => rfl
    | cons y l' => exact absurd (h.symm.trans h'.1) fun hy ↦ hb' (hy ▸ List.mem_cons_self)
  | cons x l ih =>
    cases l' with
    | nil => exact absurd (h'.symm.trans h.1) fun hx ↦ hb (hx ▸ List.mem_cons_self)
    | cons y l' =>
      obtain ⟨rfl, h⟩ := h
      obtain ⟨rfl, h'⟩ := h'
      rw [ih h h' (fun hm ↦ hb (List.mem_cons_of_mem _ hm))
        fun hm ↦ hb' (List.mem_cons_of_mem _ hm)]

/-! ## Rings -/

/-- Starting at `a` and following `next`, one visits each node of `l` once and is back at `a`. -/
structure Cycle (next : α → α) (a : α) (l : List α) : Prop where
  path : Path next a l a
  nodup : l.Nodup
  ne_nil : l ≠ []

namespace Cycle

theorem exists_eq_cons (h : Cycle next a l) : ∃ l', l = a :: l' := by
  cases l with
  | nil => exact absurd rfl h.ne_nil
  | cons x l' => exact ⟨l', by rw [h.path.1]⟩

theorem head_mem (h : Cycle next a l) : a ∈ l := by
  obtain ⟨l', rfl⟩ := h.exists_eq_cons
  exact List.mem_cons_self

theorem unique (h : Cycle next a l) (h' : Cycle next a l') : l = l' := by
  obtain ⟨m, rfl⟩ := h.exists_eq_cons
  obtain ⟨m', rfl⟩ := h'.exists_eq_cons
  rw [path_unique h.path.2 h'.path.2 (List.nodup_cons.mp h.nodup).1
    (List.nodup_cons.mp h'.nodup).1]

theorem rotate (h : Cycle next a l) (hx : x ∈ l) :
    ∃ l', Cycle next x (x :: l') ∧ (x :: l').Perm l := by
  obtain ⟨l₁, l₂, rfl⟩ := List.append_of_mem hx
  obtain ⟨c, hpre, rfl, htail⟩ := path_append.mp h.path
  have hperm : (c :: l₂ ++ l₁).Perm (l₁ ++ c :: l₂) := List.perm_append_comm
  refine ⟨l₂ ++ l₁, ⟨⟨rfl, path_append.mpr ⟨a, htail, hpre⟩⟩, ?_, List.cons_ne_nil _ _⟩, hperm⟩
  exact hperm.nodup_iff.mpr h.nodup

/-- Going on from the end of an initial part of the ring. -/
theorem rotate_append (h : Cycle next a (l ++ l')) (hl' : l' ≠ []) :
    ∃ c, Path next a l c ∧ Cycle next c (l' ++ l) := by
  obtain ⟨c, hl, hl'path⟩ := path_append.mp h.path
  refine ⟨c, hl, path_append.mpr ⟨a, hl'path, hl⟩, ?_,
    fun h0 ↦ hl' (List.append_eq_nil_iff.mp h0).1⟩
  exact List.perm_append_comm.nodup_iff.mp h.nodup

theorem next_mem (h : Cycle next a l) (hx : x ∈ l) : next x ∈ l := by
  obtain ⟨l', h', hperm⟩ := h.rotate hx
  cases l' with
  | nil => exact hperm.subset (by rw [show next x = x from h'.path.2]; exact List.mem_cons_self)
  | cons y l' =>
    exact hperm.subset (by rw [h'.path.2.1]; exact List.mem_cons_of_mem _ List.mem_cons_self)

theorem map_next_perm (h : Cycle next a l) : (l.map next).Perm l := by
  obtain ⟨l', rfl⟩ := h.exists_eq_cons
  have hmap : ∀ {m : List α} {x y : α}, Path next x m y → x :: m.map next = m ++ [y] := by
    intro m
    induction m with
    | nil => exact fun hxy ↦ congrArg (· :: []) hxy
    | cons z m ih => exact fun hp ↦ congrArg₂ List.cons hp.1 (ih hp.2)
  have hround : (a :: l').map next = l' ++ [a] :=
    (List.cons.inj ((hmap h.path).trans List.cons_append)).2
  rw [hround]
  exact List.perm_append_comm

theorem exists_next_eq (h : Cycle next a l) (hx : x ∈ l) : ∃ y ∈ l, next y = x :=
  List.mem_map.mp (h.map_next_perm.mem_iff.mpr hx)

theorem next_inj (h : Cycle next a l) {y : α} (hx : x ∈ l) (hy : y ∈ l) (hxy : next x = next y) :
    x = y :=
  List.inj_on_of_nodup_map (h.map_next_perm.nodup_iff.mpr h.nodup) hx hy hxy

theorem eq_singleton (h : Cycle next a l) (hx : x ∈ l) (hself : next x = x) : ∀ y ∈ l, y = x := by
  obtain ⟨l', h', hperm⟩ := h.rotate hx
  intro y hy
  cases l' with
  | nil => exact List.mem_singleton.mp (hperm.mem_iff.mpr hy)
  | cons z l' =>
    have hz : z = x := by rw [← h'.path.2.1, hself]
    exact absurd (hz ▸ List.mem_cons_self) (List.nodup_cons.mp h'.nodup).1

theorem singleton (h : next a = a) : Cycle next a [a] :=
  ⟨⟨rfl, h⟩, by simp, List.cons_ne_nil _ _⟩

theorem insert (h : Cycle next a (a :: l)) (hx : x ∉ a :: l) (ha : next' a = x)
    (hxn : next' x = next a) (hframe : ∀ y ∈ l, next' y = next y) :
    Cycle next' a (a :: x :: l) := by
  refine ⟨⟨rfl, ha, ?_⟩, ?_, List.cons_ne_nil _ _⟩
  · rw [hxn]
    exact (path_congr hframe).mpr h.path.2
  · have hnodup := List.nodup_cons.mp h.nodup
    simp only [List.mem_cons, not_or] at hx
    simp only [List.nodup_cons, List.mem_cons, not_or]
    exact ⟨⟨Ne.symm hx.1, hnodup.1⟩, hx.2, hnodup.2⟩

end Cycle

end Linked
