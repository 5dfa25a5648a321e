import Ertos.Basis.Transition
import Mathlib.Data.List.Basic
import Mathlib.Data.List.Nodup

/-!
# Order of service

Items are put into a store and taken out of it again. The store serves them *in order* when those
taken so far are the first ones put, and no item is lost or taken twice.

A stack gives back the most recent item. It serves in order as long as no item is taken while
another one waits, and not any longer: the rule `always_inOrder_iff` is for any system whose steps
put items on a stack and take them off.
-/

namespace Service

open Transition

variable {α σ ε : Type*}

/-- The items put and taken so far, in this order, and those held, the next one first. -/
structure Log (α : Type*) where
  put : List α
  taken : List α
  held : List α

inductive Op (α : Type*)
  | put (x : α)
  | take
  | idle

/-- One step of a stack of distinct items. -/
inductive StackStep : Log α → Op α → Log α → Prop
  | put {s : Log α} {x : α} (h : x ∉ s.held) :
      StackStep s (.put x) ⟨s.put ++ [x], s.taken, x :: s.held⟩
  | take {s : Log α} {x : α} {l : List α} (h : s.held = x :: l) :
      StackStep s .take ⟨s.put, s.taken ++ [x], l⟩
  | empty {s : Log α} (h : s.held = []) : StackStep s .take s
  | idle {s : Log α} : StackStep s .idle s

theorem StackStep.first (put taken held : List α) :
    StackStep ⟨put, taken, held⟩ .take ⟨put, taken ++ held.head?.toList, held.tail⟩ := by
  cases held with
  | nil =>
    rw [List.head?_nil, Option.toList_none, List.append_nil, List.tail_nil]
    exact .empty rfl
  | cons x l => exact .take rfl

/-- The items taken are the first ones put, and each item is taken once or held. -/
structure InOrder (s : Log α) : Prop where
  first : s.taken <+: s.put
  once : (s.taken ++ s.held).Perm s.put

/-- No item is taken while another one waits. -/
def Alone (s : Log α) (o : Op α) : Prop := o = .take → s.held.length ≤ 1

/-- A stack that has served in order so far. -/
structure Stacked (s : Log α) : Prop where
  put_eq : s.put = s.taken ++ s.held.reverse
  nodup : s.held.Nodup

namespace Stacked

variable {s t : Log α} {o : Op α}

theorem init : Stacked (⟨[], [], []⟩ : Log α) := ⟨rfl, List.nodup_nil⟩

theorem inOrder (h : Stacked s) : InOrder s where
  first := ⟨s.held.reverse, h.put_eq.symm⟩
  once := by
    rw [h.put_eq]
    exact (List.reverse_perm s.held).symm.append_left s.taken

theorem step (h : Stacked s) (ho : Alone s o) (hst : StackStep s o t) : Stacked t := by
  obtain ⟨hput, hnodup⟩ := h
  cases hst with
  | @put x hx =>
    refine ⟨?_, List.nodup_cons.mpr ⟨hx, hnodup⟩⟩
    show s.put ++ [x] = s.taken ++ (x :: s.held).reverse
    rw [List.reverse_cons, ← List.append_assoc, ← hput]
  | @take x l hl =>
    have hlen : s.held.length ≤ 1 := ho rfl
    rw [hl, List.length_cons] at hlen
    obtain rfl : l = [] := List.length_eq_zero_iff.mp (by omega)
    refine ⟨?_, List.nodup_nil⟩
    show s.put = s.taken ++ [x] ++ [].reverse
    rw [hput, hl, List.reverse_nil, List.append_nil]
    rfl
  | empty => exact ⟨hput, hnodup⟩
  | idle => exact ⟨hput, hnodup⟩

/-- **The most recent item is not the next one** if another one has been waiting. -/
theorem not_inOrder (h : Stacked s) (ho : ¬Alone s o) (hst : StackStep s o t) : ¬InOrder t := by
  obtain ⟨hput, hnodup⟩ := h
  obtain ⟨rfl, hlen⟩ : o = .take ∧ ¬s.held.length ≤ 1 := Classical.not_imp.mp ho
  cases hst with
  | @take x l hl =>
    rintro ⟨hfirst, -⟩
    rw [hl] at hput hnodup hlen
    have hnext : [x] <+: l.reverse ++ [x] := by
      have hshift : s.taken ++ [x] <+: s.taken ++ (l.reverse ++ [x]) := by
        rw [← List.reverse_cons, ← hput]
        exact hfirst
      exact (List.prefix_append_right_inj s.taken).mp hshift
    -- the first item waiting is not `x`, which is held only once
    obtain ⟨y, m, hm⟩ : ∃ y m, l.reverse = y :: m := by
      refine List.exists_cons_of_ne_nil fun hnil ↦ hlen ?_
      rw [List.reverse_eq_nil_iff.mp hnil]
      exact Nat.le_refl 1
    rw [hm, List.cons_append, List.cons_prefix_cons] at hnext
    have hy : y ∈ l := List.mem_reverse.mp (hm ▸ List.mem_cons_self)
    exact (List.nodup_cons.mp hnodup).1 (hnext.1 ▸ hy)
  | empty hnil => exact absurd (hnil ▸ Nat.zero_le 1) hlen

end Stacked

/-- **Stacks serve in order just when items are taken alone.** The rule for a system whose steps are
steps of a stack, under an invariant `J` of its own, with `C` its way to say `Alone`. -/
theorem always_inOrder_iff {step : σ → ε → σ → Prop} (log : σ → Log α) (op : σ → ε → Op α)
    {J : σ → Prop} {C : σ → ε → Prop}
    (hstep : ∀ s e t, J s → step s e t → J t ∧ StackStep (log s) (op s e) (log t))
    (hC : ∀ s e, C s e ↔ Alone (log s) (op s e)) {s : σ} (hJ : J s) (hs : Stacked (log s))
    {r : List (ε × σ)} (hrun : IsRun step s r) :
    Always (fun s ↦ InOrder (log s)) s r ↔ Guarded C s r := by
  refine always_iff_guarded (I := fun s ↦ J s ∧ Stacked (log s)) (fun _ h ↦ h.2.inOrder) ?_ ?_
    ⟨hJ, hs⟩ hrun
  · rintro s e t ⟨hJ, hs⟩ ho hst
    obtain ⟨hJ', hst'⟩ := hstep s e t hJ hst
    exact ⟨hJ', hs.step ((hC s e).mp ho) hst'⟩
  · rintro s e t ⟨hJ, hs⟩ ho hst
    exact hs.not_inOrder (fun hAlone ↦ ho ((hC s e).mpr hAlone)) (hstep s e t hJ hst).2

end Service
