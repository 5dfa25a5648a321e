import Mathlib.Data.List.Basic
import Mathlib.Tactic.Common

/-!
# Computations that leave a trace

A computation leaves the list of the actions it took, and has a result unless it did not end. The
trace is there in both cases, so what holds of it and of its prefixes holds at every point of the
execution.

`Orderly D U` is the discipline of things used up: after an action with `D` there is none with `U`.
A sequence of two computations is orderly if the first takes no action with `D`, or the second none
with `U`, and the other is orderly.
-/

/-- A computation with actions of type `ε`. -/
structure Traced (ε α : Type*) where
  trace : List ε
  result : Option α

namespace Traced

universe u v

variable {ε : Type u} {α β : Type v}

/-- Nothing with `U` comes after anything with `D`. -/
def Orderly (D U : ε → Prop) (l : List ε) : Prop := l.Pairwise fun a b ↦ D a → ¬U b

/-! ## Composition -/

instance : Monad (Traced ε) where
  pure a := ⟨[], some a⟩
  bind m f :=
    match m.result with
    | none => ⟨m.trace, none⟩
    | some a => ⟨m.trace ++ (f a).trace, (f a).result⟩

/-- One action. -/
def emit (e : ε) : Traced ε Unit := ⟨[e], some ()⟩

/-- No action, and a result if there is one. -/
def ofOption (o : Option α) : Traced ε α := ⟨[], o⟩

section Bind

variable {m : Traced ε α} {f : α → Traced ε β}

@[simp] theorem result_pure (a : α) : (pure a : Traced ε α).result = some a := rfl

@[simp] theorem result_emit (e : ε) : (emit e).result = some () := rfl

@[simp] theorem result_ofOption (o : Option α) : (ofOption o : Traced ε α).result = o := rfl

theorem bind_of_none (h : m.result = none) : m >>= f = ⟨m.trace, none⟩ := by
  show (match m.result with
    | none => _
    | some a => _) = _
  rw [h]

theorem bind_of_some {a : α} (h : m.result = some a) :
    m >>= f = ⟨m.trace ++ (f a).trace, (f a).result⟩ := by
  show (match m.result with
    | none => _
    | some a => _) = _
  rw [h]

@[simp] theorem result_bind : (m >>= f).result = m.result.bind fun a ↦ (f a).result := by
  cases h : m.result with
  | none => rw [bind_of_none h, Option.bind_none]
  | some a => rw [bind_of_some h, Option.bind_some]

theorem mem_trace_bind {e : ε} (h : e ∈ (m >>= f).trace) :
    e ∈ m.trace ∨ ∃ a, m.result = some a ∧ e ∈ (f a).trace := by
  cases hm : m.result with
  | none =>
    rw [bind_of_none hm] at h
    exact Or.inl h
  | some a =>
    rw [bind_of_some hm] at h
    exact (List.mem_append.mp h).imp_right fun h ↦ ⟨a, rfl, h⟩

end Bind

/-! ## Actions of one kind -/

/-- Every action has `P`. -/
def All (P : ε → Prop) (m : Traced ε α) : Prop := ∀ e ∈ m.trace, P e

namespace All

variable {P Q : ε → Prop} {m : Traced ε α} {f : α → Traced ε β}

theorem pure (a : α) : All P (Pure.pure a : Traced ε α) := fun _ h ↦ absurd h List.not_mem_nil

theorem ofOption (o : Option α) : All P (Traced.ofOption o) := fun _ h ↦ absurd h List.not_mem_nil

theorem emit {e : ε} (h : P e) : All P (Traced.emit e) := fun _ he ↦ List.mem_singleton.mp he ▸ h

theorem imp (h : All P m) (hPQ : ∀ e, P e → Q e) : All Q m := fun e he ↦ hPQ e (h e he)

theorem bind (hm : All P m) (hf : ∀ a, m.result = some a → All P (f a)) : All P (m >>= f) := by
  intro e he
  rcases mem_trace_bind he with he | ⟨a, ha, he⟩
  · exact hm e he
  · exact hf a ha e he

end All

/-! ## Order -/

namespace Orderly

variable {D U : ε → Prop} {l l' : List ε} {m : Traced ε α} {f : α → Traced ε β}

theorem of_initial (h : Orderly D U l) (hl : l' <+: l) : Orderly D U l' := h.sublist hl.sublist

theorem of_all (h : All (¬D ·) m) : Orderly D U m.trace :=
  List.pairwise_iff_forall_sublist.mpr fun hab hD ↦
    absurd hD (h _ (hab.subset List.mem_cons_self))

/-- **What comes before** the action with `D`. -/
theorem bind (hm : All (¬D ·) m) (hf : ∀ a, m.result = some a → Orderly D U (f a).trace) :
    Orderly D U (m >>= f).trace := by
  cases h : m.result with
  | none =>
    rw [bind_of_none h]
    exact of_all hm
  | some a =>
    rw [bind_of_some h]
    exact List.pairwise_append.mpr ⟨of_all hm, hf a h, fun e he _ _ hD ↦ absurd hD (hm e he)⟩

/-- **What comes after** it. -/
theorem bind_after (hm : Orderly D U m.trace) (hf : ∀ a, m.result = some a → All (¬U ·) (f a))
    (hDU : ∀ e, D e → U e) : Orderly D U (m >>= f).trace := by
  cases h : m.result with
  | none =>
    rw [bind_of_none h]
    exact hm
  | some a =>
    rw [bind_of_some h]
    have hafter : Orderly D U (f a).trace := of_all ((hf a h).imp fun e hU hD ↦ hU (hDU e hD))
    exact List.pairwise_append.mpr ⟨hm, hafter, fun _ _ e he _ ↦ hf a h e he⟩

theorem after {l₁ l₂ : List ε} {e : ε} (h : Orderly D U (l₁ ++ e :: l₂)) (he : D e) :
    ∀ e' ∈ l₂, ¬U e' := fun _ he' ↦
  List.rel_of_pairwise_cons (List.pairwise_append.mp h).2.1 he' he

/-- **At most one action has `D`.** -/
theorem countP_le_one [DecidablePred D] (h : Orderly D U l) (hDU : ∀ e, D e → U e) :
    l.countP (D ·) ≤ 1 := by
  induction l with
  | nil => exact Nat.zero_le 1
  | cons e l ih =>
    rw [List.countP_cons]
    by_cases he : D e
    · have hrest : l.countP (D ·) = 0 := List.countP_eq_zero.mpr fun _ he' hD ↦
        List.rel_of_pairwise_cons h he' he (hDU _ (of_decide_eq_true hD))
      rw [hrest, Nat.zero_add]
      split_ifs <;> omega
    · rw [if_neg (by simpa using he)]
      exact ih (List.Pairwise.of_cons h)

end Orderly

end Traced
