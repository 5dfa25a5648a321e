import Mathlib.Data.List.Basic

/-!
# Labelled transitions and their runs

A system is a relation `step s e t`: in state `s` the event `e` may lead to `t`. A *run* from `s` is
the list of the events taken, each paired with the state it led to, so that both the states reached
and the inputs chosen along the way can be spoken about without indices.

Two predicates are read off a run. `Always P` holds when `P` holds in every state reached, the first
included. `Guarded C` holds when every step was taken in a state in which its event met `C`.

The rules at the end relate the two: an invariant that guarded steps preserve holds throughout a
guarded run, and when an unguarded step always spoils the property, `Always` and `Guarded` are the
same predicate.
-/

namespace Transition

variable {σ ε : Type*} {step : σ → ε → σ → Prop}

/-! ## Runs -/

/-- The pairs of `r` are successive steps from `s`. -/
def IsRun (step : σ → ε → σ → Prop) : σ → List (ε × σ) → Prop
  | _, [] => True
  | s, (e, t) :: r => step s e t ∧ IsRun step t r

/-- The state a run ends in. -/
def last : σ → List (ε × σ) → σ
  | s, [] => s
  | _, (_, t) :: r => last t r

/-- `P` holds in every state reached. -/
def Always (P : σ → Prop) : σ → List (ε × σ) → Prop
  | s, [] => P s
  | s, (_, t) :: r => P s ∧ Always P t r

/-- Every event was taken in a state where it met `C`. -/
def Guarded (C : σ → ε → Prop) : σ → List (ε × σ) → Prop
  | _, [] => True
  | s, (e, t) :: r => C s e ∧ Guarded C t r

/-- `Q` holds of every event, the state it led to, and the rest of the run from there. -/
def Following (Q : ε → σ → List (ε × σ) → Prop) : List (ε × σ) → Prop
  | [] => True
  | (e, t) :: r => Q e t r ∧ Following Q r

@[simp] theorem isRun_nil (s : σ) : IsRun step s [] := trivial

@[simp] theorem isRun_cons {s t : σ} {e : ε} {r : List (ε × σ)} :
    IsRun step s ((e, t) :: r) ↔ step s e t ∧ IsRun step t r := Iff.rfl

@[simp] theorem last_nil (s : σ) : last s ([] : List (ε × σ)) = s := rfl

@[simp] theorem last_cons (s t : σ) (e : ε) (r : List (ε × σ)) :
    last s ((e, t) :: r) = last t r := rfl

@[simp] theorem always_nil {P : σ → Prop} {s : σ} :
    Always P s ([] : List (ε × σ)) ↔ P s := Iff.rfl

@[simp] theorem always_cons {P : σ → Prop} {s t : σ} {e : ε} {r : List (ε × σ)} :
    Always P s ((e, t) :: r) ↔ P s ∧ Always P t r := Iff.rfl

@[simp] theorem guarded_nil {C : σ → ε → Prop} {s : σ} : Guarded C s [] := trivial

@[simp] theorem guarded_cons {C : σ → ε → Prop} {s t : σ} {e : ε} {r : List (ε × σ)} :
    Guarded C s ((e, t) :: r) ↔ C s e ∧ Guarded C t r := Iff.rfl

theorem isRun_append {s : σ} {r r' : List (ε × σ)} :
    IsRun step s (r ++ r') ↔ IsRun step s r ∧ IsRun step (last s r) r' := by
  induction r generalizing s with
  | nil => simp
  | cons p r ih =>
    obtain ⟨e, t⟩ := p
    rw [List.cons_append, isRun_cons, isRun_cons, ih, and_assoc, last_cons]

theorem last_append (s : σ) (r r' : List (ε × σ)) : last s (r ++ r') = last (last s r) r' := by
  induction r generalizing s with
  | nil => rfl
  | cons p r ih => exact ih p.2

theorem Always.head {P : σ → Prop} {s : σ} {r : List (ε × σ)} (h : Always P s r) : P s := by
  cases r with
  | nil => exact h
  | cons p r => exact h.1

theorem Always.last {P : σ → Prop} {s : σ} {r : List (ε × σ)} (h : Always P s r) :
    P (last s r) := by
  induction r generalizing s with
  | nil => exact h
  | cons p r ih => exact ih h.2

theorem Always.imp {P Q : σ → Prop} (hPQ : ∀ s, P s → Q s) {s : σ} {r : List (ε × σ)}
    (h : Always P s r) : Always Q s r := by
  induction r generalizing s with
  | nil => exact hPQ s h
  | cons p r ih => exact ⟨hPQ s h.1, ih h.2⟩

theorem Guarded.imp_of_always {I : σ → Prop} {C D : σ → ε → Prop} (hCD : ∀ s e, I s → C s e → D s e)
    {s : σ} {r : List (ε × σ)} (hI : Always I s r) (hC : Guarded C s r) : Guarded D s r := by
  induction r generalizing s with
  | nil => trivial
  | cons p r ih => exact ⟨hCD s p.1 hI.1 hC.1, ih hI.2 hC.2⟩

theorem guarded_append {C : σ → ε → Prop} {s : σ} {r r' : List (ε × σ)} :
    Guarded C s (r ++ r') ↔ Guarded C s r ∧ Guarded C (last s r) r' := by
  induction r generalizing s with
  | nil => simp
  | cons p r ih =>
    obtain ⟨e, t⟩ := p
    rw [List.cons_append, guarded_cons, guarded_cons, ih, and_assoc, last_cons]

theorem Guarded.and {C D : σ → ε → Prop} {s : σ} {r : List (ε × σ)} (hC : Guarded C s r)
    (hD : Guarded D s r) : Guarded (fun s e ↦ C s e ∧ D s e) s r := by
  induction r generalizing s with
  | nil => trivial
  | cons p r ih => exact ⟨⟨hC.1, hD.1⟩, ih hC.2 hD.2⟩

theorem IsRun.step_of_mem {P : σ → Prop} {s t : σ} {e : ε} {r : List (ε × σ)}
    (hrun : IsRun step s r) (h : Always P s r) (ht : (e, t) ∈ r) : ∃ u, P u ∧ step u e t := by
  induction r generalizing s with
  | nil => exact absurd ht List.not_mem_nil
  | cons p r ih =>
    rcases List.mem_cons.mp ht with rfl | ht
    · exact ⟨s, h.1, hrun.1⟩
    · exact ih hrun.2 h.2 ht

/-! ## Reachable states -/

/-- Some run leads from `s` to `t`. -/
def Leads (step : σ → ε → σ → Prop) (s t : σ) : Prop := ∃ r, IsRun step s r ∧ last s r = t

theorem Leads.refl (s : σ) : Leads step s s := ⟨[], trivial, rfl⟩

theorem Leads.single {s t : σ} {e : ε} (h : step s e t) : Leads step s t :=
  ⟨[(e, t)], ⟨h, trivial⟩, rfl⟩

theorem Leads.trans {s t u : σ} (h : Leads step s t) (h' : Leads step t u) :
    Leads step s u := by
  obtain ⟨r, hr, rfl⟩ := h
  obtain ⟨r', hr', rfl⟩ := h'
  exact ⟨r ++ r', isRun_append.mpr ⟨hr, hr'⟩, last_append s r r'⟩

/-! ## The invariant rules -/

section Rules

variable {I P : σ → Prop} {C : σ → ε → Prop}

/-- **The run rule.** What guarded steps preserve holds in every state of a guarded run. -/
theorem always_of_guarded (hstep : ∀ s e t, I s → C s e → step s e t → I t) {s : σ}
    {r : List (ε × σ)} (hs : I s) (hrun : IsRun step s r) (hg : Guarded C s r) :
    Always I s r := by
  induction r generalizing s with
  | nil => exact hs
  | cons p r ih =>
    obtain ⟨e, t⟩ := p
    exact ⟨hs, ih (hstep s e t hs hg.1 hrun.1) hrun.2 hg.2⟩

/-- The unguarded case: a plain inductive invariant. -/
theorem always_of_step (hstep : ∀ s e t, I s → step s e t → I t) {s : σ}
    {r : List (ε × σ)} (hs : I s) (hrun : IsRun step s r) : Always I s r := by
  induction r generalizing s with
  | nil => exact hs
  | cons p r ih =>
    obtain ⟨e, t⟩ := p
    exact ⟨hs, ih (hstep s e t hs hrun.1) hrun.2⟩

theorem isRun_of_guarded {law : σ → ε → σ → Prop} (hstep : ∀ s e t, I s → C s e → step s e t → I t)
    (hlaw : ∀ s e t, I s → C s e → step s e t → law s e t) {s : σ} {r : List (ε × σ)} (hs : I s)
    (hrun : IsRun step s r) (hg : Guarded C s r) : IsRun law s r := by
  induction r generalizing s with
  | nil => trivial
  | cons p r ih =>
    obtain ⟨e, t⟩ := p
    exact ⟨hlaw s e t hs hg.1 hrun.1, ih (hstep s e t hs hg.1 hrun.1) hrun.2 hg.2⟩

/-- What follows each step of a guarded run, from what follows a guarded step that starts in an
invariant state. -/
theorem following_of_guarded {Q : ε → σ → List (ε × σ) → Prop}
    (hstep : ∀ s e t, I s → C s e → step s e t → I t)
    (hQ : ∀ s e t r, I s → C s e → step s e t → IsRun step t r → Guarded C t r → Q e t r) {s : σ}
    {r : List (ε × σ)} (hs : I s) (hrun : IsRun step s r) (hg : Guarded C s r) :
    Following Q r := by
  induction r generalizing s with
  | nil => trivial
  | cons p r ih =>
    obtain ⟨e, t⟩ := p
    exact ⟨hQ s e t r hs hg.1 hrun.1 hrun.2 hg.2,
      ih (hstep s e t hs hg.1 hrun.1) hrun.2 hg.2⟩

/-- **The exact rule.** If guarded steps preserve an invariant that implies `P`, and any other step
from an invariant state ends where `P` fails, then the runs along which `P` always holds are exactly
the guarded ones. -/
theorem always_iff_guarded (hP : ∀ s, I s → P s)
    (hstep : ∀ s e t, I s → C s e → step s e t → I t)
    (hbad : ∀ s e t, I s → ¬C s e → step s e t → ¬P t) {s : σ} {r : List (ε × σ)}
    (hs : I s) (hrun : IsRun step s r) : Always P s r ↔ Guarded C s r := by
  refine ⟨fun h ↦ ?_, fun h ↦ (always_of_guarded hstep hs hrun h).imp hP⟩
  induction r generalizing s with
  | nil => trivial
  | cons p r ih =>
    obtain ⟨e, t⟩ := p
    have hC : C s e := by
      by_contra hC
      exact hbad s e t hs hC hrun.1 h.2.head
    exact ⟨hC, ih (hstep s e t hs hC hrun.1) hrun.2 h.2⟩

/-- **The exact rule for steps.** If a step from an invariant state obeys a law exactly when it
meets its guard, then the runs whose steps all obey the law are exactly the guarded ones. -/
theorem isRun_iff_guarded {law : σ → ε → σ → Prop} (hstep : ∀ s e t, I s → step s e t → I t)
    (hiff : ∀ s e t, I s → step s e t → (law s e t ↔ C s e)) {s : σ} {r : List (ε × σ)} (hs : I s)
    (hrun : IsRun step s r) : IsRun law s r ↔ Guarded C s r := by
  induction r generalizing s with
  | nil => exact Iff.rfl
  | cons p r ih =>
    obtain ⟨e, t⟩ := p
    rw [isRun_cons, guarded_cons, hiff s e t hs hrun.1, ih (hstep s e t hs hrun.1) hrun.2]

end Rules

end Transition
