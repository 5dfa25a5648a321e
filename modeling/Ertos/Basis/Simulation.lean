import Ertos.Basis.Transition

/-!
# Forward simulation

Two systems with the same events: a concrete one and an abstract one that says what it is for. A
relation between their states is a *simulation* when every concrete step from related states is
matched by an abstract step with the same event. Events carry their results, so that a matching
step gives the same answer.

Then every run of the concrete system is followed by a run of the abstract one, event for event.
-/

namespace Transition

variable {σ τ ε : Type*} {step : σ → ε → σ → Prop} {astep : τ → ε → τ → Prop} {R : σ → τ → Prop}

/-- Every step from `s` is matched by one from a related state. -/
def Simulation (step : σ → ε → σ → Prop) (astep : τ → ε → τ → Prop) (R : σ → τ → Prop) : Prop :=
  ∀ s a e t, R s a → step s e t → ∃ b, astep a e b ∧ R t b

/-- The two runs take the same events through related states. -/
inductive Follows (R : σ → τ → Prop) : σ → List (ε × σ) → τ → List (ε × τ) → Prop
  | nil {s : σ} {a : τ} (h : R s a) : Follows R s [] a []
  | cons {s t : σ} {a b : τ} {e : ε} {r : List (ε × σ)} {r' : List (ε × τ)} (h : R s a)
      (hrest : Follows R t r b r') : Follows R s ((e, t) :: r) a ((e, b) :: r')

/-- **The simulation rule.** -/
theorem Simulation.follows (hsim : Simulation step astep R) {s : σ} {a : τ} (hR : R s a)
    {r : List (ε × σ)} (hrun : IsRun step s r) : ∃ r', IsRun astep a r' ∧ Follows R s r a r' := by
  induction r generalizing s a with
  | nil => exact ⟨[], trivial, .nil hR⟩
  | cons p r ih =>
    obtain ⟨e, t⟩ := p
    obtain ⟨hst, hrest⟩ := hrun
    obtain ⟨b, hab, hR'⟩ := hsim s a e t hR hst
    obtain ⟨r', hrun', hfollows⟩ := ih hR' hrest
    exact ⟨(e, b) :: r', ⟨hab, hrun'⟩, .cons hR hfollows⟩

end Transition
