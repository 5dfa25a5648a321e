import Ertos.Basis.Transition
import Mathlib.Logic.Function.Basic

/-!
# Stores that are erased before they are written

A store has a place for each key, and the keys come in groups. A place is blank or holds a value.
Only a whole group can be made blank, and only a blank place can be written.

`holds_last` is the rule for a system that keeps such a store: if each operation that finds its
place blank leaves a state that holds what it should, so does every run of them.
-/

namespace Erasable

open Transition

variable {κ γ V σ ε : Type*} [DecidableEq κ] [DecidableEq γ] (group : κ → γ)

abbrev Contents (κ V : Type*) := κ → Option V

inductive StoreOp (κ γ V : Type*)
  | erase (g : γ)
  | put (k : κ) (v : V)
  | keep

namespace Contents

def apply (m : Contents κ V) : StoreOp κ γ V → Contents κ V
  | .erase g => fun k ↦ if group k = g then none else m k
  | .put k v => Function.update m k (some v)
  | .keep => m

/-- What is put is put into a blank place. -/
def Fits (m : Contents κ V) : StoreOp κ γ V → Prop
  | .put k _ => m k = none
  | _ => True

/-- The contents after the operations. -/
def after (m : Contents κ V) (l : List (StoreOp κ γ V)) : Contents κ V := l.foldl (apply group) m

/-- Each operation finds its place blank. -/
def FitsAll : Contents κ V → List (StoreOp κ γ V) → Prop
  | _, [] => True
  | m, o :: l => Fits m o ∧ FitsAll (m.apply group o) l

end Contents

/-- **The rule for a system with such a store.** -/
theorem holds_last {step : σ → ε → σ → Prop} {op : ε → StoreOp κ γ V}
    {Holds : σ → Contents κ V → Prop}
    (hstep : ∀ s e t m, Holds s m → m.Fits (op e) → step s e t → Holds t (m.apply group (op e)))
    {s : σ} {m : Contents κ V} (hs : Holds s m) {r : List (ε × σ)} (hrun : IsRun step s r)
    (hfits : m.FitsAll group (r.map fun x ↦ op x.1)) :
    Holds (last s r) (m.after group (r.map fun x ↦ op x.1)) := by
  induction r generalizing s m with
  | nil => exact hs
  | cons x r ih =>
    obtain ⟨e, t⟩ := x
    exact ih (hstep s e t m hs hfits.1 hrun.1) hrun.2 hfits.2

end Erasable
