import Ertos.Basis.Transition
import Mathlib.Logic.Function.Basic

/-!
# Exclusive loads and stores

A word of memory that processes read and write through a monitor. An exclusive load reads the word
and sets the monitor; an exclusive store goes through only if the monitor is set, and clears it. The
monitor is one flag: it does not tell which process has set it, and it outlives a change of
processes. So the store of a process can go through on the reservation of another.

While no store does, the value a process has loaded is still there when its store goes through
(`fresh_of_guarded`): between the two nobody has written the word.
-/

namespace Exclusive

open Transition

variable {P V σ ε : Type*} [DecidableEq P]

/-- A word and the monitor. -/
structure Word (P V : Type*) where
  val : V
  /-- Who has set the monitor, if it is set. -/
  monitor : Option P
  /-- What each process has loaded last. -/
  loaded : P → V

inductive WordOp (P V : Type*)
  | load (p : P)
  | store (p : P) (v : V)
  | idle

namespace Word

def load (w : Word P V) (p : P) : Word P V :=
  ⟨w.val, some p, Function.update w.loaded p w.val⟩

/-- What a store leaves, and whether it goes through. -/
def store (w : Word P V) (v : V) : Bool × Word P V :=
  if w.monitor.isSome then (true, ⟨v, none, w.loaded⟩) else (false, w)

omit [DecidableEq P] in
theorem store_of_isSome {w : Word P V} (h : w.monitor.isSome) (v : V) :
    w.store v = (true, ⟨v, none, w.loaded⟩) := if_pos h

omit [DecidableEq P] in
theorem store_of_eq_none {w : Word P V} (h : w.monitor = none) (v : V) : w.store v = (false, w) :=
  if_neg (by simp [h])

/-- The state behind an operation. -/
def apply (w : Word P V) : WordOp P V → Word P V
  | .load p => w.load p
  | .store _ v => (w.store v).2
  | .idle => w

/-- No store goes through on the reservation of another process. -/
def Owned (w : Word P V) : WordOp P V → Prop
  | .store p _ => ∀ q, w.monitor = some q → q = p
  | _ => True

/-- A store that goes through finds what its process has loaded. -/
def Fresh (w : Word P V) : WordOp P V → Prop
  | .store p _ => w.monitor.isSome → w.loaded p = w.val
  | _ => True

/-- Whoever has set the monitor knows the value. -/
def Known (w : Word P V) : Prop := ∀ p, w.monitor = some p → w.loaded p = w.val

theorem Known.apply {w : Word P V} (h : w.Known) (o : WordOp P V) : (w.apply o).Known := by
  cases o with
  | load p =>
    intro q hq
    obtain rfl : p = q := Option.some.inj hq
    exact Function.update_self p w.val w.loaded
  | store p v =>
    show (w.store v).2.Known
    cases hm : w.monitor with
    | none => rwa [store_of_eq_none hm]
    | some q =>
      rw [store_of_isSome (Option.isSome_of_eq_some hm)]
      exact fun q hq ↦ absurd hq (by simp)
  | idle => exact h

omit [DecidableEq P] in
theorem Known.fresh {w : Word P V} (h : w.Known) {o : WordOp P V} (ho : w.Owned o) : w.Fresh o := by
  cases o with
  | store p v =>
    intro hset
    obtain ⟨q, hq⟩ := Option.isSome_iff_exists.mp hset
    rw [← ho q hq]
    exact h q hq
  | load => trivial
  | idle => trivial

end Word

section Rule

variable {step : σ → ε → σ → Prop} (view : σ → Word P V) (op : σ → ε → WordOp P V)

theorem always_known (hstep : ∀ s e t, step s e t → view t = (view s).apply (op s e)) {s : σ}
    {r : List (ε × σ)} (hs : (view s).Known) (hrun : IsRun step s r) :
    Always (fun s ↦ (view s).Known) s r :=
  always_of_step (fun s e t h hst ↦ hstep s e t hst ▸ h.apply (op s e)) hs hrun

/-- **The rule for a system with such a word.** -/
theorem fresh_of_guarded (hstep : ∀ s e t, step s e t → view t = (view s).apply (op s e)) {s : σ}
    {r : List (ε × σ)} (hs : (view s).Known) (hrun : IsRun step s r)
    (hr : Guarded (fun s e ↦ (view s).Owned (op s e)) s r) :
    Guarded (fun s e ↦ (view s).Fresh (op s e)) s r :=
  hr.imp_of_always (fun _ _ hk ho ↦ hk.fresh ho) (always_known view op hstep hs hrun)

end Rule

end Exclusive
