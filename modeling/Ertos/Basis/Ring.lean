import Mathlib.Data.List.Basic
import Mathlib.Data.Nat.ModEq
import Mathlib.Logic.Function.Basic
import Mathlib.Tactic.Common

/-!
# The occupied window of a ring

A ring of `n` slots is a function on indices, read modulo `n`. The window of `k` slots from `head`
is the sequence a reader at `head` would take out. Writing the slot just past the window extends it
on the right, and advancing `head` drops its first element; together they say that a ring with two
indices is a queue, as long as the window is shorter than the ring.

Indices are advanced by comparison rather than by remainder, which is how rings are usually coded;
`advance` is that step.
-/

namespace Ring

variable {α : Type*}

/-- The next index of a ring of `n` slots. -/
def advance (n i : ℕ) : ℕ := if n ≤ i + 1 then 0 else i + 1

theorem advance_eq_mod {n i : ℕ} (hi : i < n) : advance n i = (i + 1) % n := by
  unfold advance
  split_ifs with h
  · rw [show i + 1 = n by omega, Nat.mod_self]
  · rw [Nat.mod_eq_of_lt (by omega)]

theorem advance_lt {n i : ℕ} (hn : 0 < n) : advance n i < n := by
  unfold advance
  split_ifs <;> omega

/-- The first `k` slots from `head`, in order. -/
def window (a : ℕ → α) (n head k : ℕ) : List α := (List.range k).map fun i ↦ a ((head + i) % n)

@[simp] theorem window_zero (a : ℕ → α) (n head : ℕ) : window a n head 0 = [] := rfl

@[simp] theorem length_window (a : ℕ → α) (n head k : ℕ) : (window a n head k).length = k := by
  simp [window]

theorem window_succ_right (a : ℕ → α) (n head k : ℕ) :
    window a n head (k + 1) = window a n head k ++ [a ((head + k) % n)] := by
  simp [window, List.range_succ]

theorem window_succ_left (a : ℕ → α) {n head : ℕ} (hhead : head < n) (k : ℕ) :
    window a n head (k + 1) = a head :: window a n (advance n head) k := by
  have hshift : ∀ i, (advance n head + i) % n = (head + (i + 1)) % n := by
    intro i
    rw [advance_eq_mod hhead, Nat.mod_add_mod, show head + 1 + i = head + (i + 1) by omega]
  rw [window, List.range_succ_eq_map, List.map_cons, List.map_map, window, Nat.add_zero,
    Nat.mod_eq_of_lt hhead]
  congr 1
  exact List.map_congr_left fun i _ ↦ by rw [hshift]; rfl

theorem window_congr {a b : ℕ → α} {n head k : ℕ}
    (h : ∀ i < k, a ((head + i) % n) = b ((head + i) % n)) :
    window a n head k = window b n head k :=
  List.map_congr_left fun i hi ↦ h i (List.mem_range.mp hi)

theorem offset_mod_ne {n head i k : ℕ} (hik : i < k) (hk : k < n) :
    (head + i) % n ≠ (head + k) % n := by
  intro h
  have hmod : Nat.ModEq n (head + i) (head + k) := h
  have hik' : i % n = k % n := hmod.add_left_cancel' head
  rw [Nat.mod_eq_of_lt (by omega), Nat.mod_eq_of_lt hk] at hik'
  omega

/-- Writing the slot just past the window appends to it. -/
theorem window_update (a : ℕ → α) {n head k : ℕ} (hk : k < n) (x : α) :
    window (Function.update a ((head + k) % n) x) n head (k + 1) = window a n head k ++ [x] := by
  rw [window_succ_right, Function.update_self]
  congr 1
  exact window_congr fun i hi ↦ Function.update_of_ne (offset_mod_ne hi hk) _ _

end Ring
