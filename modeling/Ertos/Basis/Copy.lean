import Mathlib.Logic.Function.Basic
import Mathlib.Tactic.Common

/-!
# Copying one value after the other

A memory is a function from addresses to values. A copy loop stores at `dst 0`, `dst 1`, … what it
reads at `src 0`, `src 1`, …, and its reads see its own stores. If no store changes what is read
later, then the loop stores the values that were there at the start, in whatever order it visits the
addresses and however they overlap.
-/

namespace Copy

variable {A V : Type*} [DecidableEq A]

/-- Storing `v i` at `dst i`, for `i` from 0 up to `n`. -/
def storeAll (m : A → V) (dst : ℕ → A) (v : ℕ → V) : ℕ → A → V
  | 0 => m
  | n + 1 => Function.update (storeAll m dst v n) (dst n) (v n)

/-- Storing at `dst i` what is then at `src i`, for `i` from 0 up to `n`. -/
def copyAll (m : A → V) (dst src : ℕ → A) : ℕ → A → V
  | 0 => m
  | n + 1 => Function.update (copyAll m dst src n) (dst n) (copyAll m dst src n (src n))

variable {m : A → V} {dst src : ℕ → A} {v : ℕ → V} {n : ℕ} {a : A}

@[simp] theorem storeAll_zero : storeAll m dst v 0 = m := rfl

@[simp] theorem copyAll_zero : copyAll m dst src 0 = m := rfl

theorem storeAll_of_eq {x : V} (hm : m a = x) (hv : ∀ i < n, dst i = a → v i = x) :
    storeAll m dst v n a = x := by
  induction n with
  | zero => exact hm
  | succ n ih =>
    rw [storeAll, Function.update_apply]
    split_ifs with ha
    · exact hv n (Nat.lt_succ_self n) ha.symm
    · exact ih fun i hi ↦ hv i (Nat.lt_succ_of_lt hi)

theorem storeAll_of_forall_ne (h : ∀ i < n, dst i ≠ a) : storeAll m dst v n a = m a :=
  storeAll_of_eq rfl fun i hi ha ↦ absurd ha (h i hi)

theorem storeAll_apply (hinj : ∀ i < n, ∀ j < n, dst i = dst j → i = j) {i : ℕ} (hi : i < n) :
    storeAll m dst v n (dst i) = v i := by
  induction n with
  | zero => exact absurd hi (Nat.not_lt_zero i)
  | succ n ih =>
    rw [storeAll, Function.update_apply]
    split_ifs with hlast
    · rw [hinj i hi n (Nat.lt_succ_self n) hlast]
    · have hne : i ≠ n := fun h ↦ hlast (congrArg dst h)
      exact ih (fun i hi j hj ↦ hinj i (Nat.lt_succ_of_lt hi) j (Nat.lt_succ_of_lt hj))
        (Nat.lt_of_le_of_ne (Nat.le_of_lt_succ hi) hne)

/-- The first store, and then the others: how a loop goes on. -/
theorem copyAll_succ : copyAll m dst src (n + 1) =
    copyAll (Function.update m (dst 0) (m (src 0))) (dst <| · + 1) (src <| · + 1) n := by
  induction n with
  | zero => rfl
  | succ n ih => rw [copyAll, ih, copyAll]

/-- No store changes what is read later. -/
def Undisturbed (m : A → V) (dst src : ℕ → A) (n : ℕ) : Prop :=
  ∀ i < n, ∀ j < i, dst j = src i → m (src j) = m (src i)

omit [DecidableEq A] in
theorem Undisturbed.of_le {k : ℕ} (h : Undisturbed m dst src n) (hk : k ≤ n) :
    Undisturbed m dst src k :=
  fun i hi ↦ h i (Nat.lt_of_lt_of_le hi hk)

theorem Undisturbed.read (h : Undisturbed m dst src n) {i : ℕ} (hi : i < n) :
    storeAll m dst (fun j ↦ m (src j)) i (src i) = m (src i) :=
  storeAll_of_eq rfl fun j hj hhit ↦ h i hi j hj hhit

/-- **A copy** that is not disturbed stores what was there at the start. -/
theorem copyAll_eq (h : Undisturbed m dst src n) :
    copyAll m dst src n = storeAll m dst (fun i ↦ m (src i)) n := by
  induction n with
  | zero => rfl
  | succ n ih =>
    rw [copyAll, ih (h.of_le (Nat.le_succ n)), storeAll, h.read (Nat.lt_succ_self n)]

theorem copyAll_eq_storeAll :
    copyAll m dst src n = storeAll m dst (fun i ↦ copyAll m dst src i (src i)) n := by
  induction n with
  | zero => rfl
  | succ n ih =>
    nth_rewrite 1 [copyAll]
    rw [storeAll, ← ih]

theorem copyAll_apply (hinj : ∀ i < n, ∀ j < n, dst i = dst j → i = j) {i : ℕ} (hi : i < n) :
    copyAll m dst src n (dst i) = copyAll m dst src i (src i) := by
  rw [copyAll_eq_storeAll]
  exact storeAll_apply hinj hi

/-- A copy that reads what was there at the start is not disturbed. -/
theorem undisturbed_of_reads (hinj : ∀ i < n, ∀ j < n, dst i = dst j → i = j)
    (hread : ∀ i < n, copyAll m dst src i (src i) = m (src i)) : Undisturbed m dst src n := by
  intro i hi j hj hhit
  have hinj' : ∀ k < i, ∀ l < i, dst k = dst l → k = l :=
    fun k hk l hl ↦ hinj k (Nat.lt_trans hk hi) l (Nat.lt_trans hl hi)
  have hstored : copyAll m dst src i (dst j) = copyAll m dst src j (src j) := copyAll_apply hinj' hj
  rw [hhit, hread i hi, hread j (Nat.lt_trans hj hi)] at hstored
  exact hstored.symm

theorem copyAll_congr {dst' src' : ℕ → A} (hdst : ∀ i < n, dst i = dst' i)
    (hsrc : ∀ i < n, src i = src' i) : copyAll m dst src n = copyAll m dst' src' n := by
  induction n with
  | zero => rfl
  | succ n ih =>
    rw [copyAll, copyAll, hdst n (Nat.lt_succ_self n), hsrc n (Nat.lt_succ_self n),
      ih (fun i hi ↦ hdst i (Nat.lt_succ_of_lt hi)) fun i hi ↦ hsrc i (Nat.lt_succ_of_lt hi)]

end Copy
