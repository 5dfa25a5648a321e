import Mathlib.Tactic.Common

/-!
# Codes that correct one error

The check symbols of a word are computed by loops whose bodies respect exclusive or: for such a loop
the exclusive or of two starting values leads to the exclusive or of the results (`loop_xor`).

So a flip at a position of a word changes the check symbols by a value that depends on the position
only, the column of the position. A decoder takes the exclusive or of the check symbols that come
with a word and those computed from it. If that is the column of a position, the decoder flips it
back.
-/

namespace LinearCode

/-! ## Loops -/

section Loop

variable {S : Type*} {f g h : ℕ → S → S}

/-- The state after the body was run for `0, …, n - 1`. -/
def loop (f : ℕ → S → S) : ℕ → S → S
  | 0, s => s
  | n + 1, s => f n (loop f n s)

theorem loop_xor [XorOp S] (hxor : ∀ i s t, h i (s ^^^ t) = f i s ^^^ g i t) (n : ℕ) (s t : S) :
    loop h n (s ^^^ t) = loop f n s ^^^ loop g n t := by
  induction n with
  | zero => rfl
  | succ n ih => rw [loop, loop, loop, ih, hxor]

theorem loop_congr {n : ℕ} (hfg : ∀ i < n, ∀ s, f i s = g i s) (s : S) :
    loop f n s = loop g n s := by
  induction n with
  | zero => rfl
  | succ n ih =>
    have hprev := ih fun i hi ↦ hfg i (Nat.lt_succ_of_lt hi)
    rw [loop, loop, hprev, hfg n n.lt_succ_self]

theorem loop_eq_self {n : ℕ} (hid : ∀ i < n, ∀ s, f i s = s) (s : S) : loop f n s = s := by
  induction n with
  | zero => rfl
  | succ n ih =>
    rw [loop, ih fun i hi ↦ hid i (Nat.lt_succ_of_lt hi), hid n n.lt_succ_self]

theorem loop_eq_of_ne {n k : ℕ} (hk : k < n) (hid : ∀ i < n, i ≠ k → ∀ s, f i s = s) (s : S) :
    loop f n s = f k s := by
  induction n with
  | zero => exact absurd hk k.not_lt_zero
  | succ n ih =>
    rw [loop]
    rcases Nat.lt_succ_iff_lt_or_eq.mp hk with hlt | rfl
    · rw [ih hlt fun i hi ↦ hid i (Nat.lt_succ_of_lt hi), hid n n.lt_succ_self (Nat.ne_of_gt hlt)]
    · rw [loop_eq_self fun i hi ↦ hid i (Nat.lt_succ_of_lt hi) (Nat.ne_of_lt hi)]

end Loop

/-! ## Decoding -/

/-- Words with check symbols. The column of a position is what a flip there does to the check
symbols, and it tells the position. -/
structure Code (W C P : Type*) [XorOp C] where
  check : W → C
  flip : P → W → W
  column : P → C
  /-- The position to be corrected, for an exclusive or of check symbols. -/
  locate : C → Option P
  flip_flip : ∀ p w, flip p (flip p w) = w
  check_flip : ∀ p w, check (flip p w) ^^^ check w = column p
  locate_self : ∀ c, locate (c ^^^ c) = none
  locate_column : ∀ p, locate (column p) = some p

namespace Code

variable {W C P : Type*} [XorOp C] (K : Code W C P)

/-- The word, corrected by the check symbols that come with it. -/
def correct (w : W) (c : C) : W :=
  match K.locate (K.check w ^^^ c) with
  | none => w
  | some p => K.flip p w

/-- What may become of a word and its check symbols. -/
inductive Damaged (w : W) : W → C → Prop
  /-- The word has a flip. -/
  | word (p : P) : Damaged w (K.flip p w) (K.check w)
  /-- The check symbols are others, but they point nowhere. -/
  | check (c : C) (hnone : K.locate (K.check w ^^^ c) = none) : Damaged w w c

variable {K}

theorem correct_of_none {w : W} {c : C} (h : K.locate (K.check w ^^^ c) = none) :
    K.correct w c = w := by
  unfold correct
  rw [h]

theorem correct_of_some {w : W} {c : C} {p : P} (h : K.locate (K.check w ^^^ c) = some p) :
    K.correct w c = K.flip p w := by
  unfold correct
  rw [h]

theorem Damaged.refl (w : W) : K.Damaged w w (K.check w) := .check _ (K.locate_self _)

/-- **One error is corrected.** -/
theorem correct_of_damaged {w w' : W} {c : C} (h : K.Damaged w w' c) : K.correct w' c = w := by
  cases h with
  | word p =>
    rw [correct_of_some (p := p) (K.check_flip p w ▸ K.locate_column p), K.flip_flip]
  | check c hnone => exact correct_of_none hnone

end Code

end LinearCode
