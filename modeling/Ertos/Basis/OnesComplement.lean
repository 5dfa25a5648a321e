import Mathlib.Algebra.BigOperators.Group.List.Basic
import Mathlib.Tactic.Common
import Mathlib.Tactic.Linarith
import Mathlib.Tactic.Ring

/-!
# One's-complement sums

Words run from `0` to `m`, which is all ones. They are added with the carry out of the top brought
back in at the bottom. The sum of many words is computed in a wide accumulator, whose carries are
brought back at the end: `fold` does that once, which may produce another carry, and `reduce` says
what comes out when nothing is left to bring back. Modulo `m` none of this makes a difference, and
that decides everything but the choice between the two zeros, `0` and `m`.

One fold is enough unless it overflows (`fold_mod_eq_iff`). The test for all ones never notices
(`fold_mod_eq_max_iff`), and the word that completes a sum to all ones is right exactly when the
fold of the sum is (`fold_complement_iff`).
-/

namespace OnesComplement

variable {m : ℕ}

/-- Addition with end-around carry. -/
def add (m x y : ℕ) : ℕ := if x + y ≤ m then x + y else x + y - m

/-- The one's-complement sum of a list of words. -/
def sum (m : ℕ) (l : List ℕ) : ℕ := l.foldl (add m) 0

/-- The carries of an accumulator brought back once. -/
def fold (m s : ℕ) : ℕ := s % (m + 1) + s / (m + 1)

/-- The word left of an accumulator when there is no carry any more. -/
def reduce (m s : ℕ) : ℕ := if s = 0 then 0 else (s - 1) % m + 1

/-! ## Reduction -/

theorem reduce_of_le {s : ℕ} (h : s ≤ m) : reduce m s = s := by
  unfold reduce
  split_ifs with h0
  · exact h0.symm
  · rw [Nat.mod_eq_of_lt (by omega)]
    omega

theorem reduce_le (hm : 0 < m) (s : ℕ) : reduce m s ≤ m := by
  unfold reduce
  split_ifs
  · exact Nat.zero_le m
  · exact Nat.mod_lt _ hm

theorem reduce_add_mul {s : ℕ} (h : 0 < s) (k : ℕ) : reduce m (s + m * k) = reduce m s := by
  have hle : s + m * k ≠ 0 := by omega
  rw [reduce, reduce, if_neg hle, if_neg (by omega), show s + m * k - 1 = s - 1 + m * k by omega,
    Nat.add_mul_mod_self_left]

theorem eq_reduce_add_mul (m s : ℕ) : ∃ k, s = reduce m s + m * k := by
  unfold reduce
  split_ifs with h
  · exact ⟨0, by omega⟩
  · refine ⟨(s - 1) / m, ?_⟩
    have hdiv := Nat.mod_add_div (s - 1) m
    omega

theorem reduce_eq_zero_iff {s : ℕ} : reduce m s = 0 ↔ s = 0 := by
  unfold reduce
  split_ifs with h
  · exact iff_of_true rfl h
  · exact iff_of_false id h

/-- Reducing early makes no difference. -/
theorem reduce_reduce_add (s x : ℕ) : reduce m (reduce m s + x) = reduce m (s + x) := by
  obtain ⟨k, hk⟩ := eq_reduce_add_mul m s
  rcases Nat.eq_zero_or_pos (reduce m s + x) with h0 | hpos
  · have hs : s = 0 := reduce_eq_zero_iff.mp (Nat.eq_zero_of_add_eq_zero_right h0)
    rw [hs, reduce_of_le (Nat.zero_le m)]
  · rw [← reduce_add_mul hpos k]
    congr 1
    omega

theorem add_eq_reduce {x y : ℕ} (hx : x ≤ m) (hy : y ≤ m) : add m x y = reduce m (x + y) := by
  unfold add
  split_ifs with h
  · exact (reduce_of_le h).symm
  · have hsplit : x + y = x + y - m + m * 1 := by omega
    rw [hsplit, reduce_add_mul (by omega), reduce_of_le (by omega)]
    omega

/-- **The sum of words is the reduction of their sum as numbers.** -/
theorem sum_eq_reduce (hm : 0 < m) {l : List ℕ} (hl : ∀ x ∈ l, x ≤ m) :
    sum m l = reduce m l.sum := by
  have key : ∀ {l : List ℕ}, (∀ x ∈ l, x ≤ m) → ∀ s, l.foldl (add m) (reduce m s) =
      reduce m (s + l.sum) := by
    intro l hl
    induction l with
    | nil => simp
    | cons x l ih =>
      intro s
      have hx := hl x List.mem_cons_self
      rw [List.foldl_cons, add_eq_reduce (reduce_le hm s) hx, reduce_reduce_add,
        ih (fun y hy ↦ hl y (List.mem_cons_of_mem x hy)), List.sum_cons, Nat.add_assoc]
  have h := key hl 0
  rwa [reduce_of_le (Nat.zero_le m), Nat.zero_add] at h

/-- All ones are the multiples of `m` but zero. -/
theorem reduce_eq_max_iff (hm : 0 < m) {s : ℕ} : reduce m s = m ↔ 0 < s ∧ m ∣ s := by
  constructor
  · intro h
    obtain ⟨k, hk⟩ := eq_reduce_add_mul m s
    rw [h] at hk
    exact ⟨by omega, ⟨k + 1, by rw [hk]; ring⟩⟩
  · rintro ⟨hpos, k, rfl⟩
    obtain ⟨k, rfl⟩ : ∃ j, k = j + 1 := Nat.exists_eq_add_one.mpr (Nat.pos_of_mul_pos_left hpos)
    rw [Nat.mul_succ, Nat.add_comm, reduce_add_mul hm, reduce_of_le le_rfl]

/-! ## One fold -/

theorem eq_fold_add_mul (m s : ℕ) : s = fold m s + m * (s / (m + 1)) := by
  have hdiv := Nat.mod_add_div s (m + 1)
  rw [Nat.succ_mul] at hdiv
  unfold fold
  omega

theorem fold_pos {s : ℕ} (h : 0 < s) : 0 < fold m s := by
  by_contra h0
  have hs := eq_fold_add_mul m s
  have hquot : s / (m + 1) = 0 := by
    have hzero : s % (m + 1) + s / (m + 1) = 0 := Nat.eq_zero_of_not_pos h0
    exact Nat.eq_zero_of_add_eq_zero_left hzero
  rw [hquot, Nat.mul_zero] at hs
  omega

theorem reduce_fold (s : ℕ) : reduce m (fold m s) = reduce m s := by
  rcases Nat.eq_zero_or_pos s with rfl | hpos
  · simp [fold]
  · have hs := eq_fold_add_mul m s
    conv_rhs => rw [hs]
    exact (reduce_add_mul (fold_pos hpos) _).symm

/-- What the fold of a small accumulator leaves in a word: all of it, or all but the carry. -/
theorem fold_mod {s : ℕ} (h : s / (m + 1) ≤ m) : fold m s ≤ m ∧ fold m s % (m + 1) = reduce m s ∨
    m < fold m s ∧ fold m s % (m + 1) + 1 = reduce m s := by
  have hrem : s % (m + 1) ≤ m := Nat.lt_succ_iff.mp (Nat.mod_lt s (Nat.succ_pos m))
  have hle : fold m s ≤ m + m := Nat.add_le_add hrem h
  rcases Nat.lt_or_ge m (fold m s) with hlt | hge
  · refine Or.inr ⟨hlt, ?_⟩
    have hsplit : fold m s = fold m s - m + m * 1 := by omega
    rw [← reduce_fold, Nat.mod_eq_sub_mod hlt, Nat.mod_eq_of_lt (by omega), hsplit,
      reduce_add_mul (by omega), reduce_of_le (by omega)]
    omega
  · refine Or.inl ⟨hge, ?_⟩
    rw [← reduce_fold, reduce_of_le hge, Nat.mod_eq_of_lt (by omega)]

/-- **One fold is enough exactly when it does not overflow.** -/
theorem fold_mod_eq_iff {s : ℕ} (h : s / (m + 1) ≤ m) :
    fold m s % (m + 1) = reduce m s ↔ fold m s ≤ m := by
  rcases fold_mod h with ⟨hle, heq⟩ | ⟨hlt, heq⟩
  · exact iff_of_true heq hle
  · exact iff_of_false (by omega) (Nat.not_le.mpr hlt)

/-- **The test for all ones is exact all the same.** -/
theorem fold_mod_eq_max_iff {s : ℕ} (h : s / (m + 1) < m) :
    fold m s % (m + 1) = m ↔ reduce m s = m := by
  have hrem : s % (m + 1) ≤ m := Nat.lt_succ_iff.mp (Nat.mod_lt s (Nat.succ_pos m))
  rcases fold_mod h.le with ⟨-, heq⟩ | ⟨hlt, heq⟩
  · rw [heq]
  · -- a fold that overflows leaves less than the greatest word but one
    have hsmall : fold m s % (m + 1) + 1 < m := by
      rw [Nat.mod_eq_sub_mod hlt, Nat.mod_eq_of_lt] <;> unfold fold at hlt ⊢ <;> omega
    exact iff_of_false (by omega) (by omega)

/-- **Completing a sum to all ones** with the complement of its fold. -/
theorem fold_complement_iff {s : ℕ} (hm : 1 < m) (h : s / (m + 1) + 1 < m) :
    fold m (s + (m - fold m s % (m + 1))) % (m + 1) = m ↔ fold m s ≤ m := by
  have hle : fold m s % (m + 1) ≤ m := Nat.lt_succ_iff.mp (Nat.mod_lt _ (Nat.succ_pos m))
  have hquot : (s + (m - fold m s % (m + 1))) / (m + 1) < m := by
    refine lt_of_le_of_lt ?_ h
    rw [← Nat.add_div_right s (Nat.succ_pos m)]
    exact Nat.div_le_div_right (by omega)
  obtain ⟨k, hk⟩ := eq_reduce_add_mul m s
  rw [fold_mod_eq_max_iff hquot, reduce_eq_max_iff (by omega)]
  rcases fold_mod (show s / (m + 1) ≤ m by omega) with ⟨hfold, heq⟩ | ⟨hfold, heq⟩
  · refine iff_of_true ?_ hfold
    have hsum : s + (m - fold m s % (m + 1)) = m * (k + 1) := by
      rw [heq] at hle ⊢
      rw [Nat.mul_succ]
      omega
    rw [hsum]
    exact ⟨Nat.mul_pos (by omega) (Nat.succ_pos k), Nat.dvd_mul_right m _⟩
  · refine iff_of_false (fun hall ↦ ?_) (Nat.not_le.mpr hfold)
    have hdvd := hall.2
    have hsum : s + (m - fold m s % (m + 1)) = 1 + m * (k + 1) := by
      rw [Nat.mul_succ]
      omega
    rw [hsum, Nat.dvd_add_left (Nat.dvd_mul_right m _)] at hdvd
    exact absurd (Nat.le_of_dvd Nat.one_pos hdvd) (by omega)

end OnesComplement
