import Mathlib.Algebra.Group.Nat.Defs
import Mathlib.Tactic.Common

/-!
# Bits of bytes

A byte is the bits it has set (`eq_of_bitOf`). The operators of C act on the bits one by one, and a
mask with one bit asks for that bit (`and_ne_zero_iff`).
-/

namespace Bits

/-- Whether a bit of a byte is set. -/
def bitOf (k : ℕ) (x : UInt8) : Bool := x.toNat.testBit k

theorem bitOf_of_le {k : ℕ} (h : 8 ≤ k) (x : UInt8) : bitOf k x = false :=
  Nat.testBit_lt_two_pow (Nat.lt_of_lt_of_le x.toNat_lt (Nat.pow_le_pow_right (by decide) h))

/-- **A byte is its bits.** -/
theorem eq_of_bitOf {x y : UInt8} (h : ∀ k < 8, bitOf k x = bitOf k y) : x = y := by
  apply UInt8.toNat_inj.mp
  refine Nat.eq_of_testBit_eq fun k ↦ ?_
  rcases Nat.lt_or_ge k 8 with hlt | hge
  · exact h k hlt
  · exact (bitOf_of_le hge x).trans (bitOf_of_le hge y).symm

section Operators

variable (k : ℕ) (x y : UInt8)

theorem bitOf_zero : bitOf k 0 = false := Nat.zero_testBit k

theorem bitOf_and : bitOf k (x &&& y) = (bitOf k x && bitOf k y) := by
  rw [bitOf, UInt8.toNat_and, Nat.testBit_and, bitOf, bitOf]

theorem bitOf_or : bitOf k (x ||| y) = (bitOf k x || bitOf k y) := by
  rw [bitOf, UInt8.toNat_or, Nat.testBit_or, bitOf, bitOf]

theorem bitOf_xor : bitOf k (x ^^^ y) = (bitOf k x ^^ bitOf k y) := by
  rw [bitOf, UInt8.toNat_xor, Nat.testBit_xor, bitOf, bitOf]

theorem and_or (z : UInt8) : x &&& (y ||| z) = x &&& y ||| x &&& z :=
  UInt8.toNat_inj.mp (Nat.and_or_distrib_left ..)

theorem or_and (z : UInt8) : (x ||| y) &&& z = x &&& z ||| y &&& z :=
  UInt8.toNat_inj.mp (Nat.and_or_distrib_right ..)

end Operators

theorem bitOf_shiftLeft {n : UInt8} (hn : n.toNat < 8) {k : ℕ} (hk : k < 8) (x : UInt8) :
    bitOf k (x <<< n) = (decide (n.toNat ≤ k) && bitOf (k - n.toNat) x) := by
  rw [bitOf, UInt8.toNat_shiftLeft, Nat.mod_eq_of_lt hn, Nat.testBit_mod_two_pow,
    decide_eq_true hk, Bool.true_and, Nat.testBit_shiftLeft, bitOf]

theorem bitOf_shiftLeft_one {k : ℕ} (hk : k < 7) (x : UInt8) :
    bitOf (k + 1) (x <<< 1) = bitOf k x := by
  rw [bitOf_shiftLeft (by decide) (Nat.succ_lt_succ hk)]
  exact Bool.true_and _

theorem bitOf_compl {k : ℕ} (hk : k < 8) (x : UInt8) : bitOf k (255 - x) = !bitOf k x := by
  have hlt := x.toNat_lt
  have hle : x ≤ 255 := UInt8.le_iff_toNat_le.mpr (Nat.le_of_lt_succ hlt)
  have hsub : (255 - x).toNat = 2 ^ 8 - (x.toNat + 1) := by
    rw [UInt8.toNat_sub_of_le _ _ hle]
    show 255 - x.toNat = 256 - (x.toNat + 1)
    omega
  rw [bitOf, hsub, Nat.testBit_two_pow_sub_succ hlt, decide_eq_true hk, Bool.true_and, bitOf]

theorem or_eq_xor {x y : UInt8} (h : ∀ k < 8, bitOf k y = true → bitOf k x = false) :
    x ||| y = x ^^^ y := by
  refine eq_of_bitOf fun k hk ↦ ?_
  rw [bitOf_or, bitOf_xor]
  cases hy : bitOf k y with
  | false => rw [Bool.or_false, Bool.xor_false]
  | true =>
    rw [h k hk hy]
    rfl

theorem and_or_absorb (x y : UInt8) : x &&& y ||| y = y := by
  calc x &&& y ||| y = (x ||| -1) &&& y := by rw [or_and, UInt8.neg_one_and]
    _ = y := by rw [UInt8.or_neg_one, UInt8.neg_one_and]

theorem or_and_not {x y : UInt8} (h : x &&& y = 0) : (x ||| y) &&& ~~~y = x := by
  calc (x ||| y) &&& ~~~y = x &&& ~~~y := by rw [or_and, UInt8.and_not_self, UInt8.or_zero]
    _ = x &&& y ||| x &&& ~~~y := by rw [h, UInt8.zero_or]
    _ = x := by rw [← and_or, UInt8.or_not_self, UInt8.and_neg_one]

/-! ## Masks -/

section Mask

variable {mask : UInt8} {k : ℕ} (hmask : mask.toNat = 2 ^ k)

include hmask

theorem bitOf_mask (i : ℕ) : bitOf i mask = decide (k = i) := by
  rw [bitOf, hmask, Nat.testBit_two_pow]

theorem and_mask (x : UInt8) : x &&& mask = if bitOf k x then mask else 0 := by
  refine eq_of_bitOf fun i _ ↦ ?_
  rw [bitOf_and, bitOf_mask hmask]
  by_cases hi : k = i
  · subst hi
    cases hx : bitOf k x with
    | false => exact (bitOf_zero k).symm
    | true => exact (bitOf_mask hmask k).symm
  · rw [decide_eq_false hi, Bool.and_false]
    split_ifs
    · rw [bitOf_mask hmask, decide_eq_false hi]
    · rw [bitOf_zero]

theorem and_ne_zero_iff (x : UInt8) : x &&& mask ≠ 0 ↔ bitOf k x = true := by
  have hne : mask ≠ 0 := by
    rintro rfl
    exact absurd hmask (Nat.ne_of_lt (Nat.two_pow_pos k))
  rw [and_mask hmask]
  constructor
  · intro h
    by_contra hbit
    exact h (if_neg hbit)
  · intro hbit
    rwa [if_pos hbit]

theorem decide_and_xor (x y : UInt8) :
    decide ((x ^^^ y) &&& mask ≠ 0) = (decide (x &&& mask ≠ 0) ^^ decide (y &&& mask ≠ 0)) := by
  simp only [and_ne_zero_iff hmask, bitOf_xor, Bool.decide_eq_true]

end Mask

end Bits
