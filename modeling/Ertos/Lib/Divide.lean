import Mathlib.Data.UInt
import Mathlib.Data.Nat.Bitwise
import Mathlib.Tactic.Ring

/-!
# Division

`lib/math.c`. The processor cannot divide, so every `/` and `%` of the program is a call of one of
these four functions, and each of them a call of `udivmodsi4`.

`udivmodsi4` first shifts the denominator to the left until it is no longer less than the numerator
or its top bit is set, and a bit with it. Then it shifts both back, taking out the denominator where
it fits. What carries the second loop is that the numerator is less than twice the denominator.

The functions agree with the operators of the language for all arguments. When the denominator is
zero the first loop shifts the bit out of its word, and the quotient is zero; but not when the
numerator is zero as well, where the first loop is not entered and the quotient is one.
-/

namespace Ertos

/-! ## The functions -/

/-- `while (den < num && bit && !(den & (1L<<31)))`: the denominator and the bit. -/
def udivScale : ℕ → UInt32 → UInt32 → UInt32 → Option (UInt32 × UInt32)
  | 0, _, _, _ => none
  | fuel + 1, num, den, bit =>
    if den < num ∧ bit ≠ 0 ∧ den &&& ((1 : UInt32) <<< 31) = 0 then
      udivScale fuel num (den <<< 1) (bit <<< 1)
    else some (den, bit)

/-- `while (bit)`: the remainder and the quotient. -/
def udivLoop (num den bit res : UInt32) : UInt32 × UInt32 :=
  if bit = 0 then (num, res)
  else if den ≤ num then udivLoop (num - den) (den >>> 1) (bit >>> 1) (res ||| bit)
  else udivLoop num (den >>> 1) (bit >>> 1) res
termination_by bit.toNat
decreasing_by
  all_goals
    rename_i hbit _
    have hpos : bit.toNat ≠ 0 := fun h ↦ hbit (UInt32.toNat_inj.mp h)
    have hhalf : (bit >>> 1).toNat = bit.toNat / 2 := Nat.shiftRight_eq_div_pow bit.toNat 1
    omega

/-- `modwanted` asks for the remainder. -/
def udivmodsi4 (fuel : ℕ) (num den : UInt32) (modwanted : Bool) : Option UInt32 :=
  (udivScale fuel num den 1).map fun s ↦
    let r := udivLoop num s.1 s.2 0
    if modwanted then r.1 else r.2

def udivsi3 (fuel : ℕ) (a b : UInt32) : Option UInt32 := udivmodsi4 fuel a b false

def umodsi3 (fuel : ℕ) (a b : UInt32) : Option UInt32 := udivmodsi4 fuel a b true

def divsi3 (fuel : ℕ) (a b : Int32) : Option Int32 :=
  let (a, neg) := if a < 0 then (-a, true) else (a, false)
  let (b, neg) := if b < 0 then (-b, !neg) else (b, neg)
  (udivmodsi4 fuel a.toUInt32 b.toUInt32 false).map fun res ↦
    if neg then -res.toInt32 else res.toInt32

def modsi3 (fuel : ℕ) (a b : Int32) : Option Int32 :=
  let (a, neg) := if a < 0 then (-a, true) else (a, false)
  let b := if b < 0 then -b else b
  (udivmodsi4 fuel a.toUInt32 b.toUInt32 true).map fun res ↦
    if neg then -res.toInt32 else res.toInt32

/-! ## Shifts by one -/

section Shift

variable {x : UInt32}

theorem toNat_shiftRight_one (x : UInt32) : (x >>> 1).toNat = x.toNat / 2 :=
  Nat.shiftRight_eq_div_pow x.toNat 1

theorem toNat_shiftLeft_one (x : UInt32) : (x <<< 1).toNat = x.toNat * 2 % 2 ^ 32 := by
  rw [UInt32.toNat_shiftLeft]
  exact congrArg (· % 2 ^ 32) (Nat.shiftLeft_eq x.toNat 1)

theorem and_top_eq_zero_iff : x &&& ((1 : UInt32) <<< 31) = 0 ↔ x.toNat < 2 ^ 31 := by
  have hx := x.toNat_lt
  have hand : (x &&& ((1 : UInt32) <<< 31)).toNat = (x.toNat.testBit 31).toNat * 2 ^ 31 :=
    (UInt32.toNat_and _ _).trans (Nat.and_two_pow _ 31)
  rw [← UInt32.toNat_inj, hand, Nat.testBit_eq_decide_div_mod_eq]
  by_cases htop : x.toNat / 2 ^ 31 % 2 = 1
  · rw [decide_eq_true htop]
    simp only [Bool.toNat_true, UInt32.toNat_zero]
    omega
  · rw [decide_eq_false htop]
    simp only [Bool.toNat_false, UInt32.toNat_zero]
    omega

end Shift

/-! ## The second loop -/

theorem toNat_or_bit {res bit : UInt32} {k : ℕ} (hbit : bit.toNat = 2 ^ k)
    (hres : 2 ^ (k + 1) ∣ res.toNat) : (res ||| bit).toNat = res.toNat + bit.toNat := by
  obtain ⟨q, hq⟩ := hres
  rw [UInt32.toNat_or, hq, hbit]
  exact (Nat.two_pow_add_eq_or_of_lt (Nat.pow_lt_pow_right Nat.one_lt_two k.lt_succ_self) q).symm

/-- The denominator `d` and the bit `1`, shifted to the left, when `n` rounds of the second loop are
left. -/
def Scaled (d : ℕ) (den bit : UInt32) : ℕ → Prop
  | 0 => bit = 0
  | n + 1 => den.toNat = d * 2 ^ n ∧ bit.toNat = 2 ^ n

theorem Scaled.shift {d n : ℕ} {den bit : UInt32} (h : Scaled d den bit (n + 1)) :
    Scaled d (den >>> 1) (bit >>> 1) n := by
  obtain ⟨hden, hbit⟩ := h
  cases n with
  | zero =>
    rw [Scaled, ← UInt32.toNat_inj, toNat_shiftRight_one, hbit]
    rfl
  | succ n =>
    rw [Scaled, toNat_shiftRight_one, toNat_shiftRight_one, hden, hbit, pow_succ]
    exact ⟨by rw [← mul_assoc, Nat.mul_div_cancel _ Nat.two_pos],
      Nat.mul_div_cancel _ Nat.two_pos⟩

/-- **The second loop.** With less than `d * 2 ^ n` to divide and `n` rounds left, it divides by
`d`. -/
theorem udivLoop_spec {d n : ℕ} (hd : 0 < d) {num den bit res : UInt32}
    (hscaled : Scaled d den bit n) (hres : 2 ^ n ∣ res.toNat) (hnum : num.toNat < d * 2 ^ n) :
    (udivLoop num den bit res).1.toNat = num.toNat % d ∧
      (udivLoop num den bit res).2.toNat = res.toNat + num.toNat / d := by
  induction n generalizing num den bit res with
  | zero =>
    rw [pow_zero, mul_one] at hnum
    have hbit : bit = 0 := hscaled
    rw [udivLoop, if_pos hbit, Nat.mod_eq_of_lt hnum, Nat.div_eq_of_lt hnum]
    exact ⟨rfl, rfl⟩
  | succ n ih =>
    obtain ⟨hden, hbit⟩ := id hscaled
    have hbit0 : bit ≠ 0 := by
      rintro rfl
      exact absurd hbit.symm (Nat.two_pow_pos n).ne'
    rw [udivLoop, if_neg hbit0]
    have hnum' : num.toNat < 2 * (d * 2 ^ n) := by
      rwa [pow_succ, ← mul_assoc, mul_comm _ 2] at hnum
    split_ifs with hle
    · -- the denominator fits: what is left is less than it
      have hle' : d * 2 ^ n ≤ num.toNat := hden ▸ UInt32.le_iff_toNat_le.mp hle
      have hsub : (num - den).toNat = num.toNat - d * 2 ^ n := by
        rw [UInt32.toNat_sub_of_le _ _ hle, hden]
      have hor : (res ||| bit).toNat = res.toNat + 2 ^ n := by
        rw [toNat_or_bit hbit hres, hbit]
      have hres' : 2 ^ n ∣ (res ||| bit).toNat := by
        rw [hor]
        exact Nat.dvd_add ((pow_dvd_pow 2 n.le_succ).trans hres) (dvd_refl _)
      have hless : (num - den).toNat < d * 2 ^ n := by omega
      have hquot : 2 ^ n ≤ num.toNat / d := (Nat.le_div_iff_mul_le hd).mpr (mul_comm d _ ▸ hle')
      obtain ⟨hmod, hdiv⟩ := ih hscaled.shift hres' hless
      rw [hmod, hdiv, hor, hsub, Nat.sub_mul_mod hle', Nat.sub_mul_div]
      exact ⟨rfl, by omega⟩
    · have hlt : num.toNat < d * 2 ^ n := by
        rw [← hden]
        exact UInt32.lt_iff_toNat_lt.mp (UInt32.not_le.mp hle)
      exact ih hscaled.shift ((pow_dvd_pow 2 n.le_succ).trans hres) hlt

/-! ## The first loop -/

section Scale

variable {d k fuel : ℕ} {num den bit : UInt32}

/-- A denominator other than zero is shifted until twice it is more than the numerator. Its top bit
is set after 31 rounds at the latest. -/
theorem udivScale_spec (num : UInt32) (hd : 0 < d) (hden : den.toNat = d * 2 ^ k)
    (hbit : bit.toNat = 2 ^ k) (hfuel : 32 ≤ fuel + k) :
    ∃ n s, udivScale fuel num den bit = some s ∧ Scaled d s.1 s.2 n ∧ num.toNat < d * 2 ^ n := by
  have hden32 := den.toNat_lt
  have hnum32 := num.toNat_lt
  have hpow : 2 ^ k ≤ den.toNat := hden ▸ Nat.le_mul_of_pos_left _ hd
  have hk : k < 32 := (Nat.pow_lt_pow_iff_right Nat.one_lt_two).mp (hpow.trans_lt hden32)
  induction fuel generalizing k den bit with
  | zero => omega
  | succ fuel ih =>
    rw [udivScale]
    have hdouble : d * 2 ^ (k + 1) = den.toNat * 2 := by rw [hden, pow_succ, mul_assoc]
    split_ifs with hmore
    · obtain ⟨-, -, htop⟩ := hmore
      have hlt := and_top_eq_zero_iff.mp htop
      have hden' : (den <<< 1).toNat = d * 2 ^ (k + 1) := by
        rw [toNat_shiftLeft_one, hdouble]
        omega
      have hbit' : (bit <<< 1).toNat = 2 ^ (k + 1) := by
        rw [toNat_shiftLeft_one, hbit, pow_succ]
        omega
      have hpow' : 2 ^ (k + 1) ≤ (den <<< 1).toNat := hden' ▸ Nat.le_mul_of_pos_left _ hd
      have hk' : k + 1 < 32 :=
        (Nat.pow_lt_pow_iff_right Nat.one_lt_two).mp (hpow'.trans_lt (UInt32.toNat_lt _))
      exact ih hden' hbit' (by omega) (UInt32.toNat_lt _) hpow' hk'
    · refine ⟨k + 1, _, rfl, ⟨hden, hbit⟩, ?_⟩
      have hbit0 : bit ≠ 0 := by
        rintro rfl
        exact absurd hbit.symm (Nat.two_pow_pos k).ne'
      rw [hdouble]
      by_cases hless : den < num
      · -- only the top bit has stopped the loop
        have htop : ¬ den.toNat < 2 ^ 31 := fun h ↦
          hmore ⟨hless, hbit0, and_top_eq_zero_iff.mpr h⟩
        omega
      · have hle : num.toNat ≤ den.toNat := UInt32.le_iff_toNat_le.mp (UInt32.not_lt.mp hless)
        have hpos : 0 < 2 ^ k := Nat.two_pow_pos k
        omega

/-- A denominator of zero never stops the loop: the bit leaves its word. -/
theorem udivScale_zero (hnum : 0 < num) (hbit : bit.toNat = 2 ^ k % 2 ^ 32) (hk : k ≤ 32)
    (hfuel : 33 ≤ fuel + k) : udivScale fuel num 0 bit = some (0, 0) := by
  induction fuel generalizing k bit with
  | zero => omega
  | succ fuel ih =>
    rw [udivScale]
    by_cases hbit0 : bit = 0
    · rw [if_neg fun h ↦ h.2.1 hbit0, hbit0]
    · have hk' : k ≠ 32 := by
        rintro rfl
        exact hbit0 (UInt32.toNat_inj.mp hbit)
      have htop : (0 : UInt32) &&& ((1 : UInt32) <<< 31) = 0 := rfl
      rw [if_pos ⟨hnum, hbit0, htop⟩]
      refine ih ?_ (by omega : k + 1 ≤ 32) (by omega)
      rw [toNat_shiftLeft_one, hbit, Nat.mod_mul_mod, ← pow_succ]

end Scale

/-! ## The quotient and the remainder -/

section Quotient

variable {fuel : ℕ}

theorem udivLoop_zero_zero : udivLoop 0 0 1 0 = (0, 1) := by
  rw [udivLoop, if_neg (by decide), if_pos (by decide), udivLoop, if_pos (by decide)]
  rfl

theorem udivmodsi4_eq (hfuel : 33 ≤ fuel) (num den : UInt32) (modwanted : Bool) :
    udivmodsi4 fuel num den modwanted =
      some (if modwanted then num % den else if num = 0 ∧ den = 0 then 1 else num / den) := by
  rw [udivmodsi4]
  by_cases hden : den = 0
  · subst hden
    by_cases hnum : num = 0
    · subst hnum
      obtain ⟨fuel, rfl⟩ := Nat.exists_eq_add_of_le' (show 1 ≤ fuel by omega)
      rw [udivScale, if_neg fun h ↦ UInt32.lt_irrefl 0 h.1, Option.map_some, udivLoop_zero_zero]
      cases modwanted <;> rfl
    · have hpos : 0 < num := UInt32.pos_iff_ne_zero.mpr hnum
      rw [udivScale_zero (k := 0) hpos rfl (by omega) (by omega), Option.map_some, udivLoop,
        if_pos rfl, UInt32.mod_zero, UInt32.div_zero, if_neg (c := num = 0 ∧ _) fun h ↦ hnum h.1]
  · have hd : 0 < den.toNat := Nat.pos_of_ne_zero fun h ↦ hden (UInt32.toNat_inj.mp h)
    have hbit : (1 : UInt32).toNat = 2 ^ 0 := rfl
    obtain ⟨n, s, hs, hscaled, hless⟩ :=
      udivScale_spec num hd (mul_one _).symm hbit (by omega : 32 ≤ fuel + 0)
    have hres : 2 ^ n ∣ (0 : UInt32).toNat := dvd_zero _
    obtain ⟨hmod, hdiv⟩ := udivLoop_spec hd hscaled hres hless
    rw [hs, Option.map_some, if_neg (c := num = 0 ∧ _) fun h ↦ hden h.2]
    congr 1
    cases modwanted
    · exact UInt32.toNat_inj.mp (hdiv.trans (Nat.zero_add _))
    · exact UInt32.toNat_inj.mp hmod

end Quotient

/-! ## Signs -/

section Sign

variable (a b : Int32)

theorem int32_lt_zero_iff : a < 0 ↔ a.toBitVec.msb = true := by
  rw [Int32.lt_iff_toInt_lt, BitVec.msb_eq_toInt, decide_eq_true_iff]
  rfl

/-- The quotient by the absolute values. The absolute value of the least number is the word that
it is itself. -/
theorem int32_div_eq : a / b =
    if a < 0 then
      if b < 0 then ((-a).toUInt32 / (-b).toUInt32).toInt32
      else -((-a).toUInt32 / b.toUInt32).toInt32
    else if b < 0 then -(a.toUInt32 / (-b).toUInt32).toInt32
    else (a.toUInt32 / b.toUInt32).toInt32 := by
  have hquot : (a / b).toBitVec = a.toBitVec.sdiv b.toBitVec := rfl
  apply Int32.toBitVec_inj.mp
  rw [hquot, BitVec.sdiv]
  simp only [int32_lt_zero_iff]
  cases a.toBitVec.msb <;> cases b.toBitVec.msb <;> rfl

theorem int32_mod_eq : a % b =
    if a < 0 then -((-a).toUInt32 % (if b < 0 then -b else b).toUInt32).toInt32
    else (a.toUInt32 % (if b < 0 then -b else b).toUInt32).toInt32 := by
  have hrem : (a % b).toBitVec = a.toBitVec.srem b.toBitVec := rfl
  apply Int32.toBitVec_inj.mp
  rw [hrem, BitVec.srem]
  simp only [int32_lt_zero_iff]
  cases a.toBitVec.msb <;> cases b.toBitVec.msb <;> rfl

theorem toUInt32_eq_zero_iff : a.toUInt32 = 0 ↔ a = 0 :=
  ⟨fun h ↦ Int32.toBitVec_inj.mp (congrArg UInt32.toBitVec h), fun h ↦ h ▸ rfl⟩

theorem int32_neg_eq_zero_iff : -a = 0 ↔ a = 0 := by
  rw [← Int32.toBitVec_inj, ← Int32.toBitVec_inj, Int32.toBitVec_neg]
  exact BitVec.neg_eq_zero_iff

end Sign

section Signed

variable {fuel : ℕ}

theorem divsi3_eq (hfuel : 33 ≤ fuel) (a b : Int32) :
    divsi3 fuel a b = some (if a = 0 ∧ b = 0 then 1 else a / b) := by
  rw [int32_div_eq]
  by_cases hzero : a = 0 ∧ b = 0
  · obtain ⟨rfl, rfl⟩ := hzero
    have hnum : ¬ (0 : Int32) < 0 := by decide
    simp only [divsi3, hnum, if_false, udivmodsi4_eq hfuel, Option.map_some, Bool.false_eq_true]
    rfl
  · rw [if_neg hzero]
    by_cases ha : a < 0 <;> by_cases hb : b < 0
    all_goals
      simp only [divsi3, ha, hb, hzero, if_true, if_false, udivmodsi4_eq hfuel, Option.map_some,
        toUInt32_eq_zero_iff, int32_neg_eq_zero_iff, Bool.not_true, Bool.not_false,
        Bool.false_eq_true]

theorem modsi3_eq (hfuel : 33 ≤ fuel) (a b : Int32) : modsi3 fuel a b = some (a % b) := by
  rw [int32_mod_eq]
  by_cases ha : a < 0
  all_goals
    simp only [modsi3, ha, if_true, if_false, udivmodsi4_eq hfuel, Option.map_some,
      Bool.false_eq_true]

/-- **The division of the program is division.** Each of the four functions ends for all arguments.
Its results, those of a division by zero too, are the quotients and the remainders of the words and
of the two's complement numbers, but that zero by zero is one. -/
theorem division_emulated (hfuel : 33 ≤ fuel) :
    (∀ a b, udivsi3 fuel a b = some (if a = 0 ∧ b = 0 then 1 else a / b)) ∧
      (∀ a b, umodsi3 fuel a b = some (a % b)) ∧
      (∀ a b, divsi3 fuel a b = some (if a = 0 ∧ b = 0 then 1 else a / b)) ∧
      ∀ a b, modsi3 fuel a b = some (a % b) :=
  ⟨fun a b ↦ udivmodsi4_eq hfuel a b false, fun a b ↦ udivmodsi4_eq hfuel a b true,
    divsi3_eq hfuel, modsi3_eq hfuel⟩

theorem division_emulated_minValue :
    divsi3 33 Int32.minValue (-1) = some Int32.minValue ∧ modsi3 33 Int32.minValue (-1) = some 0 :=
  have h := division_emulated (le_refl 33)
  ⟨h.2.2.1 _ _, h.2.2.2 _ _⟩

end Signed

end Ertos
