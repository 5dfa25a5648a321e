import Ertos.Lib.String
import Mathlib.Data.Nat.Bitwise
import Mathlib.Data.Nat.Digits.Lemmas

/-!
# Decimal numbers

`printf_d` of `lib/stdio.c`, which prints an `int`, and `atoi` of `lib/string.c`, which reads one.
The machine computes modulo 2³² throughout.

`atoi` of the decimal representation of any integer is that integer, modulo 2³². `printf_d`
negates a negative number and then takes out digits as long as the number is positive. The least
number is its own negative, so no digit is taken out of it, and only the sign is printed.
-/

namespace Ertos

/-! ## Printing -/

/-- The buffer `buf` of `printf_d` has that many characters. -/
def printfDSize : ℕ := 10

/-- `(d % 10) + '0'`, as a character. -/
def digitOf (d : Int32) : UInt8 := (d % 10 + 48).toUInt32.toUInt8

/-- The loop that takes out the digits, unless it writes behind the buffer. -/
def digitLoop (d : Int32) (buf : List UInt8) : Option (List UInt8) :=
  if 0 < d then
    if buf.length < printfDSize then digitLoop (d / 10) (buf ++ [digitOf d]) else none
  else some buf
termination_by d.toInt.toNat
decreasing_by
  rename_i hpos _
  have hpos' : 0 < d.toInt := Int32.lt_iff_toInt_lt.mp hpos
  have hten : (10 : Int32).toInt = 10 := rfl
  rw [Int32.toInt_div_of_ne_right _ _ (by decide), hten, Int.tdiv_eq_ediv_of_nonneg hpos'.le]
  omega

def minus : UInt8 := 45

/-- `d & 0x80000000`. -/
def isNegative (d : Int32) : Bool := d.toUInt32 &&& 0x80000000 ≠ 0

/-- The characters given to `putchar`, and the result. -/
def printfD (d : Int32) : Option (List UInt8 × ℕ) :=
  if d = 0 then some ([48], 1)
  else
    let sign := if isNegative d then [minus] else []
    let d := if isNegative d then ~~~(d - 1) else d
    (digitLoop d []).map fun buf ↦ (sign ++ buf.reverse, buf.length)

/-! ## Reading -/

/-- `*p >= '0' && *p <= '9'`. -/
def isDigit (c : UInt8) : Bool := 48 ≤ c ∧ c ≤ 57

/-- The loop of `atoi`. -/
def atoiLoop : List UInt8 → Int32 → Option Int32
  | c :: p, val =>
    if isDigit c then atoiLoop p (val * 10 + (c.toUInt32.toInt32 - 48)) else some val
  | [], _ => none

/-- The result, unless `atoi` reads behind the string. -/
def atoi (str : CString) : Option Int32 :=
  match str.bytes with
  | [] => none
  | c :: p =>
    if c = minus then (atoiLoop p 0).map fun val ↦ ~~~val + 1 else atoiLoop (c :: p) 0

/-! ## Decimal representations -/

/-- The character of a digit. -/
def digitChar (k : ℕ) : UInt8 := UInt8.ofNat (48 + k)

/-- The digits of a natural number, the most significant one first. -/
def decimalNat (n : ℕ) : List UInt8 :=
  if n = 0 then [digitChar 0] else (Nat.digits 10 n).reverse.map digitChar

/-- The decimal representation of an integer. -/
def decimal (z : ℤ) : List UInt8 := (if z < 0 then [minus] else []) ++ decimalNat z.natAbs

section Digits

variable {k n : ℕ}

theorem toNat_digitChar (hk : k < 10) : (digitChar k).toNat = 48 + k := by
  rw [digitChar, UInt8.toNat_ofNat', Nat.mod_eq_of_lt (by omega)]

theorem isDigit_digitChar (hk : k < 10) : isDigit (digitChar k) = true := by
  have hnat := toNat_digitChar hk
  have hlow : 48 ≤ digitChar k := by
    rw [UInt8.le_iff_toNat_le, hnat]
    exact Nat.le_add_right 48 k
  have hhigh : digitChar k ≤ 57 := by
    rw [UInt8.le_iff_toNat_le, hnat]
    show 48 + k ≤ 57
    omega
  exact decide_eq_true ⟨hlow, hhigh⟩

theorem digitChar_ne_zero (hk : k < 10) : digitChar k ≠ 0 := by
  intro h
  have hnat := toNat_digitChar hk
  rw [h] at hnat
  have hzero : 0 = 48 + k := hnat
  omega

theorem mem_decimalNat {c : UInt8} (h : c ∈ decimalNat n) : ∃ k < 10, c = digitChar k := by
  unfold decimalNat at h
  split_ifs at h
  · exact ⟨0, by decide, List.mem_singleton.mp h⟩
  · obtain ⟨k, hk, rfl⟩ := List.mem_map.mp h
    exact ⟨k, Nat.digits_lt_base (by decide) (List.mem_reverse.mp hk), rfl⟩

theorem decimalNat_ne_nil (n : ℕ) : decimalNat n ≠ [] := by
  unfold decimalNat
  split_ifs with hn
  · exact List.cons_ne_nil _ _
  · rwa [ne_eq, List.map_eq_nil_iff, List.reverse_eq_nil_iff, Nat.digits_eq_nil_iff_eq_zero]

theorem decimal_of_neg {z : ℤ} (hz : z < 0) : decimal z = minus :: decimalNat z.natAbs := by
  rw [decimal, if_pos hz, List.singleton_append]

theorem decimal_of_nonneg {z : ℤ} (hz : 0 ≤ z) : decimal z = decimalNat z.natAbs := by
  rw [decimal, if_neg (not_lt.mpr hz), List.nil_append]

theorem decimal_ne_zero {z : ℤ} : ∀ c ∈ decimal z, c ≠ 0 := by
  intro c hc
  rcases List.mem_append.mp hc with hc | hc
  · split_ifs at hc
    · rw [List.mem_singleton.mp hc]
      decide
    · exact absurd hc List.not_mem_nil
  · obtain ⟨k, hk, rfl⟩ := mem_decimalNat hc
    exact digitChar_ne_zero hk

end Digits

/-- The decimal representation as a string. -/
def decimalString (z : ℤ) : CString := ⟨decimal z, decimal_ne_zero⟩

/-! ## `atoi` reads what is represented -/

theorem atoiLoop_digits {l : List ℕ} (hl : ∀ k ∈ l, k < 10) (v : ℕ) :
    atoiLoop (l.map digitChar ++ [0]) (Int32.ofNat v) =
      some (Int32.ofNat (l.foldl (fun v k ↦ v * 10 + k) v)) := by
  induction l generalizing v with
  | nil => rfl
  | cons k l ih =>
    rw [List.forall_mem_cons] at hl
    have hdigit : (digitChar k).toUInt32.toInt32 - 48 = Int32.ofNat k := by
      have hword : (digitChar k).toUInt32 = UInt32.ofNat (k + 48) := by
        rw [← UInt32.toNat_inj, UInt8.toNat_toUInt32, toNat_digitChar hl.1, UInt32.toNat_ofNat',
          Nat.mod_eq_of_lt (by omega), Nat.add_comm]
      rw [hword, UInt32.toInt32_ofNat', Int32.ofNat_add]
      exact Int32.add_sub_cancel _ _
    have hstep : Int32.ofNat v * 10 + ((digitChar k).toUInt32.toInt32 - 48) =
        Int32.ofNat (v * 10 + k) := by
      rw [hdigit, Int32.ofNat_add, Int32.ofNat_mul]
      rfl
    rw [List.map_cons, List.cons_append, atoiLoop, if_pos (isDigit_digitChar hl.1), hstep, ih hl.2]
    rfl

theorem atoiLoop_decimalNat (n : ℕ) : atoiLoop (decimalNat n ++ [0]) 0 = some (Int32.ofNat n) := by
  unfold decimalNat
  split_ifs with hn
  · rw [hn]
    exact atoiLoop_digits (l := [0]) (by simp) 0
  · have hdigits : ∀ k ∈ (Nat.digits 10 n).reverse, k < 10 :=
      fun k hk ↦ Nat.digits_lt_base (by decide) (List.mem_reverse.mp hk)
    have hvalue : (Nat.digits 10 n).reverse.foldl (fun v k ↦ v * 10 + k) 0 = n := by
      rw [List.foldl_reverse]
      calc (Nat.digits 10 n).foldr (fun k v ↦ v * 10 + k) 0
          = Nat.ofDigits 10 (Nat.digits 10 n) := by
            rw [Nat.ofDigits_eq_foldr]
            congr 1
            funext k v
            rw [Nat.mul_comm, Nat.add_comm]
            rfl
        _ = n := Nat.ofDigits_digits 10 n
    have hloop := atoiLoop_digits hdigits 0
    rwa [hvalue] at hloop

/-- **Reading a decimal number.** `atoi` of the representation of any integer is that integer,
modulo 2³². -/
theorem atoi_decimalString (z : ℤ) : atoi (decimalString z) = some (Int32.ofInt z) := by
  rcases lt_or_ge z 0 with hz | hz
  · have hbytes : (decimalString z).bytes = minus :: (decimalNat z.natAbs ++ [0]) :=
      congrArg (· ++ [0]) (decimal_of_neg hz)
    have hneg : ~~~(Int32.ofNat z.natAbs) + 1 = Int32.ofInt z := by
      rw [← Int32.neg_eq_not_add, Int32.neg_ofNat]
      congr 1
      omega
    rw [atoi, hbytes]
    simp only [if_true]
    rw [atoiLoop_decimalNat, Option.map_some, hneg]
  · have hbytes : (decimalString z).bytes = decimalNat z.natAbs ++ [0] :=
      congrArg (· ++ [0]) (decimal_of_nonneg hz)
    obtain ⟨c, p, hcons⟩ := List.exists_cons_of_ne_nil (decimalNat_ne_nil z.natAbs)
    have hc : c ≠ minus := by
      obtain ⟨k, hk, rfl⟩ := mem_decimalNat (n := z.natAbs) (hcons ▸ List.mem_cons_self)
      intro h
      have hnat := toNat_digitChar hk
      rw [h] at hnat
      have hminus : 45 = 48 + k := hnat
      omega
    have hpos : Int32.ofNat z.natAbs = Int32.ofInt z := by
      rw [← Int32.ofInt_eq_ofNat]
      congr 1
      omega
    have hloop := atoiLoop_decimalNat z.natAbs
    rw [hcons, List.cons_append] at hloop
    rw [atoi, hbytes, hcons, List.cons_append]
    simp only [if_neg hc]
    rw [hloop, hpos]

/-! ## What `printf_d` prints -/

theorem isNegative_iff (d : Int32) : isNegative d = true ↔ d.toInt < 0 := by
  have hlt : d.toUInt32.toNat < 2 ^ 32 := d.toUInt32.toNat_lt
  have hneg : d.toInt < 0 ↔ 2 ^ 32 ≤ 2 * d.toUInt32.toNat := BitVec.toInt_neg_iff
  have hand : (d.toUInt32 &&& 0x80000000).toNat = (d.toUInt32.toNat.testBit 31).toNat * 2 ^ 31 :=
    (UInt32.toNat_and _ _).trans (Nat.and_two_pow _ 31)
  have hbit : d.toUInt32.toNat.testBit 31 = decide (d.toUInt32.toNat / 2 ^ 31 % 2 = 1) :=
    Nat.testBit_eq_decide_div_mod_eq
  rw [isNegative, decide_eq_true_iff, ne_eq, ← UInt32.toNat_inj, hand, hbit, hneg]
  by_cases hhigh : d.toUInt32.toNat / 2 ^ 31 % 2 = 1
  · simp only [hhigh, decide_true]
    exact iff_of_true (by decide) (by omega)
  · simp only [hhigh, decide_false]
    exact iff_of_false (by decide) (by omega)

theorem toInt_div_ten {d : Int32} {n : ℕ} (hd : d.toInt = n) : (d / 10).toInt = (n / 10 : ℕ) := by
  have hten : (10 : Int32).toInt = 10 := rfl
  rw [Int32.toInt_div_of_ne_right _ _ (by decide), hten, hd]
  rfl

theorem digitOf_eq {d : Int32} {n : ℕ} (hd : d.toInt = n) : digitOf d = digitChar (n % 10) := by
  have hten : (10 : Int32).toInt = 10 := rfl
  have hmod : d % 10 = Int32.ofNat (n % 10) := by
    rw [← Int32.toInt_inj, Int32.toInt_mod, hten, hd, Int32.toInt_ofNat_of_lt (by omega)]
    rfl
  have hsum : d % 10 + 48 = Int32.ofNat (48 + n % 10) := by
    rw [hmod, Nat.add_comm, Int32.ofNat_add]
    rfl
  rw [digitOf, hsum, Int32.toUInt32_ofNat', UInt32.toUInt8_ofNat', digitChar]

theorem digitLoop_eq {d : Int32} {n : ℕ} (hd : d.toInt = n) {buf : List UInt8}
    (hfits : n < 10 ^ (printfDSize - buf.length)) :
    digitLoop d buf = some (buf ++ (Nat.digits 10 n).map digitChar) := by
  induction n using Nat.strong_induction_on generalizing d buf with
  | _ n ih =>
    have hpos : 0 < d ↔ 0 < n := by
      rw [Int32.lt_iff_toInt_lt, hd]
      exact Int.natCast_pos
    rw [digitLoop]
    rcases Nat.eq_zero_or_pos n with rfl | hn
    · rw [if_neg fun h ↦ Nat.lt_irrefl 0 (hpos.mp h), Nat.digits_zero, List.map_nil,
        List.append_nil]
    · have hroom : buf.length < printfDSize := by
        by_contra hfull
        rw [Nat.sub_eq_zero_of_le (Nat.le_of_not_lt hfull), Nat.pow_zero] at hfits
        omega
      have hrest : n / 10 < 10 ^ (printfDSize - (buf ++ [digitOf d]).length) := by
        rw [List.length_append, List.length_singleton, Nat.div_lt_iff_lt_mul (by decide),
          ← Nat.pow_succ]
        rwa [show (printfDSize - (buf.length + 1)).succ = printfDSize - buf.length by omega]
      rw [if_pos (hpos.mpr hn), if_pos hroom,
        ih (n / 10) (Nat.div_lt_self hn (by decide)) (toInt_div_ten hd) hrest, digitOf_eq hd,
        Nat.digits_def' (by decide) hn, List.map_cons, List.append_assoc, List.singleton_append]

/-! ## The theorem -/

theorem digitLoop_reverse {d : Int32} {n : ℕ} (hd : d.toInt = n) (hn : n ≠ 0) :
    ∃ buf, digitLoop d [] = some buf ∧ buf.reverse = decimalNat n := by
  have hlt : n < 10 ^ (printfDSize - ([] : List UInt8).length) := by
    have hbound := d.toInt_lt
    show n < 10 ^ 10
    omega
  refine ⟨_, digitLoop_eq hd hlt, ?_⟩
  rw [List.nil_append, decimalNat, if_neg hn, List.map_reverse]

/-- What `printf_d` prints, except for the least number. -/
theorem printfD_eq {d : Int32} (hd : d ≠ Int32.minValue) :
    ∃ num, printfD d = some (decimal d.toInt, num) := by
  have hmin : d.toInt ≠ -2 ^ 31 := fun h ↦ hd (Int32.toInt_inj.mp h)
  have hge : -2 ^ 31 ≤ d.toInt := d.le_toInt
  have hlt : d.toInt < 2 ^ 31 := d.toInt_lt
  by_cases hzero : d = 0
  · subst hzero
    exact ⟨1, rfl⟩
  have hne : d.toInt.natAbs ≠ 0 := fun h ↦ hzero (Int32.toInt_inj.mp (Int.natAbs_eq_zero.mp h))
  rw [printfD, if_neg hzero]
  by_cases hneg : d.toInt < 0
  · have habs : (~~~(d - 1)).toInt = d.toInt.natAbs := by
      have hsub : ~~~(d - 1) = -d := by
        rw [Int32.not_eq_neg_sub]
        grind
      rw [hsub, Int32.toInt_neg, Int.bmod_eq_of_le (by omega) (by omega)]
      omega
    obtain ⟨buf, hloop, hbuf⟩ := digitLoop_reverse habs hne
    refine ⟨buf.length, ?_⟩
    simp only [(isNegative_iff d).mpr hneg, if_true]
    rw [hloop, Option.map_some, hbuf, decimal_of_neg hneg, List.singleton_append]
  · have habs : d.toInt = d.toInt.natAbs := by omega
    obtain ⟨buf, hloop, hbuf⟩ := digitLoop_reverse habs hne
    have hsign : isNegative d = false := Bool.eq_false_iff.mpr (mt (isNegative_iff d).mp hneg)
    refine ⟨buf.length, ?_⟩
    simp only [hsign, Bool.false_eq_true, if_false]
    rw [hloop, Option.map_some, hbuf, decimal_of_nonneg (not_lt.mp hneg), List.nil_append]

/-- Only the sign of the least number is printed. -/
theorem printfD_minValue : printfD Int32.minValue = some ([minus], 0) := by
  have hsign : isNegative Int32.minValue = true := rfl
  have hnot : ~~~(Int32.minValue - 1) = Int32.minValue := rfl
  have hloop : digitLoop Int32.minValue [] = some [] := by
    rw [digitLoop, if_neg (by decide)]
  rw [printfD, if_neg (by decide)]
  simp only [hsign, hnot, if_true, hloop]
  rfl

theorem printfD_isSome (d : Int32) : (printfD d).isSome := by
  by_cases hd : d = Int32.minValue
  · rw [hd, printfD_minValue]
    rfl
  · obtain ⟨num, hprint⟩ := printfD_eq hd
    rw [hprint]
    rfl

/-- The characters printed are the decimal representation, the buffer for the digits is not
exceeded, and `atoi` reads the number back. -/
def PrintfDLaw (d : Int32) : Prop :=
  ∃ (s : CString) (num : ℕ), printfD d = some (s.chars, num) ∧ s.chars = decimal d.toInt ∧
    atoi s = some d

/-- **Decimal output and input, exactly.** For every `int`, `printf_d` prints its decimal
representation within its buffer and `atoi` reads it back, if and only if it is not the least
number. -/
theorem printfD_law_iff (d : Int32) : PrintfDLaw d ↔ d ≠ Int32.minValue := by
  constructor
  · rintro ⟨s, num, hprint, hs, -⟩ rfl
    rw [printfD_minValue] at hprint
    have hchars : [minus] = s.chars := (Prod.mk.inj (Option.some.inj hprint)).1
    rw [hs, decimal_of_neg (by decide)] at hchars
    exact decimalNat_ne_nil _ (List.cons.inj hchars).2.symm
  · intro hd
    obtain ⟨num, hprint⟩ := printfD_eq hd
    refine ⟨decimalString d.toInt, num, hprint, rfl, ?_⟩
    rw [atoi_decimalString, Int32.ofInt_toInt]

/-- **The least number** is printed as a sign, which `atoi` reads as 0. -/
theorem printfD_prints_sign : printfD (-2147483648) = some ([minus], 0) ∧
    atoi ⟨[minus], ne_zero_of_all rfl⟩ = some 0 ∧ ¬PrintfDLaw (-2147483648) := by
  refine ⟨printfD_minValue, rfl, ?_⟩
  rintro ⟨s, num, hprint, -, hread⟩
  have hprint' := printfD_minValue.symm.trans hprint
  have hchars : s = ⟨[minus], ne_zero_of_all rfl⟩ :=
    CString.ext (Prod.mk.inj (Option.some.inj hprint')).1.symm
  rw [hchars] at hread
  exact absurd hread (by decide)

end Ertos
