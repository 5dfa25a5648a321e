import Mathlib.Data.List.Basic
import Mathlib.Data.Nat.Bitwise
import Mathlib.Data.Nat.Digits.Lemmas

/-!
# Hexadecimal numbers

`puthexchar` and `printf_x` of `lib/stdio.c`. A number is printed by whole bytes, from the first one
that is not zero on, and each byte as two digits; so there may be one leading zero. Zero itself is
printed as one digit.
-/

namespace Ertos

/-- The character for half a byte. -/
def hexDigit (x : UInt8) : UInt8 := if 9 < x then x - 10 + 65 else x + 48

/-- The characters given to `putchar`. -/
def puthexchar (c : UInt8) : List UInt8 := [hexDigit (c >>> 4), hexDigit (c &&& 0xf)]

/-- A byte is printed if it is not zero, or something is printed already. -/
def hexByte (t : List UInt8 × ℕ) (c : UInt8) : List UInt8 × ℕ :=
  if c ≠ 0 ∨ t.2 ≠ 0 then (t.1 ++ puthexchar c, t.2 + 2) else t

/-- The characters given to `putchar`, and their number. -/
def printfX (x : UInt32) : List UInt8 × ℕ :=
  let t := hexByte ([], 0) ((x &&& 0xFF000000) >>> 24).toUInt8
  let t := hexByte t ((x &&& 0x00FF0000) >>> 16).toUInt8
  let t := hexByte t ((x &&& 0x0000FF00) >>> 8).toUInt8
  let t := hexByte t (x &&& 0xFF).toUInt8
  if t.2 = 0 then (t.1 ++ [48], t.2 + 1) else t

/-! ## Hexadecimal representations -/

/-- The character of a hexadecimal digit. -/
def hexChar (k : ℕ) : UInt8 := UInt8.ofNat (if k < 10 then 48 + k else 55 + k)

/-- The two digits of a byte. -/
def hexPair (b : ℕ) : List UInt8 := [hexChar (b / 16), hexChar (b % 16)]

/-- The bytes of a number, the most significant one first. -/
def hexadecimal (n : ℕ) : List UInt8 :=
  if n = 0 then [hexChar 0] else (Nat.digits 256 n).reverse.flatMap hexPair

theorem hexDigit_ofNat : ∀ k < 16, hexDigit (UInt8.ofNat k) = hexChar k := by decide

theorem puthexchar_eq (c : UInt8) : puthexchar c = hexPair c.toNat := by
  have hlt := c.toNat_lt
  have hhigh : c >>> 4 = UInt8.ofNat (c.toNat / 16) := by
    have hshift : (c >>> 4).toNat = c.toNat / 2 ^ 4 :=
      (UInt8.toNat_shiftRight c 4).trans (Nat.shiftRight_eq_div_pow _ _)
    rw [← UInt8.toNat_inj, hshift, UInt8.toNat_ofNat', Nat.mod_eq_of_lt (by omega)]
    rfl
  have hlow : c &&& 0xf = UInt8.ofNat (c.toNat % 16) := by
    have hmask : c.toNat &&& 2 ^ 4 - 1 = c.toNat % 2 ^ 4 := Nat.and_two_pow_sub_one_eq_mod _ _
    rw [← UInt8.toNat_inj, UInt8.toNat_and, UInt8.toNat_ofNat', Nat.mod_eq_of_lt (by omega)]
    exact hmask
  rw [puthexchar, hhigh, hlow, hexDigit_ofNat _ (by omega), hexDigit_ofNat _ (by omega), hexPair]

/-! ## Leading zeros -/

/-- The bytes from the first one on that is not zero. -/
def significant (l : List UInt8) : List UInt8 := l.dropWhile (· = 0)

theorem significant_zero_cons (l : List UInt8) : significant (0 :: l) = significant l := rfl

theorem significant_cons {c : UInt8} (hc : c ≠ 0) (l : List UInt8) :
    significant (c :: l) = c :: l :=
  List.dropWhile_cons_of_neg (by simpa using hc)

theorem head_significant_ne {l : List UInt8} (h : significant l ≠ []) :
    (significant l).head h ≠ 0 :=
  of_decide_eq_false (List.head_dropWhile_not (fun c : UInt8 ↦ decide (c = 0)) h)

theorem foldl_hexByte_of_ne {n : ℕ} (hn : n ≠ 0) (l out : List UInt8) :
    l.foldl hexByte (out, n) = (out ++ l.flatMap puthexchar, n + 2 * l.length) := by
  induction l generalizing out n with
  | nil => simp
  | cons c l ih =>
    have hbyte : hexByte (out, n) c = (out ++ puthexchar c, n + 2) := if_pos (Or.inr hn)
    rw [List.foldl_cons, hbyte, ih (Nat.succ_ne_zero _), List.flatMap_cons, List.append_assoc,
      List.length_cons]
    congr 1
    omega

theorem foldl_hexByte (l : List UInt8) : l.foldl hexByte ([], 0) =
    ((significant l).flatMap puthexchar, 2 * (significant l).length) := by
  induction l with
  | nil => rfl
  | cons c l ih =>
    rw [List.foldl_cons]
    by_cases hc : c = 0
    · have hbyte : hexByte ([], 0) c = ([], 0) := if_neg (by simp [hc])
      rw [hbyte, ih, hc, significant_zero_cons]
    · have hbyte : hexByte ([], 0) c = (puthexchar c, 2) := if_pos (Or.inl hc)
      rw [hbyte, foldl_hexByte_of_ne (by decide), significant_cons hc, List.flatMap_cons,
        List.length_cons]
      congr 1
      omega

theorem ofDigits_significant (l : List UInt8) :
    Nat.ofDigits 256 ((significant l).map UInt8.toNat).reverse =
      Nat.ofDigits 256 (l.map UInt8.toNat).reverse := by
  induction l with
  | nil => rfl
  | cons c l ih =>
    by_cases hc : c = 0
    · rw [hc, significant_zero_cons, ih, List.map_cons, List.reverse_cons, Nat.ofDigits_append]
      simp
    · rw [significant_cons hc]

theorem digits_of_bytes (l : List UInt8) :
    Nat.digits 256 (Nat.ofDigits 256 (l.map UInt8.toNat).reverse) =
      ((significant l).map UInt8.toNat).reverse := by
  rw [← ofDigits_significant]
  refine Nat.digits_ofDigits 256 (by decide) _ ?_ fun hne ↦ ?_
  · intro b hb
    obtain ⟨c, -, rfl⟩ := List.mem_map.mp (List.mem_reverse.mp hb)
    exact c.toNat_lt
  · have hsig : significant l ≠ [] := by simpa using hne
    have hhead := head_significant_ne hsig
    rw [List.getLast_reverse, List.head_map]
    exact fun hzero ↦ hhead (UInt8.toNat_inj.mp hzero)

/-! ## The result -/

/-- The bytes of a word, the most significant one first. -/
def wordBytes (x : UInt32) : List UInt8 :=
  [((x &&& 0xFF000000) >>> 24).toUInt8, ((x &&& 0x00FF0000) >>> 16).toUInt8,
    ((x &&& 0x0000FF00) >>> 8).toUInt8, (x &&& 0xFF).toUInt8]

theorem toNat_selected {x mask k : UInt32} (hk : k.toNat < 32)
    (hmask : mask.toNat >>> k.toNat = 2 ^ 8 - 1) :
    ((x &&& mask) >>> k).toUInt8.toNat = x.toNat / 2 ^ k.toNat % 256 := by
  have hlt : x.toNat / 2 ^ k.toNat % 256 < 2 ^ 8 := Nat.mod_lt _ (by decide)
  rw [UInt32.toNat_toUInt8, UInt32.toNat_shiftRight, UInt32.toNat_and, Nat.mod_eq_of_lt hk,
    Nat.shiftRight_and_distrib, hmask, Nat.and_two_pow_sub_one_eq_mod, Nat.shiftRight_eq_div_pow]
  exact Nat.mod_eq_of_lt hlt

theorem ofDigits_wordBytes (x : UInt32) :
    Nat.ofDigits 256 ((wordBytes x).map UInt8.toNat).reverse = x.toNat := by
  have hlt := x.toNat_lt
  have h₃ : ((x &&& 0xFF000000) >>> 24).toUInt8.toNat = x.toNat / 2 ^ 24 % 256 :=
    toNat_selected (by decide) (by decide)
  have h₂ : ((x &&& 0x00FF0000) >>> 16).toUInt8.toNat = x.toNat / 2 ^ 16 % 256 :=
    toNat_selected (by decide) (by decide)
  have h₁ : ((x &&& 0x0000FF00) >>> 8).toUInt8.toNat = x.toNat / 2 ^ 8 % 256 :=
    toNat_selected (by decide) (by decide)
  have h₀ : (x &&& 0xFF).toUInt8.toNat = x.toNat % 256 := by
    have hselected : ((x &&& 0xFF) >>> 0).toUInt8.toNat = x.toNat / 2 ^ 0 % 256 :=
      toNat_selected (by decide) (by decide)
    rwa [UInt32.shiftRight_zero, Nat.pow_zero, Nat.div_one] at hselected
  simp only [wordBytes, List.map_cons, List.map_nil, List.reverse_cons, List.reverse_nil,
    List.nil_append, List.cons_append, h₀, h₁, h₂, h₃, Nat.ofDigits_cons, Nat.ofDigits_nil]
  omega

/-- **A hexadecimal number** is printed by its bytes, without leading zeros. -/
theorem printfX_eq (x : UInt32) : (printfX x).1 = hexadecimal x.toNat := by
  have hloop : printfX x = (fun t : List UInt8 × ℕ ↦
      if t.2 = 0 then (t.1 ++ [48], t.2 + 1) else t) ((wordBytes x).foldl hexByte ([], 0)) := rfl
  have hdigits :
      Nat.digits 256 x.toNat = ((significant (wordBytes x)).map UInt8.toNat).reverse := by
    rw [← digits_of_bytes, ofDigits_wordBytes]
  have hzero : x.toNat = 0 ↔ significant (wordBytes x) = [] := by
    rw [← Nat.digits_eq_nil_iff_eq_zero (b := 256), hdigits]
    simp
  rw [hloop, foldl_hexByte, hexadecimal]
  by_cases hnil : significant (wordBytes x) = []
  · rw [if_pos (hzero.mpr hnil), hnil]
    rfl
  · have hlen : 2 * (significant (wordBytes x)).length ≠ 0 := by
      have hpos := List.length_pos_of_ne_nil hnil
      omega
    rw [if_neg (mt hzero.mp hnil), hdigits, List.reverse_reverse, List.flatMap_map]
    simp only [if_neg hlen]
    exact List.flatMap_congr fun c _ ↦ puthexchar_eq c

end Ertos
