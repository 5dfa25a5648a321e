import Ertos.Basis.Bits
import Ertos.Basis.LinearCode
import Ertos.Net.Pkt

/-!
# The Hamming code of the flash

`hamming_compute_256` and `hamming_correct_256` of `dev/hamming.c`. The code of a block of 256 bytes
has a parity of the bytes whose number has a bit set and one of the bytes whose number has it clear,
for each of eight bits, and two such parities of the columns for each of three bits of their number.

All three loops that compute the code respect exclusive or, so the flip of a bit adds to the code
that of the bit alone, which is its column.
-/

namespace Ertos

open Bits LinearCode

/-! ## The code -/

/-- The number of bits that are set. -/
def popcount32 (x : UInt32) : UInt32 :=
  let m1 : UInt32 := 0x55555555
  let m2 : UInt32 := 0x33333333
  let m4 : UInt32 := 0x0f0f0f0f
  let x := x - (x >>> 1 &&& m1)
  let x := (x &&& m2) + (x >>> 2 &&& m2)
  let x := (x + x >>> 4) &&& m4
  let x := x + x >>> 8
  (x + x >>> 16) &&& 0x3f

/-- The three bytes of a code. -/
structure Ecc where
  c0 : UInt8
  c1 : UInt8
  c2 : UInt8
  deriving DecidableEq

/-- The column sum and the parities of the lines. -/
structure LineCode where
  columnSum : UInt8
  evenLineCode : UInt8
  oddLineCode : UInt8

def lineStep (data : Bytes) (i : ℕ) (s : LineCode) : LineCode :=
  let s := { s with columnSum := s.columnSum ^^^ data i }
  if popcount32 (data i).toUInt32 &&& 1 = 1 then
    { s with
      evenLineCode := s.evenLineCode ^^^ UInt8.ofNat (255 - i)
      oddLineCode := s.oddLineCode ^^^ UInt8.ofNat i }
  else s

def lineCode (data : Bytes) : LineCode := loop (lineStep data) 256 ⟨0, 0, 0⟩

/-- What is left of the column sum, and the parities of the columns. -/
structure ColumnCode where
  columnSum : UInt8
  evenColumnCode : UInt8
  oddColumnCode : UInt8
  deriving DecidableEq

def columnStep (i : ℕ) (s : ColumnCode) : ColumnCode :=
  let s := if s.columnSum &&& 1 ≠ 0 then
      { s with
        evenColumnCode := s.evenColumnCode ^^^ UInt8.ofNat (7 - i)
        oddColumnCode := s.oddColumnCode ^^^ UInt8.ofNat i }
    else s
  { s with columnSum := s.columnSum >>> 1 }

def columnCode (columnSum : UInt8) : ColumnCode := loop columnStep 8 ⟨columnSum, 0, 0⟩

/-- The code so far, and the parities to be interleaved. -/
structure Interleaving where
  code : Ecc
  oddLineCode : UInt8
  evenLineCode : UInt8
  oddColumnCode : UInt8
  evenColumnCode : UInt8

/-- A byte of the code takes up the bit of the odd parity and that of the even parity. -/
def takeUp (mask code odd even : UInt8) : UInt8 :=
  let code := code <<< 2
  let code := if odd &&& mask ≠ 0 then code ||| 2 else code
  if even &&& mask ≠ 0 then code ||| 1 else code

def interleaveStep (_ : ℕ) (s : Interleaving) : Interleaving where
  code :=
    { c0 := takeUp 0x80 s.code.c0 s.oddLineCode s.evenLineCode
      c1 := takeUp 0x08 s.code.c1 s.oddLineCode s.evenLineCode
      c2 := takeUp 0x04 s.code.c2 s.oddColumnCode s.evenColumnCode }
  oddLineCode := s.oddLineCode <<< 1
  evenLineCode := s.evenLineCode <<< 1
  oddColumnCode := s.oddColumnCode <<< 1
  evenColumnCode := s.evenColumnCode <<< 1

def interleave (oddLine evenLine oddColumn evenColumn : UInt8) : Ecc :=
  (loop interleaveStep 4 ⟨⟨0, 0, 0⟩, oddLine, evenLine, oddColumn, evenColumn⟩).code

namespace Ecc

def bytes (c : Ecc) : List UInt8 := [c.c0, c.c1, c.c2]

/-- The bytes `correction_code` as the number `correction_code32`. -/
def code32 (c : Ecc) : UInt32 := c.c0.toUInt32 ||| c.c1.toUInt32 <<< 8 ||| c.c2.toUInt32 <<< 16

def byte (c : Ecc) : UInt8 :=
  let byte := c.c0 &&& 0x80
  let byte := byte ||| (c.c0 <<< 1 &&& 0x40)
  let byte := byte ||| (c.c0 <<< 2 &&& 0x20)
  let byte := byte ||| (c.c0 <<< 3 &&& 0x10)
  let byte := byte ||| (c.c1 >>> 4 &&& 0x08)
  let byte := byte ||| (c.c1 >>> 3 &&& 0x04)
  let byte := byte ||| (c.c1 >>> 2 &&& 0x02)
  byte ||| (c.c1 >>> 1 &&& 0x01)

def bit (c : Ecc) : UInt8 :=
  let bit := (c.c2 >>> 5 : UInt8) &&& 0x04
  let bit := bit ||| (c.c2 >>> 4 &&& 0x02)
  bit ||| (c.c2 >>> 3 &&& 0x01)

end Ecc

instance : XorOp Ecc := ⟨fun a b ↦ ⟨a.c0 ^^^ b.c0, a.c1 ^^^ b.c1, a.c2 ^^^ b.c2⟩⟩

/-- The code before it is inverted. -/
def hammingParity (data : Bytes) : Ecc :=
  let line := lineCode data
  let column := columnCode line.columnSum
  interleave line.oddLineCode line.evenLineCode column.oddColumnCode column.evenColumnCode

/-- The code of the 256 bytes from `data` on. -/
def hammingCompute256 (buf : Bytes) (data : ℕ) : Ecc :=
  let code := hammingParity fun i ↦ buf (data + i)
  ⟨~~~code.c0, ~~~code.c1, ~~~code.c2⟩

def hammingErrorSinglebit : UInt8 := 1

def hammingErrorEcc : UInt8 := 2

def hammingErrorMultiplebits : UInt8 := 3

/-- The buffer with the 256 bytes from `data` on corrected, and the result. -/
def hammingCorrect256 (buf : Bytes) (data : ℕ) (originalCode computedCode : Ecc) : Bytes × UInt8 :=
  let correctionCode := computedCode ^^^ originalCode
  if correctionCode.code32 = 0 then (buf, 0)
  else if popcount32 correctionCode.code32 = 11 then
    let i := data + correctionCode.byte.toNat
    (Function.update buf i (buf i ^^^ 1 <<< correctionCode.bit), hammingErrorSinglebit)
  else if popcount32 correctionCode.code32 = 1 then (buf, hammingErrorEcc)
  else (buf, hammingErrorMultiplebits)

/-! ## Exclusive or of bytes -/

/-- A number as odd as its number of bits, below `256`. -/
def foldBits (n : ℕ) : ℕ :=
  n ^^^ n >>> 1 ^^^ n >>> 2 ^^^ n >>> 3 ^^^ n >>> 4 ^^^ n >>> 5 ^^^ n >>> 6 ^^^ n >>> 7

/-- Whether the number of bits of a byte is odd. -/
def odd (x : UInt8) : Bool := decide (foldBits x.toNat % 2 = 1)

theorem odd_xor (x y : UInt8) : odd (x ^^^ y) = (odd x ^^ odd y) := by
  have hfold : foldBits (x ^^^ y).toNat = foldBits x.toNat ^^^ foldBits y.toNat := by
    simp only [foldBits, UInt8.toNat_xor, Nat.shiftRight_xor_distrib]
    ac_rfl
  rw [odd, odd, odd, hfold, ← Nat.testBit_zero, ← Nat.testBit_zero, ← Nat.testBit_zero,
    Nat.testBit_xor]

/-- What is added on a condition is added on each of two conditions, and twice is not at all. -/
theorem ite_xor {p q r : Prop} [Decidable p] [Decidable q] [Decidable r]
    (h : decide r = (decide p ^^ decide q)) (x y v : UInt8) :
    (if r then x ^^^ y ^^^ v else x ^^^ y)
      = (if p then x ^^^ v else x) ^^^ if q then y ^^^ v else y := by
  by_cases hp : p <;> by_cases hq : q <;> simp only [hp, hq, decide_true, decide_false] at h
  · rw [if_neg (of_decide_eq_false h), if_pos hp, if_pos hq, UInt8.xor_assoc, UInt8.xor_comm v,
      UInt8.xor_assoc, UInt8.xor_self, UInt8.xor_zero]
  · rw [if_pos (of_decide_eq_true h), if_pos hp, if_neg hq]
    ac_rfl
  · rw [if_pos (of_decide_eq_true h), if_neg hp, if_pos hq, UInt8.xor_assoc]
  · rw [if_neg (of_decide_eq_false h), if_neg hp, if_neg hq]

theorem popcount32_odd (x : UInt8) : decide (popcount32 x.toUInt32 &&& 1 = 1) = odd x := by
  have hall : ∀ n < 256, (popcount32 (UInt32.ofNat n)).toNat % 2 = foldBits n % 2 := by
    decide +kernel
  have hx := hall x.toNat x.toNat_lt
  rw [UInt32.ofNat_uInt8ToNat] at hx
  refine decide_eq_decide.mpr ?_
  rw [← hx, ← Nat.and_one_is_mod]
  exact UInt32.toNat_inj.symm

/-! ## The loops -/

section Loops

variable (data data' : Bytes) (i : ℕ)

instance : XorOp LineCode :=
  ⟨fun s t ↦ ⟨s.columnSum ^^^ t.columnSum, s.evenLineCode ^^^ t.evenLineCode,
    s.oddLineCode ^^^ t.oddLineCode⟩⟩

theorem lineStep_eq (s : LineCode) : lineStep data i s =
    { columnSum := s.columnSum ^^^ data i
      evenLineCode := if popcount32 (data i).toUInt32 &&& 1 = 1 then
        s.evenLineCode ^^^ UInt8.ofNat (255 - i) else s.evenLineCode
      oddLineCode := if popcount32 (data i).toUInt32 &&& 1 = 1 then
        s.oddLineCode ^^^ UInt8.ofNat i else s.oddLineCode } := by
  unfold lineStep
  split_ifs <;> rfl

theorem lineStep_xor (s t : LineCode) :
    lineStep (fun j ↦ data j ^^^ data' j) i (s ^^^ t)
      = lineStep data i s ^^^ lineStep data' i t := by
  have hodd : decide (popcount32 (data i ^^^ data' i).toUInt32 &&& 1 = 1)
      = (decide (popcount32 (data i).toUInt32 &&& 1 = 1)
        ^^ decide (popcount32 (data' i).toUInt32 &&& 1 = 1)) := by
    rw [popcount32_odd, popcount32_odd, popcount32_odd, odd_xor]
  rw [lineStep_eq, lineStep_eq, lineStep_eq]
  refine LineCode.mk.injEq .. ▸ ⟨?_, ?_, ?_⟩
  · show s.columnSum ^^^ t.columnSum ^^^ (data i ^^^ data' i)
      = s.columnSum ^^^ data i ^^^ (t.columnSum ^^^ data' i)
    ac_rfl
  · exact ite_xor hodd _ _ _
  · exact ite_xor hodd _ _ _

theorem lineCode_xor : lineCode (fun j ↦ data j ^^^ data' j) = lineCode data ^^^ lineCode data' :=
  loop_xor (lineStep_xor data data') 256 ⟨0, 0, 0⟩ ⟨0, 0, 0⟩

instance : XorOp ColumnCode :=
  ⟨fun s t ↦ ⟨s.columnSum ^^^ t.columnSum, s.evenColumnCode ^^^ t.evenColumnCode,
    s.oddColumnCode ^^^ t.oddColumnCode⟩⟩

theorem columnStep_eq (s : ColumnCode) : columnStep i s =
    { columnSum := s.columnSum >>> 1
      evenColumnCode := if s.columnSum &&& 1 ≠ 0 then
        s.evenColumnCode ^^^ UInt8.ofNat (7 - i) else s.evenColumnCode
      oddColumnCode := if s.columnSum &&& 1 ≠ 0 then
        s.oddColumnCode ^^^ UInt8.ofNat i else s.oddColumnCode } := by
  unfold columnStep
  split_ifs <;> rfl

theorem columnStep_xor (s t : ColumnCode) :
    columnStep i (s ^^^ t) = columnStep i s ^^^ columnStep i t := by
  have hbit : (1 : UInt8).toNat = 2 ^ 0 := rfl
  rw [columnStep_eq, columnStep_eq, columnStep_eq]
  refine ColumnCode.mk.injEq .. ▸ ⟨?_, ?_, ?_⟩
  · exact UInt8.shiftRight_xor
  · exact ite_xor (decide_and_xor hbit _ _) _ _ _
  · exact ite_xor (decide_and_xor hbit _ _) _ _ _

theorem columnCode_xor (x y : UInt8) : columnCode (x ^^^ y) = columnCode x ^^^ columnCode y := by
  have hstart : (⟨x ^^^ y, 0, 0⟩ : ColumnCode) = ⟨x, 0, 0⟩ ^^^ ⟨y, 0, 0⟩ :=
    congrArg (fun z ↦ ColumnCode.mk (x ^^^ y) z z) UInt8.xor_self.symm
  rw [columnCode, hstart, loop_xor columnStep_xor, columnCode, columnCode]

theorem or_of_gap {x : UInt8} (h0 : bitOf 0 x = false) (h1 : bitOf 1 x = false) :
    x ||| 2 = x ^^^ 2 ∧ x ||| 1 = x ^^^ 1 ∧ x ||| 2 ||| 1 = x ^^^ 2 ^^^ 1 := by
  have hbit : ∀ {mask : UInt8} {k j}, mask.toNat = 2 ^ k → bitOf j mask = true → k = j := by
    intro mask k j hmask hj
    rw [bitOf_mask hmask] at hj
    exact of_decide_eq_true hj
  have hodd : x ||| 2 = x ^^^ 2 := by
    refine or_eq_xor fun k _ hk ↦ ?_
    obtain rfl := hbit (k := 1) rfl hk
    exact h1
  refine ⟨hodd, or_eq_xor fun k _ hk ↦ ?_, hodd ▸ or_eq_xor fun k _ hk ↦ ?_⟩
  · obtain rfl := hbit (k := 0) rfl hk
    exact h0
  · obtain rfl := hbit (k := 0) rfl hk
    rw [bitOf_or, h0]
    rfl

theorem takeUp_eq (mask code odd even : UInt8) : takeUp mask code odd even =
    if even &&& mask ≠ 0 then
      (if odd &&& mask ≠ 0 then code <<< 2 ^^^ 2 else code <<< 2) ^^^ 1
    else if odd &&& mask ≠ 0 then code <<< 2 ^^^ 2 else code <<< 2 := by
  have hgap : ∀ k < 2, bitOf k (code <<< 2) = false := by
    intro k hk
    have hlow : ¬(2 : UInt8).toNat ≤ k := Nat.not_le.mpr hk
    rw [bitOf_shiftLeft (by decide) (by omega), decide_eq_false hlow, Bool.false_and]
  obtain ⟨hodd, heven, hboth⟩ := or_of_gap (hgap 0 (by decide)) (hgap 1 (by decide))
  unfold takeUp
  split_ifs
  · exact hboth
  · exact hodd
  · exact heven
  · rfl

theorem takeUp_xor {mask : UInt8} {k : ℕ} (hmask : mask.toNat = 2 ^ k)
    (code code' odd odd' even even' : UInt8) :
    takeUp mask (code ^^^ code') (odd ^^^ odd') (even ^^^ even')
      = takeUp mask code odd even ^^^ takeUp mask code' odd' even' := by
  rw [takeUp_eq, takeUp_eq, takeUp_eq, UInt8.shiftLeft_xor,
    ite_xor (decide_and_xor hmask odd odd'), ite_xor (decide_and_xor hmask even even')]

instance : XorOp Interleaving :=
  ⟨fun s t ↦ ⟨s.code ^^^ t.code, s.oddLineCode ^^^ t.oddLineCode, s.evenLineCode ^^^ t.evenLineCode,
    s.oddColumnCode ^^^ t.oddColumnCode, s.evenColumnCode ^^^ t.evenColumnCode⟩⟩

theorem interleaveStep_xor (s t : Interleaving) :
    interleaveStep i (s ^^^ t) = interleaveStep i s ^^^ interleaveStep i t := by
  have hc0 : (0x80 : UInt8).toNat = 2 ^ 7 := rfl
  have hc1 : (0x08 : UInt8).toNat = 2 ^ 3 := rfl
  have hc2 : (0x04 : UInt8).toNat = 2 ^ 2 := rfl
  refine Interleaving.mk.injEq .. ▸ ⟨Ecc.mk.injEq .. ▸ ⟨?_, ?_, ?_⟩, ?_, ?_, ?_, ?_⟩
  · exact takeUp_xor hc0 _ _ _ _ _ _
  · exact takeUp_xor hc1 _ _ _ _ _ _
  · exact takeUp_xor hc2 _ _ _ _ _ _
  all_goals exact UInt8.shiftLeft_xor

theorem interleave_xor (ol ol' el el' oc oc' ec ec' : UInt8) :
    interleave (ol ^^^ ol') (el ^^^ el') (oc ^^^ oc') (ec ^^^ ec')
      = interleave ol el oc ec ^^^ interleave ol' el' oc' ec' := by
  have hstart : (⟨⟨0, 0, 0⟩, ol ^^^ ol', el ^^^ el', oc ^^^ oc', ec ^^^ ec'⟩ : Interleaving)
      = ⟨⟨0, 0, 0⟩, ol, el, oc, ec⟩ ^^^ ⟨⟨0, 0, 0⟩, ol', el', oc', ec'⟩ :=
    congrArg (fun z ↦ Interleaving.mk ⟨z, z, z⟩ (ol ^^^ ol') (el ^^^ el') (oc ^^^ oc') (ec ^^^ ec'))
      UInt8.xor_self.symm
  rw [interleave, hstart, loop_xor interleaveStep_xor]
  rfl

/-- **The code respects exclusive or**, before it is inverted. -/
theorem hammingParity_xor : hammingParity (fun j ↦ data j ^^^ data' j)
    = hammingParity data ^^^ hammingParity data' := by
  have hcolumn := columnCode_xor (lineCode data).columnSum (lineCode data').columnSum
  rw [hammingParity, hammingParity, hammingParity, lineCode_xor, ← interleave_xor]
  show interleave _ _ (columnCode (_ ^^^ _)).oddColumnCode (columnCode (_ ^^^ _)).evenColumnCode = _
  rw [hcolumn]
  rfl

end Loops

/-! ## One bit -/

/-- A bit of the buffer is flipped. -/
def flipBit (buf : Bytes) (i : ℕ) (k : Fin 8) : Bytes :=
  Function.update buf i (buf i ^^^ 1 <<< UInt8.ofNat k)

/-- The bit as a buffer of its own. -/
def unitBit (i : ℕ) (k : Fin 8) : Bytes := fun j ↦ if j = i then 1 <<< UInt8.ofNat k else 0

/-- What the flip of a bit does to the code. -/
def column (byte : UInt8) (bit : Fin 8) : Ecc :=
  interleave byte (255 - byte) (UInt8.ofNat bit) (7 - UInt8.ofNat bit)

theorem flipBit_eq_xor (buf : Bytes) (i : ℕ) (k : Fin 8) (j : ℕ) :
    flipBit buf i k j = buf j ^^^ unitBit i k j := by
  unfold flipBit unitBit
  by_cases h : j = i
  · rw [h, Function.update_self, if_pos rfl]
  · rw [Function.update_of_ne h, if_neg h, UInt8.xor_zero]

theorem odd_unit : ∀ k : Fin 8, odd (1 <<< UInt8.ofNat k) = true := by decide +kernel

theorem columnCode_unit : ∀ k : Fin 8,
    columnCode (1 <<< UInt8.ofNat k) = ⟨0, 7 - UInt8.ofNat k, UInt8.ofNat k⟩ := by
  decide +kernel

theorem lineStep_unitBit_of_ne {i j : ℕ} (h : j ≠ i) (k : Fin 8) (s : LineCode) :
    lineStep (unitBit i k) j s = s := by
  have hzero : unitBit i k j = 0 := if_neg h
  have heven : ¬popcount32 (0 : UInt8).toUInt32 &&& 1 = 1 := by decide
  rw [lineStep_eq, hzero, if_neg heven, if_neg heven, UInt8.xor_zero]

theorem lineCode_unitBit (b : UInt8) (k : Fin 8) :
    lineCode (unitBit b.toNat k) = ⟨1 <<< UInt8.ofNat k, 255 - b, b⟩ := by
  have hunit : unitBit b.toNat k b.toNat = 1 <<< UInt8.ofNat k := if_pos rfl
  have hodd : popcount32 (1 <<< UInt8.ofNat k : UInt8).toUInt32 &&& 1 = 1 :=
    of_decide_eq_true ((popcount32_odd _).trans (odd_unit k))
  have heven : UInt8.ofNat (255 - b.toNat) = 255 - b := by
    have hlt := b.toNat_lt
    have hle : b ≤ 255 := UInt8.le_iff_toNat_le.mpr (Nat.le_of_lt_succ hlt)
    apply UInt8.toNat_inj.mp
    rw [UInt8.toNat_sub_of_le _ _ hle, UInt8.toNat_ofNat_of_lt' (show 255 - b.toNat < 256 by omega)]
    rfl
  have hline := loop_eq_of_ne b.toNat_lt (fun j _ hj s ↦ lineStep_unitBit_of_ne hj k s) ⟨0, 0, 0⟩
  rw [lineCode, hline, lineStep_eq, hunit, if_pos hodd, if_pos hodd, UInt8.zero_xor, UInt8.zero_xor,
    UInt8.zero_xor, UInt8.ofNat_toNat, heven]

theorem hammingParity_unitBit (b : UInt8) (k : Fin 8) :
    hammingParity (unitBit b.toNat k) = column b k := by
  rw [hammingParity, lineCode_unitBit, column]
  dsimp only
  rw [columnCode_unit]

theorem hammingParity_blank : hammingParity (fun _ ↦ 0xFF) = ⟨0, 0, 0⟩ := by
  have heven : ¬popcount32 (0xFF : UInt8).toUInt32 &&& 1 = 1 := by decide
  have hstep : ∀ i s,
      lineStep (fun _ ↦ 0xFF) i s = { s with columnSum := s.columnSum ^^^ 0xFF } := by
    intro i s
    rw [lineStep_eq, if_neg heven, if_neg heven]
  rw [hammingParity, lineCode, loop_congr fun i _ s ↦ hstep i s]
  decide +kernel

end Ertos
