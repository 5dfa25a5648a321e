import Ertos.Dev.Hamming

/-!
# Correction by the Hamming code

A flip in a block changes eleven bits of its code, one of each pair of parities, and the odd ones
spell the number of the byte and of the bit. A flip in the code changes one bit. So in a block and
its stored code together `hamming_correct_256` puts any one flip right.
-/

namespace Ertos

open Bits LinearCode

/-! ## Finding the bit -/

/-- The first step of `popcount32`: how many bits are set in each pair of bits. -/
def pairCounts (x : UInt32) : UInt32 :=
  let m1 : UInt32 := 0x55555555
  x - (x >>> 1 &&& m1)

theorem popcount32_congr {x y : UInt32} (h : pairCounts x = pairCounts y) :
    popcount32 x = popcount32 y := by
  unfold pairCounts at h
  unfold popcount32
  dsimp only at h ⊢
  rw [h]

theorem or_eq_add {x y : UInt32} (h : x &&& y = 0) : x ||| y = x + y :=
  UInt32.toBitVec_inj.mp (BitVec.add_eq_or_of_and_eq_zero _ _ (UInt32.toBitVec_inj.mpr h)).symm

theorem and_shiftLeft_eq_zero {x n : UInt32} (hx : x.toNat < 2 ^ n.toNat) (hn : n.toNat < 32)
    (y : UInt32) : x &&& y <<< n = 0 := by
  apply UInt32.toNat_inj.mp
  rw [UInt32.toNat_and, UInt32.toNat_shiftLeft, Nat.mod_eq_of_lt hn, UInt32.toNat_zero]
  refine Nat.eq_of_testBit_eq fun i ↦ ?_
  rw [Nat.testBit_and, Nat.testBit_mod_two_pow, Nat.testBit_shiftLeft, Nat.zero_testBit]
  rcases Nat.lt_or_ge i n.toNat with hlt | hge
  · simp [Nat.not_le.mpr hlt]
  · have hlt : x.toNat < 2 ^ i := Nat.lt_of_lt_of_le hx (Nat.pow_le_pow_right (by decide) hge)
    rw [Nat.testBit_lt_two_pow hlt, Bool.false_and]

theorem pairCounts_or {x y : UInt32} (h : x &&& y = 0) :
    pairCounts (x ||| y) = pairCounts x + pairCounts y := by
  obtain ⟨m, hm⟩ : ∃ m : UInt32, m = 0x55555555 := ⟨_, rfl⟩
  have hdisj : (x >>> 1 &&& m) &&& (y >>> 1 &&& m) = 0 := by
    calc (x >>> 1 &&& m) &&& (y >>> 1 &&& m) = (x >>> 1 &&& y >>> 1) &&& (m &&& m) := by ac_rfl
      _ = 0 := by rw [← UInt32.shiftRight_and, h, UInt32.zero_shiftRight, UInt32.zero_and]
  have hodd : (x ||| y) >>> 1 &&& m = (x >>> 1 &&& m) + (y >>> 1 &&& m) := by
    rw [← or_eq_add hdisj, UInt32.shiftRight_or]
    exact UInt32.toNat_inj.mp (Nat.and_or_distrib_right _ _ _)
  unfold pairCounts
  dsimp only
  rw [← hm, hodd, or_eq_add h]
  grind

theorem pairCounts_code32 (c : Ecc) : pairCounts c.code32 =
    pairCounts c.c0.toUInt32 + pairCounts (c.c1.toUInt32 <<< 8)
      + pairCounts (c.c2.toUInt32 <<< 16) := by
  have h0 : c.c0.toUInt32.toNat < 2 ^ 8 := c.c0.toNat_lt
  have h1 : (c.c1.toUInt32 <<< 8).toNat < 2 ^ 16 := by
    have hc1 := c.c1.toNat_lt
    have hshift : (c.c1.toUInt32 <<< 8).toNat = c.c1.toNat <<< 8 % 2 ^ 32 :=
      UInt32.toNat_shiftLeft _ _
    rw [hshift, Nat.shiftLeft_eq]
    omega
  have h01 : (c.c0.toUInt32 ||| c.c1.toUInt32 <<< 8).toNat < 2 ^ 16 :=
    UInt32.toNat_or _ _ ▸ Nat.or_lt_two_pow (Nat.lt_trans h0 (by decide)) h1
  rw [Ecc.code32, pairCounts_or (and_shiftLeft_eq_zero h01 (by decide) _),
    pairCounts_or (and_shiftLeft_eq_zero h0 (by decide) _)]

/-! ## Pairs of parities -/

/-- What a pair of parities adds to the code when one of the two is odd. -/
def bitPair (p : Bool) : UInt8 := if p then 2 else 1

/-- A byte of the code, of four such pairs. -/
def bitPairs (p₃ p₂ p₁ p₀ : Bool) : UInt8 :=
  ((bitPair p₃ <<< 2 ^^^ bitPair p₂) <<< 2 ^^^ bitPair p₁) <<< 2 ^^^ bitPair p₀

theorem takeUp_compl {mask : UInt8} {k : ℕ} (hmask : mask.toNat = 2 ^ k) {odd even : UInt8}
    (hcompl : bitOf k even = !bitOf k odd) (code : UInt8) :
    takeUp mask code odd even = code <<< 2 ^^^ bitPair (bitOf k odd) := by
  rw [takeUp_eq, bitPair]
  simp only [and_ne_zero_iff hmask, hcompl]
  cases bitOf k odd with
  | false => rfl
  | true => rfl

theorem takeUp_lines {mask : UInt8} {k : ℕ} (hmask : mask.toNat = 2 ^ (k + 3)) (hk : k < 5)
    (b : UInt8) :
    takeUp mask (takeUp mask (takeUp mask (takeUp mask 0 b (255 - b)) (b <<< 1) ((255 - b) <<< 1))
        (b <<< 1 <<< 1) ((255 - b) <<< 1 <<< 1)) (b <<< 1 <<< 1 <<< 1) ((255 - b) <<< 1 <<< 1 <<< 1)
      = bitPairs (bitOf (k + 3) b) (bitOf (k + 2) b) (bitOf (k + 1) b) (bitOf k b) := by
  have h1 : ∀ x : UInt8, bitOf (k + 3) (x <<< 1) = bitOf (k + 2) x :=
    bitOf_shiftLeft_one (by omega)
  have h2 : ∀ x : UInt8, bitOf (k + 2) (x <<< 1) = bitOf (k + 1) x :=
    bitOf_shiftLeft_one (by omega)
  have h3 : ∀ x : UInt8, bitOf (k + 1) (x <<< 1) = bitOf k x := bitOf_shiftLeft_one (by omega)
  have hc0 : bitOf (k + 3) (255 - b) = !bitOf (k + 3) b := bitOf_compl (by omega) b
  have hc1 : bitOf (k + 3) ((255 - b) <<< 1) = !bitOf (k + 3) (b <<< 1) := by
    rw [h1, h1, bitOf_compl (by omega)]
  have hc2 : bitOf (k + 3) ((255 - b) <<< 1 <<< 1) = !bitOf (k + 3) (b <<< 1 <<< 1) := by
    rw [h1, h1, h2, h2, bitOf_compl (by omega)]
  have hc3 :
      bitOf (k + 3) ((255 - b) <<< 1 <<< 1 <<< 1) = !bitOf (k + 3) (b <<< 1 <<< 1 <<< 1) := by
    rw [h1, h1, h2, h2, h3, h3, bitOf_compl (by omega)]
  rw [takeUp_compl hmask hc0, takeUp_compl hmask hc1, takeUp_compl hmask hc2,
    takeUp_compl hmask hc3, h1, h1, h1, h2, h2, h3, UInt8.zero_shiftLeft, UInt8.zero_xor, bitPairs]

theorem interleave_lines (b oc ec : UInt8) : interleave b (255 - b) oc ec =
    ⟨bitPairs (bitOf 7 b) (bitOf 6 b) (bitOf 5 b) (bitOf 4 b),
      bitPairs (bitOf 3 b) (bitOf 2 b) (bitOf 1 b) (bitOf 0 b), (interleave 0 0 oc ec).c2⟩ := by
  have hc0 : (0x80 : UInt8).toNat = 2 ^ (4 + 3) := rfl
  have hc1 : (0x08 : UInt8).toNat = 2 ^ (0 + 3) := rfl
  rw [← takeUp_lines hc0 (by decide), ← takeUp_lines hc1 (by decide)]
  simp only [interleave, loop, interleaveStep]

theorem byte_or (c0 c1 c2 : UInt8) :
    Ecc.byte ⟨c0, c1, c2⟩ = Ecc.byte ⟨c0, 0, 0⟩ ||| Ecc.byte ⟨0, c1, 0⟩ := by
  simp only [Ecc.byte, UInt8.zero_and, UInt8.zero_shiftLeft, UInt8.zero_shiftRight, UInt8.or_zero,
    UInt8.zero_or, UInt8.or_assoc]

theorem byte_bitPairs_high : ∀ p₃ p₂ p₁ p₀, Ecc.byte ⟨bitPairs p₃ p₂ p₁ p₀, 0, 0⟩ =
    (if p₃ then 0x80 else 0) ||| (if p₂ then 0x40 else 0) ||| (if p₁ then 0x20 else 0)
      ||| if p₀ then 0x10 else 0 := by
  decide +kernel

theorem byte_bitPairs_low : ∀ p₃ p₂ p₁ p₀, Ecc.byte ⟨0, bitPairs p₃ p₂ p₁ p₀, 0⟩ =
    (if p₃ then 0x08 else 0) ||| (if p₂ then 0x04 else 0) ||| (if p₁ then 0x02 else 0)
      ||| if p₀ then 0x01 else 0 := by
  decide +kernel

theorem byte_column (b : UInt8) (k : Fin 8) : (column b k).byte = b := by
  have hall : (0x80 ||| 0x40 ||| 0x20 ||| 0x10 ||| (0x08 ||| 0x04 ||| 0x02 ||| 0x01) : UInt8)
      = -1 := rfl
  rw [column, interleave_lines, byte_or, byte_bitPairs_high, byte_bitPairs_low,
    ← and_mask (k := 7) rfl, ← and_mask (k := 6) rfl, ← and_mask (k := 5) rfl,
    ← and_mask (k := 4) rfl, ← and_mask (k := 3) rfl, ← and_mask (k := 2) rfl,
    ← and_mask (k := 1) rfl, ← and_mask (k := 0) rfl]
  simp only [← and_or]
  rw [hall, UInt8.and_neg_one]

theorem bit_column (b : UInt8) (k : Fin 8) : (column b k).bit = UInt8.ofNat k := by
  have hcolumns : ∀ k : Fin 8,
      Ecc.bit ⟨0, 0, (interleave 0 0 (UInt8.ofNat k) (7 - UInt8.ofNat k)).c2⟩ = UInt8.ofNat k := by
    decide +kernel
  have hmk : ∀ c0 c1 c2, Ecc.bit ⟨c0, c1, c2⟩ = Ecc.bit ⟨0, 0, c2⟩ := fun _ _ _ ↦ rfl
  rw [column, interleave_lines, hmk, hcolumns]

theorem pairCounts_lines : ∀ p₃ p₂ p₁ p₀, pairCounts (bitPairs p₃ p₂ p₁ p₀).toUInt32 = 0x55 ∧
    pairCounts ((bitPairs p₃ p₂ p₁ p₀).toUInt32 <<< 8) = 0x5500 := by
  decide +kernel

theorem pairCounts_columns : ∀ k : Fin 8,
    pairCounts ((interleave 0 0 (UInt8.ofNat k) (7 - UInt8.ofNat k)).c2.toUInt32 <<< 16)
      = 0x540000 := by
  decide +kernel

/-- **The flip of a bit changes one bit of each pair of parities.** -/
theorem popcount32_column (b : UInt8) (k : Fin 8) : popcount32 (column b k).code32 = 11 := by
  have hpairs : pairCounts (column b k).code32 = pairCounts 0x545555 := by
    rw [column, interleave_lines, pairCounts_code32, (pairCounts_lines ..).1,
      (pairCounts_lines ..).2, pairCounts_columns]
    decide
  rw [popcount32_congr hpairs]
  decide

/-! ## Correction -/

theorem Ecc.xor_self (c : Ecc) : c ^^^ c = ⟨0, 0, 0⟩ :=
  Ecc.mk.injEq .. ▸ ⟨UInt8.xor_self, UInt8.xor_self, UInt8.xor_self⟩

/-- **The code of the block** of 256 bytes from `data` on. -/
def hammingCode (data : ℕ) : Code Bytes Ecc (UInt8 × Fin 8) where
  check buf := hammingCompute256 buf data
  flip p buf := flipBit buf (data + p.1.toNat) p.2
  column p := column p.1 p.2
  locate c := if popcount32 c.code32 = 11 then some (c.byte, Fin.ofNat 8 c.bit.toNat) else none
  flip_flip p buf := by
    unfold flipBit
    rw [Function.update_idem, Function.update_self, UInt8.xor_assoc, UInt8.xor_self, UInt8.xor_zero,
      Function.update_eq_self]
  check_flip p buf := by
    have hflip : (fun i ↦ flipBit buf (data + p.1.toNat) p.2 (data + i))
        = fun i ↦ buf (data + i) ^^^ unitBit p.1.toNat p.2 i := by
      funext i
      rw [flipBit_eq_xor]
      simp only [unitBit, Nat.add_left_cancel_iff]
    have hnot : ∀ x y : UInt8, ~~~(x ^^^ y) ^^^ ~~~x = y := by
      intro x y
      calc ~~~(x ^^^ y) ^^^ ~~~x = x ^^^ y ^^^ -1 ^^^ (x ^^^ -1) := by
            rw [UInt8.xor_neg_one, UInt8.xor_neg_one]
        _ = x ^^^ x ^^^ (-1 ^^^ -1) ^^^ y := by ac_rfl
        _ = y := by rw [UInt8.xor_self, UInt8.xor_self, UInt8.xor_self, UInt8.zero_xor]
    rw [hammingCompute256, hammingCompute256, hflip, hammingParity_xor, hammingParity_unitBit]
    exact Ecc.mk.injEq .. ▸ ⟨hnot _ _, hnot _ _, hnot _ _⟩
  locate_self c := by
    rw [Ecc.xor_self]
    decide
  locate_column p := by
    have hbit : ∀ k : Fin 8, Fin.ofNat 8 (UInt8.ofNat k).toNat = k := by decide
    rw [if_pos (popcount32_column p.1 p.2), byte_column, bit_column, hbit]

theorem hammingCorrect256_eq_correct (buf : Bytes) (data : ℕ) (c : Ecc) :
    (hammingCorrect256 buf data c (hammingCompute256 buf data)).1
      = (hammingCode data).correct buf c := by
  have hzero : ∀ x, x = 0 → popcount32 x ≠ 11 := by
    rintro x rfl
    decide
  have hbit : ∀ x : UInt8, (1 : UInt8) <<< UInt8.ofNat (Fin.ofNat 8 x.toNat) = 1 <<< x := by
    intro x
    have hmod : (UInt8.ofNat (Fin.ofNat 8 x.toNat)).toNat % 8 = x.toNat % 8 := by
      rw [UInt8.toNat_ofNat', Fin.val_ofNat]
      omega
    apply UInt8.toNat_inj.mp
    rw [UInt8.toNat_shiftLeft, UInt8.toNat_shiftLeft, hmod]
  have hlocate : (hammingCode data).locate (hammingCompute256 buf data ^^^ c)
      = if popcount32 (hammingCompute256 buf data ^^^ c).code32 = 11 then
          some ((hammingCompute256 buf data ^^^ c).byte,
            Fin.ofNat 8 (hammingCompute256 buf data ^^^ c).bit.toNat) else none := rfl
  unfold hammingCorrect256
  dsimp only
  split_ifs with h0 h11 h1
  · exact (Code.correct_of_none (hlocate.trans (if_neg (hzero _ h0)))).symm
  · rw [Code.correct_of_some (hlocate.trans (if_pos h11))]
    show _ = flipBit buf _ _
    rw [flipBit, hbit]
  · exact (Code.correct_of_none (hlocate.trans (if_neg h11))).symm
  · exact (Code.correct_of_none (hlocate.trans (if_neg h11))).symm

theorem hammingParity_congr {d d' : Bytes} (h : ∀ i < 256, d i = d' i) :
    hammingParity d = hammingParity d' := by
  have hline : lineCode d = lineCode d' := by
    refine loop_congr (fun i hi s ↦ ?_) _
    rw [lineStep_eq, lineStep_eq, h i hi]
  rw [hammingParity, hammingParity, hline]

theorem hammingCompute256_congr {buf buf' : Bytes} {data data' : ℕ}
    (h : ∀ i < 256, buf (data + i) = buf' (data' + i)) :
    hammingCompute256 buf data = hammingCompute256 buf' data' := by
  rw [hammingCompute256, hammingCompute256, hammingParity_congr h]

theorem hammingCompute256_blank (data : ℕ) :
    hammingCompute256 (fun _ ↦ 0xFF) data = ⟨0xFF, 0xFF, 0xFF⟩ := by
  rw [hammingCompute256, hammingParity_blank]
  decide

/-- The code that is stored at `ecc`. -/
def eccAt (buf : Bytes) (ecc : ℕ) : Ecc := ⟨buf ecc, buf (ecc + 1), buf (ecc + 2)⟩

/-- The block from `data` on. -/
def InBlock (data i : ℕ) : Prop := data ≤ i ∧ i < data + 256

instance (data i : ℕ) : Decidable (InBlock data i) := inferInstanceAs (Decidable (_ ∧ _))

/-- A block and its stored code. -/
def InGroup (data ecc i : ℕ) : Prop := InBlock data i ∨ ecc ≤ i ∧ i < ecc + 3

/-- Of the bytes in `s`, at most one bit is flipped. -/
def AtMostOneFlip (s : ℕ → Prop) (old new : Bytes) : Prop :=
  (∀ i, s i → new i = old i) ∨ ∃ i k, s i ∧ ∀ j, s j → new j = flipBit old i k j

theorem eccAt_congr {buf buf' : Bytes} {ecc : ℕ} (h : ∀ i, ecc ≤ i ∧ i < ecc + 3 → buf i = buf' i) :
    eccAt buf ecc = eccAt buf' ecc :=
  Ecc.mk.injEq .. ▸ ⟨h _ (by omega), h _ (by omega), h _ (by omega)⟩

/-- A flip in a code points nowhere. -/
theorem locate_flipBit (old : Bytes) (data : ℕ) {ecc i : ℕ} (hi : ecc ≤ i ∧ i < ecc + 3)
    (k : Fin 8) :
    (hammingCode data).locate (eccAt old ecc ^^^ eccAt (flipBit old i k) ecc) = none := by
  have hone : ∀ d : Fin 3, ∀ k : Fin 8, popcount32 (eccAt (unitBit d k) 0).code32 ≠ 11 := by
    decide +kernel
  have hxor : ∀ j, old j ^^^ flipBit old i k j = unitBit i k j := by
    intro j
    rw [flipBit_eq_xor, ← UInt8.xor_assoc, UInt8.xor_self, UInt8.zero_xor]
  have hunit : ∀ j, unitBit i k (ecc + j) = unitBit (i - ecc) k (0 + j) := by
    intro j
    unfold unitBit
    congr 1
    rw [eq_iff_iff]
    omega
  have hcode : eccAt old ecc ^^^ eccAt (flipBit old i k) ecc = eccAt (unitBit (i - ecc) k) 0 :=
    Ecc.mk.injEq .. ▸ ⟨(hxor _).trans (hunit 0), (hxor _).trans (hunit 1), (hxor _).trans (hunit 2)⟩
  rw [hcode]
  exact if_neg (hone ⟨i - ecc, by omega⟩ k)

/-- The block of one buffer in another. -/
def withBlock (data : ℕ) (old new : Bytes) : Bytes :=
  fun i ↦ if InBlock data i then old i else new i

section Damaged

variable {old new : Bytes} {data ecc i : ℕ}

theorem withBlock_of_inBlock (h : InBlock data i) : withBlock data old new i = old i := if_pos h

theorem withBlock_of_not (h : ¬InBlock data i) : withBlock data old new i = new i := if_neg h

theorem eq_withBlock (h : ∀ i, InBlock data i → new i = old i) : new = withBlock data old new := by
  funext i
  by_cases hi : InBlock data i
  · rw [withBlock_of_inBlock hi, h i hi]
  · rw [withBlock_of_not hi]

theorem flipBit_of_ne {j : ℕ} (h : j ≠ i) (k : Fin 8) : flipBit old i k j = old j :=
  Function.update_of_ne h _ _

theorem hammingCompute256_withBlock :
    hammingCompute256 (withBlock data old new) data = hammingCompute256 old data :=
  hammingCompute256_congr fun _ hi ↦
    withBlock_of_inBlock ⟨Nat.le_add_right _ _, Nat.add_lt_add_left hi _⟩

theorem InBlock.not_code (hdisj : data + 256 ≤ ecc) (h : InBlock data i) :
    ¬(ecc ≤ i ∧ i < ecc + 3) := by
  rintro ⟨hle, _⟩
  obtain ⟨_, hlt⟩ := h
  omega

theorem damaged_block (hdisj : data + 256 ≤ ecc)
    (hcode : eccAt old ecc = hammingCompute256 old data) (hi : InBlock data i) {k : Fin 8}
    (hflip : ∀ j, InGroup data ecc j → new j = flipBit old i k j) :
    (hammingCode data).Damaged (withBlock data old new) new (eccAt new ecc) := by
  have hnew : new = flipBit (withBlock data old new) i k := by
    funext j
    rw [flipBit_eq_xor]
    by_cases hj : InBlock data j
    · rw [withBlock_of_inBlock hj, hflip j (Or.inl hj), flipBit_eq_xor]
    · have hne : j ≠ i := fun h ↦ hj (h ▸ hi)
      rw [withBlock_of_not hj, unitBit, if_neg hne, UInt8.xor_zero]
  have hecc : eccAt new ecc = hammingCompute256 (withBlock data old new) data := by
    rw [hammingCompute256_withBlock, ← hcode]
    refine eccAt_congr fun j hj ↦ ?_
    have hne : j ≠ i := fun h ↦ hi.not_code hdisj (h ▸ hj)
    rw [hflip j (Or.inr hj), flipBit_of_ne hne]
  have hbyte : data + (UInt8.ofNat (i - data)).toNat = i := by
    obtain ⟨hle, hlt⟩ := hi
    rw [UInt8.toNat_ofNat_of_lt' (show i - data < 256 by omega)]
    omega
  have hword := Code.Damaged.word (K := hammingCode data) (w := withBlock data old new)
    (UInt8.ofNat (i - data), k)
  have hflipped :
      (hammingCode data).flip (UInt8.ofNat (i - data), k) (withBlock data old new) = new := by
    show flipBit _ _ _ = new
    rw [hbyte, ← hnew]
  rw [hecc]
  rwa [hflipped] at hword

theorem damaged_code (hdisj : data + 256 ≤ ecc) (hcode : eccAt old ecc = hammingCompute256 old data)
    (hi : ecc ≤ i ∧ i < ecc + 3) {k : Fin 8}
    (hflip : ∀ j, InGroup data ecc j → new j = flipBit old i k j) :
    (hammingCode data).Damaged (withBlock data old new) new (eccAt new ecc) := by
  have hnew : new = withBlock data old new := by
    refine eq_withBlock fun j hj ↦ ?_
    have hne : j ≠ i := fun h ↦ hj.not_code hdisj (h ▸ hi)
    rw [hflip j (Or.inl hj), flipBit_of_ne hne]
  have hecc : eccAt new ecc = eccAt (flipBit old i k) ecc :=
    eccAt_congr fun j hj ↦ hflip j (Or.inr hj)
  have hnone : (hammingCode data).locate
      (hammingCompute256 (withBlock data old new) data ^^^ eccAt new ecc) = none := by
    rw [hammingCompute256_withBlock, ← hcode, hecc]
    exact locate_flipBit old data hi k
  have hcheck := Code.Damaged.check (K := hammingCode data) _ hnone
  rwa [← hnew] at hcheck ⊢

/-- **A block is corrected**, whatever bit of it or of its code is flipped, and other bytes are left
alone. -/
theorem hammingCorrect256_spec (hdisj : data + 256 ≤ ecc)
    (hcode : eccAt old ecc = hammingCompute256 old data)
    (hflip : AtMostOneFlip (InGroup data ecc) old new) :
    (hammingCorrect256 new data (eccAt new ecc) (hammingCompute256 new data)).1
      = withBlock data old new := by
  rw [hammingCorrect256_eq_correct]
  apply Code.correct_of_damaged
  rcases hflip with hnone | ⟨i, k, hi, hflip⟩
  · have hnew : new = withBlock data old new := eq_withBlock fun i hi ↦ hnone i (Or.inl hi)
    have hecc : eccAt new ecc = hammingCompute256 (withBlock data old new) data := by
      rw [hammingCompute256_withBlock, ← hcode]
      exact eccAt_congr fun i hi ↦ hnone i (Or.inr hi)
    rw [hecc, ← hnew]
    exact Code.Damaged.refl new
  · rcases hi with hblock | hecc
    · exact damaged_block hdisj hcode hblock hflip
    · exact damaged_code hdisj hcode hecc hflip

end Damaged

end Ertos
