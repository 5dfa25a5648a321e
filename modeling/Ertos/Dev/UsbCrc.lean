import Ertos.Basis.Crc
import Mathlib.Data.Int.Notation
import Mathlib.Data.List.OfFn
import Mathlib.Tactic.IntervalCases

/-!
# The checks of USB packets

`usb_crc5`, `usb_crc16` and the token of `usb_token`, of `dev/usb.c`, with `usb_fill_token_pkt` and
`usb_parse_token_pkt` of `include/usb.h`.

Both functions are the same register with another generator: `usb_crc5` keeps it in the five highest
bits of a word and takes in the highest bits of its input first, `usb_crc16` keeps it in the lowest
bits and takes in the lowest bit of a byte first. The 16 bits behind the packet identifier of a
token are the 11 bits `usb_crc5` takes in and the check field behind them, so a token in which a
burst of up to five bits was damaged cannot pass for another one.
-/

namespace Ertos

open Crc

/-! ## The functions -/

def poly5 : UInt32 := (0x05 : UInt32) <<< 27

/-- An iteration of the loop of `usb_crc5`. -/
def crc5Bit (crc5 udata : UInt32) : UInt32 :=
  if (udata ^^^ crc5) &&& 0x80000000 ≠ 0 then crc5 <<< 1 ^^^ poly5 else crc5 <<< 1

def crc5Loop : ℕ → UInt32 → UInt32 → UInt32
  | 0, crc5, _ => crc5
  | n + 1, crc5, udata => crc5Loop n (crc5Bit crc5 udata) (udata <<< 1)

def usbCrc5 (dwInput : UInt32) (iBitcnt : ℤ) : UInt32 :=
  if iBitcnt < 1 ∨ iBitcnt > 32 then 0xffffffff
  else
    let udata := dwInput <<< UInt32.ofNat (32 - iBitcnt.toNat)
    crc5Loop iBitcnt.toNat ((0x1f : UInt32) <<< 27) udata >>> 27 ^^^ 0x1f

/-- An iteration of the inner loop of `usb_crc16`. -/
def crc16Bit (a b : UInt32) : UInt32 :=
  let a := a <<< 1
  let newBit := b &&& 1
  let lostBit := a >>> 16
  (if newBit ≠ lostBit then a ^^^ 0x8005 else a) &&& 0xffff

def crc16Loop : ℕ → UInt32 → UInt32 → UInt32
  | 0, a, _ => a
  | n + 1, a, b => crc16Loop n (crc16Bit a b) (b >>> 1)

def usbCrc16 (buffer : List UInt8) : UInt16 :=
  (buffer.foldl (fun a b ↦ crc16Loop 8 a b.toUInt32) 0xffff ^^^ 0xffff).toUInt16

/-- `struct usb_token_pkt`. -/
structure UsbTokenPkt where
  pid : UInt8
  data : UInt16
  deriving DecidableEq

def pidPack (x : UInt32) : UInt8 := (x ||| (~~~x) <<< 4).toUInt8

def usbFillTokenPkt (pid addr endp crc5 : UInt32) : UsbTokenPkt where
  pid := pidPack pid
  data := (addr <<< 9).toUInt16 ||| (endp <<< 5).toUInt16 ||| crc5.toUInt16

/-- What `usb_parse_token_pkt` stores. -/
structure TokenFields where
  pid : UInt32
  addr : UInt32
  endp : UInt32
  crc5 : UInt32
  deriving DecidableEq

def usbParseTokenPkt (pkt : UsbTokenPkt) : TokenFields where
  pid := pkt.pid.toUInt32 &&& 0x0F
  addr := (pkt.data.toUInt32 >>> 9) &&& 0x7F
  endp := (pkt.data.toUInt32 >>> 5) &&& 0x0F
  crc5 := pkt.data.toUInt32 &&& 0x1F

/-- The packet `usb_token` queues. -/
def usbTokenPkt (address pid ep : UInt32) : UsbTokenPkt :=
  usbFillTokenPkt pid address ep (usbCrc5 (address <<< 4 ||| ep) 11)

/-- The check field is the one of the other fields. -/
def TokenFields.Checked (f : TokenFields) : Prop := f.crc5 = usbCrc5 (f.addr <<< 4 ||| f.endp) 11

instance (f : TokenFields) : Decidable f.Checked := inferInstanceAs (Decidable (_ = _))

/-! ## The registers -/

/-- The register of `usb_crc5`. -/
def reg5 (r : BitVec 5) : UInt32 := ⟨r ++ 0#27⟩

theorem reg5_shiftLeft (r : BitVec 5) : reg5 r <<< 1 = reg5 (r <<< 1) := by
  revert r
  decide

theorem reg5_xor_poly5 (r : BitVec 5) : reg5 r ^^^ poly5 = reg5 (r ^^^ 5#5) := by
  revert r
  decide

theorem reg5_shiftRight_xor (r : BitVec 5) : (reg5 r >>> 27 ^^^ 0x1f).toBitVec = 0#27 ++ ~~~r := by
  revert r
  decide

theorem msb_reg5 (r : BitVec 5) : (reg5 r).toBitVec.msb = r.msb := by
  revert r
  decide

theorem and_msb_ne_zero_iff (x : UInt32) : x &&& 0x80000000 ≠ 0 ↔ x.toBitVec.msb = true := by
  have hmask : (0x80000000 : UInt32).toBitVec = BitVec.twoPow 32 31 := rfl
  rw [ne_eq, ← UInt32.toBitVec_inj, UInt32.toBitVec_and, hmask, BitVec.and_twoPow]
  have hbit : x.toBitVec.getLsbD 31 = x.toBitVec.msb := rfl
  rw [hbit]
  cases x.toBitVec.msb <;> simp [BitVec.twoPow]

theorem crc5Bit_reg5 (r : BitVec 5) (udata : UInt32) :
    crc5Bit (reg5 r) udata = reg5 (shift 5#5 r udata.toBitVec.msb) := by
  have hmsb : (udata ^^^ reg5 r).toBitVec.msb = (r.msb ^^ udata.toBitVec.msb) := by
    rw [UInt32.toBitVec_xor, BitVec.msb_xor, msb_reg5, Bool.xor_comm]
  unfold crc5Bit shift
  rw [if_congr (and_msb_ne_zero_iff _) rfl rfl, hmsb, reg5_shiftLeft, reg5_xor_poly5]
  split <;> rfl

theorem crc5Loop_reg5 (n : ℕ) (r : BitVec 5) (udata : UInt32) :
    crc5Loop n (reg5 r) udata =
      reg5 (run 5#5 r (List.ofFn fun i : Fin n ↦ udata.toBitVec.getMsbD i)) := by
  induction n generalizing r udata with
  | zero => rfl
  | succ n ih =>
    rw [crc5Loop, crc5Bit_reg5, ih, List.ofFn_succ, run_cons]
    have hshift : (udata <<< 1).toBitVec = udata.toBitVec <<< 1 := rfl
    simp [hshift, BitVec.msb_eq_getMsbD_zero]

theorem getMsbD_shiftLeft_sub (d : UInt32) {n : ℕ} (hpos : 0 < n) (hn : n ≤ 32) {i : ℕ}
    (hi : i < n) :
    (d <<< UInt32.ofNat (32 - n)).toBitVec.getMsbD i = (d.toBitVec.setWidth n).getMsbD i := by
  have hshift : (d <<< UInt32.ofNat (32 - n)).toBitVec = d.toBitVec <<< (32 - n) := by
    rw [UInt32.toBitVec_shiftLeft]
    have hmod : ((UInt32.ofNat (32 - n)).toBitVec % 32).toNat = 32 - n := by
      simp
      omega
    rw [BitVec.shiftLeft_eq', hmod]
  rw [hshift, BitVec.getMsbD_shiftLeft, BitVec.getMsbD_eq_getLsbD, BitVec.getMsbD_eq_getLsbD,
    BitVec.getLsbD_setWidth, decide_eq_true hi, decide_eq_true (by omega),
    decide_eq_true (by omega)]
  have hidx : 32 - 1 - (i + (32 - n)) = n - 1 - i := by omega
  rw [hidx, Bool.true_and, Bool.true_and]

theorem usbCrc5_eq (d : UInt32) {n : ℕ} (hpos : 0 < n) (hn : n ≤ 32) :
    (usbCrc5 d n).toBitVec =
      0#27 ++ ~~~run 5#5 (BitVec.allOnes 5) (bits (d.toBitVec.setWidth n)) := by
  have hrange : ¬((n : ℤ) < 1 ∨ (n : ℤ) > 32) := by omega
  have hones : (0x1f : UInt32) <<< 27 = reg5 (BitVec.allOnes 5) := by decide
  have hbits : (List.ofFn fun i : Fin n ↦ (d <<< UInt32.ofNat (32 - n)).toBitVec.getMsbD i) =
      bits (d.toBitVec.setWidth n) :=
    congrArg List.ofFn (funext fun i ↦ getMsbD_shiftLeft_sub d hpos hn i.isLt)
  unfold usbCrc5
  rw [if_neg hrange, hones, Int.toNat_natCast]
  simp only [crc5Loop_reg5, reg5_shiftRight_xor, hbits]

/-- The register of `usb_crc16`. -/
def reg16 (r : BitVec 16) : UInt32 := ⟨0#16 ++ r⟩

theorem and_eq_reg16 (x : UInt32) : x &&& 0xffff = reg16 (x.toBitVec.setWidth 16) := by
  refine UInt32.toBitVec_inj.mp ?_
  have hmask : (0xffff : UInt32).toBitVec = (BitVec.allOnes 16).setWidth (16 + 16) := by decide
  rw [UInt32.toBitVec_and, hmask]
  exact BitVec.and_setWidth_allOnes 16 16 x.toBitVec

theorem setWidth_reg16_shiftLeft (r : BitVec 16) :
    (reg16 r <<< 1).toBitVec.setWidth 16 = r <<< 1 := by
  have hshift : (reg16 r <<< 1).toBitVec = (0#16 ++ r) <<< 1 := rfl
  rw [hshift]
  refine BitVec.eq_of_getLsbD_eq fun i hi ↦ ?_
  have hi' : i < 32 := Nat.lt_trans hi (by decide)
  have hlow : i - 1 < 16 := by omega
  rw [BitVec.getLsbD_setWidth, BitVec.getLsbD_shiftLeft, BitVec.getLsbD_append, if_pos hlow,
    BitVec.getLsbD_shiftLeft, decide_eq_true hi, decide_eq_true hi', Bool.true_and]

theorem reg16_shiftLeft_shiftRight (r : BitVec 16) :
    reg16 r <<< 1 >>> 16 = ⟨(BitVec.ofBool r.msb).setWidth 32⟩ := by
  refine UInt32.toBitVec_inj.mp ?_
  have hshift : (reg16 r <<< 1 >>> 16).toBitVec = (0#16 ++ r) <<< 1 >>> 16 := rfl
  rw [hshift]
  refine BitVec.eq_of_getLsbD_eq fun i hi ↦ ?_
  rw [BitVec.getLsbD_setWidth, BitVec.getLsbD_ushiftRight, BitVec.getLsbD_shiftLeft,
    BitVec.getLsbD_append]
  cases i with
  | zero => simp [BitVec.msb_eq_getLsbD_last]
  | succ i => simp

theorem and_one_eq (b : UInt32) :
    b &&& 1 = ⟨(BitVec.ofBool (b.toBitVec.getLsbD 0)).setWidth 32⟩ :=
  UInt32.toBitVec_inj.mp BitVec.and_one_eq_setWidth_ofBool_getLsbD

theorem crc16Bit_reg16 (r : BitVec 16) (b : UInt32) :
    crc16Bit (reg16 r) b = reg16 (shift 0x8005#16 r (b.toBitVec.getLsbD 0)) := by
  have hpoly : (0x8005 : UInt32).toBitVec.setWidth 16 = 0x8005#16 := rfl
  have hne : ∀ x y : Bool, (⟨(BitVec.ofBool x).setWidth 32⟩ : UInt32) ≠
      ⟨(BitVec.ofBool y).setWidth 32⟩ ↔ (y ^^ x) = true := by decide
  unfold crc16Bit shift
  simp only [and_one_eq, reg16_shiftLeft_shiftRight, hne, and_eq_reg16]
  split
  · rw [UInt32.toBitVec_xor, BitVec.setWidth_xor, setWidth_reg16_shiftLeft, hpoly]
  · rw [setWidth_reg16_shiftLeft]

/-- The bits of a byte in the order of `usb_crc16`. -/
def wireBits (x : UInt8) : List Bool := List.ofFn fun i : Fin 8 ↦ x.toBitVec.getLsbD i

theorem crc16Loop_reg16 (n : ℕ) (r : BitVec 16) (b : UInt32) :
    crc16Loop n (reg16 r) b =
      reg16 (run 0x8005#16 r (List.ofFn fun i : Fin n ↦ b.toBitVec.getLsbD i)) := by
  induction n generalizing r b with
  | zero => rfl
  | succ n ih =>
    rw [crc16Loop, crc16Bit_reg16, ih, List.ofFn_succ, run_cons]
    have hshift : (b >>> 1).toBitVec = b.toBitVec >>> 1 := rfl
    simp [hshift, Nat.add_comm]

theorem foldl_crc16Loop (buffer : List UInt8) (r : BitVec 16) :
    buffer.foldl (fun a b ↦ crc16Loop 8 a b.toUInt32) (reg16 r) =
      reg16 (run 0x8005#16 r (buffer.flatMap wireBits)) := by
  induction buffer generalizing r with
  | nil => rfl
  | cons b buffer ih =>
    have hwire : (List.ofFn fun i : Fin 8 ↦ b.toUInt32.toBitVec.getLsbD i) = wireBits b := by
      refine congrArg List.ofFn (funext fun i ↦ ?_)
      have hi : (i : ℕ) < 32 := Nat.lt_trans i.isLt (by decide)
      simp [hi]
    rw [List.foldl_cons, crc16Loop_reg16, hwire, ih, List.flatMap_cons, run_append]

theorem usbCrc16_eq (buffer : List UInt8) :
    (usbCrc16 buffer).toBitVec =
      ~~~run 0x8005#16 (BitVec.allOnes 16) (buffer.flatMap wireBits) := by
  have hones : (0xffff : UInt32) = reg16 (BitVec.allOnes 16) := by decide
  have hxor : ∀ r : BitVec 16,
      (reg16 r ^^^ reg16 (BitVec.allOnes 16)).toUInt16.toBitVec = ~~~r := by
    intro r
    have happ : (reg16 r ^^^ reg16 (BitVec.allOnes 16)).toUInt16.toBitVec =
        ((0#16 ++ r) ^^^ (0#16 ++ BitVec.allOnes 16)).setWidth 16 := rfl
    rw [happ, BitVec.xor_append, BitVec.setWidth_append, dif_pos (Nat.le_refl 16),
      BitVec.setWidth_eq, BitVec.xor_allOnes]
  unfold usbCrc16
  rw [hones, foldl_crc16Loop, hxor]

/-! ## Tokens -/

/-- The register after the bits of a token. -/
def tokenRun (data : UInt16) : BitVec 5 := run 5#5 (BitVec.allOnes 5) (bits data.toBitVec)

theorem tokenRun_append {data : UInt16} {x : BitVec 11} {c : BitVec 5}
    (h : data.toBitVec = x ++ c) :
    tokenRun data = run 5#5 (run 5#5 (BitVec.allOnes 5) (bits x)) (bits c) := by
  rw [tokenRun, h, bits_append, run_append]

/-- The check field behind the 11 bits `usb_crc5` takes in. -/
theorem data_usbTokenPkt (address pid ep : UInt32) :
    (usbTokenPkt address pid ep).data.toBitVec =
      (address <<< 4 ||| ep).toBitVec.setWidth 11 ++
        ~~~run 5#5 (BitVec.allOnes 5) (bits ((address <<< 4 ||| ep).toBitVec.setWidth 11)) := by
  have hcrc := usbCrc5_eq (address <<< 4 ||| ep) (by decide : 0 < 11) (by decide)
  generalize hc : ~~~run 5#5 (BitVec.allOnes 5)
    (bits ((address <<< 4 ||| ep).toBitVec.setWidth 11)) = c at *
  have hdata : (usbTokenPkt address pid ep).data.toBitVec =
      (address.toBitVec <<< 9).setWidth 16 ||| (ep.toBitVec <<< 5).setWidth 16 |||
        (0#27 ++ c).setWidth 16 := by
    rw [← hcrc]
    rfl
  rw [hdata]
  refine BitVec.eq_of_getLsbD_eq fun i hi ↦ ?_
  have hor : (address <<< 4 ||| ep).toBitVec = address.toBitVec <<< 4 ||| ep.toBitVec := rfl
  have h32 : i < 32 := Nat.lt_trans hi (by decide)
  simp only [hor, BitVec.getLsbD_append, BitVec.getLsbD_or, BitVec.getLsbD_setWidth,
    BitVec.getLsbD_shiftLeft, hi, h32, decide_true, Bool.true_and]
  by_cases h5 : i < 5
  · have h9 : i < 9 := Nat.lt_trans h5 (by decide)
    simp [h5, h9]
  · have h11 : i - 5 < 11 := by omega
    have h32' : i - 5 < 32 := by omega
    have h9 : decide (i - 5 < 4) = decide (i < 9) := decide_eq_decide.mpr (by omega)
    have hsub : i - 5 - 4 = i - 9 := by omega
    rw [if_neg h5, BitVec.getLsbD_of_ge c i (Nat.le_of_not_lt h5), h9, hsub]
    simp [h5, h11, h32']

theorem eq_extractLsb_append (x : BitVec 16) : x = x.extractLsb' 5 11 ++ x.extractLsb' 0 5 := by
  refine BitVec.eq_of_getLsbD_eq fun i hi ↦ ?_
  rw [BitVec.getLsbD_append]
  by_cases h5 : i < 5
  · simp [h5]
  · have h11 : i - 5 < 11 := by omega
    have hadd : 5 + (i - 5) = i := by omega
    simp [h5, h11, hadd]

theorem shiftRight_and_ones (x : BitVec 16) (s n k : ℕ) (hk : 16 ≤ k + n) :
    x.setWidth (k + n) >>> s &&& (BitVec.allOnes n).setWidth (k + n) =
      0#k ++ x.extractLsb' s n := by
  rw [BitVec.and_setWidth_allOnes]
  congr 1
  refine BitVec.eq_of_getLsbD_eq fun i hi ↦ ?_
  rw [BitVec.getLsbD_setWidth, BitVec.getLsbD_ushiftRight, BitVec.getLsbD_setWidth,
    BitVec.getLsbD_extractLsb', decide_eq_true hi, Bool.true_and, Bool.true_and]
  by_cases hlt : s + i < k + n
  · rw [decide_eq_true hlt, Bool.true_and]
  · rw [decide_eq_false hlt, Bool.false_and, BitVec.getLsbD_of_ge x _ (by omega)]

section Parse

variable (pkt : UsbTokenPkt)

theorem addr_usbParseTokenPkt :
    (usbParseTokenPkt pkt).addr.toBitVec = 0#25 ++ pkt.data.toBitVec.extractLsb' 9 7 :=
  shiftRight_and_ones pkt.data.toBitVec 9 7 25 (by decide)

theorem endp_usbParseTokenPkt :
    (usbParseTokenPkt pkt).endp.toBitVec = 0#28 ++ pkt.data.toBitVec.extractLsb' 5 4 :=
  shiftRight_and_ones pkt.data.toBitVec 5 4 28 (by decide)

theorem crc5_usbParseTokenPkt :
    (usbParseTokenPkt pkt).crc5.toBitVec = 0#27 ++ pkt.data.toBitVec.extractLsb' 0 5 := by
  have h := shiftRight_and_ones pkt.data.toBitVec 0 5 27 (by decide)
  rw [BitVec.ushiftRight_zero] at h
  exact h

theorem setWidth_usbParseTokenPkt :
    ((usbParseTokenPkt pkt).addr <<< 4 ||| (usbParseTokenPkt pkt).endp).toBitVec.setWidth 11 =
      pkt.data.toBitVec.extractLsb' 5 11 := by
  have hor : ((usbParseTokenPkt pkt).addr <<< 4 ||| (usbParseTokenPkt pkt).endp).toBitVec =
      (usbParseTokenPkt pkt).addr.toBitVec <<< 4 ||| (usbParseTokenPkt pkt).endp.toBitVec := rfl
  rw [hor, addr_usbParseTokenPkt, endp_usbParseTokenPkt]
  generalize pkt.data.toBitVec = x
  refine BitVec.eq_of_getLsbD_eq fun i hi ↦ ?_
  have h32 : i < 32 := Nat.lt_trans hi (by decide)
  simp only [BitVec.getLsbD_append, BitVec.getLsbD_or, BitVec.getLsbD_setWidth,
    BitVec.getLsbD_shiftLeft, BitVec.getLsbD_extractLsb', hi, h32, decide_true, Bool.true_and]
  by_cases h4 : i < 4
  · simp [h4]
  · have h7 : i - 4 < 7 := by omega
    have hadd : 9 + (i - 4) = 5 + i := by omega
    simp [h4, h7, hadd]

theorem checked_iff : (usbParseTokenPkt pkt).Checked ↔ tokenRun pkt.data = residue 5#5 := by
  have hcrc := usbCrc5_eq ((usbParseTokenPkt pkt).addr <<< 4 ||| (usbParseTokenPkt pkt).endp)
    (by decide : 0 < 11) (by decide)
  rw [setWidth_usbParseTokenPkt] at hcrc
  rw [tokenRun_append (eq_extractLsb_append pkt.data.toBitVec), run_bits_eq_residue_iff (by decide),
    TokenFields.Checked, ← UInt32.toBitVec_inj, crc5_usbParseTokenPkt]
  refine ⟨fun h ↦ ?_, fun h ↦ ?_⟩
  · have hlow := congrArg (BitVec.setWidth 5) (h.trans hcrc)
    rw [BitVec.setWidth_append, BitVec.setWidth_append, dif_pos (by decide),
      dif_pos (by decide)] at hlow
    simpa using hlow
  · rw [h]
    exact hcrc.symm

end Parse

theorem getLsbD_eq_false {x : UInt32} {n i : ℕ} (h : x.toNat < 2 ^ n) (hi : n ≤ i) :
    x.toBitVec.getLsbD i = false :=
  Nat.testBit_lt_two_pow (Nat.lt_of_lt_of_le h (Nat.pow_le_pow_right (by decide) hi))

theorem pidPack_and {pid : UInt32} (h : pid < 0x10) : (pidPack pid).toUInt32 &&& 0x0F = pid := by
  have hlt : pid.toNat < 16 := h
  have hpid : pid = UInt32.ofNat pid.toNat := UInt32.ofNat_toNat.symm
  rw [hpid]
  generalize pid.toNat = n at hlt
  interval_cases n <;> rfl

section Fields

variable (address pid ep : UInt32)

theorem addr_usbTokenPkt (haddress : address < 0x80) (hep : ep < 0x10) :
    (usbParseTokenPkt (usbTokenPkt address pid ep)).addr = address := by
  have haddr : address.toNat < 2 ^ 7 := haddress
  have hep' : ep.toNat < 2 ^ 4 := hep
  refine UInt32.toBitVec_inj.mp ?_
  have hor : (address <<< 4 ||| ep).toBitVec = address.toBitVec <<< 4 ||| ep.toBitVec := rfl
  rw [addr_usbParseTokenPkt, data_usbTokenPkt, hor, BitVec.extractLsb'_append_eq_of_le (by decide)]
  refine BitVec.eq_of_getLsbD_eq fun i hi ↦ ?_
  rw [BitVec.getLsbD_append]
  by_cases h7 : i < 7
  · have h11 : 4 + i < 11 := by omega
    have h32 : 4 + i < 32 := by omega
    have hep'' : ep.toBitVec[4 + i] = false := by
      rw [← BitVec.getLsbD_eq_getElem, getLsbD_eq_false hep' (Nat.le_add_right 4 i)]
    simp [h7, h11, h32, hep'']
  · rw [if_neg h7, BitVec.getLsbD_zero, getLsbD_eq_false haddr (Nat.le_of_not_lt h7)]

theorem endp_usbTokenPkt (hep : ep < 0x10) :
    (usbParseTokenPkt (usbTokenPkt address pid ep)).endp = ep := by
  have hep' : ep.toNat < 2 ^ 4 := hep
  refine UInt32.toBitVec_inj.mp ?_
  have hor : (address <<< 4 ||| ep).toBitVec = address.toBitVec <<< 4 ||| ep.toBitVec := rfl
  rw [endp_usbParseTokenPkt, data_usbTokenPkt, hor, BitVec.extractLsb'_append_eq_of_le (by decide)]
  refine BitVec.eq_of_getLsbD_eq fun i hi ↦ ?_
  rw [BitVec.getLsbD_append]
  by_cases h4 : i < 4
  · have h11 : i < 11 := by omega
    simp [h4, h11]
  · rw [if_neg h4, BitVec.getLsbD_zero, getLsbD_eq_false hep' (Nat.le_of_not_lt h4)]

theorem crc5_usbTokenPkt : (usbParseTokenPkt (usbTokenPkt address pid ep)).crc5 =
    usbCrc5 (address <<< 4 ||| ep) 11 := by
  have hcrc : (usbCrc5 (address <<< 4 ||| ep) 11).toBitVec = _ :=
    usbCrc5_eq (address <<< 4 ||| ep) (by decide : 0 < 11) (by decide)
  refine UInt32.toBitVec_inj.mp ?_
  rw [crc5_usbParseTokenPkt, data_usbTokenPkt, hcrc, BitVec.extractLsb'_append_eq_right]

variable {address pid ep} in
theorem usbParseTokenPkt_usbTokenPkt (haddress : address < 0x80) (hpid : pid < 0x10)
    (hep : ep < 0x10) : usbParseTokenPkt (usbTokenPkt address pid ep) =
      ⟨pid, address, ep, usbCrc5 (address <<< 4 ||| ep) 11⟩ := by
  have hpid' : (usbParseTokenPkt (usbTokenPkt address pid ep)).pid = pid := pidPack_and hpid
  have haddr := addr_usbTokenPkt address pid ep haddress hep
  have hendp := endp_usbTokenPkt address pid ep hep
  have hcrc := crc5_usbTokenPkt address pid ep
  generalize usbParseTokenPkt (usbTokenPkt address pid ep) = f at *
  obtain ⟨_, _, _, _⟩ := f
  simp_all

end Fields

theorem checked_usbTokenPkt (address pid ep : UInt32) :
    tokenRun (usbTokenPkt address pid ep).data = residue 5#5 := by
  rw [tokenRun_append (data_usbTokenPkt address pid ep), run_bits_eq_residue_iff (by decide)]

/-- **Tokens.** For every device address, packet identifier and endpoint, a receiver reads from the
packet the fields that were put into it, with a check field that is right; and in a packet that
differs from the one sent in at most five adjacent bits behind the identifier, the check field is
wrong. -/
theorem tokens_checked {address pid ep : UInt32} (haddress : address < 0x80) (hpid : pid < 0x10)
    (hep : ep < 0x10) :
    usbParseTokenPkt (usbTokenPkt address pid ep) =
        ⟨pid, address, ep, usbCrc5 (address <<< 4 ||| ep) 11⟩ ∧
      ∀ pkt : UsbTokenPkt, Burst 5 (bits (usbTokenPkt address pid ep).data.toBitVec)
          (bits pkt.data.toBitVec) → pkt.data ≠ (usbTokenPkt address pid ep).data →
        ¬(usbParseTokenPkt pkt).Checked := by
  refine ⟨usbParseTokenPkt_usbTokenPkt haddress hpid hep, fun pkt hburst hne hchecked ↦ ?_⟩
  have hrun : tokenRun (usbTokenPkt address pid ep).data = tokenRun pkt.data := by
    rw [checked_usbTokenPkt, (checked_iff pkt).mp hchecked]
  have hbits := hburst.eq_of_run_eq (by decide) hrun
  exact hne (UInt16.toBitVec_inj.mp (bits_inj hbits.symm))

/-- A `SETUP` token for endpoint 0 of device 5. -/
theorem tokens_checked_setup :
    usbParseTokenPkt (usbTokenPkt 5 0x0D 0) = ⟨0x0D, 5, 0, usbCrc5 ((5 : UInt32) <<< 4 ||| 0) 11⟩ ∧
      ∀ pkt : UsbTokenPkt, Burst 5 (bits (usbTokenPkt 5 0x0D 0).data.toBitVec)
          (bits pkt.data.toBitVec) → pkt.data ≠ (usbTokenPkt 5 0x0D 0).data →
        ¬(usbParseTokenPkt pkt).Checked :=
  tokens_checked (by decide) (by decide) (by decide)

/-! ## Data -/

theorem wireBits_inj {x y : UInt8} (h : wireBits x = wireBits y) : x = y := by
  refine UInt8.toBitVec_inj.mp (BitVec.eq_of_getLsbD_eq fun i hi ↦ ?_)
  exact congrFun (List.ofFn_injective h) ⟨i, hi⟩

theorem flatMap_wireBits_inj {l m : List UInt8} (h : l.flatMap wireBits = m.flatMap wireBits) :
    l = m := by
  induction l generalizing m with
  | nil =>
    cases m with
    | nil => rfl
    | cons y m => exact absurd (congrArg List.length h) (by simp [wireBits])
  | cons x l ih =>
    cases m with
    | nil => exact absurd (congrArg List.length h) (by simp [wireBits])
    | cons y m =>
      rw [List.flatMap_cons, List.flatMap_cons] at h
      obtain ⟨hx, hl⟩ := List.append_inj h (by simp [wireBits])
      rw [wireBits_inj hx, ih hl]

/-- **Data.** A receiver that takes in any buffer and a check field, the highest bit first, ends in
one fixed register exactly if the field is what `usb_crc16` returns for the buffer; and two buffers
that differ in at most sixteen adjacent bits never have the same field. -/
theorem usbCrc16_exact :
    (∀ (buffer : List UInt8) (crc16 : UInt16),
      run 0x8005#16 (BitVec.allOnes 16) (buffer.flatMap wireBits ++ bits crc16.toBitVec) =
        0x800D#16 ↔ crc16 = usbCrc16 buffer) ∧
      ∀ buffer buffer' : List UInt8,
        Burst 16 (buffer.flatMap wireBits) (buffer'.flatMap wireBits) → buffer ≠ buffer' →
          usbCrc16 buffer ≠ usbCrc16 buffer' := by
  have hodd : (0x8005#16).getLsbD 0 = true := by decide
  refine ⟨fun buffer crc16 ↦ ?_, fun buffer buffer' hburst hne heq ↦ hne ?_⟩
  · have hresidue : residue 0x8005#16 = 0x800D#16 := by decide +kernel
    rw [← hresidue, run_append, run_bits_eq_residue_iff hodd, ← usbCrc16_eq, UInt16.toBitVec_inj]
  · have hrun := congrArg UInt16.toBitVec heq
    rw [usbCrc16_eq, usbCrc16_eq, BitVec.not_inj] at hrun
    exact flatMap_wireBits_inj (hburst.eq_of_run_eq hodd hrun)

/-- The last two of three bytes are disturbed. -/
theorem usbCrc16_exact_burst : usbCrc16 [0x12, 0x34, 0x56] ≠ usbCrc16 [0x12, 0xA5, 0x5C] :=
  usbCrc16_exact.2 _ _
    ⟨wireBits 0x12, wireBits 0x34 ++ wireBits 0x56, wireBits 0xA5 ++ wireBits 0x5C, [], rfl, rfl,
      rfl, le_rfl⟩ (by decide)

end Ertos
