import Mathlib.Data.List.GetD
import Mathlib.Tactic.Common

/-!
# Cyclic redundancy checks

A register of `w` bits takes in a message bit by bit: it is shifted, and the generator is added when
the bit shifted out differs from the bit of the message. The check field of a message is the
complement of the register.

At most `w` bits lead a register to zero only if they are the bits of the register
(`run_eq_zero_iff`). The two uses of the field follow from this. A receiver that takes in the field
behind the message ends in one fixed register, the residue, for the right field and for no other.
And two messages that differ in at most `w` adjacent bits have different fields.
-/

namespace Crc

variable {w : ℕ} {p : BitVec w}

/-- The bits of a word, the highest first. -/
def bits (x : BitVec w) : List Bool := List.ofFn fun i : Fin w ↦ x.getMsbD i

@[simp] theorem length_bits (x : BitVec w) : (bits x).length = w := List.length_ofFn

theorem getD_bits (x : BitVec w) (i : ℕ) : (bits x).getD i false = x.getMsbD i := by
  by_cases h : i < w
  · rw [List.getD_eq_getElem _ _ (by rwa [length_bits])]
    exact List.getElem_ofFn _
  · rw [List.getD_eq_default _ _ (by rw [length_bits]; exact Nat.le_of_not_lt h),
      BitVec.getMsbD_of_ge x i (Nat.le_of_not_lt h)]

theorem bits_inj {x y : BitVec w} (h : bits x = bits y) : x = y :=
  BitVec.eq_of_getMsbD_eq fun i _ ↦ by rw [← getD_bits, h, getD_bits]

theorem bits_append {m n : ℕ} (x : BitVec m) (y : BitVec n) :
    bits (x ++ y) = bits x ++ bits y := by
  refine List.ext_getElem (by simp) fun i hi hi' ↦ ?_
  have hlen : (bits x).length = m := length_bits x
  have happ : (bits (x ++ y))[i] = (x ++ y).getMsbD i := List.getElem_ofFn _
  rw [happ, BitVec.getMsbD_append, List.getElem_append]
  by_cases h : i < m
  · rw [dif_pos (by rwa [hlen])]
    have hm : ¬m ≤ i := Nat.not_le_of_lt h
    simp [bits, hm]
  · rw [dif_neg (by rwa [hlen])]
    have hm : m ≤ i := Nat.le_of_not_lt h
    simp [bits, hm]

/-- The two differ in at most `w` adjacent bits. -/
def Burst (w : ℕ) (x y : List Bool) : Prop :=
  ∃ l m n k, x = l ++ m ++ k ∧ y = l ++ n ++ k ∧ m.length = n.length ∧ m.length ≤ w

/-! ## The register -/

/-- A bit of the message goes into the register. -/
def shift (p r : BitVec w) (b : Bool) : BitVec w :=
  if r.msb ^^ b then r <<< 1 ^^^ p else r <<< 1

def run (p r : BitVec w) (l : List Bool) : BitVec w := l.foldl (shift p) r

@[simp] theorem run_nil (r : BitVec w) : run p r [] = r := rfl

@[simp] theorem run_cons (r : BitVec w) (b : Bool) (l : List Bool) :
    run p r (b :: l) = run p (shift p r b) l := rfl

theorem run_append (r : BitVec w) (l m : List Bool) : run p r (l ++ m) = run p (run p r l) m :=
  List.foldl_append

theorem shift_xor (r s : BitVec w) (b c : Bool) :
    shift p (r ^^^ s) (b ^^ c) = shift p r b ^^^ shift p s c := by
  unfold shift
  rw [BitVec.msb_xor, BitVec.shiftLeft_xor_distrib]
  have hcancel : r <<< 1 ^^^ p ^^^ (s <<< 1 ^^^ p) = r <<< 1 ^^^ s <<< 1 := by
    rw [BitVec.xor_comm (s <<< 1) p, ← BitVec.xor_assoc, BitVec.xor_assoc (r <<< 1),
      BitVec.xor_self, BitVec.xor_zero]
  have hleft : r <<< 1 ^^^ p ^^^ s <<< 1 = r <<< 1 ^^^ s <<< 1 ^^^ p := by
    rw [BitVec.xor_assoc, BitVec.xor_comm p, ← BitVec.xor_assoc]
  cases r.msb <;> cases s.msb <;> cases b <;> cases c <;>
    simp [hcancel, hleft, BitVec.xor_assoc]

/-- **Linearity.** -/
theorem run_xor (r s : BitVec w) {l m : List Bool} (h : l.length = m.length) :
    run p (r ^^^ s) (List.zipWith Bool.xor l m) = run p r l ^^^ run p s m := by
  induction l generalizing m r s with
  | nil =>
    obtain rfl : m = [] := List.length_eq_zero_iff.mp h.symm
    rfl
  | cons b l ih =>
    cases m with
    | nil => exact absurd h (Nat.succ_ne_zero _)
    | cons c m =>
      rw [List.zipWith_cons_cons, run_cons, run_cons, run_cons, ← ih _ _ (Nat.succ.inj h)]
      exact congrArg (fun x ↦ run p x _) (shift_xor r s b c)

section Odd

variable (hp : p.getLsbD 0 = true)
include hp

theorem pos_of_odd : 0 < w := by
  by_contra h
  rw [BitVec.getLsbD_of_ge p 0 (Nat.le_of_not_lt h)] at hp
  exact absurd hp (by decide)

/-- The lowest bit tells whether the generator was added. -/
theorem getLsbD_shift (r : BitVec w) (b : Bool) : (shift p r b).getLsbD 0 = (r.msb ^^ b) := by
  unfold shift
  cases r.msb <;> cases b <;> simp [hp]

/-- **At most `w` bits lead to zero** only if they are the bits of the register. -/
theorem run_eq_zero_iff {r : BitVec w} {l : List Bool} (h : l.length ≤ w) :
    run p r l = 0#w ↔ ∀ i < w, r.getMsbD i = l.getD i false := by
  induction l generalizing r with
  | nil =>
    refine ⟨fun hr i _ ↦ ?_, fun hr ↦ BitVec.eq_of_getMsbD_eq fun i hi ↦ ?_⟩
    · rw [run_nil] at hr
      simp [hr]
    · rw [run_nil, hr i hi]
      simp
  | cons b l ih =>
    have hw := pos_of_odd hp
    have hlen : l.length < w := h
    have hmsb : r.getMsbD 0 = r.msb := (BitVec.msb_eq_getMsbD_zero r).symm
    have hup : ∀ i, (r <<< 1).getMsbD i = r.getMsbD (i + 1) := fun i ↦ by
      rw [BitVec.getMsbD_shiftLeft]
    rw [run_cons, ih (Nat.le_of_lt hlen)]
    -- the lowest bit of the next register is beyond the bits that are left
    have hlast : (shift p r b).getMsbD (w - 1) = (r.msb ^^ b) := by
      rw [BitVec.getMsbD_eq_getLsbD, Nat.sub_self, getLsbD_shift hp, decide_eq_true (by omega),
        Bool.true_and]
    have hrest : l.getD (w - 1) false = false := List.getD_eq_default _ _ (by omega)
    constructor
    · intro hr
      have hb : (r.msb ^^ b) = false := by rw [← hlast, hr _ (by omega), hrest]
      have hshift : shift p r b = r <<< 1 := by rw [shift, hb]; rfl
      intro i hi
      cases i with
      | zero => rw [hmsb, List.getD_cons_zero]; simpa using hb
      | succ i => rw [← hup, ← hshift, hr i (by omega), List.getD_cons_succ]
    · intro hr
      have hb : (r.msb ^^ b) = false := by
        rw [← hmsb, hr 0 hw, List.getD_cons_zero, Bool.xor_self]
      have hshift : shift p r b = r <<< 1 := by rw [shift, hb]; rfl
      intro i hi
      rw [hshift, hup]
      by_cases hi' : i + 1 < w
      · rw [hr _ hi', List.getD_cons_succ]
      · rw [BitVec.getMsbD_of_ge r _ (Nat.le_of_not_lt hi'), List.getD_eq_default _ _ (by omega)]

theorem run_bits_eq_zero_iff {r c : BitVec w} : run p r (bits c) = 0#w ↔ r = c := by
  rw [run_eq_zero_iff hp (Nat.le_of_eq (length_bits c))]
  constructor
  · exact fun h ↦ BitVec.eq_of_getMsbD_eq fun i hi ↦ by rw [h i hi, getD_bits]
  · rintro rfl i -
    rw [getD_bits]

/-- A bit shifted in can be taken back. -/
theorem shift_inj {r s : BitVec w} {b : Bool} (h : shift p r b = shift p s b) : r = s := by
  have hmsb : (r.msb ^^ b) = (s.msb ^^ b) := by rw [← getLsbD_shift hp, h, getLsbD_shift hp]
  have hup : r <<< 1 = s <<< 1 := by
    unfold shift at h
    rw [hmsb] at h
    split at h
    · exact (BitVec.xor_left_inj p).mp h
    · exact h
  refine BitVec.eq_of_getMsbD_eq fun i hi ↦ ?_
  cases i with
  | zero =>
    rw [← BitVec.msb_eq_getMsbD_zero, ← BitVec.msb_eq_getMsbD_zero]
    simpa using hmsb
  | succ i => simpa using congrArg (BitVec.getMsbD · i) hup

theorem run_inj {r s : BitVec w} {l : List Bool} (h : run p r l = run p s l) : r = s := by
  induction l generalizing r s with
  | nil => exact h
  | cons b l ih => exact shift_inj hp (ih h)

/-! ## The check field -/

/-- The register a receiver ends in. -/
def residue (p : BitVec w) : BitVec w := run p 0#w (List.replicate w true)

omit hp in
theorem bits_not (c : BitVec w) :
    bits (~~~c) = List.zipWith Bool.xor (bits c) (List.replicate w true) := by
  refine List.ext_getElem (by simp) fun i hi _ ↦ ?_
  simp [bits]

/-- **The residue.** The receiver of a field ends in the residue for the complement of the register,
and for no other field. -/
theorem run_bits_eq_residue_iff {r c : BitVec w} : run p r (bits c) = residue p ↔ c = ~~~r := by
  have hlin := run_xor (p := p) r 0#w (l := bits c) (m := List.replicate w true) (by simp)
  rw [BitVec.xor_zero, ← bits_not] at hlin
  rw [residue, ← BitVec.xor_eq_zero_iff, ← hlin, run_bits_eq_zero_iff hp]
  constructor
  · rintro rfl
    exact BitVec.not_not.symm
  · rintro rfl
    exact BitVec.not_not.symm

/-- **Bursts.** Messages that differ in at most `w` adjacent bits lead to different registers. -/
theorem Burst.eq_of_run_eq {r : BitVec w} {x y : List Bool} (hb : Burst w x y)
    (h : run p r x = run p r y) : x = y := by
  obtain ⟨l, m, n, k, rfl, rfl, hlen, hw⟩ := hb
  rw [run_append, run_append, run_append _ _ k, run_append _ l n] at h
  have hmid := run_inj hp h
  have hlin := run_xor (p := p) (run p r l) (run p r l) hlen
  rw [hmid, BitVec.xor_self, BitVec.xor_self] at hlin
  have hlen' : (List.zipWith Bool.xor m n).length = m.length := by simp [hlen]
  have hzero := (run_eq_zero_iff hp (hlen' ▸ hw)).mp hlin
  have hmn : m = n := by
    refine List.ext_getElem hlen fun i hi hi' ↦ ?_
    have hi'' := hzero i (Nat.lt_of_lt_of_le hi hw)
    rw [List.getD_eq_getElem _ _ (by rwa [hlen']), List.getElem_zipWith] at hi''
    simpa using hi''.symm
  rw [hmn]

end Odd

end Crc
