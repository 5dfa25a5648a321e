import Mathlib.Data.UInt
import Mathlib.Data.List.GetD
import Mathlib.Tactic.Common

/-!
# A small ARM machine

The part of the 32-bit ARM architecture that exception handlers are written in: the user registers
`r0` to `r12`, `sp` and `lr`, the last two of which an exception mode has of its own; the saved
program status register of that mode; and a memory of words. An instruction is a function on the
state, and a routine is the composition of its instructions.

A routine runs in an exception mode. In that mode `sp` and `lr` mean the banked registers, and the
transfers marked `^` reach the user's. Addresses are aligned to words, so a memory is a function on
addresses of which only the multiples of four matter.

`Keeps` is what the procedure call standard promises of a function: it preserves `r4` to `r11`, the
stack pointer, and the stack above it. `Keeps.pop` is what handlers are built on: registers pushed
before such a call are popped unchanged after it.
-/

namespace Arm

/-! ## Memory -/

abbrev Ram := UInt32 → UInt32

/-- The word at index `i` of a block at `a`. -/
def word (a : UInt32) (i : ℕ) : UInt32 := a + 4 * UInt32.ofNat i

/-- Store successive words. -/
def storeMany : Ram → UInt32 → List UInt32 → Ram
  | m, _, [] => m
  | m, a, w :: ws => storeMany (Function.update m a w) (a + 4) ws

/-- Load successive words. -/
def loadMany (m : Ram) (a : UInt32) : ℕ → List UInt32
  | 0 => []
  | n + 1 => m a :: loadMany m (a + 4) n

@[simp] theorem word_zero (a : UInt32) : word a 0 = a := by simp [word]

theorem word_succ (a : UInt32) (i : ℕ) : word a (i + 1) = word (a + 4) i := by
  have hsucc : UInt32.ofNat (i + 1) = UInt32.ofNat i + 1 := by simp
  rw [word, word, hsucc, mul_add, mul_one, add_comm (4 * _) 4, ← add_assoc]

theorem toNat_four_mul {n : ℕ} (hn : n < 2 ^ 30) : (4 * UInt32.ofNat n).toNat = 4 * n := by
  rw [UInt32.toNat_mul, UInt32.toNat_ofNat', show UInt32.toNat 4 = 4 from rfl]
  omega

theorem word_word (a : UInt32) (i j : ℕ) : word (word a i) j = word a (i + j) := by
  rw [word, word, word, UInt32.ofNat_add, mul_add, add_assoc]

/-- A block of less than the whole memory does not run into itself. -/
theorem word_inj {a : UInt32} {i j : ℕ} (hi : i < 2 ^ 30) (hj : j < 2 ^ 30)
    (h : word a i = word a j) : i = j := by
  have hnat := congrArg UInt32.toNat (add_left_cancel h)
  rw [toNat_four_mul hi, toNat_four_mul hj] at hnat
  omega

section Block

variable {m : Ram} {a b : UInt32} {l : List UInt32}

@[simp] theorem storeMany_nil : storeMany m a [] = m := rfl

@[simp] theorem storeMany_cons (w : UInt32) :
    storeMany m a (w :: l) = storeMany (Function.update m a w) (a + 4) l := rfl

theorem storeMany_of_ne (h : ∀ i < l.length, b ≠ word a i) : storeMany m a l b = m b := by
  induction l generalizing m a with
  | nil => rfl
  | cons w l ih =>
    have hhead : b ≠ a := by simpa using h 0 (Nat.succ_pos _)
    have htail : ∀ i < l.length, b ≠ word (a + 4) i :=
      fun i hi ↦ word_succ a i ▸ h (i + 1) (Nat.succ_lt_succ hi)
    rw [storeMany_cons, ih htail, Function.update_of_ne hhead]

theorem storeMany_word (hlen : l.length < 2 ^ 30) {i : ℕ} (hi : i < l.length) :
    storeMany m a l (word a i) = l[i] := by
  induction l generalizing m a i with
  | nil => exact absurd hi (Nat.not_lt_zero i)
  | cons w l ih =>
    have hlen' : l.length < 2 ^ 30 := Nat.lt_of_succ_lt hlen
    cases i with
    | zero =>
      have hfirst : ∀ j < l.length, word a 0 ≠ word (a + 4) j := by
        intro j hj h
        rw [← word_succ] at h
        exact absurd (word_inj (by omega) (by simp at hlen; omega) h) (Nat.succ_ne_zero j).symm
      rw [storeMany_cons, storeMany_of_ne hfirst, word_zero, Function.update_self]
      rfl
    | succ i =>
      rw [storeMany_cons, word_succ, ih hlen' (Nat.lt_of_succ_lt_succ hi)]
      rfl

theorem loadMany_eq_map (n : ℕ) : loadMany m a n = (List.range n).map fun i ↦ m (word a i) := by
  induction n generalizing a with
  | zero => rfl
  | succ n ih =>
    rw [loadMany, ih, List.range_succ_eq_map, List.map_cons, List.map_map, word_zero]
    congr 1
    exact List.map_congr_left fun i _ ↦ by rw [Function.comp_apply, word_succ]

@[simp] theorem length_loadMany (n : ℕ) : (loadMany m a n).length = n := by
  rw [loadMany_eq_map, List.length_map, List.length_range]

theorem loadMany_succ (n : ℕ) : loadMany m a (n + 1) = loadMany m a n ++ [m (word a n)] := by
  rw [loadMany_eq_map, loadMany_eq_map, List.range_succ, List.map_append, List.map_singleton]

theorem loadMany_congr {m' : Ram} {n : ℕ} (h : ∀ i < n, m' (word a i) = m (word a i)) :
    loadMany m' a n = loadMany m a n := by
  rw [loadMany_eq_map, loadMany_eq_map]
  exact List.map_congr_left fun i hi ↦ h i (List.mem_range.mp hi)

theorem loadMany_storeMany (hlen : l.length < 2 ^ 30) :
    loadMany (storeMany m a l) a l.length = l := by
  rw [loadMany_eq_map]
  refine List.ext_getElem (by simp) fun i hi hi' ↦ ?_
  rw [List.getElem_map, List.getElem_range, storeMany_word hlen hi']

end Block

/-! ## The processor -/

/-- `r0` to `r12`, `sp` and `lr`. -/
abbrev Reg := Fin 15

instance neZero_reg : @NeZero ℕ Zero.ofOfNat0 15 := ⟨Nat.succ_ne_zero 14⟩

/-- The processor in an exception mode. -/
@[ext] structure Cpu where
  /-- The user's registers. `r0` to `r12` are not banked. -/
  usr : Reg → UInt32
  /-- The stack pointer of the mode. -/
  sp : UInt32
  /-- The link register of the mode. -/
  lr : UInt32
  spsr : UInt32
  ram : Ram

/-- What a program sees of the processor while it runs outside the exception modes. -/
structure Context where
  psr : UInt32
  /-- The address of the next instruction. -/
  pc : UInt32
  usr : Reg → UInt32

namespace Cpu

/-- An exception is taken: the mode's link register points behind the next instruction. -/
def enter (c : Context) (sp : UInt32) (ram : Ram) : Cpu := ⟨c.usr, sp, c.pc + 4, c.psr, ram⟩

/-- An access of the instruction at `c.pc` is aborted. -/
def enterAbort (c : Context) (sp : UInt32) (ram : Ram) : Cpu := ⟨c.usr, sp, c.pc + 8, c.psr, ram⟩

def getReg (s : Cpu) (r : Reg) : UInt32 := if r = 13 then s.sp else if r = 14 then s.lr else s.usr r

def setReg (s : Cpu) (r : Reg) (w : UInt32) : Cpu :=
  if r = 13 then { s with sp := w }
  else if r = 14 then { s with lr := w }
  else { s with usr := Function.update s.usr r w }

def setRegs (s : Cpu) : List Reg → List UInt32 → Cpu
  | r :: rs, w :: ws => (s.setReg r w).setRegs rs ws
  | _, _ => s

/-! ## Instructions -/

/-- `ldr rd, [ra]`. -/
def ldr (s : Cpu) (rd ra : Reg) : Cpu := s.setReg rd (s.ram (s.getReg ra))

/-- `str rd, [ra]`. -/
def str (s : Cpu) (rd ra : Reg) : Cpu :=
  { s with ram := Function.update s.ram (s.getReg ra) (s.getReg rd) }

/-- `stmdb sp!, {rs}`. -/
def stmdb (s : Cpu) (rs : List Reg) : Cpu :=
  let a := s.sp - 4 * UInt32.ofNat rs.length
  { s with ram := storeMany s.ram a (rs.map s.getReg), sp := a }

/-- `ldmia sp!, {rs}`. -/
def ldmia (s : Cpu) (rs : List Reg) : Cpu :=
  { s.setRegs rs (loadMany s.ram s.sp rs.length) with sp := word s.sp rs.length }

/-- `ldmia sp!, {rs, pc}^`, which also returns to the mode of `spsr`. -/
def ldmiaPc (s : Cpu) (rs : List Reg) : Context × Cpu :=
  let t := s.ldmia rs
  (⟨t.spsr, t.ram t.sp, t.usr⟩, { t with sp := t.sp + 4 })

/-- `stmia sp, {rs}`. -/
def stmia (s : Cpu) (rs : List Reg) : Cpu :=
  { s with ram := storeMany s.ram s.sp (rs.map s.getReg) }

/-- `stmia sp!, {rs}`. What is stored for `sp` itself the architecture leaves open. -/
def stmiaWb (s : Cpu) (w : UInt32) (rs : List Reg) : Cpu :=
  { s with
    ram := storeMany s.ram s.sp (rs.map fun r ↦ if r = 13 then w else s.getReg r)
    sp := word s.sp rs.length }

/-- `stmia sp, {r0-r14}^`. -/
def stmiaUsr (s : Cpu) : Cpu := { s with ram := storeMany s.ram s.sp (List.ofFn s.usr) }

/-- `ldmia sp, {r0-r14}^`. -/
def ldmiaUsr (s : Cpu) : Cpu := { s with usr := fun r ↦ s.ram (word s.sp r) }

/-- `bl`: the call returns to `ret`. -/
def bl (s : Cpu) (ret : UInt32) (f : Cpu → Cpu) : Cpu := f (s.setReg 14 ret)

/-- `movs pc, lr`. -/
def movsPcLr (s : Cpu) : Context × Cpu := (⟨s.spsr, s.lr, s.usr⟩, s)

/-! ## Register lemmas -/

section Reg

variable (s : Cpu) (r : Reg) (w : UInt32)

theorem getReg_setReg (q : Reg) : (s.setReg r w).getReg q = if q = r then w else s.getReg q := by
  unfold getReg setReg
  split_ifs <;> simp_all

@[simp] theorem ram_setReg : (s.setReg r w).ram = s.ram := by
  unfold setReg
  split_ifs <;> rfl

@[simp] theorem spsr_setReg : (s.setReg r w).spsr = s.spsr := by
  unfold setReg
  split_ifs <;> rfl

theorem sp_setReg : (s.setReg r w).sp = if r = 13 then w else s.sp := by
  unfold setReg
  split_ifs <;> rfl

theorem usr_setReg (q : Reg) :
    (s.setReg r w).usr q = if q = r ∧ r ≠ 13 ∧ r ≠ 14 then w else s.usr q := by
  unfold setReg
  split_ifs <;> simp_all

@[simp] theorem ram_setRegs (rs : List Reg) (ws : List UInt32) : (s.setRegs rs ws).ram = s.ram := by
  induction rs generalizing s ws with
  | nil => rfl
  | cons r rs ih =>
    cases ws with
    | nil => rfl
    | cons w ws => rw [setRegs, ih, ram_setReg]

@[simp] theorem spsr_setRegs (rs : List Reg) (ws : List UInt32) :
    (s.setRegs rs ws).spsr = s.spsr := by
  induction rs generalizing s ws with
  | nil => rfl
  | cons r rs ih =>
    cases ws with
    | nil => rfl
    | cons w ws => rw [setRegs, ih, spsr_setReg]

variable {s r}

theorem getReg_setRegs (g : Reg → UInt32) (rs : List Reg) (q : Reg) :
    (s.setRegs rs (rs.map g)).getReg q = if q ∈ rs then g q else s.getReg q := by
  induction rs generalizing s with
  | nil => simp [setRegs]
  | cons r rs ih =>
    rw [List.map_cons, setRegs, ih, getReg_setReg]
    by_cases hq : q = r
    · subst hq
      simp
    · simp [hq]

theorem usr_setRegs (g : Reg → UInt32) (rs : List Reg) (q : Reg) :
    (s.setRegs rs (rs.map g)).usr q = if q ∈ rs ∧ q ≠ 13 ∧ q ≠ 14 then g q else s.usr q := by
  induction rs generalizing s with
  | nil => simp [setRegs]
  | cons r rs ih =>
    rw [List.map_cons, setRegs, ih, usr_setReg]
    by_cases hq : q = r
    · subst hq
      by_cases hbank : q ≠ 13 ∧ q ≠ 14 <;> simp [hbank]
    · simp [hq]

end Reg

/-! ## The procedure call standard -/

/-- The registers a function may change. -/
def scratch : List Reg := [0, 1, 2, 3, 12, 14]

/-- A function that was called in state `s` and returned in state `t`, on a stack that ends at
`top`. -/
structure Keeps (top : UInt32) (s t : Cpu) : Prop where
  usr : ∀ r ∉ scratch, t.usr r = s.usr r
  usrLr : t.usr 14 = s.usr 14
  sp : t.sp = s.sp
  spsr : t.spsr = s.spsr
  stack : ∀ b, s.sp ≤ b → b < top → t.ram b = s.ram b

theorem Keeps.refl (top : UInt32) (s : Cpu) : Keeps top s s :=
  ⟨fun _ _ ↦ rfl, rfl, rfl, rfl, fun _ _ _ ↦ rfl⟩

theorem Keeps.trans {top : UInt32} {s t u : Cpu} (h : Keeps top s t) (h' : Keeps top t u) :
    Keeps top s u where
  usr := fun r hr ↦ (h'.usr r hr).trans (h.usr r hr)
  usrLr := h'.usrLr.trans h.usrLr
  sp := h'.sp.trans h.sp
  spsr := h'.spsr.trans h.spsr
  stack := fun b hb hb' ↦ (h'.stack b (h.sp ▸ hb) hb').trans (h.stack b hb hb')

theorem keeps_setReg (top : UInt32) (s : Cpu) {r : Reg} (hr : r ∈ scratch) (w : UInt32) :
    Keeps top s (s.setReg r w) where
  usr := fun q hq ↦ by
    have hne : q ≠ r := fun h ↦ hq (h ▸ hr)
    rw [usr_setReg, if_neg fun h ↦ hne h.1]
  usrLr := by
    rw [usr_setReg, if_neg fun h ↦ h.2.2 h.1.symm]
  sp := by
    have hne : r ≠ 13 := fun h ↦ absurd (h ▸ hr) (by decide)
    rw [sp_setReg, if_neg hne]
  spsr := spsr_setReg s r w
  stack := fun b _ _ ↦ by rw [ram_setReg]

/-- The block that a push writes lies between the new stack pointer and the old one. -/
theorem word_stmdb {sp : UInt32} {n i : ℕ} (hn : 4 * n ≤ sp.toNat) (hi : i < n) :
    (word (sp - 4 * UInt32.ofNat n) i).toNat = sp.toNat - 4 * n + 4 * i := by
  have hsp := sp.toNat_lt
  have hmul := toNat_four_mul (n := n) (by omega)
  have hle : 4 * UInt32.ofNat n ≤ sp := by
    rw [UInt32.le_iff_toNat_le, hmul]
    exact hn
  rw [word, UInt32.toNat_add, toNat_four_mul (by omega), UInt32.toNat_sub_of_le _ _ hle, hmul]
  omega

theorem sp_ldmia_stmdb (sp : UInt32) (n : ℕ) : word (sp - 4 * UInt32.ofNat n) n = sp := by
  rw [word, sub_add_cancel]

/-- What was pushed is still there when the function returns. -/
theorem Keeps.loadMany_stmdb {top : UInt32} {s t : Cpu} {rs : List Reg}
    (h : Keeps top (s.stmdb rs) t) (hroom : 4 * rs.length ≤ s.sp.toNat) (htop : s.sp ≤ top) :
    loadMany t.ram t.sp rs.length = rs.map s.getReg := by
  have hsp : (s.stmdb rs).sp = s.sp - 4 * UInt32.ofNat rs.length := rfl
  have hlen : (rs.map s.getReg).length < 2 ^ 30 := by
    have := s.sp.toNat_lt
    rw [List.length_map]
    omega
  have hblock : loadMany (s.stmdb rs).ram (s.stmdb rs).sp rs.length = rs.map s.getReg := by
    have hload := loadMany_storeMany (m := s.ram) (a := (s.stmdb rs).sp) hlen
    rwa [List.length_map] at hload
  rw [h.sp, ← hblock]
  refine loadMany_congr fun i hi ↦ ?_
  have hword := word_stmdb hroom hi
  have hfirst := word_stmdb hroom (Nat.zero_lt_of_lt hi)
  rw [word_zero] at hfirst
  rw [UInt32.le_iff_toNat_le] at htop
  refine h.stack _ (UInt32.le_iff_toNat_le.mpr ?_) (UInt32.lt_iff_toNat_lt.mpr ?_)
  · rw [hsp, hfirst, hword]
    omega
  · rw [hsp, hword]
    omega

/-- The user's registers after a pop into all scratch registers but `lr`, if the words are those of
`s` before a call. -/
theorem Keeps.usr_setRegs {top : UInt32} {s t : Cpu} (h : Keeps top s t) (rs : List Reg)
    (hrs : ∀ r ∈ scratch, r ≠ 14 → r ∈ rs) : (t.setRegs rs (rs.map s.getReg)).usr = s.usr := by
  funext r
  rw [Cpu.usr_setRegs]
  split_ifs with hr
  · rw [getReg, if_neg hr.2.1, if_neg hr.2.2]
  by_cases hlr : r = 14
  · rw [hlr]
    exact h.usrLr
  · refine h.usr r fun hmem ↦ hr ⟨hrs r hmem hlr, ?_, hlr⟩
    rintro rfl
    exact absurd hmem (by decide)

theorem toNat_sp_stmdb {s : Cpu} {rs : List Reg} (hroom : 4 * rs.length ≤ s.sp.toNat)
    (hrs : rs ≠ []) : (s.stmdb rs).sp.toNat = s.sp.toNat - 4 * rs.length := by
  have hfirst := word_stmdb hroom (List.length_pos_iff.mpr hrs)
  rwa [word_zero] at hfirst

theorem le_word_stmdb {s : Cpu} {rs : List Reg} (hroom : 4 * rs.length ≤ s.sp.toNat) {i : ℕ}
    (hi : i < rs.length) : (s.stmdb rs).sp ≤ word (s.stmdb rs).sp i := by
  have hword := word_stmdb hroom hi
  rw [UInt32.le_iff_toNat_le, toNat_sp_stmdb hroom (List.ne_nil_of_length_pos (by omega))]
  exact hword ▸ Nat.le_add_right _ _

theorem ram_stmdb_word {s : Cpu} {rs : List Reg} (hroom : 4 * rs.length ≤ s.sp.toNat) {i : ℕ}
    (hi : i < rs.length) : (s.stmdb rs).ram (word (s.stmdb rs).sp i) = s.getReg rs[i] := by
  have hsp := s.sp.toNat_lt
  have hword := storeMany_word (m := s.ram) (a := (s.stmdb rs).sp) (l := rs.map s.getReg) (i := i)
    (by rw [List.length_map]; omega) (by rwa [List.length_map])
  rwa [List.getElem_map] at hword

theorem ram_stmdb_of_le {s : Cpu} {rs : List Reg} {b : UInt32} (hroom : 4 * rs.length ≤ s.sp.toNat)
    (hb : s.sp ≤ b) : (s.stmdb rs).ram b = s.ram b := by
  refine storeMany_of_ne fun i hi ↦ ?_
  rw [List.length_map] at hi
  rintro rfl
  rw [UInt32.le_iff_toNat_le, word_stmdb hroom hi] at hb
  omega

theorem sp_stmdb_le {s : Cpu} {rs : List Reg} (hroom : 4 * rs.length ≤ s.sp.toNat) :
    (s.stmdb rs).sp ≤ s.sp := by
  have hsp := s.sp.toNat_lt
  have hmul := toNat_four_mul (n := rs.length) (by omega)
  have hle : 4 * UInt32.ofNat rs.length ≤ s.sp := by
    rw [UInt32.le_iff_toNat_le, hmul]
    exact hroom
  rw [UInt32.le_iff_toNat_le, stmdb, UInt32.toNat_sub_of_le _ _ hle]
  omega

theorem Keeps.of_stmdb {top : UInt32} {s t : Cpu} {rs : List Reg} (h : Keeps top (s.stmdb rs) t)
    (hroom : 4 * rs.length ≤ s.sp.toNat) :
    Keeps top s { t with sp := word t.sp rs.length } where
  usr := h.usr
  usrLr := h.usrLr
  sp := by
    show word t.sp rs.length = s.sp
    rw [h.sp]
    exact sp_ldmia_stmdb s.sp rs.length
  spsr := h.spsr
  stack := fun b hb hb' ↦
    (h.stack b (UInt32.le_trans (sp_stmdb_le hroom) hb) hb').trans (ram_stmdb_of_le hroom hb)

/-- **Scratch registers pushed around a call.** The pop leaves the processor as it was before the
push, up to its memory. -/
theorem Keeps.ldmia_stmdb {top : UInt32} {s t : Cpu} (h : Keeps top (s.stmdb scratch) t)
    (hroom : 24 ≤ s.sp.toNat) (htop : s.sp ≤ top) :
    t.ldmia scratch = { s with ram := t.ram } := by
  have hload := h.loadMany_stmdb hroom htop
  have hk := h.of_stmdb hroom
  have hlr := getReg_setRegs (s := t) s.getReg scratch 14
  rw [if_pos (by decide), ← hload] at hlr
  have husr : (t.ldmia scratch).usr = s.usr := by
    rw [← hk.usr_setRegs scratch fun _ hr _ ↦ hr, ← hload]
    rfl
  rw [Cpu.ext_iff]
  exact ⟨husr, hk.sp, hlr, (spsr_setRegs t _ _).trans h.spsr, ram_setRegs t _ _⟩

/-- The same pop with the return address going to the program counter: the handler returns to where
its caller was. -/
theorem Keeps.ldmiaPc_stmdb {top : UInt32} {s t : Cpu} (h : Keeps top (s.stmdb scratch) t)
    (hroom : 24 ≤ s.sp.toNat) (htop : s.sp ≤ top) :
    (t.ldmiaPc [0, 1, 2, 3, 12]).1 = ⟨s.spsr, s.lr, s.usr⟩ ∧
      (t.ldmiaPc [0, 1, 2, 3, 12]).2.sp = s.sp ∧ (t.ldmiaPc [0, 1, 2, 3, 12]).2.ram = t.ram := by
  have hload := h.loadMany_stmdb hroom htop
  have hk := h.of_stmdb hroom
  obtain ⟨hregs, hpc⟩ : loadMany t.ram t.sp 5 = [0, 1, 2, 3, 12].map s.getReg ∧
      t.ram (word t.sp 5) = s.lr := by
    rw [show scratch.length = 5 + 1 from rfl, loadMany_succ,
      show scratch.map s.getReg = [0, 1, 2, 3, 12].map s.getReg ++ [s.lr] from rfl] at hload
    exact List.append_inj hload (length_loadMany 5) |>.imp_right List.singleton_inj.mp
  have husr : (t.ldmia [0, 1, 2, 3, 12]).usr = s.usr := by
    rw [← hk.usr_setRegs [0, 1, 2, 3, 12] (by decide), ← hregs]
    rfl
  have hram : (t.ldmia [0, 1, 2, 3, 12]).ram = t.ram := ram_setRegs t _ _
  refine ⟨?_, ?_, hram⟩
  · have hspsr : (t.ldmia [0, 1, 2, 3, 12]).spsr = s.spsr := (spsr_setRegs t _ _).trans h.spsr
    rw [ldmiaPc, hspsr, hram, husr]
    exact congrArg (Context.mk s.spsr · s.usr) hpc
  · show word t.sp 5 + 4 = s.sp
    rw [← hk.sp]
    show word t.sp 5 + 4 = word t.sp (5 + 1)
    rw [← word_word, word, word]
    rfl

theorem Keeps.pop {top : UInt32} {s t : Cpu} {rs : List Reg} (h : Keeps top (s.stmdb rs) t)
    (hrs : rs ⊆ scratch) (hroom : 4 * rs.length ≤ s.sp.toNat) (htop : s.sp ≤ top) :
    Keeps top s (t.ldmia rs) ∧ ∀ r ∈ rs, (t.ldmia rs).getReg r = s.getReg r := by
  have hload := h.loadMany_stmdb hroom htop
  have hk := h.of_stmdb hroom
  have husr : ∀ q, (t.ldmia rs).usr q =
      if q ∈ rs ∧ q ≠ 13 ∧ q ≠ 14 then s.getReg q else t.usr q := by
    intro q
    rw [← Cpu.usr_setRegs (s := t) s.getReg rs q, ← hload]
    rfl
  refine ⟨⟨fun r hr ↦ ?_, ?_, hk.sp, (spsr_setRegs t _ _).trans h.spsr, fun b hb hb' ↦ ?_⟩,
    fun r hr ↦ ?_⟩
  · rw [husr, if_neg fun hmem ↦ hr (hrs hmem.1)]
    exact h.usr r hr
  · rw [husr, if_neg fun hmem ↦ hmem.2.2 rfl]
    exact h.usrLr
  · rw [show (t.ldmia rs).ram = t.ram from ram_setRegs t _ _]
    exact hk.stack b hb hb'
  · have hne : r ≠ 13 := by
      rintro rfl
      exact absurd (hrs hr) (by decide)
    have hget := getReg_setRegs (s := t) s.getReg rs r
    rw [if_pos hr, ← hload] at hget
    rw [← hget, getReg, getReg, if_neg hne, if_neg hne]
    rfl

end Cpu

/-! ## Outside the exception modes -/

namespace Context

/-- `stmdb sp!, {rs}`. -/
def stmdb (c : Context) (m : Ram) (rs : List Reg) : Context × Ram :=
  let a := c.usr 13 - 4 * UInt32.ofNat rs.length
  ({ c with pc := c.pc + 4, usr := Function.update c.usr 13 a }, storeMany m a (rs.map c.usr))

/-- `ldmia sp!, {rs, pc}`. -/
def ldmiaPc (c : Context) (m : Ram) (rs : List Reg) : Context :=
  let usr := (rs.zip (loadMany m (c.usr 13) rs.length)).foldl
    (fun usr p ↦ Function.update usr p.1 p.2) c.usr
  { c with
    pc := m (word (c.usr 13) rs.length)
    usr := Function.update usr 13 (word (c.usr 13) (rs.length + 1)) }

theorem usr_stmdb_sp (c : Context) (m : Ram) (rs : List Reg) :
    (c.stmdb m rs).1.usr 13 = c.usr 13 - 4 * UInt32.ofNat rs.length := by
  simp only [stmdb, Function.update_self]

theorem foldl_update_zip (usr g : Reg → UInt32) (rs : List Reg) (q : Reg) :
    (rs.zip (rs.map g)).foldl (fun usr p ↦ Function.update usr p.1 p.2) usr q =
      if q ∈ rs then g q else usr q := by
  induction rs generalizing usr with
  | nil => rfl
  | cons r rs ih =>
    rw [List.map_cons, List.zip_cons_cons, List.foldl_cons, ih, Function.update_apply]
    by_cases hq : q = r
    · subst hq
      simp
    · simp [hq]

/-- **A function that saves its registers.** If its frame is still there and the registers are those
it had after the push, it returns to its caller with the registers as they were. -/
theorem ldmiaPc_stmdb {c t : Context} {m m' : Ram} {rs : List Reg}
    (husr : t.usr = (c.stmdb m (rs ++ [14])).1.usr)
    (hframe : loadMany m' (t.usr 13) (rs.length + 1) = (rs ++ [14]).map c.usr) :
    t.ldmiaPc m' rs = ⟨t.psr, c.usr 14, c.usr⟩ := by
  rw [loadMany_succ, List.map_append] at hframe
  obtain ⟨hregs, hpc⟩ := List.append_inj hframe (by rw [length_loadMany, List.length_map])
  have hpc : m' (word (t.usr 13) rs.length) = c.usr 14 := List.singleton_inj.mp hpc
  have hsp : word (t.usr 13) (rs.length + 1) = c.usr 13 := by
    have hlen : (rs ++ [(14 : Reg)]).length = rs.length + 1 := by simp
    rw [husr, ← hlen, usr_stmdb_sp]
    exact Cpu.sp_ldmia_stmdb _ _
  rw [ldmiaPc, hregs, hpc, hsp]
  refine congrArg (Context.mk t.psr _) (funext fun q ↦ ?_)
  rw [Function.update_apply]
  split_ifs with hq
  · rw [hq]
  · rw [foldl_update_zip, husr]
    split_ifs
    · rfl
    · exact Function.update_of_ne hq _ _

end Context

end Arm
