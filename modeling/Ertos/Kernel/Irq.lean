import Ertos.Basis.Transition
import Mathlib.Data.Int.Notation
import Mathlib.Logic.Function.Basic
import Mathlib.Tactic.Common

/-!
# Vectored interrupts

`register_irq_handler` of `irq.c` looks for a free vector among the 16 slots of an interrupt
controller and stores the handler there. The slots are 32-bit registers at successive words.
`init_interrupts` clears them by addresses that it computes as integers, `4 * i` bytes behind the
first one. `register_irq_handler` adds the same `i * 4` to a pointer to words, and arrives `16 * i`
bytes behind it.

So of the slots it finds only every fourth. Behind the last one it reads a zero, takes it for a free
slot and reports success, and the handler is lost.
-/

namespace Ertos

open Transition

/-! ## Registers -/

/-- The two interrupt controllers. -/
inductive Vic
  | vic1
  | vic2
  deriving DecidableEq

namespace Vic

def base : Vic → ℕ
  | vic1 => 0x800B0000
  | vic2 => 0x800C0000

def intSelect (v : Vic) : ℕ := v.base + 0x000C

def vectAddr0 (v : Vic) : ℕ := v.base + 0x0100

def vectCntl0 (v : Vic) : ℕ := v.base + 0x0200

def itcr (v : Vic) : ℕ := v.base + 0x0300

/-- The addresses of the 16 slots. -/
def vectAddr (v : Vic) (k : ℕ) : ℕ := v.vectAddr0 + 4 * k

def vectCntl (v : Vic) (k : ℕ) : ℕ := v.vectCntl0 + 4 * k

/-- Behind the slots. -/
def Beyond (v : Vic) (a : ℕ) : Prop :=
  v.vectAddr0 + 64 ≤ a ∧ a < v.vectCntl0 ∨ v.vectCntl0 + 64 ≤ a ∧ a < v.itcr

instance (v : Vic) (a : ℕ) : Decidable (v.Beyond a) :=
  inferInstanceAs (Decidable
    (v.vectAddr0 + 64 ≤ a ∧ a < v.vectCntl0 ∨ v.vectCntl0 + 64 ≤ a ∧ a < v.itcr))

end Vic

/-- The contents of the registers, by address. -/
abbrev VicRegs := ℕ → UInt32

/-- There is no register at `a`. -/
def NoRegister (a : ℕ) : Prop := Vic.vic1.Beyond a ∨ Vic.vic2.Beyond a

instance (a : ℕ) : Decidable (NoRegister a) :=
  inferInstanceAs (Decidable (Vic.vic1.Beyond a ∨ Vic.vic2.Beyond a))

def inl (r : VicRegs) (a : ℕ) : UInt32 := if NoRegister a then 0 else r a

def outl (r : VicRegs) (a : ℕ) (v : UInt32) : VicRegs :=
  if NoRegister a then r else Function.update r a v

/-- Adding to a pointer to words. -/
def wordPtrAdd (p n : ℕ) : ℕ := p + 4 * n

/-! ## The functions -/

/-- The loop of `init_interrupts` that disables all vectored interrupts, from the `i`-th slot on. -/
def disableVectors : ℕ → ℕ → VicRegs → VicRegs
  | 0, _, r => r
  | n + 1, i, r =>
    let r := outl r (Vic.vic1.vectCntl0 + i * 4) 0
    let r := outl r (Vic.vic1.vectAddr0 + i * 4) 0
    let r := outl r (Vic.vic2.vectCntl0 + i * 4) 0
    let r := outl r (Vic.vic2.vectAddr0 + i * 4) 0
    disableVectors n (i + 1) r

/-- The registers that `init_interrupts` leaves. -/
def initVectors (r : VicRegs) : VicRegs := disableVectors 16 0 r

def intEnable : UInt32 := 32

/-- The loop of `register_irq_handler`, with `n` slots to go from the `i`-th on. -/
def openVector (r : VicRegs) (addr ctrl : ℕ) (irq handler : UInt32) : ℕ → ℕ → ℤ × VicRegs
  | 0, _ => (-1, r)
  | n + 1, i =>
    if inl r (wordPtrAdd addr (i * 4)) = 0 then
      (0, outl (outl r (wordPtrAdd addr (i * 4)) handler) (wordPtrAdd ctrl (i * 4))
        (irq ||| intEnable))
    else openVector r addr ctrl irq handler n (i + 1)

/-- The part of `register_irq_handler` behind the choice of the controller. -/
def registerVector (r : VicRegs) (v : Vic) (irq handler : UInt32) (fast : Bool) : ℤ × VicRegs :=
  let i := inl r v.intSelect
  let i := if fast then i ||| (1 <<< irq) else i &&& ~~~(1 <<< irq)
  let r := outl r v.intSelect i
  openVector r v.vectAddr0 v.vectCntl0 irq handler 16 0

def registerIrqHandler (r : VicRegs) (irq handler : UInt32) (fast : Bool) : ℤ × VicRegs :=
  if irq < 32 then registerVector r .vic1 irq handler fast
  else if irq < 64 then registerVector r .vic2 (irq - 32) handler fast
  else (-1, r)

/-! ## Runs -/

structure IrqCall where
  irq : UInt32
  handler : UInt32
  fast : Bool

/-- The controller of an interrupt, and its number there. -/
def IrqCall.vic (c : IrqCall) : Vic := if c.irq < 32 then .vic1 else .vic2

def IrqCall.line (c : IrqCall) : UInt32 := if c.irq < 32 then c.irq else c.irq - 32

/-- The registers, and for each controller the calls made so far, and those of them that registered
a handler. -/
structure IrqLog where
  regs : VicRegs
  calls : Vic → ℕ
  handlers : Vic → ℕ

/-- The log after a call that left the registers `r`. -/
def IrqLog.next (s : IrqLog) (c : IrqCall) (r : VicRegs) : IrqLog where
  regs := r
  calls := Function.update s.calls c.vic (s.calls c.vic + 1)
  handlers := if c.handler = 0 then s.handlers
    else Function.update s.handlers c.vic (s.handlers c.vic + 1)

/-- A call, with its return code. -/
inductive IrqStep : IrqLog → IrqCall × ℤ → IrqLog → Prop
  | call {s : IrqLog} {c : IrqCall} {rc : ℤ} {r : VicRegs} (hirq : c.irq < 64)
      (h : registerIrqHandler s.regs c.irq c.handler c.fast = (rc, r)) :
      IrqStep s (c, rc) (s.next c r)

/-- After `init_interrupts`. -/
def IrqLog.init (r : VicRegs) : IrqLog := ⟨initVectors r, fun _ ↦ 0, fun _ ↦ 0⟩

/-- The handler is in a slot that was empty, and the other slots are what they were. -/
def InSlot (r : VicRegs) (v : Vic) (line handler : UInt32) (t : VicRegs) : Prop :=
  ∃ k < 16, inl r (v.vectAddr k) = 0 ∧
    inl t (v.vectAddr k) = handler ∧ inl t (v.vectCntl k) = line ||| intEnable ∧
    ∀ u j, j < 16 → ¬(u = v ∧ j = k) →
      inl t (u.vectAddr j) = inl r (u.vectAddr j) ∧ inl t (u.vectCntl j) = inl r (u.vectCntl j)

/-- The law of a call: if it succeeds the handler is in a slot, and the first 16 calls succeed. -/
def IrqLaw (s : IrqLog) (e : IrqCall × ℤ) (t : IrqLog) : Prop :=
  (e.2 = 0 → InSlot s.regs e.1.vic e.1.line e.1.handler t.regs) ∧ (s.calls e.1.vic < 16 → e.2 = 0)

/-! ## Addresses -/

section Address

variable {u v : Vic} {j k : ℕ} {r : VicRegs} {a b : ℕ} {x : UInt32}

theorem inl_outl_of_ne (h : b ≠ a) : inl (outl r a x) b = inl r b := by
  unfold inl outl
  split_ifs
  · rfl
  · rfl
  · exact Function.update_of_ne h _ _

theorem inl_outl_self (h : ¬NoRegister a) : inl (outl r a x) a = x := by
  unfold inl outl
  rw [if_neg h, if_neg h]
  exact Function.update_self _ _ _

theorem outl_of_noRegister (h : NoRegister a) : outl r a x = r := if_pos h

theorem inl_of_noRegister (h : NoRegister a) : inl r a = 0 := if_pos h

/-- Of the places that the loop looks at, only the slots are registers. -/
theorem noRegister_vectAddr_iff (v : Vic) (hk : k < 64) : NoRegister (v.vectAddr k) ↔ 16 ≤ k := by
  cases v <;> simp only [NoRegister, Vic.Beyond, Vic.vectAddr, Vic.vectAddr0, Vic.vectCntl0,
    Vic.itcr, Vic.base] <;> omega

theorem noRegister_vectCntl_iff (v : Vic) (hk : k < 64) : NoRegister (v.vectCntl k) ↔ 16 ≤ k := by
  cases v <;> simp only [NoRegister, Vic.Beyond, Vic.vectCntl, Vic.vectAddr0, Vic.vectCntl0,
    Vic.itcr, Vic.base] <;> omega

theorem vectAddr_register (v : Vic) (hk : k < 16) : ¬NoRegister (v.vectAddr k) := fun h ↦
  Nat.not_le_of_lt hk ((noRegister_vectAddr_iff v (by omega)).mp h)

theorem vectCntl_register (v : Vic) (hk : k < 16) : ¬NoRegister (v.vectCntl k) := fun h ↦
  Nat.not_le_of_lt hk ((noRegister_vectCntl_iff v (by omega)).mp h)

theorem vectAddr_noRegister (v : Vic) (hk : 16 ≤ k) (hk' : k < 64) : NoRegister (v.vectAddr k) :=
  (noRegister_vectAddr_iff v hk').mpr hk

theorem vectCntl_noRegister (v : Vic) (hk : 16 ≤ k) (hk' : k < 64) : NoRegister (v.vectCntl k) :=
  (noRegister_vectCntl_iff v hk').mpr hk

theorem vectAddr_inj (hj : j < 16) (hk : k < 16) (h : u.vectAddr j = v.vectAddr k) :
    u = v ∧ j = k := by
  cases u <;> cases v <;> simp only [Vic.vectAddr, Vic.vectAddr0, Vic.base] at h <;>
    simp <;> omega

theorem vectCntl_inj (hj : j < 16) (hk : k < 16) (h : u.vectCntl j = v.vectCntl k) :
    u = v ∧ j = k := by
  cases u <;> cases v <;> simp only [Vic.vectCntl, Vic.vectCntl0, Vic.base] at h <;>
    simp <;> omega

theorem vectAddr_ne_vectCntl (u v : Vic) (hj : j < 16) (hk : k < 16) :
    u.vectAddr j ≠ v.vectCntl k := by
  cases u <;> cases v <;> simp only [Vic.vectAddr, Vic.vectCntl, Vic.vectAddr0, Vic.vectCntl0,
    Vic.base] <;> omega

theorem vectAddr_ne_intSelect (u v : Vic) (hj : j < 16) : u.vectAddr j ≠ v.intSelect := by
  cases u <;> cases v <;> simp only [Vic.vectAddr, Vic.vectAddr0, Vic.intSelect, Vic.base] <;> omega

theorem vectCntl_ne_intSelect (u v : Vic) (hj : j < 16) : u.vectCntl j ≠ v.intSelect := by
  cases u <;> cases v <;> simp only [Vic.vectCntl, Vic.vectCntl0, Vic.intSelect, Vic.base] <;> omega

end Address

/-! ## What the functions do -/

theorem inl_outl_zero {r : VicRegs} {a b : ℕ} (h : inl r b = 0) : inl (outl r a 0) b = 0 := by
  by_cases hb : b = a
  · by_cases ha : NoRegister b
    · exact inl_of_noRegister ha
    · rw [← hb, inl_outl_self ha]
  · rw [inl_outl_of_ne hb, h]

theorem inl_disableVectors {n i a : ℕ} {r : VicRegs} (h : inl r a = 0) :
    inl (disableVectors n i r) a = 0 := by
  induction n generalizing i r with
  | zero => exact h
  | succ n ih =>
    exact ih (inl_outl_zero (inl_outl_zero (inl_outl_zero (inl_outl_zero h))))

theorem disableVectors_spec {n i : ℕ} (r : VicRegs) (hn : i + n ≤ 16) (v : Vic) {k : ℕ} (hk : i ≤ k)
    (hk' : k < i + n) : inl (disableVectors n i r) (v.vectAddr k) = 0 ∧
      inl (disableVectors n i r) (v.vectCntl k) = 0 := by
  induction n generalizing i r with
  | zero => omega
  | succ n ih =>
    rcases Nat.lt_or_ge i k with hlt | hge
    · exact ih _ (by omega) hlt (by omega)
    · obtain rfl : i = k := by omega
      have haddr : ∀ r, inl (outl r (v.vectAddr i) 0) (v.vectAddr i) = 0 :=
        fun r ↦ inl_outl_self (vectAddr_register v (by omega))
      have hcntl : ∀ r, inl (outl r (v.vectCntl i) 0) (v.vectCntl i) = 0 :=
        fun r ↦ inl_outl_self (vectCntl_register v (by omega))
      rw [disableVectors]
      simp only [Nat.mul_comm i 4]
      cases v with
      | vic1 =>
        exact ⟨inl_disableVectors (inl_outl_zero (inl_outl_zero (haddr _))),
          inl_disableVectors (inl_outl_zero (inl_outl_zero (inl_outl_zero (hcntl _))))⟩
      | vic2 =>
        exact ⟨inl_disableVectors (haddr _), inl_disableVectors (inl_outl_zero (hcntl _))⟩

/-- The loop stops at the first of every fourth slot that reads zero. -/
theorem openVector_of_first {r : VicRegs} {v : Vic} (irq handler : UInt32) {i : ℕ}
    (hzero : inl r (v.vectAddr (i * 4)) = 0)
    (hfirst : ∀ j < i, inl r (v.vectAddr (j * 4)) ≠ 0) {n j : ℕ} (hj : j ≤ i) (hn : i < j + n) :
    openVector r v.vectAddr0 v.vectCntl0 irq handler n j =
      (0, outl (outl r (v.vectAddr (i * 4)) handler) (v.vectCntl (i * 4)) (irq ||| intEnable)) := by
  induction n generalizing j with
  | zero => omega
  | succ n ih =>
    rcases Nat.lt_or_ge j i with hlt | hge
    · have hnext : openVector r v.vectAddr0 v.vectCntl0 irq handler (n + 1) j
          = openVector r v.vectAddr0 v.vectCntl0 irq handler n (j + 1) := if_neg (hfirst j hlt)
      rw [hnext]
      exact ih hlt (by omega)
    · obtain rfl : j = i := by omega
      exact if_pos hzero

/-- The same slots in `t` as in `r`. -/
def SameSlots (r t : VicRegs) : Prop :=
  ∀ (u : Vic) j, j < 16 →
    inl t (u.vectAddr j) = inl r (u.vectAddr j) ∧ inl t (u.vectCntl j) = inl r (u.vectCntl j)

theorem sameSlots_intSelect (r : VicRegs) (v : Vic) (x : UInt32) :
    SameSlots r (outl r v.intSelect x) := fun u _ hj ↦
  ⟨inl_outl_of_ne (vectAddr_ne_intSelect u v hj), inl_outl_of_ne (vectCntl_ne_intSelect u v hj)⟩

theorem registerIrqHandler_eq {c : IrqCall} (hirq : c.irq < 64) (r : VicRegs) :
    registerIrqHandler r c.irq c.handler c.fast =
      registerVector r c.vic c.line c.handler c.fast := by
  unfold registerIrqHandler IrqCall.vic IrqCall.line
  by_cases h : c.irq < 32
  · simp only [if_pos h]
  · simp only [if_neg h, if_pos hirq]

/-- The write of a vector. -/
def storeVector (r : VicRegs) (v : Vic) (k : ℕ) (line handler : UInt32) : VicRegs :=
  outl (outl r (v.vectAddr k) handler) (v.vectCntl k) (line ||| intEnable)

theorem inl_storeVector_of_ne (r : VicRegs) {u v : Vic} {j k : ℕ} (line handler : UInt32)
    (hj : j < 16) (hk : k < 16) (hne : ¬(u = v ∧ j = k)) :
    inl (storeVector r v k line handler) (u.vectAddr j) = inl r (u.vectAddr j) ∧
      inl (storeVector r v k line handler) (u.vectCntl j) = inl r (u.vectCntl j) := by
  have haddr : u.vectAddr j ≠ v.vectAddr k := fun h ↦ hne (vectAddr_inj hj hk h)
  have hcntl : u.vectCntl j ≠ v.vectCntl k := fun h ↦ hne (vectCntl_inj hj hk h)
  constructor
  · rw [storeVector, inl_outl_of_ne (vectAddr_ne_vectCntl u v hj hk), inl_outl_of_ne haddr]
  · rw [storeVector, inl_outl_of_ne hcntl, inl_outl_of_ne (vectAddr_ne_vectCntl v u hk hj).symm]

theorem inl_storeVector_self {r : VicRegs} {v : Vic} {k : ℕ} {line handler : UInt32} (hk : k < 16) :
    inl (storeVector r v k line handler) (v.vectAddr k) = handler ∧
      inl (storeVector r v k line handler) (v.vectCntl k) = line ||| intEnable := by
  constructor
  · rw [storeVector, inl_outl_of_ne (vectAddr_ne_vectCntl v v hk hk),
      inl_outl_self (vectAddr_register v hk)]
  · exact inl_outl_self (vectCntl_register v hk)

theorem storeVector_of_ge (r : VicRegs) (v : Vic) {k : ℕ} (hk : 16 ≤ k) (hk' : k < 64)
    (line handler : UInt32) : storeVector r v k line handler = r := by
  rw [storeVector, outl_of_noRegister (vectAddr_noRegister v hk hk'),
    outl_of_noRegister (vectCntl_noRegister v hk hk')]

/-! ## The invariant -/

/-- The handlers fill every fourth slot in turn, and no other control register is written. -/
structure IrqLog.Filled (s : IrqLog) : Prop where
  addr : ∀ v, ∀ i < 4, inl s.regs (Vic.vectAddr v (i * 4)) = 0 ↔ s.handlers v ≤ i
  cntl : ∀ v k, k < 16 → k % 4 ≠ 0 → inl s.regs (Vic.vectCntl v k) = 0

theorem filled_init (r : VicRegs) : (IrqLog.init r).Filled where
  addr := fun v i hi ↦
    iff_of_true (disableVectors_spec r (Nat.le_refl 16) v (Nat.zero_le _) (by omega)).1
      (Nat.zero_le i)
  cntl := fun v k hk _ ↦ (disableVectors_spec r (Nat.le_refl 16) v (Nat.zero_le _) (by omega)).2

/-- What a call does: with fewer than four handlers, it fills the next of the slots it looks at;
with more, it does nothing. -/
inductive IrqEffect (s : IrqLog) (c : IrqCall) : VicRegs → Prop
  | stored {r : VicRegs} (hfew : s.handlers c.vic < 4) (hsame : SameSlots s.regs r) :
      IrqEffect s c (storeVector r c.vic (s.handlers c.vic * 4) c.line c.handler)
  | lost {r : VicRegs} (hmany : 4 ≤ s.handlers c.vic) (hsame : SameSlots s.regs r) : IrqEffect s c r

section Step

variable {s : IrqLog} {c : IrqCall} {r : VicRegs} {rc : ℤ}

/-- **One call** succeeds, whether or not it stores the handler. -/
theorem IrqLog.Filled.effect (hs : s.Filled) (hirq : c.irq < 64)
    (hcall : registerIrqHandler s.regs c.irq c.handler c.fast = (rc, r)) :
    rc = 0 ∧ IrqEffect s c r := by
  rw [registerIrqHandler_eq hirq, registerVector] at hcall
  obtain ⟨t, ht, hsame⟩ : ∃ t, (outl s.regs c.vic.intSelect
      (if c.fast then inl s.regs c.vic.intSelect ||| (1 <<< c.line)
        else inl s.regs c.vic.intSelect &&& ~~~(1 <<< c.line)) = t) ∧ SameSlots s.regs t :=
    ⟨_, rfl, sameSlots_intSelect _ _ _⟩
  rw [ht] at hcall
  have haddr : ∀ i < 4, inl t (c.vic.vectAddr (i * 4)) = 0 ↔ s.handlers c.vic ≤ i := by
    intro i hi
    rw [(hsame c.vic (i * 4) (by omega)).1]
    exact hs.addr c.vic i hi
  rcases Nat.lt_or_ge (s.handlers c.vic) 4 with hfew | hmany
  · have hfirst : ∀ j < s.handlers c.vic, inl t (c.vic.vectAddr (j * 4)) ≠ 0 := fun j hj h ↦
      absurd ((haddr j (by omega)).mp h) (Nat.not_le_of_lt hj)
    have hopen := openVector_of_first c.line c.handler (n := 16) (j := 0)
      ((haddr _ hfew).mpr (Nat.le_refl _)) hfirst (Nat.zero_le _) (by omega)
    obtain ⟨hrc, hr⟩ := Prod.mk.inj (hopen.symm.trans hcall)
    exact ⟨hrc.symm, hr ▸ .stored hfew hsame⟩
  · -- the fifth place is behind the slots
    have hfirst : ∀ j < 4, inl t (c.vic.vectAddr (j * 4)) ≠ 0 := fun j hj h ↦
      absurd ((haddr j hj).mp h) (by omega)
    have hopen := openVector_of_first c.line c.handler (n := 16) (j := 0)
      (inl_of_noRegister (vectAddr_noRegister c.vic (k := 4 * 4) (by omega) (by omega))) hfirst
      (Nat.zero_le _) (by omega)
    obtain ⟨hrc, hr⟩ := Prod.mk.inj (hopen.symm.trans hcall)
    have hlost : storeVector t c.vic (4 * 4) c.line c.handler = t :=
      storeVector_of_ge t c.vic (by omega) (by omega) _ _
    exact ⟨hrc.symm, (hlost.symm.trans hr) ▸ .lost hmany hsame⟩

theorem handlers_next (s : IrqLog) (c : IrqCall) (r : VicRegs) (v : Vic) :
    (s.next c r).handlers v
      = if v = c.vic ∧ c.handler ≠ 0 then s.handlers v + 1 else s.handlers v := by
  unfold IrqLog.next
  by_cases hh : c.handler = 0
  · simp [hh]
  · by_cases hv : v = c.vic
    · subst hv
      simp [hh]
    · simp [hh, hv]

theorem IrqLog.Filled.next (hs : s.Filled) (h : IrqEffect s c r) : (s.next c r).Filled := by
  constructor
  · intro v i hi
    rw [handlers_next]
    show inl r (v.vectAddr (i * 4)) = 0 ↔ _
    cases h with
    | @stored t hfew hsame =>
      by_cases hv : v = c.vic ∧ i * 4 = s.handlers c.vic * 4
      · obtain ⟨rfl, hi⟩ := hv
        rw [hi, (inl_storeVector_self (by omega)).1]
        split_ifs with hh
        · exact iff_of_false hh.2 (by omega)
        · exact iff_of_true (not_not.mp fun h ↦ hh ⟨rfl, h⟩) (by omega)
      · rw [(inl_storeVector_of_ne _ _ _ (by omega) (by omega) hv).1, (hsame v _ (by omega)).1,
          hs.addr v i hi]
        split_ifs with hh
        · have hne : i ≠ s.handlers v := fun h ↦ hv ⟨hh.1, by rw [h, hh.1]⟩
          omega
        · rfl
    | lost hmany hsame =>
      rw [(hsame v _ (by omega)).1, hs.addr v i hi]
      split_ifs with hh
      · have := hh.1 ▸ hmany
        omega
      · rfl
  · intro v k hk hmod
    show inl r (v.vectCntl k) = 0
    cases h with
    | stored hfew hsame =>
      rw [(inl_storeVector_of_ne _ _ _ hk (by omega) fun h ↦ by omega).2, (hsame v k hk).2]
      exact hs.cntl v k hk hmod
    | lost hmany hsame =>
      rw [(hsame v k hk).2]
      exact hs.cntl v k hk hmod

theorem or_intEnable_ne_zero (x : UInt32) : x ||| intEnable ≠ 0 := by
  intro h
  have htest := congrArg UInt32.toNat h
  rw [UInt32.toNat_or] at htest
  exact absurd (Nat.le_zero.mp (htest ▸ Nat.right_le_or)) (by decide)

/-- **The handler is in a slot** if and only if the controller has fewer than four. -/
theorem IrqLog.Filled.inSlot_iff (hs : s.Filled) (h : IrqEffect s c r) :
    InSlot s.regs c.vic c.line c.handler r ↔ s.handlers c.vic < 4 := by
  cases h with
  | @stored t hfew hsame =>
    refine iff_of_true ⟨s.handlers c.vic * 4, by omega, ?_, ?_, ?_, fun u j hj hne ↦ ?_⟩ hfew
    · exact (hs.addr c.vic _ hfew).mpr (Nat.le_refl _)
    · exact (inl_storeVector_self (by omega)).1
    · exact (inl_storeVector_self (by omega)).2
    · obtain ⟨haddr, hcntl⟩ := inl_storeVector_of_ne t c.line c.handler hj (by omega) hne
      exact ⟨haddr.trans (hsame u j hj).1, hcntl.trans (hsame u j hj).2⟩
  | lost hmany hsame =>
    refine iff_of_false ?_ (by omega)
    rintro ⟨k, hk, hzero, -, hcntl, -⟩
    -- an empty slot is none of those in use, so its control register is zero
    have hmod : k % 4 ≠ 0 := by
      intro hmod
      have hk4 : k = k / 4 * 4 := by omega
      rw [hk4] at hzero
      have := (hs.addr c.vic (k / 4) (by omega)).mp hzero
      omega
    rw [(hsame c.vic k hk).2, hs.cntl c.vic k hk hmod] at hcntl
    exact or_intEnable_ne_zero _ hcntl.symm

end Step

theorem irqStep_filled (s : IrqLog) (e : IrqCall × ℤ) (t : IrqLog) (hs : s.Filled)
    (h : IrqStep s e t) : t.Filled := by
  obtain ⟨hirq, hcall⟩ := h
  exact hs.next (hs.effect hirq hcall).2

theorem always_filled {regs : VicRegs} {r : List ((IrqCall × ℤ) × IrqLog)}
    (hrun : IsRun IrqStep (.init regs) r) : Always IrqLog.Filled (.init regs) r :=
  always_of_step irqStep_filled (filled_init regs) hrun

/-! ## The theorem -/

/-- **Registration, exactly.** Along every sequence of calls after `init_interrupts`, a call that
succeeds has stored its handler in an empty slot and changed no other, and the first 16 calls for
each controller succeed, if and only if each call comes before four handlers are registered with its
controller. -/
theorem irq_registered_iff (regs : VicRegs) {r : List ((IrqCall × ℤ) × IrqLog)}
    (hrun : IsRun IrqStep (.init regs) r) :
    IsRun IrqLaw (.init regs) r ↔ Guarded (fun s e ↦ s.handlers e.1.vic < 4) (.init regs) r := by
  refine isRun_iff_guarded irqStep_filled ?_ (filled_init regs) hrun
  rintro s e t hs ⟨hirq, hcall⟩
  obtain ⟨hrc, heffect⟩ := hs.effect hirq hcall
  rw [← hs.inSlot_iff heffect]
  exact ⟨fun h ↦ h.1 hrc, fun h ↦ ⟨fun _ ↦ h, fun _ ↦ hrc⟩⟩

/-- The calls, one after the other. -/
def irqRun : IrqLog → List IrqCall → List ((IrqCall × ℤ) × IrqLog)
  | _, [] => []
  | s, c :: cs =>
    let x := registerIrqHandler s.regs c.irq c.handler c.fast
    ((c, x.1), s.next c x.2) :: irqRun (s.next c x.2) cs

theorem isRun_irqRun {s : IrqLog} {cs : List IrqCall} (h : ∀ c ∈ cs, c.irq < 64) :
    IsRun IrqStep s (irqRun s cs) := by
  induction cs generalizing s with
  | nil => trivial
  | cons c cs ih =>
    obtain ⟨hc, hcs⟩ := List.forall_mem_cons.mp h
    exact ⟨.call hc rfl, ih hcs⟩

/-- The handlers of the timer, the UART, the network and USB, all on the second controller. -/
def irqCalls : List IrqCall :=
  [⟨51, 0x100, false⟩, ⟨52, 0x200, false⟩, ⟨39, 0x300, false⟩, ⟨56, 0x400, false⟩]

theorem irq_registered_iff_four :
    IsRun IrqLaw (.init fun _ ↦ 0) (irqRun (.init fun _ ↦ 0) irqCalls) := by
  refine (irq_registered_iff _ (isRun_irqRun (by decide))).mpr ?_
  exact ⟨by decide, by decide, by decide, by decide, trivial⟩

/-- **The fifth handler is lost**: the call returns 0, and no slot has changed. -/
theorem irq_fifth_lost : ∃ t,
    IsRun IrqStep (.init fun _ ↦ 0)
      (irqRun (.init fun _ ↦ 0) irqCalls ++ [((⟨40, 0x500, false⟩, 0), t)]) ∧
    SameSlots (last (.init fun _ ↦ 0) (irqRun (.init fun _ ↦ 0) irqCalls)).regs t.regs ∧
    ¬IsRun IrqLaw (.init fun _ ↦ 0)
      (irqRun (.init fun _ ↦ 0) irqCalls ++ [((⟨40, 0x500, false⟩, 0), t)]) := by
  have hrun : IsRun IrqStep (.init fun _ ↦ 0) (irqRun (.init fun _ ↦ 0) irqCalls) :=
    isRun_irqRun (by decide)
  have hs := (always_filled hrun).last
  have hmany : (last (.init fun _ ↦ 0) (irqRun (.init fun _ ↦ 0) irqCalls)).handlers .vic2 = 4 :=
    rfl
  set s := last (.init fun _ ↦ 0) (irqRun (.init fun _ ↦ 0) irqCalls) with hlast
  obtain ⟨⟨rc, r⟩, hcall⟩ : ∃ x, registerIrqHandler s.regs 40 0x500 false = x := ⟨_, rfl⟩
  obtain ⟨rfl, heffect⟩ := hs.effect (c := ⟨40, 0x500, false⟩) (by decide) hcall
  have hnot : ¬s.handlers (IrqCall.vic ⟨40, 0x500, false⟩) < 4 :=
    Nat.not_lt_of_ge (Nat.le_of_eq hmany.symm)
  refine ⟨s.next ⟨40, 0x500, false⟩ r, isRun_append.mpr ⟨hrun, ?_, trivial⟩, ?_, fun h ↦ ?_⟩
  · rw [← hlast]
    exact .call (by decide) hcall
  · cases heffect with
    | stored hfew => exact absurd hfew hnot
    | lost _ hsame => exact hsame
  · have hlaw := (isRun_append.mp h).2.1.1 rfl
    rw [← hlast] at hlaw
    exact hnot ((hs.inSlot_iff heffect).mp hlaw)

end Ertos
