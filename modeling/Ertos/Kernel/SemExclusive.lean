import Ertos.Basis.Exclusive
import Ertos.Kernel.Sem

/-!
# The instructions of a semaphore

`sem_try_down` and `sem_up` of `arch/sem.S`, instruction by instruction: each loads the value with
`ldrex` and stores it with `strex`, and other processes may run in between. Only these two
instructions touch what processes share, so a step is one of them, with the instructions on
registers behind it. The kernel does not clear the monitor of the processor when it switches to
another process.

As long as no `strex` goes through on the `ldrex` of another process, the two functions are the ones
of `Sem`, but that `sem_try_down` may fail without need; and at most one process is inside. On the
`ldrex` of another process the `strex` goes through whatever has been stored meanwhile. So any two
processes can both come to be inside, however the run began: one of them has loaded the value before
the other one locks the semaphore.
-/

namespace Ertos

open Exclusive Transition

/-! ## Steps -/

/-- Where a process is. -/
inductive InsnPc
  | outside
  /-- In `sem_try_down`, behind `ldrex`. -/
  | loaded
  /-- `sem_try_down` has returned one. -/
  | failed
  /-- `sem_try_down` has returned zero. -/
  | inside
  /-- At `.Lretry` of `sem_up`, behind a `strex` that failed. -/
  | retry
  /-- In `sem_up`, behind `ldrex`. -/
  | unlocking
  deriving DecidableEq

namespace InsnPc

/-- The process has locked the semaphore and not yet unlocked it. -/
def Holds (c : InsnPc) : Prop := c = .inside ∨ c = .retry ∨ c = .unlocking

instance (c : InsnPc) : Decidable c.Holds := inferInstanceAs (Decidable (_ ∨ _))

end InsnPc

structure InsnState where
  sem : Sem
  /-- Who has set the monitor. -/
  monitor : Option Ptr
  /-- What the last `ldrex` of a process has put into `r0`. -/
  r0 : Ptr → ℤ
  pc : Ptr → InsnPc

inductive Insn
  /-- `ldrex` of `sem_try_down`. -/
  | downLoad (p : Ptr)
  /-- `cmp`, and `strexne` of `sem_try_down` if the value is not zero. -/
  | downStore (p : Ptr)
  /-- `ldrex` of `sem_up`. -/
  | upLoad (p : Ptr)
  /-- `strex` of `sem_up`. -/
  | upStore (p : Ptr)

namespace InsnState

/-- `sem->cur` and the monitor. -/
def word (s : InsnState) : Word Ptr ℤ := ⟨s.sem.cur, s.monitor, s.r0⟩

def setWord (s : InsnState) (w : Word Ptr ℤ) : InsnState :=
  { s with sem := { s.sem with cur := w.val }, monitor := w.monitor, r0 := w.loaded }

def goto (s : InsnState) (p : Ptr) (c : InsnPc) : InsnState :=
  { s with pc := Function.update s.pc p c }

def downLoad (s : InsnState) (p : Ptr) : InsnState := (s.setWord (s.word.load p)).goto p .loaded

def downStore (s : InsnState) (p : Ptr) : InsnState :=
  if s.r0 p ≠ 0 then
    let (ok, w) := s.word.store 0
    (s.setWord w).goto p (if ok then .inside else .failed)
  else s.goto p .failed

def upLoad (s : InsnState) (p : Ptr) : InsnState := (s.setWord (s.word.load p)).goto p .unlocking

def upStore (s : InsnState) (p : Ptr) : InsnState :=
  let (ok, w) := s.word.store 1
  (s.setWord w).goto p (if ok then .outside else .retry)

end InsnState

inductive InsnStep (s : InsnState) : Insn → InsnState → Prop
  | downLoad {p : Ptr} (hpc : s.pc p = .outside ∨ s.pc p = .failed) :
      InsnStep s (.downLoad p) (s.downLoad p)
  | downStore {p : Ptr} (hpc : s.pc p = .loaded) : InsnStep s (.downStore p) (s.downStore p)
  | upLoad {p : Ptr} (hpc : s.pc p ≠ .loaded ∧ s.pc p ≠ .unlocking) :
      InsnStep s (.upLoad p) (s.upLoad p)
  | upStore {p : Ptr} (hpc : s.pc p = .unlocking) : InsnStep s (.upStore p) (s.upStore p)

/-- What an instruction does to the word. -/
def Insn.op (s : InsnState) : Insn → WordOp Ptr ℤ
  | .downLoad p | .upLoad p => .load p
  | .downStore p => if s.r0 p ≠ 0 then .store p 0 else .idle
  | .upStore p => .store p 1

/-- Nobody is in one of the functions, and the semaphore is as `sem_init` leaves it. -/
structure InsnStart (s : InsnState) : Prop where
  sem : s.sem = semInit 1 1
  monitor : s.monitor = none
  outside : ∀ p, s.pc p = .outside

/-- No `strex` goes through on the `ldrex` of another process. -/
def OwnReservation (s : InsnState) (i : Insn) : Prop := s.word.Owned (i.op s)

/-- Only who has locked the semaphore unlocks it. -/
def UpByHolder (s : InsnState) : Insn → Prop
  | .upLoad p => (s.pc p).Holds
  | _ => True

/-- A step in a run in which only the holder unlocks. -/
def HolderStep (s : InsnState) (i : Insn) (t : InsnState) : Prop := InsnStep s i t ∧ UpByHolder s i

/-- At most one process holds the semaphore. -/
def Exclusion (s : InsnState) : Prop := ∀ p q, (s.pc p).Holds → (s.pc q).Holds → p = q

/-- A `sem_try_down` that succeeds and a `sem_up` that returns act as the functions, and nothing
else changes the semaphore. -/
inductive AsFunctions (s : InsnState) : Insn → InsnState → Prop
  | down {p : Ptr} {t : InsnState} (hpc : t.pc p = .inside) (h : semTryDown s.sem = (0, t.sem)) :
      AsFunctions s (.downStore p) t
  | failed {p : Ptr} {t : InsnState} (hpc : t.pc p = .failed) (h : t.sem = s.sem) :
      AsFunctions s (.downStore p) t
  | up {p : Ptr} {t : InsnState} (hpc : t.pc p = .outside) (h : t.sem = semUp s.sem) :
      AsFunctions s (.upStore p) t
  | retry {p : Ptr} {t : InsnState} (hpc : t.pc p = .retry) (h : t.sem = s.sem) :
      AsFunctions s (.upStore p) t
  | load {i : Insn} {t : InsnState} {p : Ptr} (hi : i = .downLoad p ∨ i = .upLoad p)
      (h : t.sem = s.sem) : AsFunctions s i t

/-! ## One step -/

section Step

variable {s t : InsnState} {i : Insn} {p q : Ptr}

theorem pc_goto (s : InsnState) (p q : Ptr) (c : InsnPc) :
    (s.goto p c).pc q = if q = p then c else s.pc q := by
  unfold InsnState.goto
  by_cases h : q = p <;> simp [h]

@[simp] theorem sem_goto (s : InsnState) (p : Ptr) (c : InsnPc) : (s.goto p c).sem = s.sem := rfl

@[simp] theorem word_goto (s : InsnState) (p : Ptr) (c : InsnPc) : (s.goto p c).word = s.word := rfl

@[simp] theorem word_setWord (s : InsnState) (w : Word Ptr ℤ) : (s.setWord w).word = w := rfl

@[simp] theorem pc_setWord (s : InsnState) (w : Word Ptr ℤ) : (s.setWord w).pc = s.pc := rfl

@[simp] theorem setWord_word (s : InsnState) : s.setWord s.word = s := rfl

theorem downStore_cases (s : InsnState) (p : Ptr) :
    (s.r0 p ≠ 0 ∧ s.word.monitor.isSome ∧
        s.downStore p = (s.setWord ⟨0, none, s.r0⟩).goto p .inside) ∨
      ((s.r0 p = 0 ∨ s.word.monitor = none) ∧ s.downStore p = s.goto p .failed) := by
  unfold InsnState.downStore
  by_cases hr0 : s.r0 p = 0
  · exact Or.inr ⟨Or.inl hr0, if_neg fun h ↦ h hr0⟩
  · rw [if_pos hr0]
    cases hm : s.word.monitor with
    | none =>
      rw [Word.store_of_eq_none hm]
      exact Or.inr ⟨Or.inr rfl, rfl⟩
    | some q =>
      rw [Word.store_of_isSome (Option.isSome_of_eq_some hm)]
      exact Or.inl ⟨hr0, rfl, rfl⟩

theorem upStore_cases (s : InsnState) (p : Ptr) :
    (s.word.monitor.isSome ∧ s.upStore p = (s.setWord ⟨1, none, s.r0⟩).goto p .outside) ∨
      (s.word.monitor = none ∧ s.upStore p = s.goto p .retry) := by
  unfold InsnState.upStore
  cases hm : s.word.monitor with
  | none =>
    rw [Word.store_of_eq_none hm]
    exact Or.inr ⟨rfl, rfl⟩
  | some q =>
    rw [Word.store_of_isSome (Option.isSome_of_eq_some hm)]
    exact Or.inl ⟨rfl, rfl⟩

theorem InsnStep.word (h : InsnStep s i t) : t.word = s.word.apply (i.op s) := by
  cases h with
  | downLoad | upLoad => rfl
  | @downStore p hpc =>
    rcases downStore_cases s p with ⟨hr0, hset, heq⟩ | ⟨hor, heq⟩
    · rw [heq, word_goto, word_setWord, Insn.op, if_pos hr0, Word.apply, Word.store_of_isSome hset]
      rfl
    · rw [heq, word_goto, Insn.op]
      rcases hor with hr0 | hnone
      · rw [if_neg fun h ↦ h hr0]
        rfl
      · split
        · rw [Word.apply, Word.store_of_eq_none hnone]
        · rfl
  | @upStore p hpc =>
    rcases upStore_cases s p with ⟨hset, heq⟩ | ⟨hnone, heq⟩
    · rw [heq, word_goto, word_setWord, Insn.op, Word.apply, Word.store_of_isSome hset]
      rfl
    · rw [heq, word_goto, Insn.op, Word.apply, Word.store_of_eq_none hnone]

/-- The value is zero exactly while a process holds the semaphore, and at most one does. -/
structure InsnInv (s : InsnState) : Prop where
  exclusion : Exclusion s
  locked : ∀ p, (s.pc p).Holds → s.sem.cur = 0
  unlocked : s.sem.cur = 0 → ∃ p, (s.pc p).Holds

theorem InsnStart.inv (h : InsnStart s) : InsnInv s where
  exclusion := fun p _ hp ↦ absurd hp (by rw [h.outside p]; decide)
  locked := fun p hp ↦ absurd hp (by rw [h.outside p]; decide)
  unlocked := fun hcur ↦ absurd hcur (by rw [h.sem]; decide)

/-- A step of `p` that leaves the value alone, and lets `p` hold what it has held. -/
theorem InsnInv.goto {u : InsnState} {c : InsnPc} (h : InsnInv s) (hsem : u.sem = s.sem)
    (hpc : u.pc = s.pc) (hc : c.Holds ↔ (s.pc p).Holds) : InsnInv (u.goto p c) := by
  have hholds : ∀ q, ((u.goto p c).pc q).Holds ↔ (s.pc q).Holds := by
    intro q
    rw [pc_goto, hpc]
    split_ifs with hqp
    · rw [hqp, hc]
    · exact Iff.rfl
  refine ⟨fun q q' hq hq' ↦ h.exclusion q q' ((hholds q).mp hq) ((hholds q').mp hq'), fun q hq ↦ ?_,
    fun hcur ↦ ?_⟩
  · rw [sem_goto, hsem]
    exact h.locked q ((hholds q).mp hq)
  · rw [sem_goto, hsem] at hcur
    obtain ⟨q, hq⟩ := h.unlocked hcur
    exact ⟨q, (hholds q).mpr hq⟩

theorem not_holds_of_eq {c : InsnPc} (hp : s.pc p = c) (hc : ¬c.Holds) : ¬(s.pc p).Holds := by
  rwa [hp]

/-- **One step** on reservations of one's own. -/
theorem InsnInv.step (h : InsnInv s) (hfresh : s.word.Fresh (i.op s)) (hup : UpByHolder s i)
    (hst : InsnStep s i t) : InsnInv t ∧ AsFunctions s i t := by
  cases hst with
  | @downLoad p hpc =>
    have hp : ¬(s.pc p).Holds := by
      rcases hpc with hpc | hpc
      · exact not_holds_of_eq hpc (by decide)
      · exact not_holds_of_eq hpc (by decide)
    exact ⟨h.goto rfl rfl (iff_of_false (by decide) hp), .load (Or.inl rfl) rfl⟩
  | @upLoad p hpc =>
    exact ⟨h.goto rfl rfl (iff_of_true (by decide) hup), .load (Or.inr rfl) rfl⟩
  | @downStore p hpc =>
    rcases downStore_cases s p with ⟨hr0, hset, heq⟩ | ⟨hor, heq⟩
    · have hop : Insn.op s (.downStore p) = .store p 0 := if_pos hr0
      rw [hop] at hfresh
      -- the value is the one loaded, so nobody holds the semaphore
      have hcur : s.sem.cur ≠ 0 := fun hcur ↦ hr0 ((hfresh hset).trans hcur)
      have hnone : ∀ q, ¬(s.pc q).Holds := fun q hq ↦ hcur (h.locked q hq)
      have honly : ∀ q, ((s.downStore p).pc q).Holds → q = p := by
        intro q hq
        rw [heq, pc_goto, pc_setWord] at hq
        split_ifs at hq with hqp
        · exact hqp
        · exact absurd hq (hnone q)
      have hinside : (s.downStore p).pc p = .inside := by rw [heq, pc_goto, if_pos rfl]
      refine ⟨⟨fun q q' hq hq' ↦ (honly q hq).trans (honly q' hq').symm, fun q hq ↦ ?_,
        fun _ ↦ ⟨p, Or.inl hinside⟩⟩, .down hinside ?_⟩
      · rw [heq]
        rfl
      · rw [semTryDown, if_pos hcur, heq]
        rfl
    · rw [heq]
      refine ⟨h.goto rfl rfl (iff_of_false (by decide) (not_holds_of_eq hpc (by decide))),
        .failed ?_ rfl⟩
      rw [pc_goto, if_pos rfl]
  | @upStore p hpc =>
    have hp : (s.pc p).Holds := by rw [hpc]; decide
    rcases upStore_cases s p with ⟨hset, heq⟩ | ⟨hnone, heq⟩
    · have hnone : ∀ q, ¬((s.upStore p).pc q).Holds := by
        intro q hq
        rw [heq, pc_goto, pc_setWord] at hq
        split_ifs at hq with hqp
        · exact absurd hq (by decide)
        · exact hqp (h.exclusion q p hq hp)
      have hone : (s.upStore p).sem.cur = 1 := by
        rw [heq]
        rfl
      refine ⟨⟨fun q _ hq ↦ absurd hq (hnone q), fun q hq ↦ absurd hq (hnone q),
        fun hcur ↦ absurd (hone.symm.trans hcur) (by decide)⟩, .up ?_ ?_⟩
      · rw [heq, pc_goto, if_pos rfl]
      · rw [heq]
        rfl
    · rw [heq]
      refine ⟨h.goto rfl rfl (iff_of_true (by decide) hp), .retry ?_ rfl⟩
      rw [pc_goto, if_pos rfl]

end Step

/-! ## Two processes inside -/

section Continuation

variable {s : InsnState} {p : Ptr}

theorem leads_upLoad (hp : s.pc p = .inside ∨ s.pc p = .retry) :
    Leads HolderStep s (s.upLoad p) := by
  have hpc : s.pc p ≠ .loaded ∧ s.pc p ≠ .unlocking := by
    rcases hp with hp | hp <;> rw [hp] <;> decide
  have hup : (s.pc p).Holds := by
    rcases hp with hp | hp <;> rw [hp] <;> decide
  exact .single (show HolderStep s (.upLoad p) _ from ⟨.upLoad hpc, hup⟩)

theorem leads_upStore (hp : s.pc p = .unlocking) : Leads HolderStep s (s.upStore p) :=
  .single (show HolderStep s (.upStore p) _ from ⟨.upStore hp, trivial⟩)

theorem leads_downLoad (hp : s.pc p = .outside ∨ s.pc p = .failed) :
    Leads HolderStep s (s.downLoad p) :=
  .single (show HolderStep s (.downLoad p) _ from ⟨.downLoad hp, trivial⟩)

theorem leads_downStore (hp : s.pc p = .loaded) : Leads HolderStep s (s.downStore p) :=
  .single (show HolderStep s (.downStore p) _ from ⟨.downStore hp, trivial⟩)

theorem exists_up (hp : s.pc p = .inside ∨ s.pc p = .retry) :
    ∃ t, Leads HolderStep s t ∧ t.pc = Function.update s.pc p .outside ∧ t.sem.cur = 1 := by
  have hpc : (s.upLoad p).pc p = .unlocking := by rw [InsnState.upLoad, pc_goto, if_pos rfl]
  refine ⟨_, (leads_upLoad hp).trans (leads_upStore hpc), ?_⟩
  rcases upStore_cases (s.upLoad p) p with ⟨-, heq⟩ | ⟨hnone, -⟩
  · rw [heq]
    exact ⟨Function.update_idem _ _ _, rfl⟩
  · exact absurd hnone (Option.some_ne_none p)

theorem exists_released (hp : (s.pc p).Holds) :
    ∃ t, Leads HolderStep s t ∧ t.pc = Function.update s.pc p .outside ∧ t.sem.cur = 1 := by
  rcases hp with hp | hp | hp
  · exact exists_up (Or.inl hp)
  · exact exists_up (Or.inr hp)
  · have hstep := leads_upStore hp
    rcases upStore_cases s p with ⟨-, heq⟩ | ⟨-, heq⟩
    · exact ⟨_, hstep, by rw [heq]; rfl, by rw [heq]; rfl⟩
    · have hretry : (s.upStore p).pc p = .retry := by rw [heq, pc_goto, if_pos rfl]
      obtain ⟨t, ht, hpc, hcur⟩ := exists_up (Or.inr hretry)
      refine ⟨t, hstep.trans ht, ?_, hcur⟩
      rw [hpc, heq]
      exact Function.update_idem _ _ _

theorem exists_inside (hp : s.pc p = .outside ∨ s.pc p = .failed) (hcur : s.sem.cur ≠ 0) :
    ∃ t, Leads HolderStep s t ∧ t.pc = Function.update s.pc p .inside ∧
      ∀ q, q ≠ p → t.r0 q = s.r0 q := by
  have hpc : (s.downLoad p).pc p = .loaded := by rw [InsnState.downLoad, pc_goto, if_pos rfl]
  have hr0 : (s.downLoad p).r0 = Function.update s.r0 p s.sem.cur := rfl
  refine ⟨_, (leads_downLoad hp).trans (leads_downStore hpc), ?_⟩
  rcases downStore_cases (s.downLoad p) p with ⟨-, -, heq⟩ | ⟨hor, -⟩
  · rw [heq]
    exact ⟨Function.update_idem _ _ _, fun q hq ↦ Function.update_of_ne hq _ _⟩
  · rw [hr0, Function.update_self] at hor
    rcases hor with hzero | hnone
    · exact absurd hzero hcur
    · exact absurd hnone (Option.some_ne_none p)

theorem exists_returned (p : Ptr) (hcur : s.sem.cur ≠ 0) :
    ∃ t c, Leads HolderStep s t ∧ t.pc = Function.update s.pc p c ∧ (c = .outside ∨ c = .failed) ∧
      t.sem.cur ≠ 0 := by
  have hreleased {u : InsnState} (hu : Leads HolderStep s u)
      (hpc : Function.update u.pc p .outside = Function.update s.pc p .outside)
      (hp : (u.pc p).Holds) : ∃ t c, Leads HolderStep s t ∧ t.pc = Function.update s.pc p c ∧
        (c = .outside ∨ c = .failed) ∧ t.sem.cur ≠ 0 := by
    obtain ⟨t, ht, htpc, hone⟩ := exists_released hp
    exact ⟨t, _, hu.trans ht, htpc.trans hpc, Or.inl rfl, by rw [hone]; decide⟩
  cases hp : s.pc p with
  | outside => exact ⟨s, _, .refl s, (Function.update_eq_self p s.pc).symm, Or.inl hp, hcur⟩
  | failed => exact ⟨s, _, .refl s, (Function.update_eq_self p s.pc).symm, Or.inr hp, hcur⟩
  | loaded =>
    have hstep := leads_downStore hp
    rcases downStore_cases s p with ⟨-, -, heq⟩ | ⟨-, heq⟩
    · refine hreleased hstep ?_ ?_
      · rw [heq]
        exact Function.update_idem _ _ _
      · rw [heq, pc_goto, if_pos rfl]
        decide
    · exact ⟨_, .failed, hstep, by rw [heq]; rfl, Or.inr rfl, by rwa [heq]⟩
  | inside => exact hreleased (.refl s) rfl (Or.inl hp)
  | retry => exact hreleased (.refl s) rfl (Or.inr (Or.inl hp))
  | unlocking => exact hreleased (.refl s) rfl (Or.inr (Or.inr hp))

/-- `a` loads the value, `b` locks the semaphore and begins to unlock it, and on the `ldrex` of
`b` the `strex` of `a` goes through. -/
theorem exists_inside_unlocking {a b : Ptr} (hab : a ≠ b)
    (ha : s.pc a = .outside ∨ s.pc a = .failed) (hb : s.pc b = .outside ∨ s.pc b = .failed)
    (hcur : s.sem.cur ≠ 0) :
    ∃ t, Leads HolderStep s t ∧ t.pc a = .inside ∧ t.pc b = .unlocking := by
  have hload := leads_downLoad ha
  have hb₁ : (s.downLoad a).pc b = .outside ∨ (s.downLoad a).pc b = .failed := by
    rwa [InsnState.downLoad, pc_goto, if_neg hab.symm, pc_setWord]
  obtain ⟨t, hlock, hpc, hr0⟩ := exists_inside hb₁ (show (s.downLoad a).sem.cur ≠ 0 from hcur)
  have hb₂ : t.pc b = .inside := by rw [hpc, Function.update_self]
  have hunlock := leads_upLoad (Or.inl hb₂)
  have ha₃ : (t.upLoad b).pc a = .loaded := by
    rw [InsnState.upLoad, pc_goto, if_neg hab, pc_setWord, hpc, Function.update_of_ne hab,
      InsnState.downLoad, pc_goto, if_pos rfl]
  have hstore := leads_downStore ha₃
  have hloaded : (t.upLoad b).r0 a ≠ 0 := by
    show Function.update t.r0 b t.sem.cur a ≠ 0
    rw [Function.update_of_ne hab, hr0 a hab]
    show Function.update s.r0 a s.sem.cur a ≠ 0
    rwa [Function.update_self]
  refine ⟨_, ((hload.trans hlock).trans hunlock).trans hstore, ?_⟩
  rcases downStore_cases (t.upLoad b) a with ⟨-, -, heq⟩ | ⟨hor, -⟩
  · constructor
    · rw [heq, pc_goto, if_pos rfl]
    · rw [heq, pc_goto, if_neg hab.symm, pc_setWord, InsnState.upLoad, pc_goto, if_pos rfl]
  · rcases hor with hzero | hnone
    · exact absurd hzero hloaded
    · exact absurd hnone (Option.some_ne_none b)

/-- `b` then unlocks what `a` has locked, and locks it again. -/
theorem exists_both_inside (h : InsnInv s) {a b : Ptr} (hab : a ≠ b) :
    ∃ t, Leads HolderStep s t ∧ t.pc a = .inside ∧ t.pc b = .inside := by
  obtain ⟨s₀, hs₀, hcur₀⟩ : ∃ t, Leads HolderStep s t ∧ t.sem.cur ≠ 0 := by
    by_cases hcur : s.sem.cur = 0
    · obtain ⟨q, hq⟩ := h.unlocked hcur
      obtain ⟨t, ht, -, hone⟩ := exists_released hq
      exact ⟨t, ht, by rw [hone]; decide⟩
    · exact ⟨s, .refl s, hcur⟩
  obtain ⟨s₁, c, hs₁, hpc₁, hc, hcur₁⟩ := exists_returned a hcur₀
  obtain ⟨s₂, d, hs₂, hpc₂, hd, hcur₂⟩ := exists_returned b hcur₁
  have ha₂ : s₂.pc a = .outside ∨ s₂.pc a = .failed := by
    rwa [hpc₂, Function.update_of_ne hab, hpc₁, Function.update_self]
  have hb₂ : s₂.pc b = .outside ∨ s₂.pc b = .failed := by rwa [hpc₂, Function.update_self]
  obtain ⟨s₃, hs₃, ha₃, hb₃⟩ := exists_inside_unlocking hab ha₂ hb₂ hcur₂
  obtain ⟨s₄, hs₄, hpc₄, hone⟩ := exists_released (Or.inr (Or.inr hb₃))
  have hb₄ : s₄.pc b = .outside := by rw [hpc₄, Function.update_self]
  obtain ⟨s₅, hs₅, hpc₅, -⟩ := exists_inside (Or.inl hb₄) (by rw [hone]; decide)
  refine ⟨s₅, ((((hs₀.trans hs₁).trans hs₂).trans hs₃).trans hs₄).trans hs₅, ?_, ?_⟩
  · rw [hpc₅, Function.update_of_ne hab, hpc₄, Function.update_of_ne hab, ha₃]
  · rw [hpc₅, Function.update_self]

end Continuation

/-! ## Runs -/

theorem always_insnInv {s : InsnState} (hs : InsnStart s) {r : List (Insn × InsnState)}
    (hrun : IsRun InsnStep s r) (hr : Guarded OwnReservation s r) (hup : Guarded UpByHolder s r) :
    Always InsnInv s r ∧ IsRun AsFunctions s r := by
  have hknown : s.word.Known := fun p hp ↦ absurd (hs.monitor.symm.trans hp) (by simp)
  have hfresh : Guarded (fun s i ↦ s.word.Fresh (i.op s)) s r :=
    fresh_of_guarded InsnState.word Insn.op (fun _ _ _ ↦ InsnStep.word) hknown hrun hr
  have hboth := hfresh.and hup
  exact ⟨always_of_guarded (fun _ _ _ h hg hst ↦ (h.step hg.1 hg.2 hst).1) hs.inv hrun hboth,
    isRun_of_guarded (fun _ _ _ h hg hst ↦ (h.step hg.1 hg.2 hst).1)
      (fun _ _ _ h hg hst ↦ (h.step hg.1 hg.2 hst).2) hs.inv hrun hboth⟩

/-- **The semaphore, instruction by instruction.** For any number of processes and every
interleaving of the instructions of `sem_try_down` and `sem_up` on a semaphore initialised to one,
which only its holder unlocks, and in which no `strex` goes through on the `ldrex` of another
process: each `sem_try_down` that succeeds and each `sem_up` that returns changes the semaphore as
the whole function does, nothing else changes it, and at most one process holds it. And the
condition is needed: every such run goes on, without it, to a state in which any two processes one
likes have both locked the semaphore. -/
theorem semInsns_refine {s : InsnState} (hs : InsnStart s) {r : List (Insn × InsnState)}
    (hrun : IsRun InsnStep s r) (hr : Guarded OwnReservation s r) (hup : Guarded UpByHolder s r) :
    IsRun AsFunctions s r ∧ Always Exclusion s r ∧
      ∀ a b, a ≠ b → ∃ t, Leads HolderStep (last s r) t ∧ t.pc a = .inside ∧ t.pc b = .inside := by
  obtain ⟨hinv, hfun⟩ := always_insnInv hs hrun hr hup
  exact ⟨hfun, hinv.imp fun _ h ↦ h.exclusion, fun _ _ ↦ exists_both_inside hinv.last⟩

/-- No process has called `sem_try_down` yet. -/
def insnExample : InsnState where
  sem := semInit 1 1
  monitor := none
  r0 := fun _ ↦ 0
  pc := fun _ ↦ .outside

/-- Process 1 is interrupted behind its `ldrex`, and process 2 locks the semaphore. -/
def reservedRun : List (Insn × InsnState) :=
  let s := insnExample.downLoad 1
  let t := s.downLoad 2
  [(.downLoad 1, s), (.downLoad 2, t), (.downStore 2, t.downStore 2)]

/-- Process 1 can still come in. -/
theorem semInsns_refine_reserved : IsRun AsFunctions insnExample reservedRun ∧
    Always Exclusion insnExample reservedRun ∧
      ∃ t, Leads HolderStep (last insnExample reservedRun) t ∧ t.pc 1 = .inside ∧
        t.pc 2 = .inside := by
  have hstart : InsnStart insnExample := ⟨rfl, rfl, fun _ ↦ rfl⟩
  have hrun : IsRun InsnStep insnExample reservedRun :=
    ⟨.downLoad (Or.inl rfl), .downLoad (Or.inl rfl), .downStore rfl, trivial⟩
  have hr : Guarded OwnReservation insnExample reservedRun := by
    refine ⟨trivial, trivial, fun q hq ↦ ?_, trivial⟩
    exact (Option.some.inj hq).symm
  have hup : Guarded UpByHolder insnExample reservedRun := ⟨trivial, trivial, trivial, trivial⟩
  obtain ⟨hfun, hex, hneed⟩ := semInsns_refine hstart hrun hr hup
  exact ⟨hfun, hex, hneed 1 2 (by decide)⟩

end Ertos
