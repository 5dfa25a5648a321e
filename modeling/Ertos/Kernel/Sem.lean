import Ertos.Sys.List
import Mathlib.Data.Int.Notation

/-!
# Semaphores

`sem_init` and `sem_down` of `kernel/sem.c`, and `sem_try_down` and `sem_up` of `arch/sem.S`. A
semaphore is locked when its value is zero.

When `sem_try_down` fails, `sem_down` puts the process on a wait list and returns: it neither blocks
the process nor is the list read by anyone. And the list node it uses is the one that links the
process into the ring of the scheduler, so with a second process on the list the ring is no longer
one. Both need contention, and without it the semaphore is sound.
-/

namespace Ertos

open Linked Transition

/-! ## The functions -/

/-- `sem_t`, without its name. -/
structure Sem where
  cur : ℤ
  max : ℤ
  wait : Ptr

def semInit (cur max : ℤ) : Sem := ⟨cur, max, NULL⟩

/-- The result is `0` if the semaphore is locked now by the caller. -/
def semTryDown (sem : Sem) : ℤ × Sem := if sem.cur ≠ 0 then (0, { sem with cur := 0 }) else (1, sem)

def semUp (sem : Sem) : Sem := { sem with cur := 1 }

/-- The part of `sem_down` for a process `cur` that could not lock the semaphore. -/
def semEnqueue (sem : Sem) (links : ListHeap) (cur : Ptr) : Sem × ListHeap :=
  if sem.wait ≠ NULL then (sem, listAddAfter links sem.wait cur)
  else ({ sem with wait := cur }, links)

/-! ## Interleavings -/

/-- Where a process is. -/
inductive SemPc
  | outside
  /-- In `sem_down`, behind a `sem_try_down` that failed. -/
  | failed
  /-- Between the return of its `sem_down` and its next `sem_up`. -/
  | inside
  deriving DecidableEq

structure SemState where
  sem : Sem
  links : ListHeap
  /-- Where the scheduler enters the ring of processes. -/
  procs : Ptr
  pc : Ptr → SemPc

inductive SemOp
  | tryDown (p : Ptr)
  | enqueue (p : Ptr)
  | up (p : Ptr)

namespace SemState

def setPc (s : SemState) (p : Ptr) (c : SemPc) :
    SemState := { s with pc := Function.update s.pc p c }

theorem pc_setPc (s : SemState) (p q : Ptr) (c : SemPc) :
    (s.setPc p c).pc q = if q = p then c else s.pc q := by
  unfold setPc
  by_cases h : q = p <;> simp [h]

def tryDown (s : SemState) (p : Ptr) : SemState :=
  { s with sem := (semTryDown s.sem).2 }.setPc p
    (if (semTryDown s.sem).1 = 0 then .inside else .failed)

def enqueue (s : SemState) (p : Ptr) : SemState :=
  { s with
    sem := (semEnqueue s.sem s.links p).1
    links := (semEnqueue s.sem s.links p).2 }.setPc p .inside

def up (s : SemState) (p : Ptr) : SemState := { s with sem := semUp s.sem }.setPc p .outside

end SemState

/-- A step of one of the processes of `ring`. -/
inductive SemStep (ring : List Ptr) (s : SemState) : SemOp → SemState → Prop
  | tryDown {p : Ptr} (hp : p ∈ ring) (hpc : s.pc p = .outside) :
      SemStep ring s (.tryDown p) (s.tryDown p)
  | enqueue {p : Ptr} (hp : p ∈ ring) (hpc : s.pc p = .failed) :
      SemStep ring s (.enqueue p) (s.enqueue p)
  | up {p : Ptr} (hp : p ∈ ring) (hpc : s.pc p ≠ .failed) : SemStep ring s (.up p) (s.up p)

/-- The processes are on the ring of the scheduler, and the semaphore is as `sem_init` leaves it. -/
structure SemStart (ring : List Ptr) (s : SemState) : Prop where
  sem : s.sem = semInit 1 1
  ring : Cycle s.links.next s.procs ring
  outside : ∀ p, s.pc p = .outside

/-- At most one process is inside, and all are on the ring of the scheduler. -/
structure SemSafe (ring : List Ptr) (s : SemState) : Prop where
  mutex : ∀ p q, s.pc p = .inside → s.pc q = .inside → p = q
  ring : ∃ l, Cycle s.links.next s.procs l ∧ ring ⊆ l

/-- No `sem_down` finds the semaphore locked, and no process unlocks it for another. -/
def Uncontended (s : SemState) : SemOp → Prop
  | .tryDown _ => s.sem.cur ≠ 0
  | .enqueue _ => True
  | .up p => ∀ q, s.pc q = .inside → q = p

/-! ## Without contention -/

/-- The semaphore is locked while a process is inside, and the ring is as it was. -/
structure SemInv (ring : List Ptr) (s : SemState) : Prop where
  ring : Cycle s.links.next s.procs ring
  wait : s.sem.wait = NULL
  none_failed : ∀ p, s.pc p ≠ .failed
  mutex : ∀ p q, s.pc p = .inside → s.pc q = .inside → p = q
  locked : s.sem.cur = 0 ↔ ∃ p, s.pc p = .inside

theorem SemStart.inv {ring : List Ptr} {s : SemState} (h : SemStart ring s) : SemInv ring s where
  ring := h.ring
  wait := by rw [h.sem]; rfl
  none_failed := fun p ↦ by rw [h.outside p]; decide
  mutex := fun p q hp ↦ by rw [h.outside p] at hp; exact absurd hp (by decide)
  locked := by
    rw [h.sem]
    refine iff_of_false (by decide) ?_
    rintro ⟨p, hp⟩
    rw [h.outside p] at hp
    exact absurd hp (by decide)

theorem SemInv.safe {ring : List Ptr} {s : SemState} (h : SemInv ring s) : SemSafe ring s :=
  ⟨h.mutex, ring, h.ring, List.Subset.refl ring⟩

/-- **One step** without contention. -/
theorem SemInv.step {ring : List Ptr} {s t : SemState} {o : SemOp} (h : SemInv ring s)
    (ho : Uncontended s o) (hst : SemStep ring s o t) : SemInv ring t := by
  cases hst with
  | @tryDown p hp hpc =>
    have htry : semTryDown s.sem = (0, { s.sem with cur := 0 }) := if_pos ho
    have hpc' : ∀ q, (s.tryDown p).pc q = if q = p then .inside else s.pc q := by
      intro q
      rw [SemState.tryDown, SemState.pc_setPc, htry]
      rfl
    -- nobody was inside
    have hnone : ∀ q, s.pc q ≠ .inside := fun q hq ↦ ho (h.locked.mpr ⟨q, hq⟩)
    have hiff : ∀ q, (s.tryDown p).pc q = .inside ↔ q = p := by
      intro q
      rw [hpc']
      split_ifs with hq
      · exact iff_of_true rfl hq
      · exact iff_of_false (hnone q) hq
    refine ⟨h.ring, ?_, fun q ↦ ?_, fun q q' hq hq' ↦ ?_, ?_⟩
    · show (semTryDown s.sem).2.wait = NULL
      rw [htry]
      exact h.wait
    · rw [hpc']
      split_ifs
      · decide
      · exact h.none_failed q
    · rw [(hiff q).mp hq, (hiff q').mp hq']
    · refine iff_of_true ?_ ⟨p, (hiff p).mpr rfl⟩
      show (semTryDown s.sem).2.cur = 0
      rw [htry]
  | enqueue hp hpc => exact absurd hpc (h.none_failed _)
  | @up p hp hpc =>
    have hpc' : ∀ q, (s.up p).pc q = if q = p then .outside else s.pc q :=
      fun q ↦ SemState.pc_setPc _ p q .outside
    have hnone : ∀ q, (s.up p).pc q ≠ .inside := by
      intro q hq
      rw [hpc'] at hq
      split_ifs at hq with hqp
      exact hqp (ho q hq)
    refine ⟨h.ring, h.wait, fun q ↦ ?_, fun q _ hq ↦ absurd hq (hnone q), ?_⟩
    · rw [hpc']
      split_ifs
      · decide
      · exact h.none_failed q
    · refine iff_of_false (by decide : (1 : ℤ) ≠ 0) ?_
      rintro ⟨q, hq⟩
      exact hnone q hq

/-! ## With contention -/

section Contended

variable {ring : List Ptr} {s : SemState} {p q : Ptr}

/-- A process whose `sem_try_down` has failed is let in, whoever is inside. -/
theorem not_safe_enqueue (hq : s.pc q = .inside) (hqp : q ≠ p) : ¬SemSafe ring (s.enqueue p) := by
  intro h
  have hpc : ∀ x, (s.enqueue p).pc x = if x = p then .inside else s.pc x :=
    fun x ↦ SemState.pc_setPc _ p x .inside
  refine hqp (h.mutex q p ?_ ?_)
  · rw [hpc, if_neg hqp, hq]
  · rw [hpc, if_pos rfl]

/-- Linking one process of a ring behind another takes some process off it. -/
theorem not_cycle_listAddAfter {links : ListHeap} {procs w : Ptr} {l : List Ptr}
    (hring : Cycle links.next procs ring) (hw : w ∈ ring) (hp : p ∈ ring) (hx : ∃ x ∈ ring, x ≠ p)
    (hl : Cycle (listAddAfter links w p).next procs l) : ¬ring ⊆ l := by
  intro hsub
  obtain ⟨x, hx, hxp⟩ := hx
  have hw' : (listAddAfter links w p).next w = p := by rw [next_listAddAfter, if_pos rfl]
  have hself : (listAddAfter links w p).next p ≠ p := fun h ↦
    hxp (hl.eq_singleton (hsub hp) h x (hsub hx))
  -- the old predecessor of `p` still points to it
  obtain ⟨y, hy, hyp⟩ := hring.exists_next_eq hp
  by_cases hyw : y = w
  · refine hself ?_
    rw [next_listAddAfter]
    by_cases hpw : p = w
    · rw [if_pos hpw]
    · rw [if_neg hpw, if_pos rfl, ← hyw, hyp]
  · have hne : y ≠ p := fun h ↦ hxp (hring.eq_singleton hp (h ▸ hyp) x hx)
    have hy' : (listAddAfter links w p).next y = p := by
      rw [next_listAddAfter, if_neg hyw, if_neg hne, hyp]
    exact hyw (hl.next_inj (hsub hy) (hsub hw) (hy'.trans hw'.symm))

/-- The second process on the wait list takes some process off the ring of the scheduler. -/
theorem not_ring_enqueue (hring : Cycle s.links.next s.procs ring) (hwait : s.sem.wait ∈ ring)
    (hnull : s.sem.wait ≠ NULL) (hp : p ∈ ring) (hx : ∃ x ∈ ring, x ≠ p) :
    ¬∃ l, Cycle (s.enqueue p).links.next (s.enqueue p).procs l ∧ ring ⊆ l := by
  rintro ⟨l, hl, hsub⟩
  have hlinks : (s.enqueue p).links = listAddAfter s.links s.sem.wait p := by
    show (semEnqueue s.sem s.links p).2 = _
    rw [semEnqueue, if_pos hnull]
  rw [hlinks] at hl
  exact not_cycle_listAddAfter hring hwait hp hx hl hsub

theorem SemInv.not_safe_of_locked {t u : SemState} (h : SemInv ring s) (hlocked : s.sem.cur = 0)
    (ht : SemStep ring s (.tryDown p) t) (hu : SemStep ring t (.enqueue p) u) :
    ¬SemSafe ring u := by
  obtain ⟨q, hq⟩ := h.locked.mp hlocked
  cases ht with
  | tryDown hp hpc =>
    cases hu with
    | enqueue _ _ =>
      have hqp : q ≠ p := by
        rintro rfl
        rw [hq] at hpc
        exact absurd hpc (by decide)
      refine not_safe_enqueue (q := q) ?_ hqp
      rw [SemState.tryDown, SemState.pc_setPc, if_neg hqp]
      exact hq

end Contended

/-! ## The theorem -/

theorem always_semInv {ring : List Ptr} {s : SemState} (hs : SemStart ring s)
    {r : List (SemOp × SemState)} (hrun : IsRun (SemStep ring) s r) (hr : Guarded Uncontended s r) :
    Always (SemInv ring) s r :=
  always_of_guarded (fun _ _ _ hs ho hst ↦ hs.step ho hst) hs.inv hrun hr

/-- **Semaphores and contention.** For any number of processes and every interleaving of calls on a
semaphore initialised to one, in which no `sem_down` finds the semaphore locked, in every state at
most one process is inside, and all are on the ring of the scheduler. And the condition is needed:
after every such run, if the semaphore is locked and a process calls `sem_down` without
interruption, two processes are inside. -/
theorem semSafe_of_uncontended {ring : List Ptr} {s : SemState} (hs : SemStart ring s)
    {r : List (SemOp × SemState)} (hrun : IsRun (SemStep ring) s r) (hr : Guarded Uncontended s r) :
    Always (SemSafe ring) s r ∧
      ∀ p t u, (last s r).sem.cur = 0 → SemStep ring (last s r) (.tryDown p) t →
        SemStep ring t (.enqueue p) u → ¬SemSafe ring u := by
  have hinv := always_semInv hs hrun hr
  exact ⟨hinv.imp fun _ h ↦ h.safe, fun _ _ _ ↦ hinv.last.not_safe_of_locked⟩

/-- Three processes, none of which has called `sem_down` yet. -/
def semExample : SemState where
  sem := semInit 1 1
  links := fun p ↦ if p = 1 then ⟨2, 3⟩ else if p = 2 then ⟨3, 1⟩ else ⟨1, 2⟩
  procs := 1
  pc := fun _ ↦ .outside

theorem semStart_semExample : SemStart [1, 2, 3] semExample where
  sem := rfl
  ring := ⟨⟨rfl, rfl, rfl, rfl⟩, by decide, by simp⟩
  outside := fun _ ↦ rfl

/-- Two processes lock the semaphore, one after the other. -/
def turnsRun : List (SemOp × SemState) :=
  let s := semExample.tryDown 1
  let t := s.up 1
  [(.tryDown 1, s), (.up 1, t), (.tryDown 2, t.tryDown 2)]

theorem semSafe_of_uncontended_turns : Always (SemSafe [1, 2, 3]) semExample turnsRun ∧
    ∀ p t u, (last semExample turnsRun).sem.cur = 0 →
      SemStep [1, 2, 3] (last semExample turnsRun) (.tryDown p) t →
        SemStep [1, 2, 3] t (.enqueue p) u → ¬SemSafe [1, 2, 3] u := by
  have hrun : IsRun (SemStep [1, 2, 3]) semExample turnsRun :=
    ⟨.tryDown (by decide) rfl, .up (by decide) (by decide), .tryDown (by decide) rfl, trivial⟩
  have hguard : Guarded Uncontended semExample turnsRun := by
    have hfree : (1 : ℤ) ≠ 0 := by decide
    refine ⟨hfree, fun q hq ↦ ?_, hfree, trivial⟩
    rw [SemState.tryDown, SemState.pc_setPc] at hq
    split_ifs at hq with hq1
    · exact hq1
    · exact absurd hq (by decide : SemPc.outside ≠ .inside)
  exact semSafe_of_uncontended semStart_semExample hrun hguard

/-- The second and the third process find the semaphore locked. -/
def contendedRun : List (SemOp × SemState) :=
  let s := semExample.tryDown 1
  let t := s.tryDown 2
  let u := t.enqueue 2
  let v := u.tryDown 3
  [(.tryDown 1, s), (.tryDown 2, t), (.enqueue 2, u), (.tryDown 3, v), (.enqueue 3, v.enqueue 3)]

/-- **All three processes are inside**, and the ring of the scheduler has lost one. -/
theorem sem_down_lets_in : IsRun (SemStep [1, 2, 3]) semExample contendedRun ∧
    (∀ p ∈ [1, 2, 3], (last semExample contendedRun).pc p = .inside) ∧
    (¬∃ l, Cycle (last semExample contendedRun).links.next (last semExample contendedRun).procs l ∧
      [1, 2, 3] ⊆ l) ∧ ¬Always (SemSafe [1, 2, 3]) semExample contendedRun := by
  have hring : Cycle ((semExample.tryDown 1).tryDown 2 |>.enqueue 2 |>.tryDown 3).links.next 1
      [1, 2, 3] := ⟨⟨rfl, rfl, rfl, rfl⟩, by decide, by simp⟩
  have hlost := not_ring_enqueue (p := 3)
    (s := (semExample.tryDown 1).tryDown 2 |>.enqueue 2 |>.tryDown 3) hring (by decide) (by decide)
    (by decide) ⟨1, by decide, by decide⟩
  refine ⟨⟨.tryDown (by decide) rfl, .tryDown (by decide) rfl, .enqueue (by decide) rfl,
    .tryDown (by decide) rfl, .enqueue (by decide) rfl, trivial⟩, by decide, hlost, fun h ↦ ?_⟩
  exact hlost h.last.ring

end Ertos
