import Ertos.Basis.Ring
import Ertos.Basis.Transition

/-!
# A ring that is filled without looking

A producer writes elements into the slots of a ring, one after the other, and counts them; a
consumer takes as many out behind it. The producer does not look how far the consumer is.

The elements put are then those taken and those in the window between the two, and this stays so as
long as there is a free slot for each element, or the slot happens to hold it already. An element
put into any other slot takes the place of one that is still to be taken. `always_intact_iff` is the
rule for a system with such a ring.
-/

namespace Ring

open Transition

variable {α σ ε : Type*}

/-- The ring, the slot of the consumer, how far it is behind, and what has been put and taken. -/
structure Spool (α : Type*) where
  slots : ℕ → α
  head : ℕ
  backlog : ℕ
  put : List α
  taken : List α

inductive SpoolOp (α : Type*)
  | put (x : α)
  | take
  | idle

namespace Spool

/-- The slot of the producer. -/
def next (n : ℕ) (s : Spool α) : ℕ := (s.head + s.backlog) % n

/-- What has been put is taken, or will be. -/
def Intact (n : ℕ) (s : Spool α) : Prop :=
  s.put = s.taken ++ window s.slots n s.head s.backlog

/-- The slot of the producer is free, or holds the element. -/
def Room (n : ℕ) (s : Spool α) : SpoolOp α → Prop
  | .put x => s.backlog < n ∨ s.slots (s.next n) = x
  | _ => True

end Spool

inductive SpoolStep (n : ℕ) : Spool α → SpoolOp α → Spool α → Prop
  | put {s : Spool α} {x : α} :
      SpoolStep n s (.put x) ⟨Function.update s.slots (s.next n) x, s.head, s.backlog + 1,
        s.put ++ [x], s.taken⟩
  | take {s : Spool α} (h : 0 < s.backlog) :
      SpoolStep n s .take ⟨s.slots, advance n s.head, s.backlog - 1, s.put,
        s.taken ++ [s.slots s.head]⟩
  | idle {s : Spool α} : SpoolStep n s .idle s

section Step

variable {n : ℕ} {s t : Spool α} {o : SpoolOp α}

theorem SpoolStep.head_lt (hhead : s.head < n) (h : SpoolStep n s o t) : t.head < n := by
  cases h with
  | put => exact hhead
  | take => exact advance_lt (Nat.zero_lt_of_lt hhead)
  | idle => exact hhead

theorem Spool.Intact.step (hs : s.Intact n) (hhead : s.head < n) (ho : s.Room n o)
    (h : SpoolStep n s o t) : t.Intact n := by
  unfold Intact at hs ⊢
  cases h with
  | @put x =>
    obtain hroom | hsame := ho
    · rw [next, window_update s.slots hroom x, ← List.append_assoc, ← hs]
    · rw [← hsame, Function.update_eq_self, window_succ_right, ← List.append_assoc, ← hs]
      rfl
  | take hpos =>
    have hbacklog : s.backlog = s.backlog - 1 + 1 := (Nat.sub_add_cancel hpos).symm
    rw [hbacklog, window_succ_left s.slots hhead] at hs
    rw [hs, List.append_assoc]
    rfl
  | idle => exact hs

/-- An element put into a slot that is not free takes the place of another one. -/
theorem Spool.Intact.spoiled (hs : s.Intact n) (hhead : s.head < n) (ho : ¬s.Room n o)
    (h : SpoolStep n s o t) : ¬t.Intact n := by
  unfold Intact at hs ⊢
  cases h with
  | @put x =>
    obtain ⟨hfull, hother⟩ := not_or.mp ho
    intro ht
    rw [window_succ_right, ← List.append_assoc] at ht
    have hput := (List.append_inj' ht rfl).1
    have hwindow := List.append_cancel_left (hs.symm.trans hput)
    -- the slot is met again a round before
    have hi : s.backlog - n < s.backlog := by omega
    have hslot : (s.head + (s.backlog - n)) % n = s.next n := by
      rw [next, show s.head + s.backlog = s.head + (s.backlog - n) + n by omega,
        Nat.add_mod_right]
    have hget := congrArg (·[s.backlog - n]?) hwindow
    simp only [window, List.getElem?_map, List.getElem?_range hi, Option.map_some, hslot,
      Function.update_self, Option.some.injEq] at hget
    exact hother hget
  | take => exact absurd trivial ho
  | idle => exact absurd trivial ho

end Step

/-- **A ring serves just as long as there is room.** The rule for a system whose steps are steps of
such a ring, under an invariant `J` of its own, with `C` its way to say `Room`. -/
theorem always_intact_iff {n : ℕ} {step : σ → ε → σ → Prop} (spool : σ → Spool α)
    (op : σ → ε → SpoolOp α) {J : σ → Prop} {C : σ → ε → Prop}
    (hstep : ∀ s e t, J s → step s e t → J t ∧ SpoolStep n (spool s) (op s e) (spool t))
    (hC : ∀ s e, J s → (C s e ↔ (spool s).Room n (op s e))) {s : σ} (hJ : J s)
    (hhead : (spool s).head < n) (hs : (spool s).Intact n) {r : List (ε × σ)}
    (hrun : IsRun step s r) :
    Always (fun s ↦ (spool s).Intact n) s r ↔ Guarded C s r := by
  refine always_iff_guarded
    (I := fun s ↦ J s ∧ (spool s).head < n ∧ (spool s).Intact n) (fun _ h ↦ h.2.2) ?_ ?_
    ⟨hJ, hhead, hs⟩ hrun
  · rintro s e t ⟨hJ, hhead, hs⟩ ho hst
    obtain ⟨hJ', hst'⟩ := hstep s e t hJ hst
    exact ⟨hJ', hst'.head_lt hhead, hs.step hhead ((hC s e hJ).mp ho) hst'⟩
  · rintro s e t ⟨hJ, hhead, hs⟩ ho hst
    exact hs.spoiled hhead (fun hroom ↦ ho ((hC s e hJ).mpr hroom)) (hstep s e t hJ hst).2

end Ring
