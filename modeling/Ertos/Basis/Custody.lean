import Mathlib.Data.List.Nodup
import Mathlib.Data.Set.Insert
import Mathlib.Logic.Function.Basic
import Mathlib.Tactic.Common

/-!
# Custody

Tokens are acquired, handed from place to place, and released. A book records which tokens are alive
and which of them are held where; a token that is alive and held nowhere is in somebody's hand.

Two things are asked of a book. It is *sound* when nothing is held that is not alive, and nothing is
held twice; it is *covered* when nothing that is alive has been lost. A program that works on one
token at a time takes it out of a place, which leaves a sound book that is covered but for that
token, and has to end by putting it somewhere or releasing it. `Settled` says which it did.
-/

namespace Custody

variable {α π : Type*}

/-- Which tokens are alive, and which are held at each place. -/
@[ext] structure Book (α π : Type*) where
  live : Set α
  held : π → List α

namespace Book

/-! ## Operations -/

section Operations

variable [DecidableEq π] (b : Book α π)

/-- Take the first token out of a place. -/
def take (i : π) : Book α π := { b with held := Function.update b.held i (b.held i).tail }

def put (i : π) (x : α) : Book α π := { b with held := Function.update b.held i (x :: b.held i) }

def acquire (x : α) : Book α π := { b with live := insert x b.live }

def release (x : α) : Book α π := { b with live := b.live \ {x} }

@[simp] theorem held_take_self (i : π) : (b.take i).held i = (b.held i).tail :=
  Function.update_self _ _ _

@[simp] theorem held_take_of_ne {i j : π} (h : j ≠ i) : (b.take i).held j = b.held j :=
  Function.update_of_ne h _ _

@[simp] theorem held_put_self (i : π) (x : α) : (b.put i x).held i = x :: b.held i :=
  Function.update_self _ _ _

@[simp] theorem held_put_of_ne {i j : π} (h : j ≠ i) (x : α) : (b.put i x).held j = b.held j :=
  Function.update_of_ne h _ _

theorem mem_take {i j : π} {x : α} : x ∈ (b.take i).held j → x ∈ b.held j := by
  intro h
  by_cases hij : j = i
  · subst hij
    rw [held_take_self] at h
    exact List.mem_of_mem_tail h
  · rwa [held_take_of_ne b hij] at h

theorem mem_put {i j : π} {x y : α} :
    y ∈ (b.put i x).held j ↔ j = i ∧ y = x ∨ y ∈ b.held j := by
  by_cases hij : j = i
  · subst hij
    rw [held_put_self, List.mem_cons]
    simp
  · rw [held_put_of_ne b hij]
    simp [hij]

end Operations

/-! ## Sound and covered books -/

/-- What is held is alive, and held once. -/
structure Sound (b : Book α π) : Prop where
  live : ∀ i, ∀ x ∈ b.held i, x ∈ b.live
  nodup : ∀ i, (b.held i).Nodup
  unique : ∀ i j x, x ∈ b.held i → x ∈ b.held j → i = j

/-- Every live token is held somewhere. -/
def Covered (b : Book α π) : Prop := ∀ x ∈ b.live, ∃ i, x ∈ b.held i

/-- The token is alive and held nowhere. -/
structure InHand (b : Book α π) (x : α) : Prop where
  live : x ∈ b.live
  notHeld : ∀ i, x ∉ b.held i

/-- A sound book in which the only live token not held is `x`. -/
structure Bears (b : Book α π) (x : α) : Prop where
  sound : b.Sound
  inHand : b.InHand x
  rest : ∀ y ∈ b.live, y ≠ x → ∃ i, y ∈ b.held i

/-- How work on `x` ended: with nothing lost, or with `x` still in hand and now forgotten. -/
structure Settled (b : Book α π) (x : α) (disposed : Prop) : Prop where
  sound : b.Sound
  covered : disposed → b.Covered
  lost : ¬disposed → b.InHand x

theorem InHand.not_covered {b : Book α π} {x : α} (h : b.InHand x) : ¬b.Covered := by
  intro hb
  obtain ⟨i, hi⟩ := hb x h.live
  exact h.notHeld i hi

theorem Settled.covered_iff {b : Book α π} {x : α} {disposed : Prop} (h : b.Settled x disposed) :
    b.Covered ↔ disposed := by
  refine ⟨fun hb ↦ ?_, h.covered⟩
  by_contra hd
  exact (h.lost hd).not_covered hb

theorem Settled.of_iff {b : Book α π} {x : α} {p q : Prop} (h : b.Settled x p) (hpq : p ↔ q) :
    b.Settled x q := ⟨h.sound, fun hq ↦ h.covered (hpq.mpr hq), fun hq ↦ h.lost (hq ∘ hpq.mp)⟩

theorem Bears.forget {b : Book α π} {x : α} (h : b.Bears x) : b.Settled x False :=
  ⟨h.sound, False.elim, fun _ ↦ h.inHand⟩

theorem Bears.release {b : Book α π} {x : α} (h : b.Bears x) : (b.release x).Settled x True where
  sound :=
    ⟨fun i y hy ↦ ⟨h.sound.live i y hy, fun hyx ↦ h.inHand.notHeld i (hyx ▸ hy)⟩,
      h.sound.nodup, h.sound.unique⟩
  covered := fun _ y hy ↦ h.rest y hy.1 hy.2
  lost := fun hn ↦ absurd trivial hn

theorem Sound.acquire {b : Book α π} {x : α} (hb : b.Sound) (hx : x ∉ b.live) :
    (b.acquire x).Sound ∧ (b.acquire x).InHand x :=
  ⟨⟨fun i y hy ↦ Set.mem_insert_of_mem x (hb.live i y hy), hb.nodup, hb.unique⟩,
    ⟨Set.mem_insert x b.live, fun i hi ↦ hx (hb.live i x hi)⟩⟩

section Moves

variable [DecidableEq π] {b : Book α π} {x : α}

theorem Sound.put (hb : b.Sound) (h : b.InHand x) (i : π) : (b.put i x).Sound where
  live := fun j y hy ↦ by
    rcases b.mem_put.mp hy with ⟨-, rfl⟩ | hy
    · exact h.live
    · exact hb.live j y hy
  nodup := fun j ↦ by
    by_cases hij : j = i
    · subst hij
      rw [held_put_self]
      exact List.nodup_cons.mpr ⟨h.notHeld j, hb.nodup j⟩
    · rw [held_put_of_ne b hij]
      exact hb.nodup j
  unique := fun j k y hj hk ↦ by
    rcases b.mem_put.mp hj with ⟨hji, hy⟩ | hj <;> rcases b.mem_put.mp hk with ⟨hki, hy'⟩ | hk
    · rw [hji, hki]
    · exact absurd (hy ▸ hk) (h.notHeld k)
    · exact absurd (hy' ▸ hj) (h.notHeld j)
    · exact hb.unique j k y hj hk

theorem Bears.put (h : b.Bears x) (i : π) : (b.put i x).Settled x True where
  sound := h.sound.put h.inHand i
  covered := fun _ y hy ↦ by
    by_cases hyx : y = x
    · exact ⟨i, b.mem_put.mpr (Or.inl ⟨rfl, hyx⟩)⟩
    · obtain ⟨j, hj⟩ := h.rest y hy hyx
      exact ⟨j, b.mem_put.mpr (Or.inr hj)⟩
  lost := fun hn ↦ absurd trivial hn

theorem Sound.take (hb : b.Sound) (hc : b.Covered) {i : π} {l : List α} (h : b.held i = x :: l) :
    (b.take i).Bears x := by
  have hx : x ∈ b.held i := by
    rw [h]
    exact List.mem_cons_self
  have htake : (b.take i).held i = l := by
    rw [held_take_self, h, List.tail_cons]
  have hnodup := hb.nodup i
  rw [h, List.nodup_cons] at hnodup
  refine ⟨⟨fun j y hy ↦ hb.live j y (b.mem_take hy), fun j ↦ ?_,
    fun j k y hj hk ↦ hb.unique j k y (b.mem_take hj) (b.mem_take hk)⟩,
    ⟨hb.live i x hx, fun j hj ↦ ?_⟩, fun y hy hyx ↦ ?_⟩
  · by_cases hij : j = i
    · subst hij
      rw [htake]
      exact hnodup.2
    · rw [held_take_of_ne b hij]
      exact hb.nodup j
  · obtain rfl := hb.unique j i x (b.mem_take hj) hx
    rw [htake] at hj
    exact hnodup.1 hj
  · obtain ⟨j, hj⟩ := hc y hy
    refine ⟨j, ?_⟩
    by_cases hij : j = i
    · subst hij
      rw [h] at hj
      rw [htake]
      exact (List.mem_cons.mp hj).resolve_left hyx
    · rwa [held_take_of_ne b hij]

theorem Sound.acquire_put (hb : b.Sound) (hc : b.Covered) (hx : x ∉ b.live) (i : π) :
    ((b.acquire x).put i x).Settled x True := by
  obtain ⟨hsound, hhand⟩ := hb.acquire hx
  refine Bears.put ⟨hsound, hhand, fun y hy hyx ↦ ?_⟩ i
  exact hc y ((Set.mem_insert_iff.mp hy).resolve_left hyx)

/-- A second token is acquired and put away, and the one in hand forgotten. -/
theorem Bears.acquire_put (h : b.Bears x) {y : α} (hy : y ∉ b.live) (i : π) :
    ((b.acquire y).put i y).Settled x False := by
  obtain ⟨hsound, hhand⟩ := h.sound.acquire hy
  refine ⟨hsound.put hhand i, False.elim, fun _ ↦ ⟨Set.mem_insert_of_mem y h.inHand.live, ?_⟩⟩
  intro j hj
  rcases (b.acquire y).mem_put.mp hj with ⟨-, rfl⟩ | hj
  · exact hy h.inHand.live
  · exact h.inHand.notHeld j hj

end Moves

end Book

end Custody
