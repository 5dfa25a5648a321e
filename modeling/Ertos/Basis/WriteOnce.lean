import Ertos.Basis.Transition
import Mathlib.Data.List.Nodup

/-!
# Tables that are written once

A table is a list of entries, the most recent one first, and each entry has a key. What is offered
to the table is added if there is no entry for its key yet, and ignored otherwise. So the first
offer for a key decides what is found under it, for good.
-/

namespace WriteOnce

open Transition

variable {α κ : Type*} [DecidableEq κ] (key : α → κ)

def lookup (l : List α) (k : κ) : Option α := l.find? (key · = k)

/-- The entry is added unless there is one for its key. -/
def record (l : List α) (a : α) : List α := if (lookup key l (key a)).isSome then l else a :: l

/-- The table when it was offered an entry, or nothing. -/
def offer (l : List α) : Option α → List α
  | none => l
  | some a => record key l a

variable {key} {l : List α}

theorem isSome_lookup {k : κ} : (lookup key l k).isSome ↔ k ∈ l.map key := by
  rw [lookup, List.find?_isSome, List.mem_map]
  simp only [decide_eq_true_eq]

theorem lookup_cons (a : α) (k : κ) :
    lookup key (a :: l) k = if key a = k then some a else lookup key l k := by
  by_cases h : key a = k
  · simp [lookup, h]
  · simp [lookup, h]

theorem offer_suffix (o : Option α) : l <:+ offer key l o := by
  cases o with
  | none => exact List.suffix_refl l
  | some a =>
    rw [offer, record]
    split_ifs
    · exact List.suffix_refl l
    · exact List.suffix_cons a l

theorem nodup_offer (h : (l.map key).Nodup) (o : Option α) : ((offer key l o).map key).Nodup := by
  cases o with
  | none => exact h
  | some a =>
    rw [offer, record]
    split_ifs with hsome
    · exact h
    · rw [List.map_cons, List.nodup_cons]
      exact ⟨fun hmem ↦ hsome (isSome_lookup.mpr hmem), h⟩

/-- What was found is found again, and what was not is found if it was offered. -/
theorem lookup_offer (o : Option α) (k : κ) :
    lookup key (offer key l o) k = (lookup key l k).or (o.filter (key · = k)) := by
  cases o with
  | none => rw [offer, Option.filter_none, Option.or_none]
  | some a =>
    rw [offer, record, Option.filter_some]
    by_cases hk : key a = k
    · subst hk
      cases h : lookup key l (key a) with
      | none => simp [lookup_cons]
      | some b => simp [h]
    · split_ifs with hsome hkey
      · exact absurd (of_decide_eq_true hkey) hk
      · rw [Option.or_none]
      · exact absurd (of_decide_eq_true ‹_›) hk
      · rw [lookup_cons, if_neg hk, Option.or_none]

/-! ## Runs -/

section Runs

variable {σ ε : Type*} {step : List α → ε → List α → Prop} {offers : ε → Option α}
  (hstep : ∀ s e t, step s e t → t = offer key s (offers e))

include hstep

/-- **One entry for a key.** -/
theorem always_nodup {r : List (ε × List α)} (hl : (l.map key).Nodup) (hrun : IsRun step l r) :
    Always (fun s ↦ (s.map key).Nodup) l r := by
  refine always_of_step (fun s e t hs hst ↦ ?_) hl hrun
  rw [hstep s e t hst]
  exact nodup_offer hs _

/-- **Entries stay** as they are. -/
theorem suffix_last {r : List (ε × List α)} (hrun : IsRun step l r) : l <:+ last l r := by
  induction r generalizing l with
  | nil => exact List.suffix_refl l
  | cons p r ih =>
    obtain ⟨hst, hrest⟩ := hrun
    have hfirst : l <:+ p.2 := by
      rw [hstep l p.1 p.2 hst]
      exact offer_suffix _
    exact hfirst.trans (ih hrest)

/-- **The first offer is found.** -/
theorem lookup_last {r : List (ε × List α)} (hrun : IsRun step l r) (k : κ) :
    lookup key (last l r) k =
      (lookup key l k).or (lookup key ((r.map Prod.fst).filterMap offers) k) := by
  induction r generalizing l with
  | nil => exact (Option.or_none).symm
  | cons p r ih =>
    obtain ⟨hst, hrest⟩ := hrun
    have hfirst : lookup key p.2 k = (lookup key l k).or ((offers p.1).filter (key · = k)) := by
      rw [hstep l p.1 p.2 hst]
      exact lookup_offer _ _
    rw [show last l (p :: r) = last p.2 r from rfl, ih hrest, hfirst, Option.or_assoc,
      List.map_cons]
    congr 1
    cases hoffer : offers p.1 with
    | none => rw [List.filterMap_cons_none hoffer, Option.filter_none, Option.none_or]
    | some a =>
      rw [List.filterMap_cons_some hoffer, Option.filter_some, lookup_cons]
      by_cases hk : key a = k
      · simp [hk]
      · simp [hk]

end Runs

end WriteOnce
