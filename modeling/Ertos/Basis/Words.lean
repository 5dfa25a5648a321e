import Mathlib.Data.List.TakeWhile
import Mathlib.Tactic.Common

/-!
# Words

The words of a list are its maximal runs of elements that are no separators, in order. A list begins
with some separators, then there is a word, unless it ends there, and then something that does not
go on with the word; this is how a scanner goes through it, and the induction `word_induction`.
-/

namespace Words

variable {α : Type*} {p : α → Bool} {s w r l : List α}

/-- The words of a list, where `p` tells the separators. -/
def wordsBy (p : α → Bool) (l : List α) : List (List α) := (l.splitOnP p).filter fun w ↦ !w.isEmpty

structure IsWord (p : α → Bool) (w : List α) : Prop where
  ne_nil : w ≠ []
  not_sep : ∀ c ∈ w, p c = false

/-- A word does not go on here. -/
def Boundary (p : α → Bool) (r : List α) : Prop := ∀ c ∈ r.head?, p c = true

theorem boundary_dropWhile (l : List α) : Boundary p (l.dropWhile fun c ↦ !p c) := by
  intro c hc
  have hnot := List.head?_dropWhile_not (fun c ↦ !p c) l
  rw [Option.mem_def.mp hc] at hnot
  exact Bool.not_eq_eq_eq_not.mp hnot

@[simp] theorem wordsBy_nil : wordsBy p [] = [] := by simp [wordsBy]

theorem wordsBy_append_of_separators (h : ∀ c ∈ s, p c = true) :
    wordsBy p (s ++ l) = wordsBy p l := by
  induction s with
  | nil => rfl
  | cons c s ih =>
    rw [List.forall_mem_cons] at h
    rw [List.cons_append, wordsBy, List.splitOnP_cons_eq_if_modifyHead, if_pos h.1,
      List.filter_cons_of_neg (by simp)]
    exact ih h.2

theorem wordsBy_of_separators (h : ∀ c ∈ s, p c = true) : wordsBy p s = [] := by
  rw [← List.append_nil s, wordsBy_append_of_separators h, wordsBy_nil]

/-- **A maximal run** is the first word. -/
theorem wordsBy_append_of_isWord (hw : IsWord p w) (hr : Boundary p r) :
    wordsBy p (w ++ r) = w :: wordsBy p r := by
  have hkeep : ∀ ls : List (List α),
      (w :: ls).filter (fun w ↦ !w.isEmpty) = w :: ls.filter fun w ↦ !w.isEmpty := by
    intro ls
    exact List.filter_cons_of_pos (by simpa using hw.ne_nil)
  cases r with
  | nil =>
    rw [List.append_nil, wordsBy, List.splitOnP_eq_singleton hw.not_sep, hkeep]
    rfl
  | cons c r =>
    have hc : p c = true := hr c rfl
    have hsep : wordsBy p (c :: r) = wordsBy p r :=
      wordsBy_append_of_separators (s := [c]) (by simpa using hc)
    rw [hsep, wordsBy, List.splitOnP_append_cons_of_forall_mem hw.not_sep c hc, hkeep]
    rfl

@[elab_as_elim]
theorem word_induction (p : α → Bool) {motive : List α → Prop}
    (separators : ∀ s, (∀ c ∈ s, p c = true) → motive s)
    (word : ∀ s w r, (∀ c ∈ s, p c = true) → IsWord p w → Boundary p r → motive r →
      motive (s ++ (w ++ r))) (l : List α) : motive l := by
  induction hlength : l.length using Nat.strong_induction_on generalizing l with
  | _ k ih =>
    cases hrest : l.dropWhile p with
    | nil => exact separators l (List.dropWhile_eq_nil_iff.mp hrest)
    | cons c m =>
      have hc : p c = false := by
        have hhead := List.head?_dropWhile_not p l
        rwa [hrest] at hhead
      have hw : IsWord p ((c :: m).takeWhile fun c ↦ !p c) := by
        refine ⟨?_, fun d hd ↦ by simpa using List.mem_takeWhile_imp hd⟩
        rw [List.takeWhile_cons_of_pos (by simpa using hc)]
        exact List.cons_ne_nil _ _
      have hshort : ((c :: m).dropWhile fun c ↦ !p c).length < k := by
        have hle := List.length_dropWhile_le (fun c ↦ !p c) m
        have hsplit := congrArg List.length (List.takeWhile_append_dropWhile (p := p) (l := l))
        rw [hrest, List.length_append, List.length_cons] at hsplit
        rw [List.dropWhile_cons_of_pos (by simpa using hc)]
        omega
      have hmotive := word (l.takeWhile p) _ _ (fun d hd ↦ List.mem_takeWhile_imp hd) hw
        (boundary_dropWhile (c :: m)) (ih _ hshort _ rfl)
      rwa [List.takeWhile_append_dropWhile, ← hrest, List.takeWhile_append_dropWhile] at hmotive

theorem ne_nil_of_mem_wordsBy (h : w ∈ wordsBy p l) : w ≠ [] := by
  rintro rfl
  exact Bool.false_ne_true (List.mem_filter.mp h).2

theorem isInfix_of_mem_wordsBy (h : w ∈ wordsBy p l) : w <:+: l := by
  induction l using word_induction p with
  | separators s hs =>
    rw [wordsBy_of_separators hs] at h
    exact absurd h List.not_mem_nil
  | word s v r hs hv hr ih =>
    rw [wordsBy_append_of_separators hs, wordsBy_append_of_isWord hv hr] at h
    obtain rfl | h := List.mem_cons.mp h
    · exact ⟨s, r, by rw [List.append_assoc]⟩
    · obtain ⟨a, b, hab⟩ := ih h
      exact ⟨s ++ v ++ a, b, by rw [← hab]; simp only [List.append_assoc]⟩

end Words
