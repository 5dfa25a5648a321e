import Mathlib.Data.List.Basic
import Mathlib.Data.UInt
import Mathlib.Data.Int.Notation
import Mathlib.Order.Basic

/-!
# Strings

Strings of C, and `strcmp` of `lib/string.c`. A pointer into a string is what is left of its bytes,
the NUL included, and nothing is known behind it: to read there is to leave the string. The type
`char` is unsigned on this machine.

The loop of `strcmp` compares before it looks for an end, and it looks for the end of either string
one byte further on. So of two empty strings it reads what is behind them, and when it finds
that one string has ended and the other has not, it returns 1, whichever it is.
-/

namespace Ertos

/-- A string without its NUL. -/
@[ext]
structure CString where
  chars : List UInt8
  ne_zero : ∀ c ∈ chars, c ≠ 0

theorem ne_zero_of_all {l : List UInt8} (h : l.all (fun c ↦ c ≠ 0) = true) : ∀ c ∈ l, c ≠ 0 := by
  simpa using h

/-- The bytes of a string. -/
def CString.bytes (s : CString) : List UInt8 := s.chars ++ [0]

/-! ## The loop -/

/-- The condition of the loop: neither string ends here. -/
def strcmpMore (s1 s2 : List UInt8) : Option Bool :=
  s1.head?.bind fun x ↦ if x ≠ 0 then s2.head?.map fun y ↦ y ≠ 0 else some false

/-- What follows the loop: one string may go on. -/
def strcmpRest (s1 s2 : List UInt8) : Option ℤ :=
  s1.head?.bind fun x ↦
    if x ≠ 0 then some 1 else s2.head?.map fun y ↦ if y ≠ 0 then 1 else 0

def strcmpFrom : List UInt8 → List UInt8 → Option ℤ
  | x :: s1, y :: s2 =>
    if x < y then some (-1)
    else if y < x then some 1
    else (strcmpMore s1 s2).bind fun more ↦ if more then strcmpFrom s1 s2 else strcmpRest s1 s2
  | _, _ => none

/-- The result, unless `strcmp` reads behind a string. -/
def strcmp (s1 s2 : CString) : Option ℤ := strcmpFrom s1.bytes s2.bytes

/-! ## The law and its condition -/

/-- The second string goes on where the first one, which is not empty, ends. -/
def Extends (l l' : List UInt8) : Prop := l ≠ [] ∧ l <+: l' ∧ l ≠ l'

instance (l l' : List UInt8) : Decidable (Extends l l') :=
  inferInstanceAs (Decidable (l ≠ [] ∧ l <+: l' ∧ l ≠ l'))

/-- Both calls stay in the strings, the result is the lexicographic comparison, and the other call
has the opposite one. -/
def StrcmpLaw (a b : CString) : Prop :=
  ∃ r r', strcmp a b = some r ∧ strcmp b a = some r' ∧ (r = 0 ↔ a = b) ∧
    (r < 0 ↔ a.chars < b.chars) ∧ (0 < r ↔ b.chars < a.chars) ∧ r = -r'

/-! ## The result -/

section Result

variable {x y : UInt8} {l l' : List UInt8}

theorem not_extends_nil : ¬Extends [] l := fun h ↦ h.1 rfl

theorem extends_singleton_iff : Extends [x] (x :: l) ↔ l ≠ [] := by
  simp [Extends, eq_comm]

theorem extends_cons_iff (hl : l ≠ []) : Extends (x :: l) (x :: l') ↔ Extends l l' := by
  simp [Extends, hl]

theorem strcmpFrom_cons_cons (l l' : List UInt8) : strcmpFrom (x :: l) (x :: l') =
    (strcmpMore l l').bind fun more ↦ if more then strcmpFrom l l' else strcmpRest l l' := by
  rw [strcmpFrom, if_neg (UInt8.lt_irrefl x), if_neg (UInt8.lt_irrefl x)]

theorem strcmpFrom_singleton (hl' : ∀ c ∈ l', c ≠ 0) :
    strcmpFrom [x, 0] (x :: (l' ++ [0])) = some (if l' = [] then 0 else 1) := by
  rw [strcmpFrom_cons_cons]
  cases l' with
  | nil => rfl
  | cons y l' =>
    have hy : y ≠ 0 := hl' y List.mem_cons_self
    simp [strcmpMore, strcmpRest, hy]

theorem strcmpFrom_singleton_right (hy : y ≠ 0) :
    strcmpFrom (x :: y :: l) [x, 0] = some 1 := by
  rw [strcmpFrom_cons_cons]
  simp [strcmpMore, strcmpRest, hy]

theorem strcmpFrom_cons_of_ne_nil (hl : ∀ c ∈ l, c ≠ 0) (hl' : ∀ c ∈ l', c ≠ 0) (hne : l ≠ [])
    (hne' : l' ≠ []) :
    strcmpFrom (x :: (l ++ [0])) (x :: (l' ++ [0])) = strcmpFrom (l ++ [0]) (l' ++ [0]) := by
  obtain ⟨y, l, rfl⟩ := List.exists_cons_of_ne_nil hne
  obtain ⟨z, l', rfl⟩ := List.exists_cons_of_ne_nil hne'
  have hy : y ≠ 0 := hl y List.mem_cons_self
  have hz : z ≠ 0 := hl' z List.mem_cons_self
  rw [strcmpFrom_cons_cons]
  simp [strcmpMore, hy, hz]

/-- What `strcmp` returns, unless both strings are empty. -/
theorem strcmpFrom_spec (hl : ∀ c ∈ l, c ≠ 0) (hl' : ∀ c ∈ l', c ≠ 0) (hne : l ≠ [] ∨ l' ≠ []) :
    strcmpFrom (l ++ [0]) (l' ++ [0]) =
      some (if l' < l ∨ Extends l l' then 1 else if l = l' then 0 else -1) := by
  induction l generalizing l' with
  | nil =>
    obtain ⟨y, l', rfl⟩ := List.exists_cons_of_ne_nil (hne.resolve_left fun h ↦ h rfl)
    have hy : 0 < y := UInt8.pos_iff_ne_zero.mpr (hl' y List.mem_cons_self)
    have hnot : ¬(y :: l' < [] ∨ Extends [] (y :: l')) := by
      rintro (hlt | hext)
      · exact List.not_lt_nil _ hlt
      · exact not_extends_nil hext
    rw [if_neg hnot, if_neg (List.cons_ne_nil y l').symm]
    exact if_pos hy
  | cons x l ih =>
    rw [List.forall_mem_cons] at hl
    cases l' with
    | nil =>
      have hx : 0 < x := UInt8.pos_iff_ne_zero.mpr hl.1
      rw [if_pos (Or.inl (List.nil_lt_cons x l)), List.cons_append, List.nil_append, strcmpFrom,
        if_neg (UInt8.lt_asymm hx), if_pos hx]
    | cons y l' =>
      rw [List.forall_mem_cons] at hl'
      rw [List.cons_append, List.cons_append]
      by_cases hlt : x < y
      · have hnot : ¬(y :: l' < x :: l ∨ Extends (x :: l) (y :: l')) := by
          rintro (h | h)
          · rw [List.cons_lt_cons_iff] at h
            rcases h with h | ⟨rfl, -⟩
            · exact UInt8.lt_asymm hlt h
            · exact UInt8.lt_irrefl _ hlt
          · obtain rfl := (List.cons_prefix_cons.mp h.2.1).1
            exact UInt8.lt_irrefl _ hlt
        have hne : x :: l ≠ y :: l' := by
          rintro ⟨⟩
          exact UInt8.lt_irrefl _ hlt
        rw [if_neg hnot, if_neg hne, strcmpFrom, if_pos hlt]
      by_cases hgt : y < x
      · rw [if_pos (Or.inl (List.cons_lt_cons_iff.mpr (Or.inl hgt))), strcmpFrom, if_neg hlt,
          if_pos hgt]
      obtain rfl : x = y := UInt8.le_antisymm (UInt8.not_lt.mp hgt) (UInt8.not_lt.mp hlt)
      rcases eq_or_ne l [] with rfl | hnil
      · -- the first string ends: what is left of the second does not tell them apart
        have hgt' : ¬x :: l' < [x] := by simp
        rw [List.nil_append, strcmpFrom_singleton hl'.2]
        simp only [or_iff_right hgt', extends_singleton_iff]
        by_cases hl' : l' = []
        · simp [hl']
        · simp [hl']
      rcases eq_or_ne l' [] with rfl | hnil'
      · obtain ⟨z, l, rfl⟩ := List.exists_cons_of_ne_nil hnil
        have hless : [x] < x :: z :: l :=
          List.cons_lt_cons_iff.mpr (Or.inr ⟨rfl, List.nil_lt_cons z l⟩)
        have hz : z ≠ 0 := hl.2 z List.mem_cons_self
        rw [if_pos (Or.inl hless)]
        exact strcmpFrom_singleton_right hz
      · have hcons : x :: l' < x :: l ↔ l' < l := by simp
        rw [strcmpFrom_cons_of_ne_nil hl.2 hl'.2 hnil hnil', ih hl.2 hl'.2 (Or.inl hnil)]
        simp only [hcons, extends_cons_iff hnil, List.cons_inj_right]

end Result

/-! ## The theorem -/

theorem strcmp_eq {a b : CString} (hne : a.chars ≠ [] ∨ b.chars ≠ []) : strcmp a b =
    some (if b.chars < a.chars ∨ Extends a.chars b.chars then 1
      else if a.chars = b.chars then 0 else -1) :=
  strcmpFrom_spec a.ne_zero b.ne_zero hne

theorem not_lt_of_extends {l l' : List UInt8} (h : Extends l l') : ¬l' < l :=
  List.not_lt.mpr h.2.1.le

/-- **Strings and their order, exactly.** For all strings, `strcmp` reads no byte behind either of
them and returns their lexicographic comparison, and the opposite one for the strings in the other
order, if and only if they are not both empty and neither of them goes on where the other, which is
not empty, ends. -/
theorem strcmp_law_iff (a b : CString) : StrcmpLaw a b ↔
    (a.chars ≠ [] ∨ b.chars ≠ []) ∧ ¬Extends a.chars b.chars ∧ ¬Extends b.chars a.chars := by
  have hext : a = b ↔ a.chars = b.chars := CString.ext_iff
  by_cases hne : a.chars ≠ [] ∨ b.chars ≠ []
  · rw [StrcmpLaw, strcmp_eq hne, strcmp_eq hne.symm, and_iff_right hne]
    constructor
    · rintro ⟨r, r', hr, hr', -, hneg, hpos, hopp⟩
      obtain rfl := Option.some.inj hr
      obtain rfl := Option.some.inj hr'
      constructor
      · intro h
        rw [if_pos (Or.inr h)] at hpos
        exact not_lt_of_extends h (hpos.mp Int.one_pos)
      · intro h
        rw [hopp, if_pos (Or.inr h)] at hneg
        exact not_lt_of_extends h (hneg.mp (by decide))
    · rintro ⟨hab, hba⟩
      refine ⟨_, _, rfl, rfl, ?_⟩
      rw [hext]
      simp only [or_iff_left hab, or_iff_left hba]
      by_cases hlt : a.chars < b.chars
      · have hgt : ¬b.chars < a.chars := List.lt_asymm hlt
        have heq : a.chars ≠ b.chars := fun h ↦ List.lt_irrefl _ (h ▸ hlt)
        simp [hlt, hgt, heq]
      by_cases hgt : b.chars < a.chars
      · have heq : a.chars ≠ b.chars := fun h ↦ List.lt_irrefl _ (h ▸ hgt)
        simp [hlt, hgt, heq, heq.symm]
      · have heq : a.chars = b.chars := List.le_antisymm hgt hlt
        have hirrefl := List.lt_irrefl b.chars
        simp [heq, hirrefl]
  · refine iff_of_false ?_ fun h ↦ hne h.1
    -- both are empty, and the loop reads on behind them
    rw [not_or, not_not, not_not] at hne
    rintro ⟨r, -, hr, -⟩
    rw [strcmp, CString.bytes, CString.bytes, hne.1, hne.2] at hr
    exact Option.some_ne_none r hr.symm

/-- **A prefix** is not less than the string that goes on, nor the other way round; and of two
empty strings, `strcmp` reads what is behind them. -/
theorem strcmp_prefix : ∃ a b e : CString, strcmp a b = some 1 ∧ strcmp b a = some 1 ∧
    ¬StrcmpLaw a b ∧ strcmp e e = none ∧ ¬StrcmpLaw e e := by
  refine ⟨⟨[97], ne_zero_of_all rfl⟩, ⟨[97, 98], ne_zero_of_all rfl⟩, ⟨[], ne_zero_of_all rfl⟩, rfl,
    rfl, ?_, rfl, ?_⟩
  · rintro ⟨r, r', hr, hr', -, hneg, -⟩
    obtain rfl := Option.some.inj hr
    exact absurd (hneg.mpr (by decide)) (by decide)
  · rintro ⟨r, -, hr, -⟩
    exact Option.some_ne_none r hr.symm

end Ertos
