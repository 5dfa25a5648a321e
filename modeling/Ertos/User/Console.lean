import Ertos.Basis.Words
import Ertos.Lib.String
import Ertos.Net.Pkt

/-!
# The arguments of a command

`console_task` of `user/console.c` breaks up the line that was read, in place: whitespace becomes
NUL, and the address of every word is stored in `argv`. Nothing keeps the number of words within
`MAX_ARGS`, and the ninth is stored behind the array.

## The invariant

Before `p` the line is not changed any more, but the NUL behind the last word is stored only in the
next round, with `p` on the whitespace that ends the word, or was there from the start.
-/

namespace Ertos

open Words

def isspace (c : UInt8) : Bool :=
  c = 32 || c = 9 || c = 13 || c = 10 || c = 12 || c = 11

/-- `MAX_ARGS`. -/
def maxArgs : ℕ := 8

/-! ## The loop -/

/-- The variables of the loop: `p` and the pointers in `argv` are offsets in `buf`, and `argc` is
their number. -/
structure ConsoleTask where
  buf : Bytes
  p : ℕ
  argv : List ℕ

/-- How the loop ends. -/
inductive Arguments
  | stored (t : ConsoleTask)
  /-- A pointer is stored behind `argv`. -/
  | overrun

namespace ConsoleTask

/-- The first inner loop, of at most `n` rounds. -/
def skipSpace : ℕ → ConsoleTask → Option ConsoleTask
  | 0, _ => none
  | n + 1, t =>
    if isspace (t.buf t.p)
    then skipSpace n { t with buf := Function.update t.buf t.p 0, p := t.p + 1 }
    else some t

/-- The second one. -/
def skipWord : ℕ → ConsoleTask → Option ConsoleTask
  | 0, _ => none
  | n + 1, t =>
    if isspace (t.buf t.p) = false ∧ t.buf t.p ≠ 0 then skipWord n { t with p := t.p + 1 }
    else some t

def breakUp : ℕ → ConsoleTask → Option Arguments
  | 0, _ => none
  | n + 1, t =>
    if t.buf t.p = 0 then some (.stored t)
    else (skipSpace n t).bind fun t ↦
      if t.buf t.p = 0 then some (.stored t)
      else if t.argv.length < maxArgs
      then (skipWord n { t with argv := t.argv ++ [t.p] }).bind (breakUp n)
      else some .overrun

/-- What becomes of a line. -/
def arguments (n : ℕ) (buf : Bytes) : Option Arguments := breakUp n ⟨buf, 0, []⟩

end ConsoleTask

open ConsoleTask

/-! ## The law -/

/-- At `p`, there is a string in the buffer, terminated. -/
def StringAt (buf : Bytes) : ℕ → List UInt8 → Prop
  | p, [] => buf p = 0
  | p, c :: l => buf p = c ∧ StringAt buf (p + 1) l

instance decidableStringAt (buf : Bytes) : ∀ p l, Decidable (StringAt buf p l)
  | p, [] => inferInstanceAs (Decidable (buf p = 0))
  | p, c :: l =>
    have := decidableStringAt buf (p + 1) l
    inferInstanceAs (Decidable (buf p = c ∧ StringAt buf (p + 1) l))

/-- The loop ends, stores at most `MAX_ARGS` pointers, and these are of the words of the line, each
of them terminated. -/
def ArgumentsLaw (buf : Bytes) (line : CString) : Prop :=
  ∃ k t, (∀ n, k ≤ n → arguments n buf = some (.stored t)) ∧ t.argv.length ≤ maxArgs ∧
    List.Forall₂ (StringAt t.buf) t.argv (wordsBy isspace line.chars)

/-! ## Strings in the buffer -/

section StringAt

variable {buf buf' : Bytes} {p : ℕ} {l r : List UInt8}

theorem StringAt.drop (h : StringAt buf p (l ++ r)) : StringAt buf (p + l.length) r := by
  induction l generalizing p with
  | nil => exact h
  | cons c l ih =>
    have htail := ih h.2
    rwa [Nat.add_assoc, Nat.add_comm 1] at htail

theorem StringAt.take (h : StringAt buf p (l ++ r)) (hsame : ∀ i < p + l.length, buf' i = buf i)
    (hnul : buf' (p + l.length) = 0) : StringAt buf' p l := by
  induction l generalizing p with
  | nil => exact hnul
  | cons c l ih =>
    have hlength : p + (c :: l).length = p + 1 + l.length := by
      rw [List.length_cons, Nat.add_assoc, Nat.add_comm 1]
    rw [hlength] at hsame hnul
    exact ⟨(hsame p (by omega)).trans h.1, ih h.2 hsame hnul⟩

theorem StringAt.congr (h : StringAt buf p l) (hsame : ∀ i, p ≤ i → buf' i = buf i) :
    StringAt buf' p l := by
  induction l generalizing p with
  | nil => exact (hsame p le_rfl).trans h
  | cons c l ih =>
    exact ⟨(hsame p le_rfl).trans h.1, ih h.2 fun i hi ↦ hsame i (Nat.le_of_succ_le hi)⟩

theorem StringAt.head (h : StringAt buf p l) : buf p = l.headD 0 := by
  cases l with
  | nil => exact h
  | cons c l => exact h.1

end StringAt

/-! ## The inner loops -/

section Loops

variable {t : ConsoleTask} {s w r : List UInt8} {n : ℕ}

/-- The buffer, with `k` NULs at `p`. -/
def blank (buf : Bytes) (p k : ℕ) : Bytes := setBytes buf p (fun _ ↦ 0) k

theorem blank_zero (buf : Bytes) (p : ℕ) : blank buf p 0 = buf := funext fun _ ↦ if_neg (by omega)

theorem blank_of_lt {buf : Bytes} {p k i : ℕ} (h : i < p) : blank buf p k i = buf i :=
  if_neg (by omega)

theorem blank_of_le {buf : Bytes} {p k i : ℕ} (h : p + k ≤ i) : blank buf p k i = buf i :=
  if_neg (by omega)

theorem blank_succ (buf : Bytes) (p k : ℕ) :
    blank (Function.update buf p 0) (p + 1) k = blank buf p (k + 1) := by
  funext i
  rcases Nat.lt_trichotomy i p with hlt | rfl | hgt
  · rw [blank_of_lt hlt, blank_of_lt (by omega), Function.update_of_ne hlt.ne]
  · rw [blank_of_lt (Nat.lt_succ_self i), Function.update_self]
    exact (if_pos (by omega)).symm
  · rw [blank, blank, setBytes, setBytes, Function.update_of_ne hgt.ne']
    congr 1
    rw [Nat.succ_le_iff, eq_iff_iff]
    omega

theorem skipSpace_eq (hat : StringAt t.buf t.p (s ++ r)) (hs : ∀ c ∈ s, isspace c = true)
    (hr : isspace (r.headD 0) = false) (hn : s.length < n) :
    skipSpace n t = some { t with buf := blank t.buf t.p s.length, p := t.p + s.length } := by
  obtain ⟨n, rfl⟩ := Nat.exists_eq_add_one_of_ne_zero (Nat.ne_zero_of_lt hn)
  induction s generalizing t n with
  | nil =>
    have hend : ¬isspace (t.buf t.p) = true := by
      rw [hat.head]
      simpa using hr
    rw [skipSpace, if_neg hend, List.length_nil, blank_zero, Nat.add_zero]
  | cons c s ih =>
    rw [List.forall_mem_cons] at hs
    have hlt : s.length < n := Nat.lt_of_succ_lt_succ hn
    obtain ⟨n, rfl⟩ := Nat.exists_eq_add_one_of_ne_zero (Nat.ne_zero_of_lt hlt)
    have hrest : StringAt (Function.update t.buf t.p 0) (t.p + 1) (s ++ r) :=
      StringAt.congr hat.2 fun i hi ↦ Function.update_of_ne (Nat.ne_of_gt hi) _ _
    rw [skipSpace, hat.1, if_pos hs.1, ih hrest hs.2 n hlt, blank_succ,
      List.length_cons, Nat.add_assoc, Nat.add_comm 1]

theorem skipWord_eq (hat : StringAt t.buf t.p (w ++ r)) (hw : ∀ c ∈ w, isspace c = false ∧ c ≠ 0)
    (hr : Boundary isspace r) (hn : w.length < n) :
    skipWord n t = some { t with p := t.p + w.length } := by
  obtain ⟨n, rfl⟩ := Nat.exists_eq_add_one_of_ne_zero (Nat.ne_zero_of_lt hn)
  induction w generalizing t n with
  | nil =>
    have hend : ¬(isspace (t.buf t.p) = false ∧ t.buf t.p ≠ 0) := by
      rw [hat.head]
      rintro ⟨hspace, hne⟩
      cases r with
      | nil => exact hne rfl
      | cons c r => exact Bool.false_ne_true (hspace.symm.trans (hr c rfl))
    rw [skipWord, if_neg hend, List.length_nil, Nat.add_zero]
  | cons c w ih =>
    rw [List.forall_mem_cons] at hw
    have hlt : w.length < n := Nat.lt_of_succ_lt_succ hn
    obtain ⟨n, rfl⟩ := Nat.exists_eq_add_one_of_ne_zero (Nat.ne_zero_of_lt hlt)
    rw [skipWord, hat.1, if_pos hw.1, ih hat.2 hw.2 n hlt]
    rw [List.length_cons, Nat.add_assoc, Nat.add_comm 1]

end Loops

/-! ## One round -/

section Round

variable {t : ConsoleTask} {s w r l : List UInt8} {n : ℕ}

/-- After a round that finds `k` characters of a word behind `i` of whitespace. -/
def ConsoleTask.taken (t : ConsoleTask) (i k : ℕ) : ConsoleTask :=
  { buf := blank t.buf t.p i
    p := t.p + i + k
    argv := t.argv ++ [t.p + i] }

theorem isspace_zero : isspace 0 = false := rfl

theorem ne_zero_of_isspace {c : UInt8} (h : isspace c = true) : c ≠ 0 := by
  rintro rfl
  exact Bool.false_ne_true h

theorem breakUp_separators (hat : StringAt t.buf t.p s) (hs : ∀ c ∈ s, isspace c = true)
    (hn : s.length < n) : breakUp (n + 1) t =
      some (.stored { t with buf := blank t.buf t.p s.length, p := t.p + s.length }) := by
  cases s with
  | nil =>
    have hzero : t.buf t.p = 0 := hat
    rw [breakUp, if_pos hzero, List.length_nil, blank_zero, Nat.add_zero]
  | cons c s =>
    have hne : t.buf t.p ≠ 0 := by
      rw [hat.head]
      exact ne_zero_of_isspace (hs c List.mem_cons_self)
    have happend : StringAt t.buf t.p ((c :: s) ++ []) := by rwa [List.append_nil]
    have hend : blank t.buf t.p (c :: s).length (t.p + (c :: s).length) = 0 :=
      (blank_of_le le_rfl).trans happend.drop
    rw [breakUp, if_neg hne, skipSpace_eq happend hs isspace_zero hn, Option.bind_some, if_pos hend]

theorem breakUp_word (hat : StringAt t.buf t.p (s ++ (w ++ r))) (hs : ∀ c ∈ s, isspace c = true)
    (hw : IsWord isspace w) (hzero : ∀ c ∈ w, c ≠ 0) (hr : Boundary isspace r)
    (hn : (s ++ (w ++ r)).length < n) : breakUp (n + 1) t =
      if t.argv.length < maxArgs then breakUp n (t.taken s.length w.length)
      else some .overrun := by
  have hlength : s.length + (w.length + r.length) < n := by
    rwa [List.length_append, List.length_append] at hn
  have hword : ∀ c ∈ w, isspace c = false ∧ c ≠ 0 := fun c hc ↦ ⟨hw.not_sep c hc, hzero c hc⟩
  obtain ⟨c, hhead, hc⟩ : ∃ c, (w ++ r).headD 0 = c ∧ isspace c = false ∧ c ≠ 0 := by
    obtain ⟨c, w, rfl⟩ := List.exists_cons_of_ne_nil hw.ne_nil
    exact ⟨c, rfl, hword c List.mem_cons_self⟩
  have hne : t.buf t.p ≠ 0 := by
    rw [hat.head]
    cases s with
    | nil => exact hhead ▸ hc.2
    | cons d s => exact ne_zero_of_isspace (hs d List.mem_cons_self)
  have hspace : skipSpace n t =
      some { t with buf := blank t.buf t.p s.length, p := t.p + s.length } :=
    skipSpace_eq hat hs (hhead ▸ hc.1) (by omega)
  have hrest : StringAt (blank t.buf t.p s.length) (t.p + s.length) (w ++ r) :=
    hat.drop.congr fun i hi ↦ blank_of_le hi
  have hstart : blank t.buf t.p s.length (t.p + s.length) ≠ 0 := by
    rw [hrest.head, hhead]
    exact hc.2
  rw [breakUp, if_neg hne, hspace, Option.bind_some, if_neg hstart]
  split_ifs
  · rw [skipWord_eq hrest hword hr (by omega), Option.bind_some]
    rfl
  · rfl

theorem stringAt_taken (hat : StringAt t.buf t.p (s ++ (w ++ r))) :
    StringAt (t.taken s.length w.length).buf (t.p + s.length) (w ++ r) :=
  hat.drop.congr fun _ hi ↦ blank_of_le hi

/-- A whole line, if there is room for its words. The NUL behind a word before it is stored. -/
theorem exists_breakUp_stored (hat : StringAt t.buf t.p l) (hl : ∀ c ∈ l, c ≠ 0)
    (hroom : t.argv.length + (wordsBy isspace l).length ≤ maxArgs) :
    ∃ t' argv, (∀ n, l.length + 1 < n → breakUp n t = some (.stored t')) ∧
      t'.argv = t.argv ++ argv ∧ List.Forall₂ (StringAt t'.buf) argv (wordsBy isspace l) ∧
      (∀ i < t.p, t'.buf i = t.buf i) ∧ (Boundary isspace l → t'.buf t.p = 0) := by
  induction l using word_induction isspace generalizing t with
  | separators s hs =>
    rw [wordsBy_of_separators hs]
    refine ⟨{ t with buf := blank t.buf t.p s.length, p := t.p + s.length }, [], fun n hn ↦ ?_,
      (List.append_nil _).symm, List.Forall₂.nil, fun i hi ↦ blank_of_lt hi, fun _ ↦ ?_⟩
    · obtain ⟨n, rfl⟩ := Nat.exists_eq_add_one_of_ne_zero (Nat.ne_zero_of_lt hn)
      exact breakUp_separators hat hs (Nat.lt_of_succ_lt_succ hn)
    · cases s with
      | nil =>
        have hzero : t.buf t.p = 0 := hat
        exact (blank_of_le (k := 0) le_rfl).trans hzero
      | cons c s => exact if_pos (by simp)
  | word s w r hs hw hr ih =>
    have hpos : 0 < w.length := List.length_pos_iff.mpr hw.ne_nil
    have hrest := stringAt_taken hat
    have hargs : (t.taken s.length w.length).argv.length = t.argv.length + 1 := List.length_append
    rw [wordsBy_append_of_separators hs, wordsBy_append_of_isWord hw hr] at hroom ⊢
    rw [List.length_cons] at hroom
    obtain ⟨t', argv, hbreak, hargv, hwords, hframe, hnul⟩ :=
      ih (t := t.taken s.length w.length) hrest.drop (fun c hc ↦ hl c (by simp [hc])) (by omega)
    refine ⟨t', (t.p + s.length) :: argv, fun n hn ↦ ?_, ?_, ?_, fun i hi ↦ ?_, fun hb ↦ ?_⟩
    · obtain ⟨n, rfl⟩ := Nat.exists_eq_add_one_of_ne_zero (Nat.ne_zero_of_lt hn)
      have hlength := Nat.lt_of_succ_lt_succ hn
      rw [breakUp_word hat hs hw (fun c hc ↦ hl c (by simp [hc])) hr hlength, if_pos (by omega)]
      rw [List.length_append, List.length_append] at hlength
      exact hbreak n (by omega)
    · rw [hargv, ConsoleTask.taken, List.append_assoc, List.singleton_append]
    · exact List.Forall₂.cons (hrest.take hframe (hnul hr)) hwords
    · have hlt : i < t.p + s.length + w.length := by omega
      exact (hframe i hlt).trans (blank_of_lt hi)
    · -- the line cannot begin with a word, so there is whitespace at `p`
      have hlt : t.p < t.p + s.length + w.length := by omega
      refine (hframe t.p hlt).trans (if_pos ⟨le_rfl, ?_⟩)
      cases s with
      | nil =>
        obtain ⟨c, w, rfl⟩ := List.exists_cons_of_ne_nil hw.ne_nil
        exact absurd ((hb c rfl).symm.trans (hw.not_sep c List.mem_cons_self)) (by decide)
      | cons c s => simp

theorem breakUp_overrun (hat : StringAt t.buf t.p l) (hl : ∀ c ∈ l, c ≠ 0) (hn : l.length + 1 < n)
    (hargs : t.argv.length ≤ maxArgs)
    (hroom : maxArgs < t.argv.length + (wordsBy isspace l).length) :
    breakUp n t = some .overrun := by
  induction l using word_induction isspace generalizing t n with
  | separators s hs =>
    rw [wordsBy_of_separators hs] at hroom
    exact absurd hroom hargs.not_gt
  | word s w r hs hw hr ih =>
    obtain ⟨n, rfl⟩ := Nat.exists_eq_add_one_of_ne_zero (Nat.ne_zero_of_lt hn)
    have hpos : 0 < w.length := List.length_pos_iff.mpr hw.ne_nil
    have hlength := Nat.lt_of_succ_lt_succ hn
    rw [wordsBy_append_of_separators hs, wordsBy_append_of_isWord hw hr, List.length_cons] at hroom
    have hround := breakUp_word hat hs hw (fun c hc ↦ hl c (by simp [hc])) hr hlength
    rw [hround]
    split_ifs with hlt
    · rw [List.length_append, List.length_append] at hlength
      have hargs : (t.taken s.length w.length).argv.length = t.argv.length + 1 := List.length_append
      exact ih (n := n) (stringAt_taken hat).drop (fun c hc ↦ hl c (by simp [hc])) (by omega)
        (by omega) (by omega)
    · rfl

end Round

/-! ## The theorem -/

theorem not_argumentsLaw {buf : Bytes} {line : CString} (hline : StringAt buf 0 line.chars)
    (hmany : maxArgs < (wordsBy isspace line.chars).length) : ¬ArgumentsLaw buf line := by
  rintro ⟨k, t, hends, -⟩
  obtain ⟨n, hn, hk⟩ : ∃ n, line.chars.length + 1 < n ∧ k ≤ n :=
    ⟨k + line.chars.length + 2, by omega, by omega⟩
  have hoverrun : arguments n buf = some .overrun :=
    breakUp_overrun hline line.ne_zero hn (Nat.zero_le _) (by simpa using hmany)
  rw [hends n hk] at hoverrun
  exact Arguments.noConfusion (Option.some.inj hoverrun)

/-- **The ninth word**: of nine words of one letter, the last one is stored behind `argv`. -/
theorem arguments_overrun : ∃ (buf : Bytes) (line : CString),
    line.chars = [97, 32, 98, 32, 99, 32, 100, 32, 101, 32, 102, 32, 103, 32, 104, 32, 105] ∧
      StringAt buf 0 line.chars ∧ arguments 19 buf = some .overrun ∧ ¬ArgumentsLaw buf line := by
  refine ⟨fun i ↦ List.getD
    [97, 32, 98, 32, 99, 32, 100, 32, 101, 32, 102, 32, 103, 32, 104, 32, 105] i 0,
    ⟨_, ne_zero_of_all rfl⟩, rfl, by decide, rfl, not_argumentsLaw (by decide) (by decide)⟩

/-- **Lines and their words, exactly.** For every buffer with a line in it, the loop ends, stores at
most `MAX_ARGS` pointers within `argv`, and these are of the words of the line in order, each of
them terminated, if and only if the line has at most `MAX_ARGS` words. -/
theorem arguments_law_iff (buf : Bytes) (line : CString) (hline : StringAt buf 0 line.chars) :
    ArgumentsLaw buf line ↔ (wordsBy isspace line.chars).length ≤ maxArgs := by
  refine ⟨fun h ↦ not_lt.mp fun hmany ↦ not_argumentsLaw hline hmany h, fun hfew ↦ ?_⟩
  obtain ⟨t, argv, hends, hargv, hwords, -, -⟩ :=
    exists_breakUp_stored (t := ⟨buf, 0, []⟩) hline line.ne_zero (by simpa using hfew)
  rw [List.nil_append] at hargv
  rw [← hargv] at hwords
  exact ⟨line.chars.length + 2, t, fun n hn ↦ hends n hn, hwords.length_eq.trans_le hfew, hwords⟩

theorem arguments_law_iff_two : ArgumentsLaw (fun i ↦ [32, 112, 115, 9, 32, 97, 32].getD i 0)
    ⟨[32, 112, 115, 9, 32, 97, 32], ne_zero_of_all rfl⟩ :=
  (arguments_law_iff _ _ (by decide)).mpr (by decide)

end Ertos
