import Ertos.Dev.Gets
import Ertos.Net.PktBytes

/-!
# Editing a line

What `gets` returns, and how much of the input it takes, as a function of the keys: an ordinary
character is appended to the line, backspace drops the last one, and Ctrl-U drops all.

## The invariant

At the head of the loop the first `s` bytes of the buffer are the line edited so far. Each ordinary
character takes one from what is left of `size`, and an editing key gives none back. So the loop
lives on until the line end if and only if fewer than `size` ordinary characters are typed before
it, however many of them are still in the line.
-/

namespace Ertos

open ConsRead

/-! ## Lines as they are edited -/

def editKey (line : List UInt8) (c : UInt8) : List UInt8 :=
  if c = backspace then line.dropLast else if c = ctrlU then [] else line ++ [c]

/-- Without a key the line stays. -/
def edit (line : List UInt8) : ConsRead → List UInt8
  | .byte c => editKey line c
  | _ => line

/-- All edits, in order. -/
def edited (input : List ConsRead) : List UInt8 := input.foldl edit []

namespace ConsRead

/-- Something before the line end. -/
def Key : ConsRead → Prop
  | .error => False
  | .empty => True
  | .byte c => ¬LineEnd c

instance : DecidablePred Key
  | .error => isFalse id
  | .empty => isTrue trivial
  | .byte c => inferInstanceAs (Decidable ¬LineEnd c)

def isStored : ConsRead → Bool
  | .byte c => decide (Ordinary c)
  | _ => false

end ConsRead

/-- An input with a line end, before which the edited line always fits in `size - 1`. -/
structure TypedLine (size : ℤ) where
  keys : List ConsRead
  /-- The first line end. -/
  ending : UInt8
  rest : List ConsRead
  isKey : ∀ r ∈ keys, r.Key
  lineEnd : LineEnd ending
  fits : ∀ p, p <+: keys → ((edited p).length : ℤ) ≤ size - 1

def TypedLine.input {size : ℤ} (l : TypedLine size) : List ConsRead :=
  l.keys ++ .byte l.ending :: l.rest

theorem TypedLine.size_pos {size : ℤ} (l : TypedLine size) : 0 < size := by
  have hnil : (0 : ℤ) ≤ size - 1 := l.fits [] List.nil_prefix
  omega

/-! ## The law -/

/-- What of the input is left when `getsFrom` ends. -/
def unreadFrom : List ConsRead → Gets → List ConsRead
  | [], _ => []
  | r :: input, g =>
    match g.next r with
    | none => input
    | some t => if t.More then unreadFrom input t else input

/-- What of the input is left when `gets` ends. -/
def unread (c : UInt8) (io : StdioLog) (buf : Bytes) (size : ℤ) (input : List ConsRead) :
    List ConsRead :=
  unreadFrom input ⟨0, size, c, buf, io.next .stdioBufDisable, []⟩

/-- The input is taken up to the line end, and the edited line is returned, terminated. -/
def EditLaw {size : ℤ} (c : UInt8) (io : StdioLog) (buf : Bytes) (l : TypedLine size) : Prop :=
  unread c io buf size l.input = l.rest ∧
    ∃ g, gets c io buf size l.input = .line g ∧
      bytesOf g.buf (edited l.keys).length = edited l.keys ∧ g.buf (edited l.keys).length = 0

/-! ## One round -/

/-- The line so far. -/
def Gets.line (g : Gets) : List UInt8 := bytesOf g.buf g.s

theorem bytesOf_succ (d : Bytes) (n : ℕ) : bytesOf d (n + 1) = bytesOf d n ++ [d n] := by
  rw [bytesOf, List.range_succ, List.map_append]
  rfl

theorem dropLast_bytesOf (d : Bytes) (n : ℕ) : (bytesOf d n).dropLast = bytesOf d (n - 1) := by
  cases n with
  | zero => rfl
  | succ n => rw [bytesOf_succ, List.dropLast_concat, Nat.add_sub_cancel]

theorem bytesOf_update (d : Bytes) (n : ℕ) (x : UInt8) :
    bytesOf (Function.update d n x) n = bytesOf d n :=
  bytesOf_congr fun _ hi ↦ Function.update_of_ne hi.ne _ _

namespace Gets

variable {g : Gets} {c : UInt8}

theorem line_process (h : ¬LineEnd c) :
    ({ g with c := c } : Gets).process.line = editKey g.line c := by
  unfold editKey
  split_ifs with hbackspace hctrlU
  · subst hbackspace
    by_cases hs : 0 < g.s
    · have hprocess : ({ g with c := backspace } : Gets).process =
          ({ g with c := backspace } : Gets).eraseLast := if_pos hs
      rw [hprocess]
      exact (dropLast_bytesOf g.buf g.s).symm
    · have hprocess : ({ g with c := backspace } : Gets).process = { g with c := backspace } :=
        if_neg hs
      rw [hprocess, line, line, Nat.eq_zero_of_not_pos hs]
      rfl
  · subst hctrlU
    have hprocess : ({ g with c := ctrlU } : Gets).process = wipe g.s { g with c := ctrlU } := rfl
    rw [hprocess, line, (wipe_spec g.s { g with c := ctrlU }).1, Nat.sub_self]
    rfl
  · have hprocess := ((if_neg h).trans (if_neg hbackspace)).trans (if_neg hctrlU)
      (a := ({ g with c := c } : Gets).process)
    rw [hprocess]
    show bytesOf (Function.update g.buf g.s c) (g.s + 1) = g.line ++ [c]
    rw [bytesOf_succ, bytesOf_update, Function.update_self, line]

theorem more_iff : g.More ↔ ¬LineEnd g.c ∧ 0 < g.size := by
  unfold More LineEnd
  tauto

end Gets

/-- The loop takes a key: the line is edited, and an ordinary character takes up room. -/
structure TakesKey (g : Gets) (r : ConsRead) (t : Gets) : Prop where
  next : g.next r = some t
  line : t.line = edit g.line r
  size : t.size = g.size - if r.isStored then 1 else 0
  not_lineEnd : ¬LineEnd t.c

theorem exists_takesKey {g : Gets} {r : ConsRead} (hr : r.Key) (hc : ¬LineEnd g.c) :
    ∃ t, TakesKey g r t := by
  cases r with
  | error => exact hr.elim
  | empty => exact ⟨g, rfl, rfl, (Int.sub_zero _).symm, hc⟩
  | byte c =>
    have hend : ¬LineEnd c := hr
    obtain ⟨t, ht⟩ : ∃ t, t = ({ g with c := c } : Gets).process := ⟨_, rfl⟩
    have hline : t.line = editKey g.line c := ht ▸ Gets.line_process hend
    by_cases herase : EraseKey c
    · obtain ⟨-, -, hsize, htc, -⟩ := Gets.process_of_eraseKey herase ht
      have hstored : (ConsRead.byte c).isStored = false := decide_eq_false fun h ↦ h.2 herase
      refine ⟨t, congrArg some ht.symm, hline, ?_, htc ▸ hend⟩
      rw [hsize, hstored]
      exact (Int.sub_zero _).symm
    · obtain ⟨-, hsize, htc, -⟩ := Gets.process_of_ordinary ⟨hend, herase⟩ ht
      have hstored : (ConsRead.byte c).isStored = true := decide_eq_true ⟨hend, herase⟩
      refine ⟨t, congrArg some ht.symm, hline, ?_, htc ▸ hend⟩
      rw [hsize, hstored]
      rfl

/-! ## Runs -/

section Runs

variable {g t : Gets} {r : ConsRead} {keys input : List ConsRead} {c : UInt8}

theorem getsFrom_cons (h : g.next r = some t) : getsFrom (r :: input) g =
    if t.More then getsFrom input t else .line (t.store 0).restore := by
  rw [getsFrom, h]

theorem unreadFrom_cons (h : g.next r = some t) :
    unreadFrom (r :: input) g = if t.More then unreadFrom input t else input := by
  rw [unreadFrom, h]

/-- With room for all of the keys, the loop takes them. -/
theorem exists_takes_of_lt (hkeys : ∀ r ∈ keys, r.Key) (hc : ¬LineEnd g.c)
    (hroom : (keys.countP isStored : ℤ) < g.size) :
    ∃ t : Gets, t.line = keys.foldl edit g.line ∧ ∀ input,
      getsFrom (keys ++ input) g = getsFrom input t ∧
        unreadFrom (keys ++ input) g = unreadFrom input t := by
  induction keys generalizing g with
  | nil => exact ⟨g, rfl, fun _ ↦ ⟨rfl, rfl⟩⟩
  | cons r keys ih =>
    rw [List.forall_mem_cons] at hkeys
    obtain ⟨t, ht⟩ := exists_takesKey hkeys.1 hc
    have hsize := ht.size
    rw [List.countP_cons, Nat.cast_add, Nat.cast_ite, Nat.cast_one, Nat.cast_zero] at hroom
    have hmore : t.More := Gets.more_iff.mpr ⟨ht.not_lineEnd, by omega⟩
    obtain ⟨t', hline, hrun⟩ := ih hkeys.2 ht.not_lineEnd (by omega)
    refine ⟨t', ?_, fun input ↦ ?_⟩
    · rw [hline, ht.line, List.foldl_cons]
    · rw [List.cons_append, getsFrom_cons ht.next, unreadFrom_cons ht.next, if_pos hmore,
        if_pos hmore]
      exact hrun input

/-- Otherwise it ends among them. -/
theorem suffix_unreadFrom_of_le (hkeys : ∀ r ∈ keys, r.Key) (hc : ¬LineEnd g.c)
    (hpos : 0 < g.size) (hroom : g.size ≤ keys.countP isStored) :
    input <:+ unreadFrom (keys ++ input) g := by
  induction keys generalizing g with
  | nil => exact absurd hroom (by simpa using hpos)
  | cons r keys ih =>
    rw [List.forall_mem_cons] at hkeys
    obtain ⟨t, ht⟩ := exists_takesKey hkeys.1 hc
    have hsize := ht.size
    rw [List.countP_cons, Nat.cast_add, Nat.cast_ite, Nat.cast_one, Nat.cast_zero] at hroom
    rw [List.cons_append, unreadFrom_cons ht.next]
    split_ifs with hmore
    · exact ih hkeys.2 ht.not_lineEnd hmore.2.2 (by omega)
    · exact List.suffix_append keys input

theorem getsFrom_lineEnd (h : LineEnd c) (input : List ConsRead) (g : Gets) :
    getsFrom (.byte c :: input) g = .line (({ g with c := c } : Gets).store 0).restore ∧
      unreadFrom (.byte c :: input) g = input := by
  have hnext : g.next (.byte c) = some { g with c := c } :=
    congrArg some (Gets.process_of_lineEnd h)
  have hnot : ¬({ g with c := c } : Gets).More := fun hmore ↦ (Gets.more_iff.mp hmore).1 h
  rw [getsFrom_cons hnext, unreadFrom_cons hnext, if_neg hnot, if_neg hnot]
  exact ⟨rfl, rfl⟩

end Runs

/-! ## The theorem -/

section Law

variable {size : ℤ} {c : UInt8} {io : StdioLog} {buf : Bytes} {l : TypedLine size}

theorem not_editLaw_of_suffix (h : .byte l.ending :: l.rest <:+ unread c io buf size l.input) :
    ¬EditLaw c io buf l := by
  rintro ⟨hunread, -⟩
  have hle := h.length_le
  rw [hunread, List.length_cons] at hle
  exact Nat.not_succ_le_self _ hle

theorem editLaw_iff (hc : ¬LineEnd c) :
    EditLaw c io buf l ↔ (l.keys.countP isStored : ℤ) < size := by
  constructor
  · intro h
    by_contra hle
    refine not_editLaw_of_suffix ?_ h
    exact suffix_unreadFrom_of_le l.isKey hc l.size_pos (not_lt.mp hle)
  · intro hlt
    obtain ⟨t, hline, hrun⟩ := exists_takes_of_lt
      (g := ⟨0, size, c, buf, io.next .stdioBufDisable, []⟩) l.isKey hc hlt
    obtain ⟨hfrom, hunread⟩ := hrun (.byte l.ending :: l.rest)
    obtain ⟨hend, hrest⟩ := getsFrom_lineEnd l.lineEnd l.rest t
    have hedited : bytesOf t.buf t.s = edited l.keys := hline
    have hlength : (edited l.keys).length = t.s := by rw [← hedited, length_bytesOf]
    refine ⟨hunread.trans hrest, _, hfrom.trans hend, ?_, ?_⟩
    · rw [hlength, ← hedited]
      exact bytesOf_update t.buf t.s 0
    · rw [hlength]
      exact Function.update_self _ _ _

/-- What is in `c` at the start matters only if no byte comes first. -/
theorem editLaw_congr (h : l.input.head? ≠ some .empty) (d : UInt8) :
    EditLaw c io buf l ↔ EditLaw d io buf l := by
  obtain ⟨b, input, hinput⟩ : ∃ b input, l.input = .byte b :: input := by
    have hkeys := l.isKey
    rw [TypedLine.input] at h ⊢
    cases hl : l.keys with
    | nil => exact ⟨l.ending, l.rest, rfl⟩
    | cons r keys =>
      rw [hl] at h hkeys
      cases r with
      | error => exact (hkeys .error List.mem_cons_self).elim
      | empty => exact absurd rfl h
      | byte b => exact ⟨b, keys ++ .byte l.ending :: l.rest, rfl⟩
  rw [EditLaw, EditLaw, hinput]
  exact Iff.rfl

theorem not_editLaw_of_endsAtOnce (h : EndsAtOnce c l.input) : ¬EditLaw c io buf l := by
  obtain ⟨hc, hhead⟩ := h
  refine not_editLaw_of_suffix ?_
  rw [TypedLine.input] at hhead ⊢
  cases hl : l.keys with
  | nil =>
    rw [hl] at hhead
    exact ConsRead.noConfusion (Option.some.inj hhead)
  | cons r keys =>
    rw [hl] at hhead
    obtain rfl : r = .empty := Option.some.inj hhead
    have hnot : ¬(⟨0, size, c, buf, io.next .stdioBufDisable, []⟩ : Gets).More :=
      fun hmore ↦ (Gets.more_iff.mp hmore).1 hc
    rw [unread, List.cons_append, unreadFrom_cons rfl, if_neg hnot]
    exact List.suffix_append _ _

end Law

/-- **A character too many**: with room for two, `gets` is done with the second one typed, though
the first was taken back, and leaves the line end for the next line. -/
theorem gets_stops_early : ∃ l : TypedLine 2,
    l.input = [.byte 97, .byte backspace, .byte 98, .byte carriageReturn] ∧
      unread 0 .init (fun _ ↦ 1) 2 l.input = [.byte carriageReturn] ∧
      ¬EditLaw 0 .init (fun _ ↦ 1) l := by
  refine ⟨⟨[.byte 97, .byte backspace, .byte 98], carriageReturn, [], ?_, Or.inl rfl, ?_⟩, rfl, rfl,
    fun h ↦ ?_⟩
  · decide
  · have hfits : ∀ p ∈ [ConsRead.byte 97, .byte backspace, .byte 98].inits,
        ((edited p).length : ℤ) ≤ 2 - 1 := by decide
    exact fun p hp ↦ hfits p ((List.mem_inits _ _).mpr hp)
  · exact absurd h.1 (List.cons_ne_nil _ _)

/-- **Lines and their edits, exactly.** For every size and every input in which a line end comes
and the line edited before it always fits, whatever polls find nothing, `gets` takes the input up to
the line end and returns the edited line, terminated, if and only if fewer than `size` ordinary
characters are typed before the line end, those taken back among them, and the loop does not end at
once on what happens to be in `c`. -/
theorem gets_edits_iff {size : ℤ} (c : UInt8) (io : StdioLog) (buf : Bytes) (l : TypedLine size) :
    EditLaw c io buf l ↔ (l.keys.countP isStored : ℤ) < size ∧ ¬EndsAtOnce c l.input := by
  by_cases hend : EndsAtOnce c l.input
  · exact iff_of_false (not_editLaw_of_endsAtOnce hend) fun h ↦ h.2 hend
  rw [and_iff_left hend]
  by_cases hc : LineEnd c
  · have hhead : l.input.head? ≠ some .empty := fun h ↦ hend ⟨hc, h⟩
    rw [editLaw_congr hhead 0]
    exact editLaw_iff (by decide)
  · exact editLaw_iff hc

end Ertos
