import Ertos.Dev.Stdio

/-!
# Reading a line

`gets` of `lib/stdio.c` reads characters into a buffer until a line end, with two keys for editing:
backspace takes back the last character, and Ctrl-U all of them. The loop also ends when the buffer
is full, and the terminating NUL is stored after it.

What is left of the buffer is counted down with every character stored, and an editing key does not
count it up again. So the position and this count add up to the size of the buffer until a character
is taken back, and to less from then on. The NUL falls behind the buffer exactly if as many
characters as the buffer holds are typed, and none of them is taken back.
-/

namespace Ertos

/-! ## The loop -/

/-- What `cons_read` returns when asked for one byte. -/
inductive ConsRead
  | error
  | empty
  | byte (c : UInt8)

def carriageReturn : UInt8 := 13

def backspace : UInt8 := 8

def ctrlU : UInt8 := 0x15

/-- Whether input echoes characters. -/
def echo : Bool := true

/-- `_puts`. -/
def StdioLog.puts (io : StdioLog) (l : List UInt8) : StdioLog :=
  l.foldl (fun io c ↦ io.next (.putchar c)) io

/-- The variables of `gets`, the stream, and the offsets of its writes so far. -/
structure Gets where
  /-- `s - orig_s`. -/
  s : ℕ
  size : ℤ
  c : UInt8
  buf : Bytes
  io : StdioLog
  writes : List ℕ

namespace Gets

/-- `*s = x`. -/
def store (g : Gets) (x : UInt8) : Gets :=
  { g with buf := Function.update g.buf g.s x, writes := g.writes ++ [g.s] }

def eraseLast (g : Gets) : Gets := { g with s := g.s - 1, io := g.io.puts [8, 32, 8] }

/-- The loop of Ctrl-U, of `n` rounds. -/
def wipe : ℕ → Gets → Gets
  | 0, g => g
  | n + 1, g => wipe n g.eraseLast

/-- The `switch`. -/
def process (g : Gets) : Gets :=
  if g.c = carriageReturn ∨ g.c = Stdout.newline then g
  else if g.c = backspace then if 0 < g.s then g.eraseLast else g
  else if g.c = ctrlU then wipe g.s g
  else
    let t := { g.store g.c with s := g.s + 1, size := g.size - 1 }
    if echo then { t with io := t.io.next (.putchar t.c) } else t

/-- The condition of the loop. -/
def More (g : Gets) : Prop := g.c ≠ Stdout.newline ∧ g.c ≠ carriageReturn ∧ 0 < g.size

instance (g : Gets) : Decidable g.More :=
  inferInstanceAs (Decidable (g.c ≠ Stdout.newline ∧ g.c ≠ carriageReturn ∧ 0 < g.size))

/-- The body of the loop. Without a character the process sleeps, and the loop is tested with the
one from before. -/
def next (g : Gets) : ConsRead → Option Gets
  | .error => none
  | .empty => some g
  | .byte c => some { g with c := c }.process

def restore (g : Gets) : Gets := { g with io := g.io.next .stdioBufRestore }

end Gets

inductive GetsResult
  /-- The loop goes on when more comes in. -/
  | reading (g : Gets)
  /-- `NULL` is returned. -/
  | null (g : Gets)
  /-- The buffer is returned. -/
  | line (g : Gets)

def getsFrom : List ConsRead → Gets → GetsResult
  | [], g => .reading g
  | r :: input, g =>
    match g.next r with
    | none => .null g.restore
    | some t => if t.More then getsFrom input t else .line (t.store 0).restore

/-- `gets`, with what `cons_read` returns. The variable `c` is not initialised. -/
def gets (c : UInt8) (io : StdioLog) (buf : Bytes) (size : ℤ) (input : List ConsRead) :
    GetsResult :=
  getsFrom input ⟨0, size, c, buf, io.next .stdioBufDisable, []⟩

/-! ## The law and its condition -/

/-- All writes go to the buffer. -/
def Gets.Within (size : ℤ) (g : Gets) : Prop := ∀ i ∈ g.writes, (i : ℤ) < size

/-- All writes go to the buffer, and a line that is returned is terminated there. -/
def GetsSafe (size : ℤ) : GetsResult → Prop
  | .reading g => g.Within size
  | .null g => g.Within size
  | .line g => g.Within size ∧ ∃ i : ℕ, (i : ℤ) < size ∧ g.buf i = 0

namespace ConsRead

def LineEnd (c : UInt8) : Prop := c = carriageReturn ∨ c = Stdout.newline

/-- An editing key. -/
def EraseKey (c : UInt8) : Prop := c = backspace ∨ c = ctrlU

/-- A character that is stored. -/
def Ordinary (c : UInt8) : Prop := ¬LineEnd c ∧ ¬EraseKey c

instance (c : UInt8) : Decidable (LineEnd c) :=
  inferInstanceAs (Decidable (c = carriageReturn ∨ c = Stdout.newline))

instance (c : UInt8) : Decidable (EraseKey c) :=
  inferInstanceAs (Decidable (c = backspace ∨ c = ctrlU))

instance (c : UInt8) : Decidable (Ordinary c) :=
  inferInstanceAs (Decidable (¬LineEnd c ∧ ¬EraseKey c))

/-- An editing key, or nothing. -/
def Idle : ConsRead → Prop
  | .error => False
  | .empty => True
  | .byte c => EraseKey c

/-- An ordinary character, or nothing. -/
def Plain : ConsRead → Prop
  | .error => False
  | .empty => True
  | .byte c => Ordinary c

def isByte : ConsRead → Bool
  | .byte _ => true
  | _ => false

end ConsRead

open ConsRead

/-- `size` ordinary characters come in, with nothing else between them, and only editing keys before
them. -/
def FillsUp (size : ℤ) (input : List ConsRead) : Prop :=
  ∃ lead line rest, input = lead ++ (line ++ rest) ∧ (∀ r ∈ lead, r.Idle) ∧ (∀ r ∈ line, r.Plain) ∧
    (line.countP isByte : ℤ) = size

/-- The loop ends at once, on what happens to be in `c`. -/
def EndsAtOnce (c : UInt8) (input : List ConsRead) : Prop :=
  LineEnd c ∧ input.head? = some .empty

/-! ## One round -/

namespace Gets

variable {g : Gets} {c : UInt8}

theorem wipe_spec (n : ℕ) (g : Gets) : (wipe n g).s = g.s - n ∧ (wipe n g).size = g.size ∧
    (wipe n g).c = g.c ∧ (wipe n g).writes = g.writes := by
  induction n generalizing g with
  | zero => exact ⟨rfl, rfl, rfl, rfl⟩
  | succ n ih =>
    obtain ⟨hs, hsize, hc, hwrites⟩ := ih g.eraseLast
    refine ⟨?_, hsize, hc, hwrites⟩
    rw [wipe, hs, Nat.add_comm n 1, ← Nat.sub_sub]
    rfl

theorem process_of_lineEnd (h : LineEnd c) : { g with c := c }.process = { g with c := c } :=
  if_pos h

theorem process_of_eraseKey (h : EraseKey c) {t : Gets} (ht : t = { g with c := c }.process) :
    t.s ≤ g.s ∧ (0 < g.s → t.s < g.s) ∧ t.size = g.size ∧ t.c = c ∧ t.writes = g.writes := by
  subst ht
  rcases h with rfl | rfl
  · by_cases hs : 0 < g.s
    · have hprocess : { g with c := backspace }.process = { g with c := backspace }.eraseLast :=
        if_pos hs
      rw [hprocess]
      exact ⟨Nat.sub_le _ _, fun _ ↦ Nat.sub_lt hs Nat.one_pos, rfl, rfl, rfl⟩
    · have hprocess : { g with c := backspace }.process = { g with c := backspace } := if_neg hs
      rw [hprocess]
      exact ⟨le_rfl, fun h ↦ absurd h hs, rfl, rfl, rfl⟩
  · obtain ⟨hs, hsize, hc, hwrites⟩ := wipe_spec g.s { g with c := ctrlU }
    have hprocess : { g with c := ctrlU }.process = wipe g.s { g with c := ctrlU } := rfl
    rw [hprocess, hs, hsize, hc, hwrites]
    exact ⟨Nat.sub_le _ _, fun h ↦ (Nat.sub_self g.s).trans_lt h, rfl, rfl, rfl⟩

theorem process_of_ordinary (h : Ordinary c) {t : Gets} (ht : t = { g with c := c }.process) :
    t.s = g.s + 1 ∧ t.size = g.size - 1 ∧ t.c = c ∧ t.writes = g.writes ++ [g.s] := by
  have hprocess := ((if_neg h.1).trans (if_neg fun hc ↦ h.2 (Or.inl hc))).trans
    (if_neg fun hc ↦ h.2 (Or.inr hc)) (a := { g with c := c }.process)
  subst ht
  rw [hprocess]
  exact ⟨rfl, rfl, rfl, rfl⟩

theorem within_store {size : ℤ} (hg : g.Within size) (hs : (g.s : ℤ) < size) (x : UInt8) :
    (g.store x).Within size := by
  intro i hi
  rcases List.mem_append.mp hi with hi | hi
  · exact hg i hi
  · rw [List.mem_singleton.mp hi]
    exact hs

/-- **A returned line** is safe if and only if the position is in the buffer. -/
theorem getsSafe_line_iff {size : ℤ} (hg : g.Within size) :
    GetsSafe size (.line (g.store 0).restore) ↔ (g.s : ℤ) < size := by
  constructor
  · exact fun h ↦ h.1 g.s (List.mem_append_right _ (List.mem_singleton.mpr rfl))
  · exact fun hs ↦ ⟨within_store hg hs 0, g.s, hs, Function.update_self _ _ _⟩

end Gets

/-! ## The condition, read from the input -/

/-- Before the first character, an editing key does nothing. -/
def Harmless (s : ℕ) (r : ConsRead) : Prop := if s = 0 then r.Idle else r = .empty

/-- `FillsUp`, with `s` characters in the buffer and room for `n`. -/
def Fills (s : ℕ) (n : ℤ) (input : List ConsRead) : Prop :=
  ∃ lead line rest, input = lead ++ (line ++ rest) ∧ (∀ r ∈ lead, Harmless s r) ∧
    (∀ r ∈ line, r.Plain) ∧ (line.countP isByte : ℤ) = n

section Fills

variable {s : ℕ} {n : ℤ} {input : List ConsRead} {c : UInt8}

theorem fills_zero_iff : Fills 0 n input ↔ FillsUp n input := Iff.rfl

theorem fills_full : Fills s 0 input := ⟨[], [], input, rfl, by simp, by simp, rfl⟩

theorem not_fills_nil (hn : 0 < n) : ¬Fills s n [] := by
  rintro ⟨lead, line, rest, hinput, -, -, hcount⟩
  obtain ⟨-, hline⟩ := List.append_eq_nil_iff.mp hinput.symm
  rw [(List.append_eq_nil_iff.mp hline).1] at hcount
  exact hn.ne hcount

theorem harmless_empty (s : ℕ) : Harmless s .empty := by
  unfold Harmless
  split_ifs
  · trivial
  · rfl

/-- Nothing but a harmless key or an ordinary character can come first. -/
theorem fills_cons_iff {r : ConsRead} (hn : 0 < n) : Fills s n (r :: input) ↔
    (Harmless s r ∧ Fills s n input) ∨
      (∃ c, r = .byte c ∧ Ordinary c) ∧ Fills (s + 1) (n - 1) input := by
  constructor
  · rintro ⟨lead, line, rest, hinput, hlead, hline, hcount⟩
    cases lead with
    | cons r' lead =>
      obtain ⟨rfl, rfl⟩ := List.cons.inj hinput
      rw [List.forall_mem_cons] at hlead
      exact Or.inl ⟨hlead.1, lead, line, rest, rfl, hlead.2, hline, hcount⟩
    | nil =>
      cases line with
      | nil => exact absurd hcount hn.ne
      | cons r' line =>
        obtain ⟨rfl, rfl⟩ := List.cons.inj hinput
        rw [List.forall_mem_cons] at hline
        cases r with
        | error => exact hline.1.elim
        | empty => exact Or.inl ⟨harmless_empty s, [], line, rest, rfl, by simp, hline.2, hcount⟩
        | byte c =>
          refine Or.inr ⟨⟨c, rfl, hline.1⟩, [], line, rest, rfl, by simp, hline.2, ?_⟩
          rw [List.countP_cons_of_pos rfl, Nat.cast_succ] at hcount
          exact eq_sub_of_add_eq hcount
  · rintro (⟨hr, lead, line, rest, rfl, hlead, hline, hcount⟩ |
      ⟨⟨c, rfl, hc⟩, lead, line, rest, rfl, hlead, hline, hcount⟩)
    · exact ⟨r :: lead, line, rest, rfl, List.forall_mem_cons.mpr ⟨hr, hlead⟩, hline, hcount⟩
    · -- behind a character only pauses are harmless, so all of it is part of the line
      have hempty : ∀ r ∈ lead, r = .empty := hlead
      refine ⟨[], .byte c :: (lead ++ line), rest, by simp, by simp, ?_, ?_⟩
      · refine List.forall_mem_cons.mpr ⟨hc, fun r hr ↦ ?_⟩
        rcases List.mem_append.mp hr with hr | hr
        · rw [hempty r hr]
          trivial
        · exact hline r hr
      · have hlead0 : lead.countP isByte = 0 := by
          rw [List.countP_eq_zero]
          intro r hr
          rw [hempty r hr]
          exact Bool.false_ne_true
        rw [List.countP_cons_of_pos rfl, List.countP_append, hlead0, Nat.zero_add, Nat.cast_succ,
          hcount, sub_add_cancel]

end Fills

/-! ## The loop and its invariant -/

/-- At the head of the loop. -/
structure Gets.Inv (size : ℤ) (g : Gets) : Prop where
  within : g.Within size
  room : 0 < g.size
  sum_le : g.s + g.size ≤ size

namespace Gets.Inv

variable {size : ℤ} {g : Gets} {c : UInt8} {input : List ConsRead}

theorem s_lt (h : g.Inv size) : (g.s : ℤ) < size := by
  have := h.room
  have := h.sum_le
  omega

theorem lineEnd (h : g.Inv size) (hc : LineEnd c) :
    GetsSafe size (getsFrom (.byte c :: input) g) := by
  have hnot : ¬({ g with c := c } : Gets).More := by
    rintro ⟨hlf, hcr, -⟩
    exact hc.elim hcr hlf
  have hfrom :
      getsFrom (.byte c :: input) g = .line (({ g with c := c } : Gets).store 0).restore := by
    rw [getsFrom, Gets.next, process_of_lineEnd hc]
    exact if_neg hnot
  rw [hfrom]
  exact (getsSafe_line_iff (g := { g with c := c }) h.within).mpr h.s_lt

theorem eraseKey (h : g.Inv size) (hc : EraseKey c) {t : Gets}
    (ht : t = { g with c := c }.process) (input : List ConsRead) :
    t.Inv size ∧ getsFrom (.byte c :: input) g = getsFrom input t := by
  obtain ⟨hs, -, hsize, htc, hwrites⟩ := process_of_eraseKey hc ht
  have hmore : t.More := by
    refine ⟨?_, ?_, hsize ▸ h.room⟩
    · rw [htc]
      rcases hc with rfl | rfl <;> decide
    · rw [htc]
      rcases hc with rfl | rfl <;> decide
  refine ⟨⟨fun i hi ↦ h.within i (hwrites ▸ hi), hsize ▸ h.room, ?_⟩, ?_⟩
  · have := h.sum_le
    omega
  · rw [getsFrom, Gets.next, ← ht]
    exact if_pos hmore

/-- A character that does not use up the room keeps the invariant, and after the last one the line
is returned. -/
theorem ordinary (h : g.Inv size) (hc : Ordinary c) {t : Gets}
    (ht : t = { g with c := c }.process) (input : List ConsRead) :
    t.Within size ∧ (0 < t.size → t.Inv size ∧ getsFrom (.byte c :: input) g = getsFrom input t) ∧
      (t.size = 0 → getsFrom (.byte c :: input) g = .line (t.store 0).restore) := by
  obtain ⟨hs, hsize, htc, hwrites⟩ := process_of_ordinary hc ht
  have hwithin : t.Within size := by
    intro i hi
    rw [hwrites] at hi
    exact within_store h.within h.s_lt 0 i hi
  have hfrom : getsFrom (.byte c :: input) g
      = if t.More then getsFrom input t else .line (t.store 0).restore := by
    rw [getsFrom, Gets.next, ← ht]
  refine ⟨hwithin, fun hroom ↦ ⟨⟨hwithin, hroom, ?_⟩, ?_⟩, fun hfull ↦ ?_⟩
  · have := h.sum_le
    omega
  · have hmore : t.More := ⟨htc ▸ fun h ↦ hc.1 (Or.inr h), htc ▸ fun h ↦ hc.1 (Or.inl h), hroom⟩
    exact hfrom.trans (if_pos hmore)
  · have hnot : ¬t.More := fun hmore ↦ hmore.2.2.ne' hfull
    exact hfrom.trans (if_neg hnot)

theorem empty (h : g.Inv size) (hc : ¬LineEnd g.c) :
    getsFrom (.empty :: input) g = getsFrom input g := by
  have hmore : g.More := ⟨fun h ↦ hc (Or.inr h), fun h ↦ hc (Or.inl h), h.room⟩
  exact if_pos hmore

theorem endsAtOnce (h : g.Inv size) (hc : LineEnd g.c) :
    GetsSafe size (getsFrom (.empty :: input) g) := by
  have hnot : ¬g.More := by
    rintro ⟨hlf, hcr, -⟩
    exact hc.elim hcr hlf
  have hfrom : getsFrom (.empty :: input) g = .line (g.store 0).restore := if_neg hnot
  rw [hfrom]
  exact (getsSafe_line_iff h.within).mpr h.s_lt

/-- **Once a character has been taken back**, the buffer cannot overflow. -/
theorem safe_of_lt (h : g.Inv size) (hlt : g.s + g.size < size) :
    GetsSafe size (getsFrom input g) := by
  induction input generalizing g with
  | nil => exact h.within
  | cons r input ih =>
    cases r with
    | error => exact h.within
    | empty =>
      by_cases hc : LineEnd g.c
      · exact h.endsAtOnce hc
      · rw [h.empty hc]
        exact ih h hlt
    | byte c =>
      obtain ⟨t, ht⟩ : ∃ t, t = { g with c := c }.process := ⟨_, rfl⟩
      by_cases hend : LineEnd c
      · exact h.lineEnd hend
      by_cases herase : EraseKey c
      · obtain ⟨hs, -, hsize, -⟩ := process_of_eraseKey herase ht
        obtain ⟨hinv, hfrom⟩ := h.eraseKey herase ht input
        rw [hfrom]
        exact ih hinv (by omega)
      · obtain ⟨hs, hsize, -⟩ := process_of_ordinary ⟨hend, herase⟩ ht
        obtain ⟨hwithin, hmore, hfull⟩ := h.ordinary ⟨hend, herase⟩ ht input
        have := h.room
        by_cases hroom : 0 < t.size
        · obtain ⟨hinv, hfrom⟩ := hmore hroom
          rw [hfrom]
          exact ih hinv (by omega)
        · rw [hfull (by omega)]
          exact (getsSafe_line_iff hwithin).mpr (by omega)

/-- **As long as none has been taken back**, it overflows if and only if the input fills it up. -/
theorem safe_iff (h : g.Inv size) (hsum : g.s + g.size = size) (hc : ¬LineEnd g.c) :
    GetsSafe size (getsFrom input g) ↔ ¬Fills g.s g.size input := by
  induction input generalizing g with
  | nil => exact iff_of_true h.within (not_fills_nil h.room)
  | cons r input ih =>
    rw [fills_cons_iff h.room]
    cases r with
    | error =>
      refine iff_of_true h.within ?_
      rintro (⟨hr, -⟩ | ⟨⟨c, hr, -⟩, -⟩)
      · unfold Harmless at hr
        split_ifs at hr
        exact hr
      · exact ConsRead.noConfusion hr
    | empty =>
      rw [h.empty hc, ih h hsum hc, not_iff_not]
      refine ⟨fun hfills ↦ Or.inl ⟨harmless_empty _, hfills⟩, ?_⟩
      rintro (⟨-, hfills⟩ | ⟨⟨c, hr, -⟩, -⟩)
      · exact hfills
      · exact ConsRead.noConfusion hr
    | byte c =>
      obtain ⟨t, ht⟩ : ∃ t, t = { g with c := c }.process := ⟨_, rfl⟩
      have hharmless : Harmless g.s (.byte c) ↔ g.s = 0 ∧ EraseKey c := by
        unfold Harmless
        split_ifs with hs
        · exact ⟨fun hr ↦ ⟨hs, hr⟩, fun hr ↦ hr.2⟩
        · exact iff_of_false not_false fun hr ↦ hs hr.1
      have hstored : (∃ d, ConsRead.byte c = .byte d ∧ Ordinary d) ↔ Ordinary c :=
        ⟨fun ⟨d, hd, hord⟩ ↦ ConsRead.byte.inj hd ▸ hord, fun hord ↦ ⟨c, rfl, hord⟩⟩
      rw [hharmless, hstored]
      by_cases hend : LineEnd c
      · refine iff_of_true (h.lineEnd hend) ?_
        rintro (⟨⟨-, herase⟩, -⟩ | ⟨hord, -⟩)
        · rcases hend with rfl | rfl <;> exact absurd herase (by decide)
        · exact hord.1 hend
      by_cases herase : EraseKey c
      · obtain ⟨hs, hback, hsize, htc, -⟩ := process_of_eraseKey herase ht
        obtain ⟨hinv, hfrom⟩ := h.eraseKey herase ht input
        rw [hfrom]
        by_cases hzero : g.s = 0
        · have hts : t.s = g.s := by omega
          have hsame := ih hinv (by omega) (htc ▸ hend)
          rw [hsame, hts, hsize, not_iff_not]
          refine ⟨fun hfills ↦ Or.inl ⟨⟨hzero, herase⟩, hfills⟩, ?_⟩
          rintro (⟨-, hfills⟩ | ⟨hord, -⟩)
          · exact hfills
          · exact absurd herase hord.2
        · refine iff_of_true (hinv.safe_of_lt (by omega)) ?_
          rintro (⟨⟨hs, -⟩, -⟩ | ⟨hord, -⟩)
          · exact hzero hs
          · exact hord.2 herase
      · have hord : Ordinary c := ⟨hend, herase⟩
        obtain ⟨hs, hsize, htc, -⟩ := process_of_ordinary hord ht
        obtain ⟨hwithin, hmore, hfull⟩ := h.ordinary hord ht input
        have hcond : (g.s = 0 ∧ EraseKey c) ∧ Fills g.s g.size input ∨
            Ordinary c ∧ Fills (g.s + 1) (g.size - 1) input ↔ Fills t.s t.size input := by
          rw [hs, hsize]
          exact ⟨fun hr ↦ hr.elim (fun hr ↦ absurd hr.1.2 herase) And.right,
            fun hfills ↦ Or.inr ⟨hord, hfills⟩⟩
        rw [hcond]
        have := h.room
        by_cases hroom : 0 < t.size
        · obtain ⟨hinv, hfrom⟩ := hmore hroom
          rw [hfrom]
          exact ih hinv (by omega) (htc ▸ hend)
        · have hzero : t.size = 0 := by omega
          rw [hfull hzero, getsSafe_line_iff hwithin, hzero]
          exact iff_of_false (by omega) (not_not.mpr fills_full)

end Gets.Inv

/-! ## The theorem -/

/-- **Lines and the buffer, exactly.** For every size and every input, all writes of `gets` go to
the buffer, and a line that is returned is terminated in it, if and only if the input does not fill
the buffer up: as many characters as it holds come in, none is taken back, and nothing ends the loop
before. -/
theorem gets_safe_iff (c : UInt8) (io : StdioLog) (buf : Bytes) {size : ℤ} (hsize : 1 ≤ size)
    (input : List ConsRead) :
    GetsSafe size (gets c io buf size input) ↔ ¬FillsUp size input ∨ EndsAtOnce c input := by
  -- what is in `c` at the start does not matter, unless it is tested at once
  have hstart : ∀ d, ¬LineEnd d →
      (GetsSafe size (gets d io buf size input) ↔ ¬FillsUp size input) := by
    intro d hd
    have hinv : (⟨0, size, d, buf, io.next .stdioBufDisable, []⟩ : Gets).Inv size :=
      ⟨fun i hi ↦ absurd hi List.not_mem_nil, hsize, by simp⟩
    exact hinv.safe_iff (by simp) hd
  by_cases hc : LineEnd c
  · have hzero : ¬LineEnd 0 := by decide
    cases input with
    | nil =>
      have hiff := hstart 0 hzero
      rw [EndsAtOnce, List.head?_nil, and_iff_right hc, or_iff_left (by simp)]
      exact hiff
    | cons r input =>
      cases r with
      | empty =>
        have hinv : (⟨0, size, c, buf, io.next .stdioBufDisable, []⟩ : Gets).Inv size :=
          ⟨fun i hi ↦ absurd hi List.not_mem_nil, hsize, by simp⟩
        exact iff_of_true (hinv.endsAtOnce hc) (Or.inr ⟨hc, rfl⟩)
      | error =>
        rw [EndsAtOnce, and_iff_right hc, or_iff_left (by simp)]
        exact hstart 0 hzero
      | byte b =>
        rw [EndsAtOnce, and_iff_right hc, or_iff_left (by simp)]
        exact hstart 0 hzero
  · rw [or_iff_left fun h ↦ hc h.1]
    exact hstart c hc

/-- A line of two characters, of which one is taken back, in a buffer for two. -/
theorem gets_safe_iff_backspace : GetsSafe 2
    (gets 0 .init (fun _ ↦ 1) 2 [.byte 97, .empty, .byte backspace, .byte 98]) := by
  refine (gets_safe_iff 0 .init (fun _ ↦ 1) (by decide) _).mpr (Or.inl ?_)
  have hbackspace : ¬Fills 1 1 [.byte backspace, .byte 98] := by
    rw [fills_cons_iff (by decide)]
    rintro (⟨hr, -⟩ | ⟨⟨c, hr, hord⟩, -⟩)
    · exact absurd hr (by simp [Harmless])
    · exact absurd (ConsRead.byte.inj hr ▸ hord) (by decide)
  have hempty : ¬Fills 1 1 [.empty, .byte backspace, .byte 98] := by
    rw [fills_cons_iff (by decide)]
    rintro (⟨-, hfills⟩ | ⟨⟨c, hr, -⟩, -⟩)
    · exact hbackspace hfills
    · exact ConsRead.noConfusion hr
  rw [← fills_zero_iff, fills_cons_iff (by decide)]
  rintro (⟨hr, -⟩ | ⟨-, hfills⟩)
  · exact absurd hr (by decide : ¬EraseKey 97)
  · exact hempty hfills

/-- **A full line** is terminated behind the buffer: two characters, in a buffer for two. -/
theorem gets_overflows : ∃ g, gets 0 .init (fun _ ↦ 1) 2 [.byte 97, .byte 98] = .line g ∧
    g.writes = [0, 1, 2] ∧ ¬GetsSafe 2 (.line g) := by
  refine ⟨_, rfl, rfl, fun h ↦ ?_⟩
  exact absurd (h.1 2 (by decide)) (by decide)

end Ertos
