import Ertos.Dev.Gets
import Ertos.Lib.Decimal
import Ertos.Lib.Hexadecimal
import Mathlib.Algebra.Group.Nat.Even

/-!
# Formatted output

`printf` of `lib/stdio.c` interprets its format: a percent sign with the character behind it is a
conversion, which takes an argument or stands for that character, and any other character stands for
itself.

The character behind a percent sign is not compared with the terminating NUL. A format that ends in
a percent sign without a character behind it is read beyond its end. Whether the last percent sign
stands alone depends on those in front of it, which are taken in pairs.
-/

namespace Ertos

/-! ## The loop -/

/-- What `va_arg` can find, by its type. -/
inductive PrintfArg
  | int (d : Int32)
  | uint (x : UInt32)
  | str (s : CString)

def percent : UInt8 := 37

/-- The arguments left, the result so far, and the stream. -/
structure Printf where
  ap : List PrintfArg
  chars : ℕ
  io : StdioLog

namespace Printf

/-- The inner `switch`, unless there is no argument of the right type. -/
def convert (t : Printf) (c : UInt8) : Option Printf :=
  if c = 100 then
    match t.ap with
    | .int d :: ap => (printfD d).map fun r ↦ ⟨ap, t.chars + r.2, t.io.puts r.1⟩
    | _ => none
  else if c = 120 then
    match t.ap with
    | .uint x :: ap => some ⟨ap, t.chars + (printfX x).2, t.io.puts (printfX x).1⟩
    | _ => none
  else if c = 115 then
    match t.ap with
    | .str s :: ap => some ⟨ap, t.chars, t.io.puts s.chars⟩
    | _ => none
  else some { t with io := t.io.next (.putchar c) }

/-- The loop, on what is left of the bytes of the format. -/
def loop : List UInt8 → Printf → Option Printf
  | c :: fmt, t =>
    if c = 0 then some t
    else if c = percent then
      match fmt with
      | c :: fmt => (t.convert c).bind (loop fmt)
      | [] => none
    else loop fmt { t with chars := t.chars + 1, io := t.io.next (.putchar c) }
  | [], _ => none

end Printf

/-- The result and the stream, unless `printf` reads behind the format. -/
def printf (fmt : CString) (ap : List PrintfArg) (io : StdioLog) : Option (ℕ × StdioLog) :=
  (Printf.loop fmt.bytes ⟨ap, 0, io⟩).map fun t ↦ (t.chars, t.io)

/-! ## What a format stands for -/

/-- A piece of a format. -/
inductive Piece
  | char (c : UInt8)
  | dec
  | hex
  | str
  deriving DecidableEq

/-- A percent sign and the character behind it. -/
def conversion (c : UInt8) : Piece :=
  if c = 100 then .dec else if c = 120 then .hex else if c = 115 then .str else .char c

/-- The pieces of a format. A percent sign without a character behind it is none. -/
def pieces : List UInt8 → List Piece
  | [] => []
  | [c] => if c = percent then [] else [.char c]
  | c :: c' :: fmt =>
    if c = percent then conversion c' :: pieces fmt else .char c :: pieces (c' :: fmt)

/-- There are enough arguments, of the right types. -/
def Suits : List Piece → List PrintfArg → Prop
  | [], _ => True
  | .char _ :: ps, ap => Suits ps ap
  | .dec :: ps, .int _ :: ap => Suits ps ap
  | .hex :: ps, .uint _ :: ap => Suits ps ap
  | .str :: ps, .str _ :: ap => Suits ps ap
  | _, _ => False

/-- The characters of the pieces, where `f` renders the numbers of `%d`. -/
def renderWith (f : Int32 → List UInt8) : List Piece → List PrintfArg → List UInt8
  | .char c :: ps, ap => c :: renderWith f ps ap
  | .dec :: ps, .int d :: ap => f d ++ renderWith f ps ap
  | .hex :: ps, .uint x :: ap => hexadecimal x.toNat ++ renderWith f ps ap
  | .str :: ps, .str s :: ap => s.chars ++ renderWith f ps ap
  | _, _ => []

/-- The concatenation of the renderings of the pieces. -/
def render : List Piece → List PrintfArg → List UInt8 := renderWith fun d ↦ decimal d.toInt

/-- The arguments that `%d` takes. -/
def decimals : List Piece → List PrintfArg → List Int32
  | .char _ :: ps, ap => decimals ps ap
  | .dec :: ps, .int d :: ap => d :: decimals ps ap
  | .hex :: ps, _ :: ap => decimals ps ap
  | .str :: ps, _ :: ap => decimals ps ap
  | _, _ => []

/-- The number of percent signs at the end. -/
def percentsAtEnd (l : List UInt8) : ℕ := (l.reverse.takeWhile (· = percent)).length

/-- `printf` stays in its format, and the characters given to `putchar` are the renderings. -/
def PrintfLaw (fmt : CString) (ap : List PrintfArg) : Prop :=
  ∀ io, ∃ chars, printf fmt ap io = some (chars, io.puts (render (pieces fmt.chars) ap))

/-! ## The last percent sign -/

/-- The last percent sign has no character behind it. -/
def dangles : List UInt8 → Bool
  | [] => false
  | [c] => c = percent
  | c :: c' :: fmt => if c = percent then dangles fmt else dangles (c' :: fmt)

theorem percentsAtEnd_le (l : List UInt8) : percentsAtEnd l ≤ l.length := by
  have hle := (List.takeWhile_sublist (l := l.reverse) (· = percent)).length_le
  rwa [List.length_reverse] at hle

theorem percentsAtEnd_cons (c : UInt8) (l : List UInt8) : percentsAtEnd (c :: l) =
    if percentsAtEnd l = l.length then l.length + (if c = percent then 1 else 0)
    else percentsAtEnd l := by
  rw [percentsAtEnd, percentsAtEnd, List.reverse_cons, List.takeWhile_append, List.length_reverse]
  by_cases hall : (l.reverse.takeWhile (· = percent)).length = l.length
  · rw [if_pos hall, if_pos hall, List.length_append, List.length_reverse]
    by_cases hc : c = percent
    · simp [hc]
    · simp [hc]
  · rw [if_neg hall, if_neg hall]

/-- Percent signs are taken in pairs. -/
theorem dangles_iff (l : List UInt8) : dangles l = true ↔ Odd (percentsAtEnd l) := by
  induction l using dangles.induct with
  | case1 => exact iff_of_false Bool.false_ne_true (by decide)
  | case2 c =>
    rw [percentsAtEnd_cons, dangles, decide_eq_true_iff]
    by_cases hc : c = percent
    · simp [hc, percentsAtEnd]
    · simp [hc, percentsAtEnd]
  | case3 c fmt ih =>
    have hle := percentsAtEnd_le fmt
    rw [dangles, if_pos rfl, ih, percentsAtEnd_cons, percentsAtEnd_cons, List.length_cons,
      if_pos rfl, Nat.odd_iff, Nat.odd_iff]
    split_ifs <;> omega
  | case4 c c' fmt hc ih =>
    rw [dangles, if_neg hc, ih, percentsAtEnd_cons c, if_neg hc]
    split_ifs with h
    · rw [h, Nat.add_zero]
    · rfl

/-! ## What is printed -/

/-- What `printf_d` prints. -/
def printedD (d : Int32) : List UInt8 := ((printfD d).map Prod.fst).getD []

theorem StdioLog.puts_append (io : StdioLog) (l l' : List UInt8) :
    (io.puts l).puts l' = io.puts (l ++ l') :=
  (List.foldl_append ..).symm

theorem StdioLog.given_puts (io : StdioLog) (l : List UInt8) :
    (io.puts l).given = io.given ++ l := by
  induction l generalizing io with
  | nil => exact (List.append_nil _).symm
  | cons c l ih =>
    have hcons : io.puts (c :: l) = (io.next (.putchar c)).puts l := rfl
    rw [hcons, ih]
    exact List.append_assoc io.given [c] l

theorem Printf.convert_spec {t : Printf} {c : UInt8} {ps : List Piece}
    (hs : Suits (conversion c :: ps) t.ap) : ∃ t' out, t.convert c = some t' ∧ Suits ps t'.ap ∧
      t'.io = t.io.puts out ∧
      renderWith printedD (conversion c :: ps) t.ap = out ++ renderWith printedD ps t'.ap := by
  unfold Printf.convert
  unfold conversion at hs ⊢
  split_ifs at hs ⊢ with hd hx hstr
  · obtain ⟨_ | ⟨d | x | s, ap⟩, chars, io⟩ := t
    · exact hs.elim
    · obtain ⟨r, hr⟩ := Option.isSome_iff_exists.mp (printfD_isSome d)
      have hprinted : printedD d = r.1 := by rw [printedD, hr]; rfl
      exact ⟨⟨ap, chars + r.2, io.puts r.1⟩, r.1, by simp only [hr]; rfl, hs, rfl,
        congrArg (· ++ renderWith printedD ps ap) hprinted⟩
    · exact hs.elim
    · exact hs.elim
  · obtain ⟨_ | ⟨d | x | s, ap⟩, chars, io⟩ := t
    · exact hs.elim
    · exact hs.elim
    · exact ⟨_, (printfX x).1, rfl, hs, rfl,
        congrArg (· ++ renderWith printedD ps ap) (printfX_eq x).symm⟩
    · exact hs.elim
  · obtain ⟨_ | ⟨d | x | s, ap⟩, chars, io⟩ := t
    · exact hs.elim
    · exact hs.elim
    · exact hs.elim
    · exact ⟨_, s.chars, rfl, hs, rfl, rfl⟩
  · exact ⟨_, [c], rfl, hs, rfl, rfl⟩

theorem Printf.loop_char {c : UInt8} (hc₀ : c ≠ 0) (hc : c ≠ percent) (fmt : List UInt8)
    (t : Printf) :
    loop (c :: fmt) t = loop fmt { t with chars := t.chars + 1, io := t.io.next (.putchar c) } := by
  rw [loop.eq_def]
  simp only [if_neg hc₀, if_neg hc]

/-- The loop, on a format whose last percent sign has a character behind it or has none. -/
theorem Printf.loop_spec {l : List UInt8} (hl : ∀ c ∈ l, c ≠ 0) {t : Printf}
    (hs : Suits (pieces l) t.ap) :
    if dangles l then loop (l ++ [0]) t = none
    else ∃ t', loop (l ++ [0]) t = some t' ∧
      t'.io = t.io.puts (renderWith printedD (pieces l) t.ap) := by
  induction l using pieces.induct generalizing t with
  | case1 => exact ⟨t, rfl, rfl⟩
  | case2 => rfl
  | case3 c hc =>
    have hc₀ : c ≠ 0 := hl c List.mem_cons_self
    have hdangles : dangles [c] = false := decide_eq_false hc
    rw [if_neg (Bool.eq_false_iff.mp hdangles), pieces, if_neg hc]
    refine ⟨_, (loop_char hc₀ hc _ t).trans rfl, rfl⟩
  | case4 c fmt ih =>
    have hl' : ∀ c ∈ fmt, c ≠ 0 :=
      fun c hc ↦ hl c (List.mem_cons_of_mem _ (List.mem_cons_of_mem _ hc))
    have hdangles : dangles (percent :: c :: fmt) = dangles fmt := rfl
    have hpieces : pieces (percent :: c :: fmt) = conversion c :: pieces fmt := rfl
    rw [hpieces] at hs ⊢
    rw [hdangles]
    obtain ⟨t', out, hconvert, hs', hio, hrender⟩ := convert_spec hs
    have hloop : loop (percent :: c :: fmt ++ [0]) t = loop (fmt ++ [0]) t' := by
      show (t.convert c).bind (loop (fmt ++ [0])) = _
      rw [hconvert, Option.bind_some]
    rw [hloop, hrender, ← StdioLog.puts_append, ← hio]
    exact ih hl' hs'
  | case5 c c' fmt hc ih =>
    have hc₀ : c ≠ 0 := hl c List.mem_cons_self
    have hdangles : dangles (c :: c' :: fmt) = dangles (c' :: fmt) := if_neg hc
    have hpieces : pieces (c :: c' :: fmt) = .char c :: pieces (c' :: fmt) := if_neg hc
    rw [hpieces] at hs ⊢
    rw [hdangles, List.cons_append, loop_char hc₀ hc]
    exact ih (fun c hc ↦ hl c (List.mem_cons_of_mem _ hc)) hs

/-! ## Where the least number is printed -/

theorem length_printedD_le (d : Int32) : (printedD d).length ≤ (decimal d.toInt).length ∧
    (printedD d = decimal d.toInt ↔ Int32.minValue ≠ d) := by
  by_cases hd : d = Int32.minValue
  · have hpos := List.length_pos_of_ne_nil (decimalNat_ne_nil Int32.minValue.toInt.natAbs)
    have hprinted : printedD d = [minus] := by
      rw [printedD, hd, printfD_minValue]
      rfl
    have hlt : (printedD d).length < (decimal d.toInt).length := by
      rw [hprinted, hd, decimal_of_neg (by decide)]
      exact Nat.lt_succ_of_le hpos
    refine ⟨hlt.le, iff_of_false ?_ fun h ↦ h hd.symm⟩
    exact fun h ↦ hlt.ne (congrArg List.length h)
  · obtain ⟨num, hprint⟩ := printfD_eq hd
    have hprinted : printedD d = decimal d.toInt := by
      rw [printedD, hprint]
      rfl
    exact ⟨hprinted ▸ le_rfl, iff_of_true hprinted (Ne.symm hd)⟩

theorem append_eq_append_iff_of_length_le {α : Type*} {l l' r r' : List α}
    (hl : l.length ≤ l'.length) (hr : r.length ≤ r'.length) :
    l ++ r = l' ++ r' ↔ l = l' ∧ r = r' := by
  refine ⟨fun h ↦ List.append_inj h ?_, fun h ↦ h.1 ▸ h.2 ▸ rfl⟩
  have hlen := congrArg List.length h
  rw [List.length_append, List.length_append] at hlen
  omega

theorem renderWith_printedD {ps : List Piece} {ap : List PrintfArg} (hs : Suits ps ap) :
    (renderWith printedD ps ap).length ≤ (render ps ap).length ∧
      (renderWith printedD ps ap = render ps ap ↔ Int32.minValue ∉ decimals ps ap) := by
  have happend : ∀ {l r r' : List UInt8} {p : Prop}, r.length ≤ r'.length ∧ (r = r' ↔ p) →
      (l ++ r).length ≤ (l ++ r').length ∧ (l ++ r = l ++ r' ↔ p) := by
    intro l r r' p h
    rw [List.append_right_inj, List.length_append, List.length_append]
    exact ⟨Nat.add_le_add_left h.1 _, h.2⟩
  induction ps generalizing ap with
  | nil => exact ⟨le_rfl, iff_of_true rfl List.not_mem_nil⟩
  | cons p ps ih =>
    cases p with
    | char c => exact happend (l := [c]) (ih hs)
    | dec =>
      obtain _ | ⟨d | x | s, ap⟩ := ap
      · exact hs.elim
      · have hs' : Suits ps ap := hs
        obtain ⟨hle, hiff⟩ := ih hs'
        obtain ⟨hle', hiff'⟩ := length_printedD_le d
        have hwith : renderWith printedD (.dec :: ps) (.int d :: ap) =
            printedD d ++ renderWith printedD ps ap := rfl
        have hrender : render (.dec :: ps) (.int d :: ap) = decimal d.toInt ++ render ps ap := rfl
        have hdecimals : decimals (.dec :: ps) (.int d :: ap) = d :: decimals ps ap := rfl
        rw [hwith, hrender, hdecimals, append_eq_append_iff_of_length_le hle' hle, hiff, hiff',
          List.length_append, List.length_append, List.mem_cons, not_or]
        exact ⟨Nat.add_le_add hle' hle, Iff.rfl⟩
      · exact hs.elim
      · exact hs.elim
    | hex =>
      obtain _ | ⟨d | x | s, ap⟩ := ap
      · exact hs.elim
      · exact hs.elim
      · have hs' : Suits ps ap := hs
        exact happend (ih hs')
      · exact hs.elim
    | str =>
      obtain _ | ⟨d | x | s, ap⟩ := ap
      · exact hs.elim
      · exact hs.elim
      · exact hs.elim
      · have hs' : Suits ps ap := hs
        exact happend (ih hs')

/-! ## The theorem -/

/-- **Formats, exactly.** For every format and all arguments that suit it, `printf` stays in the
format and prints the concatenation of the renderings of its pieces, if and only if the format does
not end in an odd number of percent signs, and `%d` is not given the least number. -/
theorem printf_law_iff {fmt : CString} {ap : List PrintfArg} (hs : Suits (pieces fmt.chars) ap) :
    PrintfLaw fmt ap ↔
      Even (percentsAtEnd fmt.chars) ∧ Int32.minValue ∉ decimals (pieces fmt.chars) ap := by
  have hloop : ∀ io, if dangles fmt.chars then Printf.loop fmt.bytes ⟨ap, 0, io⟩ = none
      else ∃ t', Printf.loop fmt.bytes ⟨ap, 0, io⟩ = some t' ∧
        t'.io = io.puts (renderWith printedD (pieces fmt.chars) ap) :=
    fun io ↦ Printf.loop_spec (t := ⟨ap, 0, io⟩) fmt.ne_zero hs
  rw [← Nat.not_odd_iff_even, ← dangles_iff, ← (renderWith_printedD hs).2]
  by_cases hdangles : dangles fmt.chars = true
  · refine iff_of_false (fun h ↦ ?_) fun h ↦ h.1 hdangles
    obtain ⟨chars, hprint⟩ := h .init
    have hnone := hloop .init
    rw [if_pos hdangles] at hnone
    rw [printf, hnone] at hprint
    exact Option.some_ne_none _ hprint.symm
  · rw [and_iff_right hdangles]
    constructor
    · intro h
      obtain ⟨chars, hprint⟩ := h .init
      have hsome := hloop .init
      rw [if_neg hdangles] at hsome
      obtain ⟨t', ht', hio⟩ := hsome
      rw [printf, ht', Option.map_some, Option.some.injEq, Prod.mk.injEq, hio] at hprint
      have hgiven := congrArg StdioLog.given hprint.2
      rw [StdioLog.given_puts, StdioLog.given_puts, List.append_right_inj] at hgiven
      exact hgiven
    · intro h io
      have hsome := hloop io
      rw [if_neg hdangles] at hsome
      obtain ⟨t', ht', hio⟩ := hsome
      refine ⟨t'.chars, ?_⟩
      rw [printf, ht', Option.map_some, hio, h]

theorem printf_law_iff_percent : PrintfLaw ⟨[37, 100, 37, 37], ne_zero_of_all rfl⟩ [.int 7] := by
  have hs : Suits (pieces [37, 100, 37, 37]) [.int 7] := trivial
  exact (printf_law_iff hs).mpr ⟨by decide, by decide⟩

/-- **The format `%`** is read beyond its end. -/
theorem printf_reads_behind : ∃ fmt : CString, fmt.chars = [37] ∧ Suits (pieces fmt.chars) [] ∧
    (∀ io, printf fmt [] io = none) ∧ ¬PrintfLaw fmt [] := by
  refine ⟨⟨[37], ne_zero_of_all rfl⟩, rfl, trivial, fun io ↦ rfl, fun h ↦ ?_⟩
  obtain ⟨chars, hprint⟩ := h .init
  exact Option.some_ne_none _ hprint.symm

end Ertos
