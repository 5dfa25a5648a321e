import Ertos.Basis.Transition
import Ertos.Kernel.Stack
import Ertos.Net.PktBytes

/-!
# Standard output

`putchar` of `lib/stdio.c` and the macros of `proc.h` that switch buffering off and on. With
buffering on, a character is put in the buffer of the process, and with buffering off it is passed
to `cons_write` at once. The macros only change the mode: what is pending in the buffer stays there,
and a character that is passed on at once overtakes it.
-/

namespace Ertos

open Transition

/-! ## The stream -/

/-- `self->stdout`. -/
structure Stdout where
  ptr : Bytes
  idx : ℕ
  bufEnable : Bool
  bufLast : Bool

/-- The stream of a new process. -/
def stdoutInit : Stdout := ⟨fun _ ↦ 0, 0, true, true⟩

namespace Stdout

/-- What is in the buffer. -/
def pending (s : Stdout) : List UInt8 := bytesOf s.ptr s.idx

/-- The bytes passed to `cons_write`, and the stream. -/
def flush (s : Stdout) : List UInt8 × Stdout := (s.pending, { s with idx := 0 })

/-- Queueing a character. -/
def queue (s : Stdout) (c : UInt8) : Stdout :=
  { s with ptr := Function.update s.ptr s.idx c, idx := s.idx + 1 }

def newline : UInt8 := 10

/-- The bytes passed to `cons_write`, in the order of the calls, and the stream. -/
def putchar (s : Stdout) (c : UInt8) : List UInt8 × Stdout :=
  if s.bufEnable then
    let full := if stdoutSize ≤ s.idx then s.flush else ([], s)
    let s := full.2.queue c
    if c = newline then (full.1 ++ s.flush.1, s.flush.2) else (full.1, s)
  else ([c], s)

def stdioBufDisable (s : Stdout) : Stdout := { s with bufLast := s.bufEnable, bufEnable := false }

def stdioBufEnable (s : Stdout) : Stdout := { s with bufLast := s.bufEnable, bufEnable := true }

def stdioBufRestore (s : Stdout) : Stdout := { s with bufEnable := s.bufLast }

variable (s : Stdout) (c : UInt8)

@[simp] theorem length_pending : s.pending.length = s.idx := length_bytesOf _ _

theorem pending_queue : (s.queue c).pending = s.pending ++ [c] := by
  have hkeep : ∀ i < s.idx, Function.update s.ptr s.idx c i = s.ptr i :=
    fun i hi ↦ Function.update_of_ne hi.ne _ _
  have hlast : Function.update s.ptr s.idx c (s.idx + 0) = c := Function.update_self _ _ _
  show bytesOf (Function.update s.ptr s.idx c) (s.idx + 1) = _
  rw [bytesOf_add, bytesOf_congr hkeep]
  exact congrArg (s.pending ++ [·]) hlast

theorem flush_spec : s.flush.1 ++ s.flush.2.pending = s.pending := List.append_nil _

theorem putchar_buffered {s : Stdout} (hmode : s.bufEnable = true) (c : UInt8) :
    (s.putchar c).1 ++ (s.putchar c).2.pending = s.pending ++ [c] ∧
      (s.putchar c).2.idx ≤ stdoutSize := by
  obtain ⟨full, hfull⟩ : ∃ full, full = if stdoutSize ≤ s.idx then s.flush else ([], s) := ⟨_, rfl⟩
  -- after making room nothing is lost, and there is room
  have hroom : full.1 ++ full.2.pending = s.pending ∧ full.2.idx < stdoutSize := by
    rw [hfull]
    split_ifs with hge
    · exact ⟨s.flush_spec, show 0 < stdoutSize by decide⟩
    · exact ⟨rfl, Nat.lt_of_not_le hge⟩
  have hqueued : full.1 ++ (full.2.queue c).pending = s.pending ++ [c] := by
    rw [pending_queue, ← List.append_assoc, hroom.1]
  rw [putchar, if_pos hmode, ← hfull]
  dsimp only
  split_ifs
  · refine ⟨?_, Nat.zero_le _⟩
    rw [List.append_assoc, flush_spec, hqueued]
  · exact ⟨hqueued, hroom.2⟩

theorem bufEnable_putchar : (s.putchar c).2.bufEnable = s.bufEnable := by
  unfold putchar
  dsimp only
  split_ifs <;> rfl

end Stdout

/-- A character commutes with a list of itself only. -/
theorem cons_eq_append_singleton_iff {α : Type*} {c : α} {l : List α} :
    c :: l = l ++ [c] ↔ ∀ x ∈ l, x = c := by
  induction l with
  | nil => exact iff_of_true rfl (by simp)
  | cons x l ih =>
    rw [List.cons_append, List.cons.injEq, List.forall_mem_cons]
    constructor
    · rintro ⟨rfl, h⟩
      exact ⟨rfl, ih.mp h⟩
    · rintro ⟨rfl, h⟩
      exact ⟨rfl, ih.mpr h⟩

/-! ## Runs -/

inductive StdioOp
  | putchar (c : UInt8)
  | stdioBufDisable
  | stdioBufEnable
  | stdioBufRestore

/-- The stream, the characters given to `putchar`, and the bytes passed to `cons_write`. -/
structure StdioLog where
  out : Stdout
  given : List UInt8
  written : List UInt8

namespace StdioLog

def init : StdioLog := ⟨stdoutInit, [], []⟩

def next (s : StdioLog) : StdioOp → StdioLog
  | .putchar c => ⟨(s.out.putchar c).2, s.given ++ [c], s.written ++ (s.out.putchar c).1⟩
  | .stdioBufDisable => { s with out := s.out.stdioBufDisable }
  | .stdioBufEnable => { s with out := s.out.stdioBufEnable }
  | .stdioBufRestore => { s with out := s.out.stdioBufRestore }

/-- The output is in the order of the program, and the buffer holds what is pending. -/
structure Ordered (s : StdioLog) : Prop where
  order : s.written ++ s.out.pending = s.given
  idx_le : s.out.idx ≤ stdoutSize

end StdioLog

def StdioStep (s : StdioLog) (o : StdioOp) (t : StdioLog) : Prop := t = s.next o

/-- A character that is passed on at once overtakes none but its equals. -/
def OvertakesEquals (s : StdioLog) : StdioOp → Prop
  | .putchar c => s.out.bufEnable = false → ∀ x ∈ s.out.pending, x = c
  | _ => True

section Order

variable {s : StdioLog}

/-- **One call** keeps the order if and only if its character overtakes none but its equals. -/
theorem ordered_next_iff (hs : s.Ordered) (o : StdioOp) :
    (s.next o).Ordered ↔ OvertakesEquals s o := by
  cases o with
  | stdioBufDisable => exact iff_of_true ⟨hs.order, hs.idx_le⟩ trivial
  | stdioBufEnable => exact iff_of_true ⟨hs.order, hs.idx_le⟩ trivial
  | stdioBufRestore => exact iff_of_true ⟨hs.order, hs.idx_le⟩ trivial
  | putchar c =>
    cases hmode : s.out.bufEnable with
    | true =>
      obtain ⟨horder, hidx⟩ := Stdout.putchar_buffered hmode c
      refine iff_of_true ⟨?_, hidx⟩ fun hoff ↦ Bool.noConfusion (hmode.symm.trans hoff)
      show s.written ++ (s.out.putchar c).1 ++ (s.out.putchar c).2.pending = s.given ++ [c]
      rw [List.append_assoc, horder, ← List.append_assoc, hs.order]
    | false =>
      have hpassed : s.out.putchar c = ([c], s.out) := if_neg (Bool.eq_false_iff.mp hmode)
      have hiff :
          s.written ++ [c] ++ s.out.pending = s.given ++ [c] ↔ ∀ x ∈ s.out.pending, x = c := by
        rw [← hs.order, List.append_assoc, List.append_assoc, List.append_right_inj,
          List.singleton_append, cons_eq_append_singleton_iff]
      have hnext : s.next (.putchar c) = ⟨s.out, s.given ++ [c], s.written ++ [c]⟩ := by
        rw [StdioLog.next, hpassed]
      rw [hnext]
      exact ⟨fun h _ ↦ hiff.mp h.order, fun h ↦ ⟨hiff.mpr (h hmode), hs.idx_le⟩⟩

end Order

/-- **Output is in order, exactly.** Along every sequence of calls of `putchar` and changes of
the mode, the bytes passed on and those pending are the characters in the order of the calls,
and the buffer does not overflow, if and only if no character that is passed on at once
overtakes another. -/
theorem stdio_ordered_iff {r : List (StdioOp × StdioLog)} (hrun : IsRun StdioStep .init r) :
    Always StdioLog.Ordered .init r ↔ Guarded OvertakesEquals .init r := by
  have hinit : StdioLog.init.Ordered := ⟨rfl, Nat.zero_le _⟩
  refine always_iff_guarded (I := StdioLog.Ordered) (fun _ h ↦ h) ?_ ?_ hinit hrun
  · rintro s o _ hs ho rfl
    exact (ordered_next_iff hs o).mpr ho
  · rintro s o _ hs ho rfl h
    exact ho ((ordered_next_iff hs o).mp h)

/-- Whatever happens, the index stays within the buffer. -/
theorem stdio_idx_le {r : List (StdioOp × StdioLog)} (hrun : IsRun StdioStep .init r) :
    Always (fun s ↦ s.out.idx ≤ stdoutSize) .init r := by
  refine always_of_step ?_ (Nat.zero_le stdoutSize) hrun
  rintro s o _ hs rfl
  cases o with
  | putchar c =>
    cases hmode : s.out.bufEnable with
    | true => exact (Stdout.putchar_buffered hmode c).2
    | false =>
      have hpassed : s.out.putchar c = ([c], s.out) := if_neg (Bool.eq_false_iff.mp hmode)
      show (s.out.putchar c).2.idx ≤ stdoutSize
      rw [hpassed]
      exact hs
  | _ => exact hs

/-- Buffering is switched off with an empty buffer only. -/
def OffWhenEmpty (s : StdioLog) : StdioOp → Prop
  | .stdioBufDisable => s.out.idx = 0
  | .stdioBufRestore => s.out.bufLast = false → s.out.idx = 0
  | _ => True

/-- In particular the order is kept if what is pending is flushed before buffering is
switched off. -/
theorem overtakesEquals_of_offWhenEmpty {r : List (StdioOp × StdioLog)}
    (hrun : IsRun StdioStep .init r) (hr : Guarded OffWhenEmpty .init r) :
    Guarded OvertakesEquals .init r := by
  have hempty : Always (fun s ↦ s.out.bufEnable = false → s.out.idx = 0) .init r := by
    refine always_of_guarded ?_ (fun hoff ↦ Bool.noConfusion hoff) hrun hr
    rintro s o _ hs ho rfl
    cases o with
    | putchar c =>
      intro hoff
      have hmode : s.out.bufEnable = false := (s.out.bufEnable_putchar c).symm.trans hoff
      have hpassed : s.out.putchar c = ([c], s.out) := if_neg (Bool.eq_false_iff.mp hmode)
      show (s.out.putchar c).2.idx = 0
      rw [hpassed]
      exact hs hmode
    | stdioBufDisable => exact fun _ ↦ ho
    | stdioBufEnable => exact fun hoff ↦ Bool.noConfusion hoff
    | stdioBufRestore => exact ho
  refine Guarded.imp_of_always (fun s o hs _ ↦ ?_) hempty hr
  cases o with
  | putchar c =>
    intro hoff
    rw [List.eq_nil_of_length_eq_zero (s.out.length_pending.trans (hs hoff))]
    exact List.forall_mem_nil _
  | _ => trivial

/-- A prompt is printed with buffering off, and more with buffering on. -/
def promptRun : List (StdioOp × StdioLog) :=
  let s := StdioLog.init.next .stdioBufDisable
  let t := s.next (.putchar 62)
  let u := t.next .stdioBufRestore
  [(.stdioBufDisable, s), (.putchar 62, t), (.stdioBufRestore, u),
    (.putchar 97, u.next (.putchar 97))]

theorem stdio_ordered_iff_prompt : Always StdioLog.Ordered .init promptRun := by
  have hrun : IsRun StdioStep .init promptRun := ⟨rfl, rfl, rfl, rfl, trivial⟩
  refine (stdio_ordered_iff hrun).mpr ⟨trivial, ?_, trivial, ?_, trivial⟩
  · exact fun _ ↦ List.forall_mem_nil _
  · exact fun hoff ↦ Bool.noConfusion hoff

/-- An `a` is pending when buffering is switched off, and a `b` is printed. -/
def overtakenRun : List (StdioOp × StdioLog) :=
  let s := StdioLog.init.next (.putchar 97)
  let t := s.next .stdioBufDisable
  [(.putchar 97, s), (.stdioBufDisable, t), (.putchar 98, t.next (.putchar 98))]

/-- **The `b` overtakes the `a`.** -/
theorem stdio_overtaken : IsRun StdioStep .init overtakenRun ∧
    (last .init overtakenRun).given = [97, 98] ∧ (last .init overtakenRun).written = [98] ∧
    (last .init overtakenRun).out.pending = [97] ∧ ¬(last .init overtakenRun).Ordered := by
  refine ⟨⟨rfl, rfl, rfl, trivial⟩, rfl, rfl, rfl, fun h ↦ ?_⟩
  exact absurd h.order (by decide)

end Ertos
