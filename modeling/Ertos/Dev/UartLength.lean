import Ertos.Dev.Uart

/-!
# Lengths of transfers

`uart_read` and `uart_write` for every length of 32 bits. The copy loops of `dev/uart.c` decrement
the length before they test it, so a length of zero goes all the way around: 2³² bytes are copied.
`uart_read` makes the length no greater than what is stored, and does not enter the loop when
nothing is; it does not look for a length of zero.

In this module the loops are written as they run, with the number of rounds they may take; they
are the ones of the driver (`uartReadIn_eq`, `uartWriteIn_eq`).
-/

namespace Ertos

open Ring

/-! ## Loops that test at the end -/

section DoWhile

variable {σ : Type*} (body : σ → σ)

/-- `do … while (--len > 0)`, of at most `fuel` rounds. -/
def doWhile : ℕ → UInt32 → σ → Option σ
  | 0, _, _ => none
  | fuel + 1, len, s => if 0 < len - 1 then doWhile fuel (len - 1) (body s) else some (body s)

theorem doWhileCount_pos (len : ℕ) : 0 < doWhileCount len := by
  unfold doWhileCount
  split_ifs <;> omega

theorem doWhileCount_sub_one (len : UInt32) :
    if 0 < len - 1 then doWhileCount len.toNat = doWhileCount (len - 1).toNat + 1
    else doWhileCount len.toNat = 1 := by
  rcases Nat.eq_zero_or_pos len.toNat with hzero | hpos
  · obtain rfl : len = 0 := UInt32.toNat_inj.mp hzero
    rw [if_pos (by decide)]
    rfl
  · have hsub : (len - 1).toNat = len.toNat - 1 :=
      UInt32.toNat_sub_of_le _ _ (UInt32.le_iff_toNat_le.mpr hpos)
    have hmore : 0 < len - 1 ↔ 0 < len.toNat - 1 := by
      rw [UInt32.lt_iff_toNat_lt, hsub]
      rfl
    rw [doWhileCount_of_pos hpos]
    split_ifs with hif
    · rw [hsub, doWhileCount_of_pos (hmore.mp hif)]
      omega
    · rw [hmore] at hif
      omega

theorem doWhile_eq (fuel : ℕ) (len : UInt32) (s : σ) : doWhile body fuel len s =
    if doWhileCount len.toNat ≤ fuel then some (body^[doWhileCount len.toNat] s) else none := by
  induction fuel generalizing len s with
  | zero => exact (if_neg (Nat.not_le_of_lt (doWhileCount_pos _))).symm
  | succ fuel ih =>
    have hcount := doWhileCount_sub_one len
    rw [doWhile]
    split_ifs at hcount ⊢ with hmore hle hle
    · rw [ih, if_pos (by omega), hcount, Function.iterate_succ_apply]
    · rw [ih, if_neg (by omega)]
    · rw [hcount, Function.iterate_one]
    · omega

end DoWhile

/-! ## The driver with these loops -/

/-- The variables of a copy loop; `i` is `p - buf`. -/
structure FifoCopy where
  fifo : UartFifo
  buf : ℕ → UInt8
  i : ℕ

namespace FifoCopy

/-- The body of the loop of `uart_fifo_add`. -/
def add (s : FifoCopy) : FifoCopy := { s with fifo := s.fifo.put (s.buf s.i), i := s.i + 1 }

/-- The body of the loop of `uart_fifo_remove`. -/
def remove (s : FifoCopy) : FifoCopy :=
  { fifo := s.fifo.pop
    buf := Function.update s.buf s.i (s.fifo.data s.fifo.head)
    i := s.i + 1 }

theorem add_iterate (n : ℕ) (s : FifoCopy) :
    (add^[n] s).fifo = fifoAddLoop n s.fifo s.buf s.i := by
  induction n generalizing s with
  | zero => rfl
  | succ n ih => rw [Function.iterate_succ_apply, ih, fifoAddLoop, add]

theorem remove_iterate (n : ℕ) (s : FifoCopy) :
    ((remove^[n] s).buf, (remove^[n] s).fifo) = fifoRemoveLoop n s.fifo s.buf s.i := by
  induction n generalizing s with
  | zero => rfl
  | succ n ih => rw [Function.iterate_succ_apply, ih, fifoRemoveLoop, remove]

end FifoCopy

def uartFifoAddIn (fuel : ℕ) (f : UartFifo) (buf : ℕ → UInt8) (len : UInt32) : Option UartFifo :=
  (doWhile FifoCopy.add fuel len ⟨f, buf, 0⟩).map FifoCopy.fifo

def uartFifoRemoveIn (fuel : ℕ) (f : UartFifo) (buf : ℕ → UInt8) (len : UInt32) :
    Option ((ℕ → UInt8) × UartFifo) :=
  (doWhile FifoCopy.remove fuel len ⟨f, buf, 0⟩).map fun s ↦ (s.buf, s.fifo)

/-- The length, made no greater than what is available. -/
def clamp (len : UInt32) (available : ℕ) : UInt32 :=
  if available < len.toNat then UInt32.ofNat available else len

def uartWriteIn (fuel : ℕ) (u : Uart) (buf : ℕ → UInt8) (len : UInt32) : Option (ℕ × Uart) :=
  let u := ep93xxUartDisableTx u
  let available := uartFifoFree u.txFifo
  if 0 < available then
    let len := clamp len available
    (uartFifoAddIn fuel u.txFifo buf len).map fun f ↦
      (len.toNat, ep93xxUartEnableTx { u with txFifo := f })
  else some (0, ep93xxUartEnableTx u)

def uartReadIn (fuel : ℕ) (u : Uart) (buf : ℕ → UInt8) (len : UInt32) :
    Option (ℕ × (ℕ → UInt8) × Uart) :=
  let u := ep93xxUartDisableRx u
  let available := uartFifoAvailable u.rxFifo
  if 0 < available then
    let len := clamp len available
    (uartFifoRemoveIn fuel u.rxFifo buf len).map fun r ↦
      (len.toNat, r.1, ep93xxUartEnableRx { u with rxFifo := r.2 })
  else some (0, buf, ep93xxUartEnableRx u)

section Driver

variable {u : Uart} {buf : ℕ → UInt8} {len : UInt32} {fuel : ℕ}

theorem toNat_clamp {available : ℕ} (h : available ≤ 1024) :
    (clamp len available).toNat = min len.toNat available := by
  rw [← ite_lt_eq_min]
  unfold clamp
  split_ifs
  · rw [UInt32.toNat_ofNat', Nat.mod_eq_of_lt (by omega)]
  · rfl

theorem uartFifoAddIn_eq (f : UartFifo) : uartFifoAddIn fuel f buf len =
    if doWhileCount len.toNat ≤ fuel then some (uartFifoAdd f buf len.toNat) else none := by
  rw [uartFifoAddIn, doWhile_eq]
  split_ifs
  · rw [Option.map_some, FifoCopy.add_iterate, uartFifoAdd]
  · rfl

theorem uartFifoRemoveIn_eq (f : UartFifo) : uartFifoRemoveIn fuel f buf len =
    if doWhileCount len.toNat ≤ fuel then some (uartFifoRemove f buf len.toNat) else none := by
  rw [uartFifoRemoveIn, doWhile_eq]
  split_ifs
  · rw [Option.map_some, FifoCopy.remove_iterate, uartFifoRemove]
  · rfl

theorem uartFifoFree_le (f : UartFifo) : uartFifoFree f ≤ 1024 := by
  have hlt := f.available_lt
  rw [f.free_eq]
  split_ifs <;> omega

theorem uartWrite_eq (n : ℕ) : uartWrite u buf n = (min n (uartFifoFree u.txFifo), { u with
    txFifo := uartFifoAdd u.txFifo buf (min n (uartFifoFree u.txFifo))
    tie := true }) := by
  rw [← ite_lt_eq_min]
  exact if_pos (uartFifoFree_pos u.txFifo)

/-- `uart_write` ends if it has enough rounds, and does what the driver does. -/
theorem uartWriteIn_eq : uartWriteIn fuel u buf len =
    if doWhileCount (min len.toNat (uartFifoFree u.txFifo)) ≤ fuel
    then some (uartWrite u buf len.toNat) else none := by
  have hpos : 0 < uartFifoFree u.txFifo := uartFifoFree_pos u.txFifo
  have hclamp : (clamp len (uartFifoFree u.txFifo)).toNat = min len.toNat (uartFifoFree u.txFifo) :=
    toNat_clamp (uartFifoFree_le u.txFifo)
  have hwriteIn : uartWriteIn fuel u buf len =
      (uartFifoAddIn fuel u.txFifo buf (clamp len (uartFifoFree u.txFifo))).map fun f ↦
        ((clamp len (uartFifoFree u.txFifo)).toNat, { u with txFifo := f, tie := true }) :=
    if_pos hpos
  rw [hwriteIn, uartFifoAddIn_eq, hclamp, uartWrite_eq]
  split_ifs
  · rfl
  · rfl

theorem uartReadIn_eq : uartReadIn fuel u buf len =
    if uartFifoAvailable u.rxFifo = 0 ∨
      doWhileCount (min len.toNat (uartFifoAvailable u.rxFifo)) ≤ fuel
    then some (uartRead u buf len.toNat) else none := by
  rw [uartRead_eq]
  by_cases hpos : 0 < uartFifoAvailable u.rxFifo
  · have hclamp : (clamp len (uartFifoAvailable u.rxFifo)).toNat =
        min len.toNat (uartFifoAvailable u.rxFifo) := toNat_clamp u.rxFifo.available_lt.le
    have hreadIn : uartReadIn fuel u buf len =
        (uartFifoRemoveIn fuel u.rxFifo buf (clamp len (uartFifoAvailable u.rxFifo))).map fun r ↦
          ((clamp len (uartFifoAvailable u.rxFifo)).toNat, r.1,
            { u with rxFifo := r.2, rie := true }) := if_pos hpos
    rw [hreadIn, uartFifoRemoveIn_eq, hclamp, if_pos hpos]
    simp only [or_iff_right hpos.ne']
    split_ifs
    · rfl
    · rfl
  · have hzero : uartFifoAvailable u.rxFifo = 0 := Nat.eq_zero_of_not_pos hpos
    rw [if_neg hpos, if_pos (Or.inl hzero)]
    exact if_neg hpos

end Driver

/-! ## The law and its condition -/

/-- A call with a length of 32 bits. -/
inductive UartCall
  | read (len : UInt32)
  | write (len : UInt32)

/-- `uart_read` ends and returns the number of bytes asked for, or of those stored; it copies as
many bytes to the buffer and goes on by as many, and leaves the rest of the FIFO. -/
def UartReadLaw (u : Uart) (len : UInt32) : Prop :=
  ∀ buf, ∃ fuel n buf' u', uartReadIn fuel u buf len = some (n, buf', u') ∧
    n = min len.toNat (uartFifoAvailable u.rxFifo) ∧
    (∀ i, buf' i = if i < n then u.rxFifo.data ((u.rxFifo.head + i) % uartFifoSize) else buf i) ∧
    u'.rxFifo.head = (u.rxFifo.head + n) % uartFifoSize ∧ u'.rxFifo.tail = u.rxFifo.tail ∧
    u'.rxFifo.data = u.rxFifo.data

/-- With a length of zero, `uart_write` ends, returns zero and leaves the FIFO. -/
def UartWriteLaw (u : Uart) (len : UInt32) : Prop :=
  len = 0 → ∀ buf, ∃ fuel n u', uartWriteIn fuel u buf len = some (n, u') ∧ n = 0 ∧
    u'.txFifo = u.txFifo

def UartLaw (u : Uart) : UartCall → Prop
  | .read len => UartReadLaw u len
  | .write len => UartWriteLaw u len

/-- The length is not zero; or nothing is stored, for `uart_read`. -/
def LengthFits (u : Uart) : UartCall → Prop
  | .read len => len ≠ 0 ∨ uartFifoAvailable u.rxFifo = 0
  | .write len => len ≠ 0

/-! ## What the loops do -/

/-- The FIFO without its first `n` bytes. -/
def UartFifo.skip (f : UartFifo) (n : ℕ) : UartFifo :=
  { f with
    head := (f.head + n) % uartFifoSize
    head_lt := Nat.mod_lt _ (by decide) }

theorem UartFifo.skip_pop (f : UartFifo) (n : ℕ) : f.pop.skip n = f.skip (n + 1) := by
  have hhead : f.pop.head = (f.head + 1) % uartFifoSize := advance_eq_mod f.head_lt
  have hskip : (f.pop.head + n) % uartFifoSize = (f.head + (n + 1)) % uartFifoSize := by
    rw [hhead, Nat.mod_add_mod, Nat.add_assoc, Nat.add_comm 1 n]
  simp only [UartFifo.skip, hskip]
  rfl

theorem UartFifo.skip_zero (f : UartFifo) : f.skip 0 = f := by
  have hskip : (f.head + 0) % uartFifoSize = f.head := Nat.mod_eq_of_lt f.head_lt
  simp only [UartFifo.skip, hskip]

theorem fifoRemoveLoop_eq (n : ℕ) (f : UartFifo) (buf : ℕ → UInt8) (i : ℕ) :
    (∀ j, (fifoRemoveLoop n f buf i).1 j =
      if i ≤ j ∧ j < i + n then f.data ((f.head + (j - i)) % uartFifoSize) else buf j) ∧
      (fifoRemoveLoop n f buf i).2 = f.skip n := by
  induction n generalizing f buf i with
  | zero =>
    refine ⟨fun j ↦ (if_neg ?_).symm, f.skip_zero.symm⟩
    omega
  | succ n ih =>
    obtain ⟨hbuf, hfifo⟩ := ih f.pop (Function.update buf i (f.data f.head)) (i + 1)
    rw [fifoRemoveLoop]
    refine ⟨fun j ↦ ?_, hfifo.trans (f.skip_pop n)⟩
    rw [hbuf]
    have hhead : f.pop.head = (f.head + 1) % uartFifoSize := advance_eq_mod f.head_lt
    rcases Nat.lt_trichotomy j i with hlt | rfl | hgt
    · rw [if_neg (by omega), if_neg (by omega), Function.update_of_ne hlt.ne]
    · rw [if_neg (by omega), if_pos (by omega), Function.update_self, Nat.sub_self, Nat.add_zero,
        Nat.mod_eq_of_lt f.head_lt]
    · have hslot : (f.pop.head + (j - (i + 1))) % uartFifoSize =
          (f.head + (j - i)) % uartFifoSize := by
        rw [hhead, Nat.mod_add_mod]
        congr 1
        omega
      rw [Function.update_of_ne hgt.ne', hslot]
      by_cases hin : j < i + (n + 1)
      · rw [if_pos (by omega), if_pos (by omega)]
        rfl
      · rw [if_neg (by omega), if_neg (by omega)]

theorem data_fifoAddLoop_const {x : UInt8} {slot : ℕ} (n : ℕ) {f : UartFifo}
    (h : f.data slot = x) (i : ℕ) : (fifoAddLoop n f (fun _ ↦ x) i).data slot = x := by
  induction n generalizing f i with
  | zero => exact h
  | succ n ih =>
    refine ih ?_ (i + 1)
    show Function.update f.data f.tail x slot = x
    rw [Function.update_apply]
    split_ifs
    · rfl
    · exact h

/-! ## The theorem -/

theorem uint8_add_one_ne (x : UInt8) : x + 1 ≠ x := by
  intro h
  have hone : (1 : UInt8) = 0 := (UInt8.add_right_inj x).mp (h.trans (UInt8.add_zero x).symm)
  exact absurd hone (by decide)

theorem uartReadLaw_of_empty {u : Uart} (hzero : uartFifoAvailable u.rxFifo = 0) (len : UInt32) :
    UartReadLaw u len := by
  intro buf
  have hread : uartReadIn 0 u buf len = some (uartRead u buf len.toNat) := by
    rw [uartReadIn_eq, if_pos (Or.inl hzero)]
  rw [uartRead_eq, if_neg (Nat.not_lt_of_le hzero.le)] at hread
  refine ⟨0, _, _, _, hread, ?_, fun i ↦ (if_neg (Nat.not_lt_zero i)).symm, ?_, rfl, rfl⟩
  · rw [hzero, Nat.min_zero]
  · rw [Nat.add_zero, Nat.mod_eq_of_lt u.rxFifo.head_lt]

theorem uartReadLaw_of_pos {u : Uart} {len : UInt32} (hlen : 0 < len.toNat)
    (hpos : 0 < uartFifoAvailable u.rxFifo) : UartReadLaw u len := by
  intro buf
  have hcount : doWhileCount (min len.toNat (uartFifoAvailable u.rxFifo)) =
      min len.toNat (uartFifoAvailable u.rxFifo) := doWhileCount_of_pos (by omega)
  have hread : uartReadIn (min len.toNat (uartFifoAvailable u.rxFifo)) u buf len =
      some (uartRead u buf len.toNat) := by
    rw [uartReadIn_eq, if_pos (Or.inr hcount.le)]
  rw [uartRead_eq, if_pos hpos] at hread
  simp only [uartFifoRemove, hcount] at hread
  obtain ⟨hbuf, hfifo⟩ :=
    fifoRemoveLoop_eq (min len.toNat (uartFifoAvailable u.rxFifo)) u.rxFifo buf 0
  refine ⟨_, _, _, _, hread, rfl, fun i ↦ ?_, ?_⟩
  · rw [hbuf]
    simp only [Nat.zero_le, true_and, Nat.zero_add, Nat.sub_zero]
  · rw [hfifo]
    exact ⟨rfl, rfl, rfl⟩

/-- With a length of zero, the first byte is stored in the buffer though none is asked for. -/
theorem not_uartReadLaw_zero {u : Uart} (hne : uartFifoAvailable u.rxFifo ≠ 0) :
    ¬UartReadLaw u 0 := by
  intro h
  obtain ⟨fuel, n, buf', u', hread, hn, hbuf, -⟩ := h fun _ ↦ u.rxFifo.data u.rxFifo.head + 1
  rw [uartReadIn_eq] at hread
  split_ifs at hread
  have hmin : min (0 : UInt32).toNat (uartFifoAvailable u.rxFifo) = 0 := Nat.zero_min _
  rw [uartRead_eq, if_pos (Nat.pos_of_ne_zero hne), hmin] at hread
  have hcopied : (uartFifoRemove u.rxFifo (fun _ ↦ u.rxFifo.data u.rxFifo.head + 1) 0).1 = buf' :=
    (Prod.mk.inj (Prod.mk.inj (Option.some.inj hread)).2).1
  have hstored : (uartFifoRemove u.rxFifo (fun _ ↦ u.rxFifo.data u.rxFifo.head + 1) 0).1 0 =
      u.rxFifo.data u.rxFifo.head := by
    have hpos : 0 < 0 + doWhileCount 0 := by
      rw [Nat.zero_add]
      exact doWhileCount_pos 0
    rw [uartFifoRemove, (fifoRemoveLoop_eq _ _ _ _).1, if_pos ⟨le_rfl, hpos⟩, Nat.sub_self,
      Nat.add_zero, Nat.mod_eq_of_lt u.rxFifo.head_lt]
  have hkept := hbuf 0
  rw [hn, hmin, if_neg (Nat.lt_irrefl 0), ← hcopied, hstored] at hkept
  exact uint8_add_one_ne _ hkept.symm

theorem uartReadLaw_iff (u : Uart) (len : UInt32) :
    UartReadLaw u len ↔ len ≠ 0 ∨ uartFifoAvailable u.rxFifo = 0 := by
  constructor
  · intro h
    by_contra hnot
    rw [not_or, not_not] at hnot
    obtain ⟨rfl, hne⟩ := hnot
    exact not_uartReadLaw_zero hne h
  · intro h
    rcases Nat.eq_zero_or_pos (uartFifoAvailable u.rxFifo) with hzero | hpos
    · exact uartReadLaw_of_empty hzero len
    · have hne : len ≠ 0 := h.resolve_right hpos.ne'
      have hlen : 0 < len.toNat := Nat.pos_of_ne_zero fun hzero ↦ hne (UInt32.toNat_inj.mp hzero)
      exact uartReadLaw_of_pos hlen hpos

theorem uartWriteLaw_iff (u : Uart) (len : UInt32) : UartWriteLaw u len ↔ len ≠ 0 := by
  refine ⟨fun h hlen ↦ ?_, fun hlen h ↦ absurd h hlen⟩
  -- the slot at the tail is overwritten
  obtain ⟨fuel, n, u', hwrite, -, hsame⟩ := h hlen fun _ ↦ u.txFifo.data u.txFifo.tail + 1
  rw [uartWriteIn_eq] at hwrite
  split_ifs at hwrite
  have hmin : min (0 : UInt32).toNat (uartFifoFree u.txFifo) = 0 := Nat.zero_min _
  rw [uartWrite_eq, hlen, hmin] at hwrite
  have hadded : uartFifoAdd u.txFifo (fun _ ↦ u.txFifo.data u.txFifo.tail + 1) 0 = u'.txFifo := by
    rw [← (Prod.mk.inj (Option.some.inj hwrite)).2]
  obtain ⟨k, hk⟩ : ∃ k, doWhileCount 0 = k + 1 := Nat.exists_eq_add_one.mpr (doWhileCount_pos 0)
  have hstored : (uartFifoAdd u.txFifo (fun _ ↦ u.txFifo.data u.txFifo.tail + 1) 0).data
      u.txFifo.tail = u.txFifo.data u.txFifo.tail + 1 := by
    rw [uartFifoAdd, hk, fifoAddLoop]
    exact data_fifoAddLoop_const k (Function.update_self _ _ _) 1
  rw [hadded, hsame] at hstored
  exact uint8_add_one_ne _ hstored.symm

/-- **A length of zero**, with one byte stored. -/
theorem uart_length_zero : ∃ u : Uart, u.rxFifo.contents = [7] ∧ ¬UartLaw u (.read 0) ∧
    ¬UartLaw u (.write 0) := by
  refine ⟨⟨UartFifo.cleared.put 7, .cleared, 0, true, true⟩, rfl, fun h ↦ ?_, fun h ↦ ?_⟩
  · rcases (uartReadLaw_iff _ 0).mp h with h | h
    · exact h rfl
    · exact absurd h (by decide)
  · exact (uartWriteLaw_iff _ 0).mp h rfl

/-- **Lengths, exactly.** For every state of the FIFOs and every length of 32 bits, `uart_read`
ends, returns the lesser of the length and the number of bytes stored, copies as many bytes and goes
on by as many, if and only if the length is not zero or nothing is stored; and `uart_write` with a
length of zero never leaves the FIFO as it is. -/
theorem uart_law_iff (u : Uart) (c : UartCall) : UartLaw u c ↔ LengthFits u c := by
  cases c with
  | read len => exact uartReadLaw_iff u len
  | write len => exact uartWriteLaw_iff u len

end Ertos
