import Ertos.Basis.Ring
import Ertos.Kernel.Syscall

/-!
# The UART driver

The byte rings of `include/sys/uart.h`, `uart_write` and `uart_read` of `dev/uart.c`, and the two
interrupt handlers of `arch/uart.c`. The operations table of a UART is the one of the EP93xx, so the
calls through it are written as calls.

The bytes a ring holds, by its own two indices, are `contents`. Four pieces of code move these
indices; each moves them one byte at a time, by `put` or by `pop`, and all that is known about them
comes from these two.
-/

namespace Ertos

open Ring

def uartFifoSize : ℕ := 1024

/-- `struct uart_fifo`, with its indices in range. -/
structure UartFifo where
  data : ℕ → UInt8
  head : ℕ
  tail : ℕ
  head_lt : head < uartFifoSize
  tail_lt : tail < uartFifoSize

/-- The result of `memset`. -/
def UartFifo.cleared : UartFifo := ⟨fun _ ↦ 0, 0, 0, by decide, by decide⟩

/-- "Returns the number of bytes free in the FIFO". -/
def uartFifoFree (f : UartFifo) : ℕ :=
  if f.head < f.tail then f.tail - f.head else uartFifoSize - (f.head - f.tail)

/-- "Returns the number of bytes contained in the FIFO". -/
def uartFifoAvailable (f : UartFifo) : ℕ :=
  if f.head ≤ f.tail then f.tail - f.head else uartFifoSize - (f.head - f.tail)

namespace UartFifo

/-- Storing one byte. -/
def put (f : UartFifo) (x : UInt8) : UartFifo :=
  { f with
    data := Function.update f.data f.tail x
    tail := advance uartFifoSize f.tail
    tail_lt := advance_lt (by decide) }

/-- Going on to the next byte. -/
def pop (f : UartFifo) : UartFifo :=
  { f with
    head := advance uartFifoSize f.head
    head_lt := advance_lt (by decide) }

/-- The bytes held, the oldest first. -/
def contents (f : UartFifo) : List UInt8 :=
  window f.data uartFifoSize f.head (uartFifoAvailable f)

@[simp] theorem contents_cleared : cleared.contents = [] := rfl

@[simp] theorem length_contents (f : UartFifo) : f.contents.length = uartFifoAvailable f :=
  length_window _ _ _ _

theorem available_lt (f : UartFifo) : uartFifoAvailable f < 1024 := by
  have hhead : f.head < 1024 := f.head_lt
  have htail : f.tail < 1024 := f.tail_lt
  rw [uartFifoAvailable, uartFifoSize]
  split_ifs <;> omega

theorem tail_eq (f : UartFifo) : f.tail = (f.head + uartFifoAvailable f) % 1024 := by
  have hhead : f.head < 1024 := f.head_lt
  have htail : f.tail < 1024 := f.tail_lt
  rw [uartFifoAvailable, uartFifoSize]
  split_ifs <;> omega

theorem available_of_tail_eq {f : UartFifo} {k : ℕ} (hk : k < 1024)
    (h : f.tail = (f.head + k) % 1024) : uartFifoAvailable f = k := by
  have hhead : f.head < 1024 := f.head_lt
  rw [uartFifoAvailable, uartFifoSize]
  split_ifs <;> omega

theorem head_eq_tail_iff (f : UartFifo) : f.head = f.tail ↔ uartFifoAvailable f = 0 := by
  have hhead : f.head < 1024 := f.head_lt
  have htail : f.tail < 1024 := f.tail_lt
  rw [uartFifoAvailable, uartFifoSize]
  split_ifs <;> omega

/-- What is called free is the whole ring when it is empty, and the bytes in use otherwise. -/
theorem free_eq (f : UartFifo) :
    uartFifoFree f = if uartFifoAvailable f = 0 then 1024 else uartFifoAvailable f := by
  have hhead : f.head < 1024 := f.head_lt
  have htail : f.tail < 1024 := f.tail_lt
  rw [uartFifoFree, uartFifoAvailable, uartFifoSize]
  split_ifs <;> omega

theorem available_put (f : UartFifo) (x : UInt8) :
    uartFifoAvailable (f.put x) = (uartFifoAvailable f + 1) % 1024 := by
  refine available_of_tail_eq (Nat.mod_lt _ (by decide)) ?_
  have htail : (f.put x).tail = (f.tail + 1) % 1024 := advance_eq_mod f.tail_lt
  rw [htail, f.tail_eq, Nat.mod_add_mod, Nat.add_mod_mod, Nat.add_assoc]
  rfl

theorem contents_put {f : UartFifo} (h : uartFifoAvailable f < 1023) (x : UInt8) :
    (f.put x).contents = f.contents ++ [x] := by
  have hroom : uartFifoAvailable f + 1 < 1024 := by omega
  rw [contents, available_put, Nat.mod_eq_of_lt hroom]
  show window (Function.update f.data f.tail x) 1024 f.head _ = _
  rw [f.tail_eq]
  exact window_update f.data f.available_lt x

theorem available_pop {f : UartFifo} (h : uartFifoAvailable f ≠ 0) :
    uartFifoAvailable f = uartFifoAvailable f.pop + 1 := by
  have hlt := f.available_lt
  have hhead : f.pop.head = (f.head + 1) % 1024 := advance_eq_mod f.head_lt
  have hpop : uartFifoAvailable f.pop = uartFifoAvailable f - 1 := by
    refine available_of_tail_eq (by omega) ?_
    rw [hhead, Nat.mod_add_mod]
    show f.tail = _
    rw [f.tail_eq, show f.head + 1 + (uartFifoAvailable f - 1) = f.head + uartFifoAvailable f by
      omega]
  omega

theorem contents_pop {f : UartFifo} (h : uartFifoAvailable f ≠ 0) :
    f.contents = f.data f.head :: f.pop.contents := by
  rw [contents, available_pop h, window_succ_left f.data f.head_lt]
  rfl

/-- Storing several bytes, one after the other. -/
def putAll (f : UartFifo) (l : List UInt8) : UartFifo := l.foldl put f

/-- The indices go around the ring whether or not there is room. -/
theorem available_putAll (f : UartFifo) (l : List UInt8) :
    uartFifoAvailable (f.putAll l) = (uartFifoAvailable f + l.length) % 1024 := by
  induction l generalizing f with
  | nil => exact (Nat.mod_eq_of_lt f.available_lt).symm
  | cons x l ih =>
    rw [putAll, List.foldl_cons, ← putAll, ih, available_put, Nat.mod_add_mod, List.length_cons,
      Nat.add_right_comm, Nat.add_assoc]

theorem contents_putAll {f : UartFifo} {l : List UInt8}
    (hroom : uartFifoAvailable f + l.length < 1024) :
    (f.putAll l).contents = f.contents ++ l := by
  induction l generalizing f with
  | nil => exact (List.append_nil _).symm
  | cons x l ih =>
    rw [List.length_cons] at hroom
    have hput : uartFifoAvailable (f.put x) = uartFifoAvailable f + 1 := by
      rw [available_put, Nat.mod_eq_of_lt (by omega)]
    rw [putAll, List.foldl_cons, ← putAll, ih (by omega), contents_put (by omega),
      List.append_assoc, List.singleton_append]

end UartFifo

/-! ## Reading and writing -/

/-- How often a `do … while (--len > 0)` loop runs: the length is decremented before it is tested,
so a length of zero goes all the way around. -/
def doWhileCount (len : ℕ) : ℕ := if len = 0 then 2 ^ 32 else len

/-- `n` iterations of the loop of `uart_fifo_add`. -/
def fifoAddLoop : ℕ → UartFifo → (ℕ → UInt8) → ℕ → UartFifo
  | 0, f, _, _ => f
  | n + 1, f, buf, i => fifoAddLoop n (f.put (buf i)) buf (i + 1)

def uartFifoAdd (f : UartFifo) (buf : ℕ → UInt8) (len : ℕ) : UartFifo :=
  fifoAddLoop (doWhileCount len) f buf 0

/-- `n` iterations of the loop of `uart_fifo_remove`. -/
def fifoRemoveLoop : ℕ → UartFifo → (ℕ → UInt8) → ℕ → (ℕ → UInt8) × UartFifo
  | 0, f, buf, _ => (buf, f)
  | n + 1, f, buf, i => fifoRemoveLoop n f.pop (Function.update buf i (f.data f.head)) (i + 1)

def uartFifoRemove (f : UartFifo) (buf : ℕ → UInt8) (len : ℕ) : (ℕ → UInt8) × UartFifo :=
  fifoRemoveLoop (doWhileCount len) f buf 0

/-- `struct uart`, without its speed and its open or closed state, and the two interrupt enable bits
of the control register. -/
structure Uart where
  rxFifo : UartFifo
  txFifo : UartFifo
  /-- The address of the completion that readers wait on. -/
  wait : Ptr
  rie : Bool
  tie : Bool

def ep93xxUartDisableTx (u : Uart) : Uart := { u with tie := false }

def ep93xxUartEnableTx (u : Uart) : Uart := { u with tie := true }

def ep93xxUartDisableRx (u : Uart) : Uart := { u with rie := false }

def ep93xxUartEnableRx (u : Uart) : Uart := { u with rie := true }

/-- The number of bytes written. -/
def uartWrite (u : Uart) (buf : ℕ → UInt8) (len : ℕ) : ℕ × Uart :=
  let u := ep93xxUartDisableTx u
  let available := uartFifoFree u.txFifo
  if 0 < available then
    let len := if available < len then available else len
    (len, ep93xxUartEnableTx { u with txFifo := uartFifoAdd u.txFifo buf len })
  else (0, ep93xxUartEnableTx u)

/-- The number of bytes read, and the buffer. -/
def uartRead (u : Uart) (buf : ℕ → UInt8) (len : ℕ) : ℕ × (ℕ → UInt8) × Uart :=
  let u := ep93xxUartDisableRx u
  let available := uartFifoAvailable u.rxFifo
  if 0 < available then
    let len := if available < len then available else len
    let (buf, f) := uartFifoRemove u.rxFifo buf len
    (len, buf, ep93xxUartEnableRx { u with rxFifo := f })
  else (0, buf, ep93xxUartEnableRx u)

/-! ## Interrupts -/

/-- The loop of `ep93xx_uart_rx` over the bytes the hardware holds; the bytes stored. -/
def rxLoop : ℕ → UartFifo → List UInt8 → List UInt8 × UartFifo
  | free + 1, f, x :: bytes =>
    let (stored, f) := rxLoop free (f.put x) bytes
    (x :: stored, f)
  | _, f, _ => ([], f)

def ep93xxUartRx (fuel : ℕ) (k : Kernel) (u : Uart) (bytes : List UInt8) :
    Option (List UInt8 × Kernel × Uart) :=
  let (stored, f) := rxLoop (uartFifoFree u.rxFifo) u.rxFifo bytes
  (sysWake fuel k u.wait).map fun r ↦ (stored, r.2, { u with rxFifo := f })

/-- The loop of `ep93xx_uart_tx`, with room for that many bytes in the hardware; the bytes sent. -/
def txLoop : ℕ → UartFifo → List UInt8 × UartFifo
  | 0, f => ([], f)
  | room + 1, f =>
    if f.head ≠ f.tail then
      let (sent, f') := txLoop room f.pop
      (f.data f.head :: sent, f')
    else ([], f)

def ep93xxUartTx (u : Uart) (room : ℕ) : List UInt8 × Uart :=
  if u.txFifo.head = u.txFifo.tail then ([], ep93xxUartDisableTx u)
  else
    let (sent, f) := txLoop room u.txFifo
    (sent, { u with txFifo := f })

/-! ## What the loops do to the contents -/

/-- `n` elements of a buffer. -/
def slice (buf : ℕ → UInt8) (i n : ℕ) : List UInt8 := (List.range' i n).map buf

theorem slice_succ (buf : ℕ → UInt8) (i n : ℕ) :
    slice buf i (n + 1) = buf i :: slice buf (i + 1) n := rfl

@[simp] theorem length_slice (buf : ℕ → UInt8) (i n : ℕ) : (slice buf i n).length = n := by
  simp [slice]

theorem fifoAddLoop_eq (n : ℕ) (f : UartFifo) (buf : ℕ → UInt8) (i : ℕ) :
    fifoAddLoop n f buf i = f.putAll (slice buf i n) := by
  induction n generalizing f i with
  | zero => rfl
  | succ n ih =>
    rw [fifoAddLoop, ih]
    rfl

theorem fifoRemoveLoop_of_lt {n i j : ℕ} (f : UartFifo) (buf : ℕ → UInt8) (hj : j < i) :
    (fifoRemoveLoop n f buf i).1 j = buf j := by
  induction n generalizing f buf i with
  | zero => rfl
  | succ n ih =>
    rw [fifoRemoveLoop, ih _ _ (Nat.lt_succ_of_lt hj), Function.update_of_ne (Nat.ne_of_lt hj)]

theorem contents_fifoRemoveLoop {n : ℕ} {f : UartFifo} (hn : n ≤ uartFifoAvailable f)
    (buf : ℕ → UInt8) (i : ℕ) :
    slice (fifoRemoveLoop n f buf i).1 i n ++ (fifoRemoveLoop n f buf i).2.contents =
      f.contents := by
  induction n generalizing f buf i with
  | zero => rfl
  | succ n ih =>
    have hpop := UartFifo.available_pop (f := f) (by omega)
    have hle : n ≤ uartFifoAvailable f.pop := by omega
    have hfirst : (fifoRemoveLoop (n + 1) f buf i).1 i = f.data f.head := by
      rw [fifoRemoveLoop, fifoRemoveLoop_of_lt _ _ (Nat.lt_succ_self i), Function.update_self]
    have hne : uartFifoAvailable f ≠ 0 := by omega
    rw [slice_succ, hfirst, fifoRemoveLoop, List.cons_append, ih hle,
      UartFifo.contents_pop hne]

/-- The loop stores what the hardware holds, as far as it was told there is room. -/
theorem rxLoop_eq (free : ℕ) (f : UartFifo) (bytes : List UInt8) :
    rxLoop free f bytes = (bytes.take free, f.putAll (bytes.take free)) := by
  induction bytes generalizing free f with
  | nil => cases free <;> rfl
  | cons x bytes ih =>
    cases free with
    | zero => rfl
    | succ free =>
      rw [rxLoop, ih]
      rfl

theorem contents_txLoop (room : ℕ) (f : UartFifo) :
    (txLoop room f).1 ++ (txLoop room f).2.contents = f.contents := by
  induction room generalizing f with
  | zero => rfl
  | succ room ih =>
    rw [txLoop]
    split_ifs with h
    · have hne : uartFifoAvailable f ≠ 0 := fun h0 ↦ h (f.head_eq_tail_iff.mpr h0)
      rw [UartFifo.contents_pop hne, ← ih f.pop]
      rfl
    · rfl

/-! ## The four entry points -/

section Specifications

variable (u : Uart) (buf : ℕ → UInt8)

theorem uartFifoFree_pos (f : UartFifo) : 0 < uartFifoFree f := by
  rw [f.free_eq]
  split_ifs <;> omega

theorem doWhileCount_of_pos {len : ℕ} (h : 0 < len) : doWhileCount len = len :=
  if_neg (Nat.pos_iff_ne_zero.mp h)

theorem ite_lt_eq_min (a n : ℕ) [Decidable (a < n)] : (if a < n then a else n) = min n a := by
  split_ifs <;> omega

theorem uartWrite_spec {len : ℕ} (hlen : 0 < len) :
    uartWrite u buf len = (min len (uartFifoFree u.txFifo), { u with
      txFifo := u.txFifo.putAll (slice buf 0 (min len (uartFifoFree u.txFifo)))
      tie := true }) := by
  have hfree := uartFifoFree_pos u.txFifo
  have hdef : uartWrite u buf len = if 0 < uartFifoFree u.txFifo then
      (if uartFifoFree u.txFifo < len then uartFifoFree u.txFifo else len, { u with
        txFifo := uartFifoAdd u.txFifo buf
          (if uartFifoFree u.txFifo < len then uartFifoFree u.txFifo else len)
        tie := true })
    else (0, { u with tie := true }) := rfl
  rw [hdef, if_pos hfree, ite_lt_eq_min, uartFifoAdd, doWhileCount_of_pos (by omega),
    fifoAddLoop_eq]

theorem uartRead_eq (len : ℕ) : uartRead u buf len = if 0 < uartFifoAvailable u.rxFifo then
    (fun n ↦ (n, (uartFifoRemove u.rxFifo buf n).1,
      { u with rxFifo := (uartFifoRemove u.rxFifo buf n).2, rie := true }))
      (min len (uartFifoAvailable u.rxFifo))
    else (0, buf, { u with rie := true }) := by
  rw [← ite_lt_eq_min]
  rfl

theorem uartRead_spec {len : ℕ} (hlen : 0 < len) :
    slice (uartRead u buf len).2.1 0 (uartRead u buf len).1 ++
        (uartRead u buf len).2.2.rxFifo.contents = u.rxFifo.contents ∧
      (uartRead u buf len).2.2.txFifo = u.txFifo := by
  rw [uartRead_eq]
  by_cases hpos : 0 < uartFifoAvailable u.rxFifo
  · have hcount : doWhileCount (min len (uartFifoAvailable u.rxFifo)) =
        min len (uartFifoAvailable u.rxFifo) := doWhileCount_of_pos (by omega)
    rw [if_pos hpos]
    simp only [uartFifoRemove, hcount, and_true]
    exact contents_fifoRemoveLoop (Nat.min_le_right _ _) buf 0
  · rw [if_neg hpos]
    exact ⟨rfl, rfl⟩

theorem ep93xxUartTx_spec (room : ℕ) :
    (ep93xxUartTx u room).1 ++ (ep93xxUartTx u room).2.txFifo.contents = u.txFifo.contents ∧
      (ep93xxUartTx u room).2.rxFifo = u.rxFifo := by
  unfold ep93xxUartTx
  split_ifs
  · exact ⟨rfl, rfl⟩
  · exact ⟨contents_txLoop room u.txFifo, rfl⟩

theorem ep93xxUartRx_eq {u : Uart} {fuel : ℕ} {k : Kernel} {r : ℤ × Kernel}
    (h : sysWake fuel k u.wait = some r) (bytes : List UInt8) :
    ep93xxUartRx fuel k u bytes = some (bytes.take (uartFifoFree u.rxFifo), r.2,
      { u with rxFifo := u.rxFifo.putAll (bytes.take (uartFifoFree u.rxFifo)) }) := by
  rw [ep93xxUartRx, rxLoop_eq, h]
  rfl

theorem ep93xxUartRx_spec {u u' : Uart} {fuel : ℕ} {k k' : Kernel} {bytes stored : List UInt8}
    (h : ep93xxUartRx fuel k u bytes = some (stored, k', u')) :
    stored = bytes.take (uartFifoFree u.rxFifo) ∧ u'.rxFifo = u.rxFifo.putAll stored ∧
      u'.txFifo = u.txFifo := by
  rw [ep93xxUartRx, rxLoop_eq] at h
  obtain ⟨r, -, hr⟩ := Option.map_eq_some_iff.mp h
  obtain ⟨rfl, hrest⟩ := Prod.mk.inj hr
  obtain ⟨-, rfl⟩ := Prod.mk.inj hrest
  exact ⟨rfl, rfl, rfl⟩

end Specifications

end Ertos
