import Ertos.Basis.Transition
import Ertos.Dev.Uart
import Ertos.Kernel.Machine

/-!
# The UART as a stream

Runs of the UART driver: calls of `uart_write` and `uart_read`, and the two interrupt handlers, in
any order. A call masks the interrupt it shares a FIFO with, and the other interrupt works on the
other FIFO, so calls and handlers are taken whole.

Next to the device the state records what went by on each side, and `Lossless` says that each
FIFO holds exactly what has gone in and not yet come out. A ring whose indices meet counts as
empty, and `uart_fifo_free` grants a byte more than fits without that; a ring in use is granted as
many bytes as it holds. `Fits` is the exact condition under which neither does harm.
-/

namespace Ertos

open Transition

/-! ## Runs -/

structure Console where
  kernel : Kernel
  uart : Uart
  /-- The bytes `uart_write` reported as accepted. -/
  accepted : List UInt8
  /-- The bytes written to the data register. -/
  sent : List UInt8
  /-- The bytes `ep93xx_uart_rx` stored. -/
  stored : List UInt8
  /-- The bytes `uart_read` returned. -/
  returned : List UInt8

inductive ConsoleOp
  | write (buf : ℕ → UInt8) (len : ℕ)
  | read (buf : ℕ → UInt8) (len : ℕ)
  /-- A transmit interrupt; the hardware has room for `room` bytes. -/
  | txIntr (room : ℕ)
  /-- A receive interrupt; the hardware holds `bytes`. -/
  | rxIntr (bytes : List UInt8)

inductive ConsoleStep : Console → ConsoleOp → Console → Prop
  | write {s : Console} {buf : ℕ → UInt8} {len : ℕ} (hlen : 0 < len) :
      ConsoleStep s (.write buf len) { s with
        uart := (uartWrite s.uart buf len).2
        accepted := s.accepted ++ slice buf 0 (uartWrite s.uart buf len).1 }
  | read {s : Console} {buf : ℕ → UInt8} {len : ℕ} (hlen : 0 < len) :
      ConsoleStep s (.read buf len) { s with
        uart := (uartRead s.uart buf len).2.2
        returned := s.returned ++
          slice (uartRead s.uart buf len).2.1 0 (uartRead s.uart buf len).1 }
  | txIntr {s : Console} {room : ℕ} :
      ConsoleStep s (.txIntr room) { s with
        uart := (ep93xxUartTx s.uart room).2
        sent := s.sent ++ (ep93xxUartTx s.uart room).1 }
  | rxIntr {s : Console} {fuel : ℕ} {bytes stored : List UInt8} {k : Kernel} {u : Uart}
      (h : ep93xxUartRx fuel s.kernel s.uart bytes = some (stored, k, u)) :
      ConsoleStep s (.rxIntr bytes) { s with
        kernel := k
        uart := u
        stored := s.stored ++ stored }

/-- Just opened. -/
def Console.opened (k : Kernel) (wait : Ptr) : Console :=
  ⟨k, ⟨.cleared, .cleared, wait, true, true⟩, [], [], [], []⟩

/-- Each FIFO holds what has gone in and not yet come out. -/
structure Lossless (s : Console) : Prop where
  tx : s.sent ++ s.uart.txFifo.contents = s.accepted
  rx : s.returned ++ s.uart.rxFifo.contents = s.stored

/-- A ring in which `used` bytes are held takes what it accepts of `n` bytes without harm. -/
def Fits (used n : ℕ) : Prop := if used = 0 then n < 1024 else used < 512 ∨ used + n < 1024

instance (used n : ℕ) : Decidable (Fits used n) :=
  inferInstanceAs (Decidable (if used = 0 then n < 1024 else used < 512 ∨ used + n < 1024))

/-- The bytes that come in fit. -/
def ConsoleFits (s : Console) : ConsoleOp → Prop
  | .write _ len => Fits s.uart.txFifo.contents.length len
  | .rxIntr bytes => Fits s.uart.rxFifo.contents.length bytes.length
  | _ => True

theorem fits_iff (f : UartFifo) (n : ℕ) :
    Fits f.contents.length n ↔ uartFifoAvailable f + min n (uartFifoFree f) < 1024 := by
  rw [f.length_contents, f.free_eq, Fits]
  split_ifs <;> omega

theorem stream_putAll {f : UartFifo} {out inp l : List UInt8} (h : out ++ f.contents = inp) :
    out ++ (f.putAll l).contents = inp ++ l ↔ uartFifoAvailable f + l.length < 1024 := by
  constructor
  · intro hput
    -- too many bytes would overwrite others, and the lengths would not add up
    have hlen := congrArg List.length hput
    have hlen₀ := congrArg List.length h
    rw [List.length_append, List.length_append, UartFifo.length_contents,
      UartFifo.available_putAll] at hlen
    rw [List.length_append, UartFifo.length_contents] at hlen₀
    omega
  · intro hroom
    rw [UartFifo.contents_putAll hroom, ← h, List.append_assoc]

/-- **One step.** A step from a lossless state is lossless just in case the bytes fit. -/
theorem lossless_step_iff {s t : Console} {e : ConsoleOp} (hs : Lossless s)
    (hstep : ConsoleStep s e t) : Lossless t ↔ ConsoleFits s e := by
  cases hstep with
  | @write buf len hlen =>
    rw [uartWrite_spec s.uart buf hlen]
    have hstream := stream_putAll (l := slice buf 0 (min len (uartFifoFree s.uart.txFifo))) hs.tx
    rw [length_slice] at hstream
    have hfits : ConsoleFits s (.write buf len) ↔ _ := fits_iff s.uart.txFifo len
    rw [hfits, ← hstream]
    exact ⟨Lossless.tx, fun h ↦ ⟨h, hs.rx⟩⟩
  | @read buf len hlen =>
    obtain ⟨hrx, htx⟩ := uartRead_spec s.uart buf hlen
    refine ⟨fun _ ↦ trivial, fun _ ↦ ⟨?_, ?_⟩⟩
    · show s.sent ++ (uartRead s.uart buf len).2.2.txFifo.contents = s.accepted
      rw [htx, hs.tx]
    · rw [← hs.rx, ← hrx]
      exact List.append_assoc _ _ _
  | @txIntr room =>
    obtain ⟨htx, hrx⟩ := ep93xxUartTx_spec s.uart room
    refine ⟨fun _ ↦ trivial, fun _ ↦ ⟨?_, ?_⟩⟩
    · rw [← hs.tx, ← htx]
      exact List.append_assoc _ _ _
    · show s.returned ++ (ep93xxUartTx s.uart room).2.rxFifo.contents = s.stored
      rw [hrx, hs.rx]
  | @rxIntr fuel bytes stored k u h =>
    obtain ⟨rfl, hrx, htx⟩ := ep93xxUartRx_spec h
    have hstream := stream_putAll (l := bytes.take (uartFifoFree s.uart.rxFifo)) hs.rx
    rw [← hrx, List.length_take, Nat.min_comm] at hstream
    have hfits : ConsoleFits s (.rxIntr bytes) ↔ _ := fits_iff s.uart.rxFifo bytes.length
    rw [hfits, ← hstream]
    refine ⟨Lossless.rx, fun hrx' ↦ ⟨?_, hrx'⟩⟩
    show s.sent ++ u.txFifo.contents = s.accepted
    rw [htx, hs.tx]

theorem lossless_opened (k : Kernel) (wait : Ptr) : Lossless (Console.opened k wait) := ⟨rfl, rfl⟩

/-- **The UART loses nothing just in case the bytes fit.** Along a run from a freshly opened UART
both streams are intact in every state if and only if no write and no receive interrupt brings more
bytes than fit. -/
theorem always_lossless_iff_fits (k : Kernel) (wait : Ptr) {r : List (ConsoleOp × Console)}
    (hrun : IsRun ConsoleStep (Console.opened k wait) r) :
    Always Lossless (Console.opened k wait) r ↔ Guarded ConsoleFits (Console.opened k wait) r := by
  refine always_iff_guarded (fun _ h ↦ h) ?_ ?_ (lossless_opened k wait) hrun
  · exact fun s e t hs hfits hstep ↦ (lossless_step_iff hs hstep).mpr hfits
  · exact fun s e t hs hfits hstep ht ↦ hfits ((lossless_step_iff hs hstep).mp ht)

/-- Two bytes are written and one of them sent; three are received and two of them read. -/
theorem always_lossless_iff_fits_echo :
    ∃ r, r.map Prod.fst = [ConsoleOp.write (fun _ ↦ 72) 2, .txIntr 1, .rxIntr [1, 2, 3],
        .read (fun _ ↦ 0) 2] ∧
      IsRun ConsoleStep (Console.opened bootKernel 0x3000) r ∧
      Always Lossless (Console.opened bootKernel 0x3000) r := by
  obtain ⟨k, hwake⟩ : ∃ k, sysWake 1 bootKernel 0x3000 = some k := ⟨_, rfl⟩
  have hrun : IsRun ConsoleStep (Console.opened bootKernel 0x3000)
      [(.write (fun _ ↦ 72) 2, _), (.txIntr 1, _), (.rxIntr [1, 2, 3], _),
        (.read (fun _ ↦ 0) 2, _)] :=
    ⟨.write (by decide), .txIntr, .rxIntr (ep93xxUartRx_eq hwake _), .read (by decide), trivial⟩
  refine ⟨_, rfl, hrun, (always_lossless_iff_fits bootKernel 0x3000 hrun).mpr
    ⟨?_, trivial, ?_, trivial, trivial⟩⟩
  · exact (by decide : Fits 0 2)
  · exact (by decide : Fits 0 3)

/-- **A full write is lost.** On a freshly opened UART `uart_write` accepts 1024 bytes, after which
the transmit FIFO holds none. -/
theorem full_write_lost :
    ∃ t, IsRun ConsoleStep (Console.opened bootKernel 0x3000)
        [(ConsoleOp.write (fun _ ↦ 72) 1024, t)] ∧
      t.accepted.length = 1024 ∧ t.uart.txFifo.contents = [] ∧ t.sent = [] ∧
      ¬Always Lossless (Console.opened bootKernel 0x3000)
        [(ConsoleOp.write (fun _ ↦ 72) 1024, t)] := by
  have hlen : 0 < 1024 := by decide
  have hspec := uartWrite_spec (Console.opened bootKernel 0x3000).uart (fun _ ↦ 72) hlen
  refine ⟨_, ⟨.write hlen, trivial⟩, ?_, ?_, rfl, fun h ↦ ?_⟩
  · rw [hspec]
    exact length_slice _ _ _
  · rw [hspec, ← List.length_eq_zero_iff, UartFifo.length_contents, UartFifo.available_putAll,
      length_slice]
    rfl
  · have hfits := (lossless_step_iff (lossless_opened bootKernel 0x3000) (.write hlen)).mp h.2
    exact absurd hfits (by decide : ¬Fits 0 1024)

end Ertos
