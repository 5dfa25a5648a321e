import Ertos.Dev.Console

/-!
# Waiting for input

`getchar` and `gets` of `lib/stdio.c` read a byte from the console, and call `wait` on the
completion of its UART when there was none. The receive interrupt stores its bytes and wakes whoever
waits. Reading and waiting are two calls. An interrupt between them finds nobody to wake, and the
reader goes to sleep with its byte in the FIFO.

The runs are those of a reader next to the rest of the system: other processes, the scheduler, and
interrupts. The wakeup is lost exactly by a wait while there are bytes to read.
-/

namespace Ertos

open Transition

/-! ## Runs -/

/-- `cons_read` of an initialized console. -/
def consRead (u : Uart) (buf : ℕ → UInt8) (len : ℕ) : ℕ × (ℕ → UInt8) × Uart := uartRead u buf len

/-- What the reader does next: the two calls in the loops of `getchar` and `gets`. -/
inductive ReaderPc
  | read
  | wait
  deriving DecidableEq

/-- Where the loop goes on after `cons_read` returned `status`. -/
def ReaderPc.next (status : ℕ) : ReaderPc := if status = 0 then .wait else .read

structure ReaderState where
  kernel : Kernel
  uart : Uart
  pc : ReaderPc

inductive ReaderOp
  /-- The reader calls `cons_read` for one byte. -/
  | read (buf : ℕ → UInt8)
  /-- The reader calls `wait`. -/
  | wait
  /-- A receive interrupt; the hardware holds `bytes`. -/
  | rxIntr (bytes : List UInt8)
  /-- Another process reads. -/
  | otherRead (buf : ℕ → UInt8) (len : ℕ)
  /-- Anything else in the kernel. -/
  | other (e : Event)

inductive ReaderStep (reader : Ptr) : ReaderState → ReaderOp → ReaderState → Prop
  | read {s : ReaderState} {buf : ℕ → UInt8} (hcur : s.kernel.cur = reader)
      (hrun : s.kernel.Running) (hpc : s.pc = .read) :
      ReaderStep reader s (.read buf) { s with
        uart := (consRead s.uart buf 1).2.2
        pc := .next (consRead s.uart buf 1).1 }
  | wait {s : ReaderState} {fuel : ℕ} {rc : ℤ} {k : Kernel} (hcur : s.kernel.cur = reader)
      (hrun : s.kernel.Running) (hpc : s.pc = .wait)
      (h : cSvc fuel s.kernel (.wait s.uart.wait) = some (rc, k)) :
      ReaderStep reader s .wait { s with kernel := k, pc := .read }
  | rxIntr {s : ReaderState} {fuel : ℕ} {bytes stored : List UInt8} {k : Kernel} {u : Uart}
      (h : ep93xxUartRx fuel (enterKernel s.kernel) s.uart bytes = some (stored, k, u)) :
      ReaderStep reader s (.rxIntr bytes) { s with kernel := leaveKernel k, uart := u }
  | otherRead {s : ReaderState} {buf : ℕ → UInt8} {len : ℕ} (hcur : s.kernel.cur ≠ reader)
      (hlen : 0 < len) :
      ReaderStep reader s (.otherRead buf len) { s with uart := (consRead s.uart buf len).2.2 }
  | other {s : ReaderState} {e : Event} {k : Kernel} (h : Step s.kernel e k)
      (hwait : e = .svc (.wait s.uart.wait) → s.kernel.cur ≠ reader) :
      ReaderStep reader s (.other e) { s with kernel := k }

/-- The reader is at the start of its loop, and the UART has just been opened. -/
def ReaderState.opened (k : Kernel) (wait : Ptr) : ReaderState :=
  ⟨k, ⟨.cleared, .cleared, wait, true, true⟩, .read⟩

/-- The reader does not sleep on the completion while there are bytes to read. -/
def NoLostWakeup (reader : Ptr) (s : ReaderState) : Prop :=
  ¬((s.kernel.proc reader).state = .sleep ∧ reader ∈ (s.kernel.wait s.uart.wait).contents ∧
    s.uart.rxFifo.contents ≠ [])

/-- A call of `wait` finds the receive FIFO empty, or fails because the wait FIFO is full. -/
def WaitsForInput (s : ReaderState) : ReaderOp → Prop
  | .wait => s.uart.rxFifo.contents = [] ∨ (s.kernel.wait s.uart.wait).free = 0
  | _ => True

/-! ## The steps -/

theorem contents_consRead {u : Uart} {len : ℕ} (hlen : 0 < len) (buf : ℕ → UInt8)
    (h : u.rxFifo.contents = []) : (consRead u buf len).2.2.rxFifo.contents = [] := by
  obtain ⟨hrx, -⟩ := uartRead_spec u buf hlen
  rw [h] at hrx
  exact (List.append_eq_nil_iff.mp hrx).2

theorem wait_consRead (u : Uart) (buf : ℕ → UInt8) (len : ℕ) :
    (consRead u buf len).2.2.wait = u.wait := by
  rw [consRead, uartRead_eq]
  split_ifs <;> rfl

/-- A read returns `0` only if there is nothing to read. -/
theorem contents_of_consRead_zero {u : Uart} {len : ℕ} (hlen : 0 < len) (buf : ℕ → UInt8)
    (h : (consRead u buf len).1 = 0) : (consRead u buf len).2.2.rxFifo.contents = [] := by
  refine contents_consRead hlen buf ?_
  rw [← List.length_eq_zero_iff, UartFifo.length_contents]
  by_contra hne
  rw [consRead, uartRead_eq, if_pos (Nat.pos_of_ne_zero hne)] at h
  have hmin : min len (uartFifoAvailable u.rxFifo) = 0 := h
  omega

/-- The call puts the caller to sleep in the wait FIFO, or leaves the FIFO alone if it is full. -/
inductive WaitCall (k : Kernel) (c : Ptr) (t : Kernel) : Prop
  | full (hfree : (k.wait c).free = 0) (hcontents : (t.wait c).contents = (k.wait c).contents)
  | asleep (hfree : (k.wait c).free ≠ 0) (hstate : (t.proc k.cur).state = .sleep)
      (hcontents : (t.wait c).contents = (k.wait c).contents ++ [k.cur])

theorem waitCall_of_cSvc {fuel : ℕ} {k t : Kernel} {c : Ptr} {rc : ℤ} (hc : c ≠ NULL)
    (h : cSvc fuel k (.wait c) = some (rc, t)) : WaitCall k c t := by
  obtain ⟨⟨rc', u⟩, hcall, hu⟩ := Option.map_eq_some_iff.mp h
  obtain rfl : leaveKernel u = t := (Prod.mk.inj hu).2
  obtain rfl : (sysWait (enterKernel k) c).2 = u := by rw [Option.some.inj hcall]
  by_cases hfree : (k.wait c).free = 0
  · have hfull : sysWait (enterKernel k) c = (-1, (enterKernel k).setWait c (k.wait c)) :=
      sysWait_of_full hc hfree
    refine .full hfree ?_
    rw [hfull]
    show (((enterKernel k).setWait c (k.wait c)).wait c).contents = _
    rw [Kernel.wait_setWait, if_pos rfl]
  · obtain ⟨-, hqueued⟩ := queued_of_room (k := enterKernel k) hc hfree
    exact .asleep hfree hqueued.state hqueued.contents

/-- To the kernel the interrupt is a wake-up. -/
theorem step_of_rx {fuel : ℕ} {k k' : Kernel} {u u' : Uart} {bytes stored : List UInt8}
    (h : ep93xxUartRx fuel (enterKernel k) u bytes = some (stored, k', u')) :
    Step k (.irqWake u.wait) (leaveKernel k') ∧ u'.wait = u.wait := by
  rw [ep93xxUartRx, rxLoop_eq] at h
  obtain ⟨r, hwake, hr⟩ := Option.map_eq_some_iff.mp h
  obtain ⟨-, hrest⟩ := Prod.mk.inj hr
  obtain ⟨rfl, rfl⟩ := Prod.mk.inj hrest
  refine ⟨@Step.irqWake _ _ _ fuel ?_, rfl⟩
  rw [cIrq, hwake]
  rfl

/-! ## The invariant -/

/-- Whenever the reader is in the wait FIFO, there is nothing to read. -/
structure ReaderInv (reader : Ptr) (s : ReaderState) : Prop where
  ringed : ∃ ring, Ringed s.kernel ring
  wait : s.uart.wait ≠ NULL
  fifo : reader ∈ (s.kernel.wait s.uart.wait).contents → s.uart.rxFifo.contents = []

namespace ReaderInv

variable {reader : Ptr} {s t : ReaderState} {o : ReaderOp}

theorem noLostWakeup (h : ReaderInv reader s) : NoLostWakeup reader s :=
  fun hlost ↦ hlost.2.2 (h.fifo hlost.2.1)

theorem consRead (h : ReaderInv reader s) {len : ℕ} (hlen : 0 < len) (buf : ℕ → UInt8)
    (pc : ReaderPc) :
    ReaderInv reader { s with uart := (Ertos.consRead s.uart buf len).2.2, pc := pc } := by
  refine ⟨h.ringed, (wait_consRead _ _ _).trans_ne h.wait, fun hmem ↦ ?_⟩
  dsimp only at hmem ⊢
  rw [wait_consRead] at hmem
  exact contents_consRead hlen buf (h.fifo hmem)

theorem mem_of_other (h : ReaderInv reader s) {e : Event} {k : Kernel}
    (hstep : Step s.kernel e k) (hother : e = .svc (.wait s.uart.wait) → s.kernel.cur ≠ reader)
    (hmem : reader ∈ (k.wait s.uart.wait).contents) :
    reader ∈ (s.kernel.wait s.uart.wait).contents := by
  obtain ⟨ring, hring⟩ := h.ringed
  obtain ⟨ring', heffect⟩ := step_effect hring hstep
  refine (heffect.mem_wait hmem).resolve_right ?_
  rintro ⟨hcur, he, -⟩
  exact hother he hcur.symm

theorem ringed_of_step (h : ReaderInv reader s) {e : Event} {k : Kernel}
    (hstep : Step s.kernel e k) : ∃ ring, Ringed k ring := by
  obtain ⟨ring, hring⟩ := h.ringed
  obtain ⟨ring', heffect⟩ := step_effect hring hstep
  exact ⟨ring', heffect.ringed⟩

theorem step (h : ReaderInv reader s) (ho : WaitsForInput s o) (hst : ReaderStep reader s o t) :
    ReaderInv reader t := by
  cases hst with
  | @read buf hcur hrun hpc => exact h.consRead Nat.one_pos buf _
  | @wait fuel rc k hcur hrun hpc hcall =>
    refine ⟨h.ringed_of_step (.svc hrun hcall), h.wait, fun hmem ↦ ?_⟩
    cases waitCall_of_cSvc h.wait hcall with
    | full hfree hcontents => exact h.fifo (hcontents ▸ hmem)
    | asleep hfree => exact ho.resolve_right hfree
  | @rxIntr fuel bytes stored k u hrx =>
    obtain ⟨hstep, hwait⟩ := step_of_rx hrx
    obtain ⟨ring, hring⟩ := h.ringed
    obtain ⟨ring', heffect⟩ := step_effect hring hstep
    refine ⟨⟨ring', heffect.ringed⟩, hwait.trans_ne h.wait, fun hmem ↦ ?_⟩
    -- the interrupt stores bytes, but it leaves nobody in the FIFO
    dsimp only at hmem
    rw [hwait] at hmem
    exact absurd hmem (heffect.notMem_wait_of_wakes (Or.inr rfl))
  | @otherRead buf len hcur hlen => exact h.consRead hlen buf s.pc
  | @other e k hstep hother =>
    exact ⟨h.ringed_of_step hstep, h.wait, fun hmem ↦ h.fifo (h.mem_of_other hstep hother hmem)⟩

theorem not_noLostWakeup (h : ReaderInv reader s) (ho : ¬WaitsForInput s o)
    (hst : ReaderStep reader s o t) : ¬NoLostWakeup reader t := by
  cases hst with
  | @wait fuel rc k hcur hrun hpc hcall =>
    rw [WaitsForInput, not_or] at ho
    cases waitCall_of_cSvc h.wait hcall with
    | full hfree => exact absurd hfree ho.2
    | asleep hfree hstate hcontents =>
      rw [hcur] at hstate hcontents
      refine not_not.mpr ⟨hstate, ?_, ho.1⟩
      show reader ∈ (k.wait s.uart.wait).contents
      rw [hcontents]
      exact List.mem_append_right _ (List.mem_singleton.mpr rfl)
  | read | rxIntr | otherRead | other => exact absurd trivial ho

theorem opened {k : Kernel} (hk : Booted k) {wait : Ptr} (hwait : wait ≠ NULL) (reader : Ptr) :
    ReaderInv reader (.opened k wait) :=
  ⟨⟨[], hk.bootState.ringed⟩, hwait, fun _ ↦ UartFifo.contents_cleared⟩

end ReaderInv

/-! ## The window -/

/-- No byte arrives between a read that found nothing and the wait after it. -/
def QuietWindow (s : ReaderState) : ReaderOp → Prop
  | .rxIntr bytes => s.pc = .wait → bytes = []
  | _ => True

/-- Without arrivals in the window there is still nothing to read at its end. -/
theorem ReaderStep.quiet {reader : Ptr} {s t : ReaderState} {o : ReaderOp}
    (hs : s.pc = .wait → s.uart.rxFifo.contents = []) (ho : QuietWindow s o)
    (hst : ReaderStep reader s o t) : t.pc = .wait → t.uart.rxFifo.contents = [] := by
  cases hst with
  | @read buf hcur hrun hpc =>
    intro hnext
    refine contents_of_consRead_zero Nat.one_pos buf ?_
    by_contra hne
    have hpc' : ReaderPc.next (consRead s.uart buf 1).1 = .wait := hnext
    rw [ReaderPc.next, if_neg hne] at hpc'
    exact ReaderPc.noConfusion hpc'
  | wait => exact fun hnext ↦ ReaderPc.noConfusion hnext
  | @rxIntr fuel bytes stored k u hrx =>
    intro hpc
    obtain ⟨rfl, hput, -⟩ := ep93xxUartRx_spec hrx
    show u.rxFifo.contents = []
    rw [hput, ho hpc, List.take_nil]
    exact hs hpc
  | @otherRead buf len hcur hlen => exact fun hpc ↦ contents_consRead hlen buf (hs hpc)
  | other => exact hs

/-- **The window is the only danger**: no wakeup is lost while no byte arrives in it. -/
theorem always_noLostWakeup_of_quiet {k : Kernel} (hk : Booted k) {wait : Ptr}
    (hwait : wait ≠ NULL) (reader : Ptr) {r : List (ReaderOp × ReaderState)}
    (hrun : IsRun (ReaderStep reader) (.opened k wait) r)
    (hquiet : Guarded QuietWindow (.opened k wait) r) :
    Always (NoLostWakeup reader) (.opened k wait) r := by
  have hstep : ∀ s o t, (ReaderInv reader s ∧ (s.pc = .wait → s.uart.rxFifo.contents = [])) →
      QuietWindow s o → ReaderStep reader s o t →
      ReaderInv reader t ∧ (t.pc = .wait → t.uart.rxFifo.contents = []) := by
    rintro s o t ⟨hinv, hempty⟩ ho hst
    refine ⟨hinv.step ?_ hst, hst.quiet hempty ho⟩
    cases hst with
    | wait _ _ hpc => exact Or.inl (hempty hpc)
    | read | rxIntr | otherRead | other => trivial
  have hinit := ReaderInv.opened hk hwait reader
  exact (always_of_guarded hstep ⟨hinit, fun hpc ↦ ReaderPc.noConfusion hpc⟩ hrun hquiet).imp
    fun _ hs ↦ hs.1.noLostWakeup

/-! ## The theorem -/

/-- **The wakeup is lost exactly by a wait on bytes.** From boot on, along every run of a reader in
`getchar` or `gets`, of receive interrupts and of the rest of the system, the reader never sleeps on
the completion with bytes to read if and only if each of its calls of `wait` finds the FIFO empty,
or fails. -/
theorem always_noLostWakeup_iff {k : Kernel} (hk : Booted k) {wait : Ptr} (hwait : wait ≠ NULL)
    (reader : Ptr) {r : List (ReaderOp × ReaderState)}
    (hrun : IsRun (ReaderStep reader) (.opened k wait) r) :
    Always (NoLostWakeup reader) (.opened k wait) r ↔ Guarded WaitsForInput (.opened k wait) r :=
  always_iff_guarded (I := ReaderInv reader) (fun _ h ↦ h.noLostWakeup)
    (fun _ _ _ h ho hst ↦ h.step ho hst) (fun _ _ _ h ho hst ↦ h.not_noLostWakeup ho hst)
    (.opened hk hwait reader) hrun

/-- The kernel when a process has been scheduled for the first time. -/
def readerKernel : Kernel :=
  (schedule 3 (spawn bootKernel taskA 0x400 .user).2).getD blankKernel

/-- The reader as it is about to read for the first time. -/
def readerStart : List (ReaderOp × ReaderState) :=
  [(.other spawnA, .opened (spawn bootKernel taskA 0x400 .user).2 0xD000),
    (.other .schedule, .opened readerKernel 0xD000)]

theorem isRun_readerStart :
    IsRun (ReaderStep taskA.proc) (.opened bootKernel 0xD000) readerStart := by
  have hspawn : Step bootKernel spawnA (spawn bootKernel taskA 0x400 .user).2 :=
    .spawn enabled_spawnA
  have hsched : Step (spawn bootKernel taskA 0x400 .user).2 .schedule readerKernel :=
    @Step.schedule _ _ 3 rfl
  exact ⟨.other hspawn (by simp [spawnA]), .other hsched (by simp), trivial⟩

/-- The reader finds nothing, and goes to sleep; then a byte arrives. -/
theorem always_noLostWakeup_iff_asleep : ∃ r,
    r.map Prod.fst = [.read (fun _ ↦ 0), .wait, .rxIntr [65]] ∧
      (Always (NoLostWakeup taskA.proc) (.opened bootKernel 0xD000) (readerStart ++ r) ↔
        Guarded WaitsForInput (.opened bootKernel 0xD000) (readerStart ++ r)) := by
  have hrest : IsRun (ReaderStep taskA.proc) (.opened readerKernel 0xD000)
      [(.read (fun _ ↦ 0), _), (.wait, _), (.rxIntr [65], _)] :=
    ⟨.read rfl (Or.inl rfl) rfl, @ReaderStep.wait _ _ 1 _ _ rfl (Or.inl rfl) rfl rfl,
      @ReaderStep.rxIntr _ _ 2 _ _ _ _ rfl, trivial⟩
  have hrun := isRun_append.mpr ⟨isRun_readerStart, hrest⟩
  exact ⟨_, rfl, always_noLostWakeup_iff booted_bootKernel (by decide) taskA.proc hrun⟩

/-- **A byte arrives in the window**, and the reader goes to sleep on it. -/
theorem getchar_loses_wakeup : ∃ r,
    r.map Prod.fst = [.other spawnA, .other .schedule, .read (fun _ ↦ 0), .rxIntr [65], .wait] ∧
      IsRun (ReaderStep taskA.proc) (.opened bootKernel 0xD000) r ∧
      ¬Always (NoLostWakeup taskA.proc) (.opened bootKernel 0xD000) r := by
  have hrest : IsRun (ReaderStep taskA.proc) (.opened readerKernel 0xD000)
      [(.read (fun _ ↦ 0), _), (.rxIntr [65], _), (.wait, _)] :=
    ⟨.read rfl (Or.inl rfl) rfl, @ReaderStep.rxIntr _ _ 1 _ _ _ _ rfl,
      @ReaderStep.wait _ _ 1 _ _ rfl (Or.inl rfl) rfl rfl, trivial⟩
  have hrun := isRun_append.mpr ⟨isRun_readerStart, hrest⟩
  refine ⟨_, rfl, hrun, fun h ↦ h.last ⟨rfl, ?_, ?_⟩⟩
  · exact List.mem_singleton.mpr rfl
  · exact List.cons_ne_nil _ _

end Ertos
