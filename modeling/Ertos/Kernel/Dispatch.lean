import Ertos.Kernel.Machine
import Ertos.Net.Pkt

/-!
# Dispatching system calls

`c_svc` takes the number of a system call and its argument from the registers of the caller, both of
which are whatever the caller has put there. A number up to the number of entries of `syscall_table`
is taken as an index into it.

The number of entries itself passes the test, and is no index: the word behind the table is then
called. What it is depends on how the kernel was linked, so here it is a parameter, and a dispatch
is safe if it is, whatever that word is.
-/

namespace Ertos

open Transition

/-! ## The calls of the table -/

/-- What `sys_netstat` reads of an interface. -/
structure NetstatIf where
  name : List UInt8
  stats : Bytes

/-- The kernel, the memory that arguments point into, and the first interface. -/
structure SvcState where
  kernel : Kernel
  mem : Bytes
  ethIf : Option NetstatIf

inductive SvcOutcome
  | returned (rc : ℤ) (s : SvcState)
  /-- `arch_reset` does not return. -/
  | reset

/-- The functions that `syscall_table` points to. -/
inductive SyscallEntry
  | sysWait
  | sysWake
  | sysSleep
  | sysYield
  | sysEventSet
  | sysEventWait
  | sysAlarm
  | sysUttDone
  | sysReset
  | sysKstat
  | sysNetstat

/-- `struct alarm` in memory. -/
def Alarm.load (mem : Bytes) (p : Ptr) : Alarm :=
  ⟨get32 mem p, get32 mem (p + 4), get32 mem (p + 8) ≠ 0⟩

def sizeofKstat : ℕ := 4

def sizeofNetstat : ℕ := 36

/-- `offsetof(struct netstat, eth.stats)`. -/
def netstatStats : ℕ := 8

def sizeofStats : ℕ := 28

/-- `strcpy`. -/
def setString (d : Bytes) (i : ℕ) (l : List UInt8) : Bytes :=
  setBytes d i (fun j ↦ l.getD j 0) (l.length + 1)

def sysKstat (s : SvcState) (uptr : Ptr) : SvcOutcome :=
  .returned 0 { s with mem := setBytes s.mem uptr (fun _ ↦ 0) sizeofKstat }

def sysNetstat (s : SvcState) (uptr : Ptr) : SvcOutcome :=
  let mem := setBytes s.mem uptr (fun _ ↦ 0) sizeofNetstat
  match s.ethIf with
  | some ethIf => .returned 0 { s with
      mem := setBytes (setString mem uptr ethIf.name) (uptr + netstatStats) ethIf.stats
        sizeofStats }
  | none => .returned 0 { s with mem := mem }

/-- The outcome of a call that works on the kernel. -/
def SvcState.returned (s : SvcState) (r : ℤ × Kernel) : SvcOutcome :=
  .returned r.1 { s with kernel := r.2 }

def SyscallEntry.call (fuel : ℕ) (s : SvcState) (arg : UInt32) : SyscallEntry → Option SvcOutcome
  | .sysWait => some (s.returned (Ertos.sysWait s.kernel arg.toNat))
  | .sysWake => (Ertos.sysWake fuel s.kernel arg.toNat).map s.returned
  | .sysSleep => some (s.returned (Ertos.sysSleep s.kernel arg))
  | .sysYield => some (s.returned (Ertos.sysYield s.kernel))
  | .sysEventSet => (Ertos.sysEventSet fuel s.kernel arg).map s.returned
  | .sysEventWait => some (s.returned (Ertos.sysEventWait s.kernel arg))
  | .sysAlarm => some (s.returned (Ertos.sysAlarm s.kernel (Alarm.load s.mem arg.toNat)))
  | .sysUttDone => some (s.returned (Ertos.sysUttDone s.kernel))
  | .sysReset => some .reset
  | .sysKstat => some (Ertos.sysKstat s arg.toNat)
  | .sysNetstat => some (Ertos.sysNetstat s arg.toNat)

/-! ## The dispatch -/

/-- `syscall_table`, without and with `CONFIG_NET`. -/
def syscallTable (net : Bool) : List SyscallEntry :=
  [.sysWait, .sysWake, .sysSleep, .sysYield, .sysEventSet, .sysEventWait, .sysAlarm, .sysUttDone,
    .sysReset, .sysKstat] ++ if net then [.sysNetstat] else []

/-- A function, as it is called. -/
abbrev SvcFunc := ℕ → SvcState → UInt32 → Option SvcOutcome

/-- The word at an index of the table, taken as a function. -/
def syscallWord (net : Bool) (behind : SvcFunc) (i : ℕ) : SvcFunc :=
  match (syscallTable net)[i]? with
  | some f => fun fuel s arg ↦ f.call fuel s arg
  | none => behind

def SvcState.enter (s : SvcState) : SvcState := { s with kernel := enterKernel s.kernel }

def SvcOutcome.leave : SvcOutcome → SvcOutcome
  | .returned rc s => .returned rc { s with kernel := leaveKernel s.kernel }
  | .reset => .reset

/-- `c_svc`, with the number and the argument in the registers. -/
def cSvcRegs (net : Bool) (behind : SvcFunc) (fuel : ℕ) (s : SvcState) (num arg : UInt32) :
    Option SvcOutcome :=
  let s := s.enter
  let rc := if (4 * (syscallTable net).length) >>> 2 < num.toNat then some (.returned (-1) s)
    else syscallWord net behind num.toNat fuel s arg
  rc.map SvcOutcome.leave

/-! ## The law -/

/-- The entry of the table with this index is called, or the call is refused and nothing but `self`
changes; then `self` is that of the current process. A call other than a reset returns. -/
structure SvcSafe (net : Bool) (behind : SvcFunc) (s : SvcState) (num arg : UInt32) : Prop where
  dispatch : (∃ f, (syscallTable net)[num.toNat]? = some f ∧
      ∀ fuel, cSvcRegs net behind fuel s num arg = (f.call fuel s.enter arg).map SvcOutcome.leave) ∨
    ∀ fuel, cSvcRegs net behind fuel s num arg
      = some (.returned (-1) { s with kernel := leaveKernel s.kernel })
  self : ∀ fuel rc t, cSvcRegs net behind fuel s num arg = some (.returned rc t) →
    t.kernel.self = (t.kernel.proc t.kernel.cur).self
  ends : (syscallTable net)[num.toNat]? ≠ some .sysReset →
    ∃ fuel rc t, cSvcRegs net behind fuel s num arg = some (.returned rc t)

section Dispatch

variable {net : Bool} {behind : SvcFunc} {s : SvcState} {num arg : UInt32} {f : SyscallEntry}

theorem sizeof_shift (n : ℕ) : (4 * n) >>> 2 = n := by
  rw [Nat.shiftRight_eq_div_pow]
  omega

theorem cSvcRegs_of_entry (hf : (syscallTable net)[num.toNat]? = some f) (fuel : ℕ) :
    cSvcRegs net behind fuel s num arg = (f.call fuel s.enter arg).map SvcOutcome.leave := by
  obtain ⟨hlt, -⟩ := List.getElem?_eq_some_iff.mp hf
  have hword : syscallWord net behind num.toNat fuel s.enter arg = f.call fuel s.enter arg := by
    rw [syscallWord, hf]
  rw [cSvcRegs, sizeof_shift]
  rw [if_neg (by omega), hword]

theorem cSvcRegs_of_gt (hnum : (syscallTable net).length < num.toNat) (fuel : ℕ) :
    cSvcRegs net behind fuel s num arg
      = some (.returned (-1) { s with kernel := leaveKernel s.kernel }) := by
  rw [cSvcRegs, sizeof_shift]
  rw [if_pos hnum]
  rfl

/-- **Behind the table**: the number of entries passes the test. -/
theorem cSvcRegs_of_eq (hnum : num.toNat = (syscallTable net).length) (fuel : ℕ) :
    cSvcRegs net behind fuel s num arg = (behind fuel s.enter arg).map SvcOutcome.leave := by
  have hword : syscallWord net behind num.toNat fuel s.enter arg = behind fuel s.enter arg := by
    rw [syscallWord, List.getElem?_eq_none hnum.ge]
  rw [cSvcRegs, sizeof_shift]
  rw [if_neg (by omega), hword]

theorem self_cSvcRegs {fuel : ℕ} {rc : ℤ} {t : SvcState}
    (h : cSvcRegs net behind fuel s num arg = some (.returned rc t)) :
    t.kernel.self = (t.kernel.proc t.kernel.cur).self := by
  obtain ⟨o, -, ho⟩ := Option.map_eq_some_iff.mp h
  cases o with
  | returned rc' u =>
    obtain ⟨-, rfl⟩ := SvcOutcome.returned.inj ho
    rfl
  | reset => exact SvcOutcome.noConfusion ho

end Dispatch

/-! ## The calls return -/

/-- The call that an entry makes, with its argument decoded. -/
def SyscallEntry.decode (s : SvcState) (arg : UInt32) : SyscallEntry → Option Syscall
  | .sysWait => some (.wait arg.toNat)
  | .sysWake => some (.wake arg.toNat)
  | .sysSleep => some (.sleep arg)
  | .sysYield => some .yield
  | .sysEventSet => some (.eventSet arg)
  | .sysEventWait => some (.eventWait arg)
  | .sysAlarm => some (.alarm (Alarm.load s.mem arg.toNat))
  | .sysUttDone => some .uttDone
  | .sysReset | .sysKstat | .sysNetstat => none

theorem call_of_decode {s : SvcState} {arg : UInt32} {f : SyscallEntry} {c : Syscall}
    (hc : f.decode s arg = some c) (fuel : ℕ) :
    f.call fuel s arg = (c.call fuel s.kernel).map s.returned := by
  cases f <;> first
    | (obtain rfl := Option.some.inj hc; rfl)
    | exact absurd hc (Option.some_ne_none _).symm

/-- **Every call of the kernel returns** in a state in which the ring of processes is whole. -/
theorem exists_call {k : Kernel} {ring : List Ptr} (hk : Ringed k ring) (c : Syscall) :
    ∃ fuel r, c.call fuel (enterKernel k) = some r := by
  cases c with
  | wake c =>
    obtain ⟨t, -, hloop⟩ := wakeFrom_spec (k := enterKernel k) (null_notMem_wait hk c)
    have hrun := (hloop _ t).mpr ⟨Nat.lt_succ_self _, rfl⟩
    exact ⟨_, (0, t), congrArg (Option.map fun k ↦ ((0 : ℤ), k)) hrun⟩
  | eventSet mask =>
    obtain ⟨l, hpath, hcur, hl, -⟩ := exists_round hk
    obtain ⟨t, -, -, hloop⟩ := eventSetFrom_spec (k := enterKernel k) mask hpath hcur hl
    have hrun : eventSetFrom _ (enterKernel k) mask
        ((enterKernel k).links.next (enterKernel k).cur) false = some _ :=
      (hloop _ false _).mpr ⟨Nat.lt_succ_self _, rfl⟩
    exact ⟨_, _, by rw [Syscall.call, sysEventSet, hrun]⟩
  | _ => exact ⟨0, _, rfl⟩

theorem cSvcRegs_eq_cSvc {net : Bool} {behind : SvcFunc} {s : SvcState} {num arg : UInt32}
    {f : SyscallEntry} {c : Syscall} (hf : (syscallTable net)[num.toNat]? = some f)
    (hc : f.decode s.enter arg = some c) (fuel : ℕ) :
    cSvcRegs net behind fuel s num arg = (cSvc fuel s.kernel c).map s.returned := by
  rw [cSvcRegs_of_entry hf, call_of_decode hc, cSvc, Option.map_map, Option.map_map]
  rfl

theorem sysNetstat_returned (s : SvcState) (uptr : Ptr) :
    ∃ t, sysNetstat s uptr = .returned 0 t := by
  unfold sysNetstat
  cases s.ethIf with
  | none => exact ⟨_, rfl⟩
  | some ethIf => exact ⟨_, rfl⟩

theorem exists_cSvcRegs {net : Bool} {behind : SvcFunc} {s : SvcState} {ring : List Ptr}
    (hs : Ringed s.kernel ring) {num : UInt32} (arg : UInt32) {f : SyscallEntry}
    (hf : (syscallTable net)[num.toNat]? = some f) (hreset : f ≠ .sysReset) :
    ∃ fuel rc t, cSvcRegs net behind fuel s num arg = some (.returned rc t) := by
  cases hc : f.decode s.enter arg with
  | some c =>
    obtain ⟨fuel, r, hr⟩ := exists_call hs c
    refine ⟨fuel, r.1, { s with kernel := leaveKernel r.2 }, ?_⟩
    rw [cSvcRegs_eq_cSvc hf hc, cSvc, hr]
    rfl
  | none =>
    have hother : f = .sysKstat ∨ f = .sysNetstat := by
      cases f <;> first
        | exact absurd hc (Option.some_ne_none _)
        | exact absurd rfl hreset
        | exact Or.inl rfl
        | exact Or.inr rfl
    rcases hother with rfl | rfl
    · exact ⟨0, _, _, cSvcRegs_of_entry hf 0⟩
    · obtain ⟨t, ht⟩ := sysNetstat_returned s.enter arg.toNat
      refine ⟨0, 0, { t with kernel := leaveKernel t.kernel }, ?_⟩
      rw [cSvcRegs_of_entry hf, SyscallEntry.call, ht]
      rfl

/-! ## The theorem -/

/-- **Dispatch, exactly.** In every reachable state, for every number and argument, and with and
without networking: the dispatch is safe, whatever the word behind the table is, if and only if the
number is not the number of entries. -/
theorem svcSafe_iff {k : Kernel} (hk : Booted k) {r : List (Event × Kernel)} (hrun : IsRun Step k r)
    {s : SvcState} (hs : s.kernel = last k r) (net : Bool) (num arg : UInt32) :
    (∀ behind, SvcSafe net behind s num arg) ↔ num.toNat ≠ (syscallTable net).length := by
  obtain ⟨ring, hring⟩ := (always_ringed hk hrun).last
  rw [← hs] at hring
  constructor
  · intro hsafe hnum
    -- a word behind the table that loops forever
    rcases (hsafe fun _ _ _ ↦ none).dispatch with ⟨f, hf, -⟩ | hrefused
    · rw [List.getElem?_eq_none hnum.ge] at hf
      exact absurd hf (Option.some_ne_none f).symm
    · have hnone := (cSvcRegs_of_eq hnum 0).symm.trans (hrefused 0)
      exact absurd hnone (Option.some_ne_none _).symm
  · intro hne behind
    rcases Nat.lt_or_ge num.toNat (syscallTable net).length with hlt | hge
    · have hf := List.getElem?_eq_getElem hlt
      refine ⟨Or.inl ⟨_, hf, cSvcRegs_of_entry hf⟩, fun _ _ _ ↦ self_cSvcRegs, fun hreset ↦ ?_⟩
      exact exists_cSvcRegs hring arg hf fun h ↦ hreset (hf.trans (congrArg some h))
    · have hgt : (syscallTable net).length < num.toNat := Nat.lt_of_le_of_ne hge hne.symm
      exact ⟨Or.inr (cSvcRegs_of_gt hgt), fun _ _ _ ↦ self_cSvcRegs,
        fun _ ↦ ⟨0, _, _, cSvcRegs_of_gt hgt 0⟩⟩

/-- A task runs, and the clock has ticked. -/
def svcExample : SvcState :=
  ⟨last bootKernel (execRun 4 bootKernel [spawnA, .schedule, .tick]), fun _ ↦ 0, none⟩

theorem svcSafe_iff_wake : SvcSafe true (fun _ _ _ ↦ none) svcExample 1 0x700 := by
  have hrun : IsRun Step bootKernel (execRun 4 bootKernel [spawnA, .schedule, .tick]) :=
    isRun_execRun ⟨enabled_spawnA, trivial, trivial, trivial⟩
  exact (svcSafe_iff booted_bootKernel hrun (s := svcExample) rfl true 1 0x700).mpr (by decide) _

/-- **Call 10 without networking** is passed on to the word behind the table. -/
theorem svc_calls_behind :
    (∀ behind fuel arg, cSvcRegs false behind fuel svcExample 10 arg
      = (behind fuel svcExample.enter arg).map SvcOutcome.leave) ∧
    ¬∀ behind arg, SvcSafe false behind svcExample 10 arg := by
  have hnum : (10 : UInt32).toNat = (syscallTable false).length := rfl
  refine ⟨fun behind fuel arg ↦ cSvcRegs_of_eq hnum fuel, fun hsafe ↦ ?_⟩
  rcases (hsafe (fun _ _ _ ↦ none) 0).dispatch with ⟨f, hf, -⟩ | hrefused
  · exact absurd hf (Option.some_ne_none f).symm
  · exact absurd ((cSvcRegs_of_eq hnum 0).symm.trans (hrefused 0)) (Option.some_ne_none _).symm

end Ertos
