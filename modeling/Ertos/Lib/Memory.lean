import Ertos.Basis.Copy
import Mathlib.Algebra.Ring.Nat
import Mathlib.Data.Nat.Init

/-!
# Copying memory

`memcpy` and `memmove` of `lib/string.c`, on the memory of the machine: 2³² bytes, with addresses
that wrap around.

`memcpy` goes up through the two ranges, and `memmove` goes up or down. Going up, a byte is
overwritten before it is read only if the destination lies inside the source, behind its start;
going down, only if the source lies inside the destination. So `memmove` takes the direction that
does no harm, for every overlap.
-/

namespace Ertos

open Copy

/-- The bytes of the machine, by their addresses. -/
abbrev Memory := UInt32 → UInt8

/-- The loop of `memcpy`, of `n` rounds. -/
def memcpyLoop : ℕ → Memory → UInt32 → UInt32 → Memory
  | 0, m, _, _ => m
  | n + 1, m, dest, src => memcpyLoop n (Function.update m dest (m src)) (dest + 1) (src + 1)

def memcpy (m : Memory) (dest src n : UInt32) : Memory :=
  if dest = src then m else memcpyLoop n.toNat m dest src

/-- The loop of `memmove`, of `n` rounds. -/
def memmoveLoop : ℕ → Memory → UInt32 → UInt32 → Memory
  | 0, m, _, _ => m
  | n + 1, m, dest, src => memmoveLoop n (Function.update m dest (m src)) (dest - 1) (src - 1)

def memmove (m : Memory) (dest src n : UInt32) : Memory :=
  if dest = src then m
  else if dest < src then memcpy m dest src n
  else memmoveLoop n.toNat m (dest + (n - 1)) (src + (n - 1))

/-! ## Addresses -/

/-- `p[i]`. -/
def byteAt (p : UInt32) (i : ℕ) : UInt32 := p + UInt32.ofNat i

@[simp] theorem byteAt_zero (p : UInt32) : byteAt p 0 = p := UInt32.add_zero p

theorem byteAt_succ (p : UInt32) (i : ℕ) : byteAt p (i + 1) = byteAt (p + 1) i := by
  rw [byteAt, byteAt, UInt32.ofNat_add, UInt32.add_comm (UInt32.ofNat i), UInt32.add_assoc]
  rfl

theorem byteAt_byteAt (p : UInt32) (i j : ℕ) : byteAt (byteAt p i) j = byteAt p (i + j) := by
  rw [byteAt, byteAt, byteAt, UInt32.ofNat_add, UInt32.add_assoc]

theorem byteAt_add_one (p : UInt32) (i : ℕ) : byteAt p i + 1 = byteAt p (i + 1) :=
  byteAt_byteAt p i 1

theorem toNat_byteAt {p : UInt32} {i : ℕ} (h : p.toNat + i < 2 ^ 32) :
    (byteAt p i).toNat = p.toNat + i := by
  rw [byteAt, UInt32.toNat_add, UInt32.toNat_ofNat', Nat.add_mod_mod, Nat.mod_eq_of_lt h]

theorem byteAt_inj {p : UInt32} {i j : ℕ} (hi : i < 2 ^ 32) (hj : j < 2 ^ 32) :
    byteAt p i = byteAt p j ↔ i = j := by
  refine ⟨fun h ↦ ?_, congrArg (byteAt p)⟩
  have hofNat := congrArg UInt32.toNat ((UInt32.add_right_inj p).mp h)
  rwa [UInt32.toNat_ofNat', UInt32.toNat_ofNat', Nat.mod_eq_of_lt hi, Nat.mod_eq_of_lt hj] at hofNat

theorem byteAt_sub {p n : UInt32} {i : ℕ} (hi : i < n.toNat) :
    p + (n - 1) - UInt32.ofNat i = byteAt p (n.toNat - 1 - i) := by
  have hone : UInt32.ofNat (n.toNat - 1) = n - 1 := by
    rw [UInt32.ofNat_sub (by omega), UInt32.ofNat_toNat]
    rfl
  rw [byteAt, UInt32.ofNat_sub (by omega), hone, UInt32.sub_eq_add_neg, UInt32.sub_eq_add_neg _
    (UInt32.ofNat i), UInt32.add_assoc]

/-! ## The loops -/

theorem memcpyLoop_eq (n : ℕ) (m : Memory) (dest src : UInt32) :
    memcpyLoop n m dest src = copyAll m (byteAt dest) (byteAt src) n := by
  induction n generalizing m dest src with
  | zero => rfl
  | succ n ih =>
    rw [memcpyLoop, ih, copyAll_succ, byteAt_zero, byteAt_zero]
    simp only [byteAt_succ]

theorem memmoveLoop_eq (n : ℕ) (m : Memory) (dest src : UInt32) :
    memmoveLoop n m dest src =
      copyAll m (fun i ↦ dest - UInt32.ofNat i) (fun i ↦ src - UInt32.ofNat i) n := by
  induction n generalizing m dest src with
  | zero => rfl
  | succ n ih =>
    have hnext : ∀ (p : UInt32) (i : ℕ), p - 1 - UInt32.ofNat i = p - UInt32.ofNat (i + 1) := by
      intro p i
      have hofNat : UInt32.ofNat (i + 1) = UInt32.ofNat i + 1 := UInt32.ofNat_add i 1
      grind
    have hfirst : ∀ p : UInt32, p - UInt32.ofNat 0 = p := UInt32.sub_zero
    rw [memmoveLoop, ih, copyAll_succ, hfirst, hfirst]
    simp only [hnext]

/-! ## The theorem -/

/-- `n` bytes are copied, and no other byte is changed. -/
structure Moved (m : Memory) (dest src : UInt32) (n : ℕ) (t : Memory) : Prop where
  moved : ∀ i < n, t (byteAt dest i) = m (byteAt src i)
  frame : ∀ a, (∀ i < n, a ≠ byteAt dest i) → t a = m a

/-- A copy visits the bytes of a range in some order, once each. -/
theorem moved_copyAll {m : Memory} {dest src : UInt32} {n : ℕ} (hn : n ≤ 2 ^ 32) (order : ℕ → ℕ)
    (hlt : ∀ i < n, order i < n) (hinv : ∀ i < n, order (order i) = i)
    (h : Undisturbed m (byteAt dest <| order ·) (byteAt src <| order ·) n) :
    Moved m dest src n (copyAll m (byteAt dest <| order ·) (byteAt src <| order ·) n) := by
  rw [copyAll_eq h]
  constructor
  · intro i hi
    have hinj : ∀ j < n, ∀ k < n, byteAt dest (order j) = byteAt dest (order k) → j = k := by
      intro j hj k hk heq
      rw [byteAt_inj (Nat.lt_of_lt_of_le (hlt j hj) hn) (Nat.lt_of_lt_of_le (hlt k hk) hn)] at heq
      rw [← hinv j hj, heq, hinv k hk]
    have hvalue : storeAll m (byteAt dest <| order ·) (fun j ↦ m (byteAt src (order j))) n
        (byteAt dest (order (order i))) = m (byteAt src (order (order i))) :=
      storeAll_apply hinj (hlt i hi)
    rwa [hinv i hi] at hvalue
  · intro a ha
    exact storeAll_of_forall_ne fun i hi heq ↦ ha (order i) (hlt i hi) heq.symm

section Moved

variable {m : Memory} {dest src n : UInt32}

/-- Going up does no harm if the destination is in front of the source. -/
theorem memcpy_moved (hsrc : src.toNat + n.toNat ≤ 2 ^ 32) (hlt : dest < src) :
    Moved m dest src n.toNat (memcpy m dest src n) := by
  have hlt' : dest.toNat < src.toNat := hlt
  rw [memcpy, if_neg (UInt32.ne_of_lt hlt), memcpyLoop_eq]
  refine moved_copyAll (by omega) id (fun _ hi ↦ hi) (fun _ _ ↦ rfl) ?_
  intro i hi j hj hhit
  have haddr := congrArg UInt32.toNat hhit
  simp only [id_eq] at haddr
  rw [toNat_byteAt (by omega), toNat_byteAt (by omega)] at haddr
  omega

/-- Going down does no harm if it is behind it. -/
theorem memmoveLoop_moved (hdest : dest.toNat + n.toNat ≤ 2 ^ 32) (hlt : src < dest) :
    Moved m dest src n.toNat (memmoveLoop n.toNat m (dest + (n - 1)) (src + (n - 1))) := by
  have hlt' : src.toNat < dest.toNat := hlt
  rw [memmoveLoop_eq, copyAll_congr (fun _ ↦ byteAt_sub) fun _ ↦ byteAt_sub]
  refine moved_copyAll (by omega) (n.toNat - 1 - ·) (fun _ _ ↦ by omega)
    (fun _ _ ↦ by omega) ?_
  intro i hi j hj hhit
  have haddr := congrArg UInt32.toNat hhit
  rw [toNat_byteAt (by omega), toNat_byteAt (by omega)] at haddr
  omega

end Moved

theorem memmove_spec (m : Memory) {dest src n : UInt32}
    (hdest : dest.toNat + n.toNat ≤ 2 ^ 32) (hsrc : src.toNat + n.toNat ≤ 2 ^ 32) :
    Moved m dest src n.toNat (memmove m dest src n) := by
  rw [memmove]
  split_ifs with heq hlt
  · subst heq
    exact ⟨fun _ _ ↦ rfl, fun _ _ ↦ rfl⟩
  · exact memcpy_moved hsrc hlt
  · have hgt : src < dest := UInt32.lt_of_le_of_ne (UInt32.not_lt.mp hlt) (Ne.symm heq)
    exact memmoveLoop_moved hdest hgt

/-- **Moving memory.** After `memmove`, in every memory and for all ranges that do not wrap around,
the destination holds what was at the source before the call, whatever the overlap, and every other
byte is what it was. -/
theorem memmove_moved (m : Memory) {dest src n : UInt32}
    (hdest : dest.toNat + n.toNat ≤ 2 ^ 32) (hsrc : src.toNat + n.toNat ≤ 2 ^ 32) :
    (∀ i < n.toNat, memmove m dest src n (byteAt dest i) = m (byteAt src i)) ∧
      ∀ a, (∀ i < n.toNat, a ≠ byteAt dest i) → memmove m dest src n a = m a :=
  ⟨(memmove_spec m hdest hsrc).moved, (memmove_spec m hdest hsrc).frame⟩

theorem memmove_moved_up :
    (∀ i < (3 : UInt32).toNat, memmove UInt32.toUInt8 1 0 3 (byteAt 1 i) = (byteAt 0 i).toUInt8) ∧
      ∀ a, (∀ i < (3 : UInt32).toNat, a ≠ byteAt 1 i) →
        memmove UInt32.toUInt8 1 0 3 a = a.toUInt8 :=
  memmove_moved UInt32.toUInt8 (by decide) (by decide)

end Ertos
