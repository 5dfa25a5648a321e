import Ertos.Basis.Simulation
import Ertos.Lib.Memory
import Ertos.Net.Pkt
import Mathlib.Algebra.Order.Group.Nat

/-!
# Packets are byte lists

A packet stands for the list of its first `len` bytes. `pkt_add_head` and `pkt_add_tail` put bytes
in front of the list and behind it, and `pkt_del_head` drops some from its front. Each of the first
two may have to replace the buffer, and fails when there is no memory for it; then the packet is
what it was.

The lengths must leave room for the padding of the new buffer, which is computed in 32 bits.
-/

namespace Ertos

open Transition

/-! ## The bytes of a buffer -/

/-- The first `n` bytes. -/
def bytesOf (d : Bytes) (n : ℕ) : List UInt8 := (List.range n).map d

@[simp] theorem length_bytesOf (d : Bytes) (n : ℕ) : (bytesOf d n).length = n := by simp [bytesOf]

theorem bytesOf_congr {d d' : Bytes} {n : ℕ} (h : ∀ i < n, d i = d' i) :
    bytesOf d n = bytesOf d' n := List.map_congr_left fun i hi ↦ h i (List.mem_range.mp hi)

theorem bytesOf_add (d : Bytes) (m n : ℕ) :
    bytesOf d (m + n) = bytesOf d m ++ bytesOf (fun i ↦ d (m + i)) n := by
  rw [bytesOf, List.range_add, List.map_append, List.map_map]
  rfl

theorem bytesOf_prepend (d buf : Bytes) (m n : ℕ) :
    bytesOf (setBytes (setBytes d m d n) 0 buf m) (m + n) = bytesOf buf m ++ bytesOf d n := by
  rw [bytesOf_add]
  congr 1
  · refine bytesOf_congr fun i hi ↦ ?_
    rw [setBytes, if_pos (by omega), Nat.sub_zero]
  · refine bytesOf_congr fun i hi ↦ ?_
    rw [setBytes, if_neg (by omega), setBytes, if_pos (by omega), Nat.add_sub_cancel_left]

theorem bytesOf_append (d buf : Bytes) (m n : ℕ) :
    bytesOf (setBytes d n buf m) (n + m) = bytesOf d n ++ bytesOf buf m := by
  rw [bytesOf_add]
  congr 1
  · refine bytesOf_congr fun i hi ↦ ?_
    rw [setBytes, if_neg (by omega)]
  · refine bytesOf_congr fun i hi ↦ ?_
    rw [setBytes, if_pos (by omega), Nat.add_sub_cancel_left]

theorem bytesOf_drop (d : Bytes) {m n : ℕ} (h : m ≤ n) :
    bytesOf (setBytes d 0 (fun i ↦ d (i + m)) (n - m)) (n - m) = (bytesOf d n).drop m := by
  have hsplit := bytesOf_add d m (n - m)
  rw [Nat.add_sub_cancel' h] at hsplit
  rw [hsplit, List.drop_left' (length_bytesOf d m)]
  refine bytesOf_congr fun i hi ↦ ?_
  rw [setBytes, if_pos (by omega), Nat.sub_zero, Nat.add_comm]

/-- The buffer at an address. -/
def bufAt (m : Memory) (p : UInt32) : Bytes := fun i ↦ m (byteAt p i)

/-- Within a buffer, `memmove` is `setBytes` of what was there. -/
theorem bufAt_memmove (m : Memory) {p n : UInt32} {i j k : ℕ}
    (hi : p.toNat + i + n.toNat ≤ 2 ^ 32) (hj : p.toNat + j + n.toNat ≤ 2 ^ 32)
    (hn : 0 < n.toNat) (hk : p.toNat + k < 2 ^ 32) :
    bufAt (memmove m (byteAt p i) (byteAt p j) n) p k =
      setBytes (bufAt m p) i (fun l ↦ bufAt m p (j + l)) n.toNat k := by
  have hdest : (byteAt p i).toNat = p.toNat + i := toNat_byteAt (by omega)
  have hsrc : (byteAt p j).toNat = p.toNat + j := toNat_byteAt (by omega)
  have hmove : Moved m (byteAt p i) (byteAt p j) n.toNat (memmove m (byteAt p i) (byteAt p j) n) :=
    memmove_spec m (by omega) (by omega)
  rw [bufAt, setBytes]
  split_ifs with hin
  · rw [show k = i + (k - i) by omega, ← byteAt_byteAt, hmove.moved _ (by omega), byteAt_byteAt,
      Nat.add_sub_cancel_left]
    rfl
  · refine hmove.frame _ fun l hl heq ↦ hin ?_
    have haddr := congrArg UInt32.toNat heq
    rw [toNat_byteAt hk, toNat_byteAt (by omega), hdest] at haddr
    omega

/-! ## Making room -/

theorem toNat_add_of_lt {a b : UInt32} (h : a.toNat + b.toNat < 2 ^ 32) :
    (a + b).toNat = a.toNat + b.toNat := by
  rw [UInt32.toNat_add]
  exact Nat.mod_eq_of_lt h

/-- Padding is rounding up, unless it wraps. -/
theorem toNat_pad {len : UInt32} (h : len.toNat + 3 < 2 ^ 32) :
    (pad len).toNat = (len.toNat + 3) / 4 * 4 := by
  have hrest : (len % bufPadding).toNat = len.toNat % 4 := UInt32.toNat_mod _ _
  have hiff : len % bufPadding ≠ 0 ↔ len.toNat % 4 ≠ 0 := by
    rw [ne_eq, ← UInt32.toNat_inj, hrest]
    rfl
  unfold pad
  split_ifs with hmod
  · have hle : len % bufPadding ≤ bufPadding := by
      rw [UInt32.le_iff_toNat_le, hrest]
      exact (Nat.mod_lt _ (by decide)).le
    have hpad : (bufPadding - len % bufPadding).toNat = 4 - len.toNat % 4 := by
      rw [UInt32.toNat_sub_of_le _ _ hle, hrest]
      rfl
    have hne := hiff.mp hmod
    rw [toNat_add_of_lt (by rw [hpad]; omega), hpad]
    omega
  · have hzero := not_not.mp (mt hiff.mpr hmod)
    omega

/-- Reserving a buffer of `n` bytes fails and changes nothing, or leaves the bytes of the packet in
a buffer of at least that size. -/
inductive Reserve (pkt : EnNetPkt) (n : ℕ) : ℤ × EnNetPkt × PktHeap → Prop
  | failed {rc : ℤ} {h : PktHeap} (hrc : rc ≠ 0) : Reserve pkt n (rc, pkt, h)
  | ok {pkt' : EnNetPkt} {h : PktHeap} (hlen : pkt'.len = pkt.len)
      (hdata : ∀ i < pkt.len.toNat, pkt'.data i = pkt.data i) (hroom : n ≤ pkt'.allocated.toNat) :
      Reserve pkt n (0, pkt', h)

theorem pktGrow_spec (h : PktHeap) (pkt : EnNetPkt) {len : UInt32}
    (hlen : pkt.allocated < len) (hfits : len.toNat + 3 < 2 ^ 32) :
    Reserve pkt len.toNat (pktGrow h pkt len) := by
  have hlt : pkt.allocated.toNat < len.toNat := hlen
  have hgrow : ¬(len ≤ 0 ∨ len < pkt.allocated) := by
    rw [UInt32.le_iff_toNat_le, UInt32.lt_iff_toNat_lt, UInt32.toNat_zero]
    omega
  unfold pktGrow
  rw [if_neg hgrow]
  dsimp only
  split_ifs
  · exact .failed (by decide)
  · refine .ok rfl (fun i hi ↦ if_pos hi) ?_
    dsimp only
    rw [toNat_pad hfits]
    omega

theorem pktReserve_spec (h : PktHeap) (pkt : EnNetPkt) (len : UInt32)
    (hfits : len.toNat + 3 < 2 ^ 32) : Reserve pkt len.toNat (pktReserve h pkt len) := by
  unfold pktReserve
  split_ifs with hlen
  · exact pktGrow_spec h pkt hlen hfits
  · exact .ok rfl (fun _ _ ↦ rfl) (UInt32.le_iff_toNat_le.mp (UInt32.not_lt.mp hlen))

/-! ## The two systems -/

inductive PktOp
  | addHead (buf : Bytes) (len : UInt32)
  | addTail (buf : Bytes) (len : UInt32)
  | delHead (len : UInt32)

/-- The return code, the packet and the allocator after a call. -/
def PktOp.exec (h : PktHeap) (pkt : EnNetPkt) : PktOp → ℤ × EnNetPkt × PktHeap
  | .addHead buf len => pktAddHead h pkt buf len
  | .addTail buf len => pktAddTail h pkt buf len
  | .delHead len => ((pktDelHead pkt len).1, (pktDelHead pkt len).2, h)

/-- The new size of the buffer can be computed in 32 bits. -/
def PktOp.Fits (pkt : EnNetPkt) : PktOp → Prop
  | .addHead _ len | .addTail _ len => pkt.allocated.toNat + len.toNat + 3 < 2 ^ 32
  | .delHead _ => True

/-- A call on a packet, with its return code. -/
def PktStep (s : EnNetPkt × PktHeap) (e : PktOp × ℤ) (t : EnNetPkt × PktHeap) : Prop :=
  e.1.Fits s.1 ∧ e.1.exec s.2 s.1 = (e.2, t)

/-- What a successful call does to a byte list. -/
def PktOp.apply (l : List UInt8) : PktOp → List UInt8
  | .addHead buf len => bytesOf buf len.toNat ++ l
  | .addTail buf len => l ++ bytesOf buf len.toNat
  | .delHead len => l.drop len.toNat

/-- Adding can fail for want of memory, and removing succeeds exactly when the bytes are there. -/
inductive ByteStep (l : List UInt8) : PktOp × ℤ → List UInt8 → Prop
  | ok {op : PktOp} (hop : ∀ len, op = .delHead len → len.toNat ≤ l.length) :
      ByteStep l (op, 0) (op.apply l)
  | failed {op : PktOp} {rc : ℤ} (hrc : rc ≠ 0)
      (hop : ∀ len, op = .delHead len → l.length < len.toNat) :
      ByteStep l (op, rc) l

/-! ## The simulation -/

/-- The packet stands for the list `l`, in a buffer large enough for it. -/
structure Carries (s : EnNetPkt × PktHeap) (l : List UInt8) : Prop where
  bytes : bytesOf s.1.data s.1.len.toNat = l
  len_le : s.1.len ≤ s.1.allocated

namespace Carries

variable {h : PktHeap} {pkt : EnNetPkt} {l : List UInt8}

/-- The part that the two ways of adding share: with the buffer reserved, the bytes are still there,
and the sum of the lengths does not wrap. -/
theorem reserve (hl : Carries (pkt, h) l) {len : UInt32}
    (hfits : pkt.allocated.toNat + len.toNat + 3 < 2 ^ 32) :
    (∃ rc h', pktReserve h pkt (pkt.allocated + len) = (rc, pkt, h') ∧ rc ≠ 0) ∨
      ∃ pkt' h', pktReserve h pkt (pkt.allocated + len) = (0, pkt', h') ∧
        bytesOf pkt'.data pkt'.len.toNat = l ∧
        (pkt'.len + len).toNat = pkt'.len.toNat + len.toNat ∧ pkt'.len + len ≤ pkt'.allocated := by
  have hle : pkt.len.toNat ≤ pkt.allocated.toNat := hl.len_le
  have hsum := toNat_add_of_lt (a := pkt.allocated) (b := len) (by omega)
  have hspec := pktReserve_spec h pkt (pkt.allocated + len) (by omega)
  generalize pktReserve h pkt (pkt.allocated + len) = r at hspec
  cases hspec with
  | @failed rc h' hrc => exact Or.inl ⟨rc, h', rfl, hrc⟩
  | @ok pkt' h' hlen hdata hroom =>
    have hadd : (pkt'.len + len).toNat = pkt'.len.toNat + len.toNat := by
      rw [hlen]
      exact toNat_add_of_lt (by omega)
    refine Or.inr ⟨pkt', h', rfl, ?_, hadd, ?_⟩
    · rw [← hl.bytes, hlen]
      exact bytesOf_congr hdata
    · rw [UInt32.le_iff_toNat_le, hadd, hlen]
      omega

theorem add (hl : Carries (pkt, h) l) {op : PktOp} {len : UInt32} {f : EnNetPkt → Bytes}
    (hop : ∀ n, op ≠ .delHead n) (hfits : pkt.allocated.toNat + len.toNat + 3 < 2 ^ 32)
    (hf : ∀ q : EnNetPkt, bytesOf q.data q.len.toNat = l →
      bytesOf (f q) (q.len.toNat + len.toNat) = op.apply l) {rc : ℤ} {t : EnNetPkt × PktHeap}
    (hcall : (match pktReserve h pkt (pkt.allocated + len) with
      | (rc, q, h) => if rc ≠ 0 then (rc, q, h)
        else (rc, { q with data := f q, len := q.len + len }, h)) = (rc, t)) :
    ∃ l', ByteStep l (op, rc) l' ∧ Carries t l' := by
  rcases hl.reserve hfits with ⟨rc', h', hreserve, hrc⟩ | ⟨q, h', hreserve, hbytes, hadd, hle⟩
  · -- no memory: the packet goes back as it came
    rw [hreserve] at hcall
    dsimp only at hcall
    rw [if_pos hrc] at hcall
    obtain ⟨rfl, rfl⟩ := Prod.mk.inj hcall
    exact ⟨l, .failed hrc fun n hn ↦ absurd hn (hop n), hl.bytes, hl.len_le⟩
  · rw [hreserve] at hcall
    obtain ⟨rfl, rfl⟩ := Prod.mk.inj hcall
    refine ⟨op.apply l, .ok fun n hn ↦ absurd hn (hop n), ?_, hle⟩
    dsimp only
    rw [hadd]
    exact hf q hbytes

theorem addHead (hl : Carries (pkt, h) l) {buf : Bytes} {len : UInt32}
    (hfits : pkt.allocated.toNat + len.toNat + 3 < 2 ^ 32) {rc : ℤ} {t : EnNetPkt × PktHeap}
    (hcall : pktAddHead h pkt buf len = (rc, t)) :
    ∃ l', ByteStep l (.addHead buf len, rc) l' ∧ Carries t l' := by
  refine hl.add (f := fun q ↦
    setBytes (setBytes q.data len.toNat q.data q.len.toNat) 0 buf len.toNat)
    (fun n ↦ by simp) hfits (fun q hq ↦ ?_) hcall
  rw [Nat.add_comm, bytesOf_prepend, hq]
  rfl

theorem addTail (hl : Carries (pkt, h) l) {buf : Bytes} {len : UInt32}
    (hfits : pkt.allocated.toNat + len.toNat + 3 < 2 ^ 32) {rc : ℤ} {t : EnNetPkt × PktHeap}
    (hcall : pktAddTail h pkt buf len = (rc, t)) :
    ∃ l', ByteStep l (.addTail buf len, rc) l' ∧ Carries t l' := by
  refine hl.add (f := fun q ↦ setBytes q.data q.len.toNat buf len.toNat) (fun n ↦ by simp) hfits
    (fun q hq ↦ ?_) hcall
  rw [bytesOf_append, hq]
  rfl

theorem delHead (hl : Carries (pkt, h) l) {len : UInt32} {rc : ℤ} {q : EnNetPkt}
    (hcall : pktDelHead pkt len = (rc, q)) :
    ∃ l', ByteStep l (.delHead len, rc) l' ∧ Carries (q, h) l' := by
  have hlen : l.length = pkt.len.toNat := by rw [← hl.bytes, length_bytesOf]
  have hle : pkt.len.toNat ≤ pkt.allocated.toNat := hl.len_le
  unfold pktDelHead at hcall
  split_ifs at hcall with hshort
  · -- fewer bytes than are to be removed
    obtain ⟨rfl, rfl⟩ := Prod.mk.inj hcall
    refine ⟨l, .failed (by decide) fun n hn ↦ ?_, hl⟩
    obtain rfl := PktOp.delHead.inj hn
    rw [hlen]
    exact hshort
  · obtain ⟨rfl, rfl⟩ := Prod.mk.inj hcall
    have hdel : len.toNat ≤ pkt.len.toNat := UInt32.le_iff_toNat_le.mp (UInt32.not_lt.mp hshort)
    have hsub : (pkt.len - len).toNat = pkt.len.toNat - len.toNat :=
      UInt32.toNat_sub_of_le _ _ (UInt32.not_lt.mp hshort)
    refine ⟨l.drop len.toNat, .ok fun n hn ↦ ?_, ?_, ?_⟩
    · obtain rfl := PktOp.delHead.inj hn
      rw [hlen]
      exact hdel
    · dsimp only
      rw [hsub, bytesOf_drop _ hdel]
      exact congrArg (List.drop len.toNat) hl.bytes
    · dsimp only
      rw [UInt32.le_iff_toNat_le, hsub]
      exact (Nat.sub_le _ _).trans hle

end Carries

theorem simulation_pkt : Simulation PktStep ByteStep Carries := by
  rintro ⟨pkt, h⟩ l ⟨op, rc⟩ t hl ⟨hfits, hexec⟩
  cases op with
  | addHead buf len => exact hl.addHead hfits hexec
  | addTail buf len => exact hl.addTail hfits hexec
  | delHead len =>
    obtain ⟨hrc, rfl⟩ := Prod.mk.inj hexec
    exact hl.delHead (Prod.ext hrc rfl)

/-! ## The theorem -/

/-- **Packets refine byte lists.** Every sequence of calls on a fresh packet, with any outcome of
the allocations, is followed by the list that is empty at first, call for call and return code for
return code; in every state the packet stands for the list and fits in its buffer. -/
theorem pkt_refines_bytes {h h' : PktHeap} {base : UInt32} {pkt : EnNetPkt}
    (halloc : pktAlloc h base = (some pkt, h')) {r : List ((PktOp × ℤ) × EnNetPkt × PktHeap)}
    (hrun : IsRun PktStep (pkt, h') r) :
    ∃ r', IsRun ByteStep [] r' ∧ Follows Carries (pkt, h') r [] r' := by
  have hempty : Carries (pkt, h') [] := by
    have hlen : pkt.len = 0 := by
      unfold pktAlloc at halloc
      dsimp only at halloc
      split_ifs at halloc <;> simp at halloc <;> rw [← halloc.1]
    refine ⟨by rw [hlen]; rfl, ?_⟩
    rw [hlen]
    exact UInt32.zero_le
  exact simulation_pkt.follows hempty hrun

/-- The calls on a packet, one after the other. -/
def pktRun : EnNetPkt × PktHeap → List PktOp → List ((PktOp × ℤ) × EnNetPkt × PktHeap)
  | _, [] => []
  | s, op :: ops => ((op, (op.exec s.2 s.1).1), (op.exec s.2 s.1).2) ::
      pktRun (op.exec s.2 s.1).2 ops

def pktHeapExample : PktHeap := ⟨fun i ↦ 0x1000 * (i + 1), fun _ ↦ false⟩

/-- What `pkt_alloc` makes of it for a packet without a buffer. -/
def pktExample : EnNetPkt × PktHeap :=
  (⟨0x1000, fun _ ↦ 0, 0, 0, NULL⟩,
    ⟨fun i ↦ 0x1000 * (i + 2), Function.update (fun _ ↦ false) 0x1000 true⟩)

theorem pkt_refines_bytes_header : ∃ r', IsRun ByteStep [] r' ∧
    Follows Carries pktExample (pktRun pktExample [.addHead (fun _ ↦ 7) 3, .delHead 2]) [] r' := by
  have halloc : pktAlloc pktHeapExample 0 = (some pktExample.1, pktExample.2) := rfl
  have hfits : (PktOp.addHead (fun _ ↦ 7) 3).Fits pktExample.1 := by
    show 0 + (3 : UInt32).toNat + 3 < 2 ^ 32
    decide
  have hrun : IsRun PktStep pktExample
      (pktRun pktExample [.addHead (fun _ ↦ 7) 3, .delHead 2]) :=
    ⟨⟨hfits, rfl⟩, ⟨trivial, rfl⟩, trivial⟩
  exact pkt_refines_bytes halloc hrun

end Ertos
