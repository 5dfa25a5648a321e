import Ertos.Sys.List
import Mathlib.Algebra.Group.Nat.Defs
import Mathlib.Data.Int.Notation
import Mathlib.Logic.Function.Basic
import Mathlib.Tactic.Common

/-!
# Packets

`net/core/pkt.h` and `net/core/pkt.c`: byte order, the checksum, and packets with their buffers.

A buffer is a function from offsets to bytes, so that a packet can be read past its end, where it
yields whatever memory holds there. The machine is little-endian. Lengths are `size_t`, that is,
`UInt32`, and wrap as they do.
-/

namespace Ertos

/-! ## Bytes -/

abbrev Bytes := ℕ → UInt8

def get16 (d : Bytes) (i : ℕ) : UInt16 := UInt16.ofNat ((d i).toNat + 256 * (d (i + 1)).toNat)

def set16 (d : Bytes) (i : ℕ) (v : UInt16) : Bytes :=
  Function.update (Function.update d i (UInt8.ofNat v.toNat)) (i + 1) (UInt8.ofNat (v.toNat / 256))

def get32 (d : Bytes) (i : ℕ) : UInt32 :=
  UInt32.ofNat ((get16 d i).toNat + 65536 * (get16 d (i + 2)).toNat)

def set32 (d : Bytes) (i : ℕ) (v : UInt32) : Bytes :=
  set16 (set16 d i (UInt16.ofNat v.toNat)) (i + 2) (UInt16.ofNat (v.toNat / 65536))

/-- `memcpy` of `n` bytes to offset `i`. -/
def setBytes (d : Bytes) (i : ℕ) (src : Bytes) (n : ℕ) : Bytes := fun j ↦
  if i ≤ j ∧ j < i + n then src (j - i) else d j

section Bytes

variable (d : Bytes) (i j : ℕ)

theorem set16_of_ne (v : UInt16) (h : j ≠ i) (h' : j ≠ i + 1) : set16 d i v j = d j := by
  rw [set16, Function.update_of_ne h', Function.update_of_ne h]

theorem set32_of_lt (v : UInt32) (h : j < i) : set32 d i v j = d j := by
  rw [set32, set16_of_ne _ _ _ _ (by omega) (by omega), set16_of_ne _ _ _ _ (by omega) (by omega)]

theorem set32_of_ge (v : UInt32) (h : i + 4 ≤ j) : set32 d i v j = d j := by
  rw [set32, set16_of_ne _ _ _ _ (by omega) (by omega), set16_of_ne _ _ _ _ (by omega) (by omega)]

theorem get16_congr {d d' : Bytes} {i : ℕ} (h : d i = d' i) (h' : d (i + 1) = d' (i + 1)) :
    get16 d i = get16 d' i := by
  rw [get16, get16, h, h']

theorem get16_set16 (v : UInt16) : get16 (set16 d i v) i = v := by
  have hlow : set16 d i v i = UInt8.ofNat v.toNat := by
    rw [set16, Function.update_of_ne (by omega), Function.update_self]
  have hhigh : set16 d i v (i + 1) = UInt8.ofNat (v.toNat / 256) := Function.update_self _ _ _
  have hv := v.toNat_lt
  rw [get16, hlow, hhigh, UInt8.toNat_ofNat', UInt8.toNat_ofNat',
    show v.toNat % 2 ^ 8 + 256 * (v.toNat / 256 % 2 ^ 8) = v.toNat by omega, UInt16.ofNat_toNat]

theorem get16_set16_of_ne (v : UInt16) (h : j + 1 < i ∨ i + 1 < j) :
    get16 (set16 d i v) j = get16 d j :=
  get16_congr (set16_of_ne d i j v (by omega) (by omega))
    (set16_of_ne d i (j + 1) v (by omega) (by omega))

theorem get32_set32 (v : UInt32) : get32 (set32 d i v) i = v := by
  have hv := v.toNat_lt
  rw [get32, set32, get16_set16_of_ne _ _ _ _ (by omega), get16_set16, get16_set16,
    UInt16.toNat_ofNat', UInt16.toNat_ofNat',
    show v.toNat % 2 ^ 16 + 65536 * (v.toNat / 65536 % 2 ^ 16) = v.toNat by omega,
    UInt32.ofNat_toNat]

theorem get32_congr {d d' : Bytes} {i : ℕ} (h : ∀ j, i ≤ j → j < i + 4 → d j = d' j) :
    get32 d i = get32 d' i := by
  have hlow : get16 d i = get16 d' i :=
    get16_congr (h i (by omega) (by omega)) (h (i + 1) (by omega) (by omega))
  have hhigh : get16 d (i + 2) = get16 d' (i + 2) :=
    get16_congr (h (i + 2) (by omega) (by omega)) (h (i + 3) (by omega) (by omega))
  rw [get32, get32, hlow, hhigh]

end Bytes

def enNtohs (x : UInt16) : UInt16 := ((x &&& 0xFF00) >>> 8) ||| ((x &&& 0x00FF) <<< 8)

def enNtohl (x : UInt32) : UInt32 :=
  ((x &&& 0xFF000000) >>> 24) ||| ((x &&& 0x00FF0000) >>> 8) ||| ((x &&& 0x0000FF00) <<< 8) |||
    ((x &&& 0x000000FF) <<< 24)

def enHtons (x : UInt16) : UInt16 := enNtohs x

def enHtonl (x : UInt32) : UInt32 := enNtohl x

/-! ## The checksum -/

/-- The loop of `ocksum16`, or `none` if it is still running after `fuel` iterations. -/
def ocksum16Loop : ℕ → Bytes → ℕ → UInt32 → UInt32 → Option UInt32
  | 0, _, _, len, sum => if 0 < len then none else some sum
  | fuel + 1, d, i, len, sum =>
    if 0 < len then ocksum16Loop fuel d (i + 2) (len - 2) (sum + (get16 d i).toUInt32)
    else some sum

/-- The last lines of `ocksum16`. -/
def foldSum (sum : UInt32) : UInt16 :=
  ((sum &&& (0xFFFF : UInt32)) + (sum >>> (16 : UInt32))).toUInt16

/-- The checksum of `len` bytes from offset `i`, if its loop ends within `bound len` iterations. -/
def ocksum16 (bound : ℕ → ℕ) (d : Bytes) (i : ℕ) (len : UInt32) : Option UInt16 :=
  (ocksum16Loop (bound len.toNat) d i len 0).map foldSum

/-- The sum of `n` halfwords from offset `i`. -/
def halfwords (d : Bytes) : ℕ → ℕ → UInt32 → UInt32
  | 0, _, sum => sum
  | n + 1, i, sum => halfwords d n (i + 2) (sum + (get16 d i).toUInt32)

/-- The checksum of `n` halfwords. -/
def cksum (d : Bytes) (i n : ℕ) : UInt16 := foldSum (halfwords d n i 0)

/-- Going down by two, wrapping, keeps the parity. -/
theorem toNat_sub_two {len : UInt32} (h : 0 < len) :
    2 ≤ len.toNat ∧ (len - 2).toNat = len.toNat - 2 ∨
      len.toNat = 1 ∧ (len - 2).toNat = 2 ^ 32 - 1 := by
  have hpos : 0 < len.toNat := h
  have hlt := len.toNat_lt
  have hsub : (len - 2).toNat = (2 ^ 32 - 2 + len.toNat) % 2 ^ 32 := UInt32.toNat_sub len 2
  omega

/-- **The loop ends for even lengths only**, after one iteration for every two bytes. -/
theorem ocksum16Loop_eq (fuel : ℕ) (d : Bytes) (i : ℕ) (len sum : UInt32) :
    ocksum16Loop fuel d i len sum =
      if len.toNat % 2 = 0 ∧ len.toNat / 2 ≤ fuel then some (halfwords d (len.toNat / 2) i sum)
      else none := by
  induction fuel generalizing i len sum with
  | zero =>
    rw [ocksum16Loop]
    by_cases h : 0 < len
    · have hpos : 0 < len.toNat := h
      rw [if_pos h, if_neg (by omega)]
    · have hzero : len.toNat = 0 := Nat.eq_zero_of_not_pos h
      rw [if_neg h, if_pos (by omega), hzero]
      rfl
  | succ fuel ih =>
    rw [ocksum16Loop]
    by_cases h : 0 < len
    · rw [if_pos h, ih]
      rcases toNat_sub_two h with ⟨hle, hsub⟩ | ⟨hone, hsub⟩ <;> rw [hsub]
      · have hhalf : len.toNat / 2 = (len.toNat - 2) / 2 + 1 := by omega
        have hiff : (len.toNat - 2) % 2 = 0 ∧ (len.toNat - 2) / 2 ≤ fuel ↔
            len.toNat % 2 = 0 ∧ len.toNat / 2 ≤ fuel + 1 := by omega
        rw [hhalf] at hiff ⊢
        simp only [hiff, halfwords]
      · rw [if_neg (by omega), if_neg (by omega)]
    · have hzero : len.toNat = 0 := Nat.eq_zero_of_not_pos h
      rw [if_neg h, if_pos (by omega), hzero]
      rfl

theorem ocksum16_eq (bound : ℕ → ℕ) (d : Bytes) (i : ℕ) (len : UInt32) :
    ocksum16 bound d i len = if len.toNat % 2 = 0 ∧ len.toNat / 2 ≤ bound len.toNat
      then some (cksum d i (len.toNat / 2)) else none := by
  rw [ocksum16, ocksum16Loop_eq]
  split_ifs <;> rfl

/-! ## Packets -/

/-- What the packet layer knows of the allocator: the results of the calls of `malloc` to come, and
which blocks are packets in use. -/
structure PktHeap where
  mallocs : ℕ → Ptr
  live : Ptr → Bool

/-- `struct en_net_pkt`, with its own address, and without its list node. -/
structure EnNetPkt where
  addr : Ptr
  data : Bytes
  len : UInt32
  /-- The size of the data buffer. -/
  allocated : UInt32
  /-- The interface that received the packet. -/
  ethIf : Ptr

def PktHeap.malloc (h : PktHeap) : Ptr × PktHeap :=
  (h.mallocs 0, { h with mallocs := fun i ↦ h.mallocs (i + 1) })

def bufPadding : UInt32 := 4

/-- Pad to an even size. -/
def pad (len : UInt32) : UInt32 :=
  if len % bufPadding ≠ 0 then len + (bufPadding - len % bufPadding) else len

def pktAlloc (h : PktHeap) (base : UInt32) : Option EnNetPkt × PktHeap :=
  let (p, h) := h.malloc
  if p = NULL then (none, h)
  else
    let base := pad base
    if 0 < base then
      let (buf, h) := h.malloc
      if buf = NULL then (none, h)
      else (some ⟨p, fun _ ↦ 0, 0, base, NULL⟩, { h with live := Function.update h.live p true })
    else (some ⟨p, fun _ ↦ 0, 0, 0, NULL⟩, { h with live := Function.update h.live p true })

def pktFree (h : PktHeap) (pkt : EnNetPkt) : PktHeap :=
  { h with live := Function.update h.live pkt.addr false }

def pktGrow (h : PktHeap) (pkt : EnNetPkt) (len : UInt32) : ℤ × EnNetPkt × PktHeap :=
  if len ≤ 0 ∨ len < pkt.allocated then (0, pkt, h)
  else
    let len := pad len
    let (p, h) := h.malloc
    if p = NULL then (-1, pkt, h)
    else (0, { pkt with
      allocated := len
      data := fun i ↦ if i < pkt.len.toNat then pkt.data i else 0 }, h)

def pktReserve (h : PktHeap) (pkt : EnNetPkt) (len : UInt32) : ℤ × EnNetPkt × PktHeap :=
  if pkt.allocated < len then pktGrow h pkt len else (0, pkt, h)

def pktAddHead (h : PktHeap) (pkt : EnNetPkt) (buf : Bytes) (len : UInt32) :
    ℤ × EnNetPkt × PktHeap :=
  let (rc, pkt, h) := pktReserve h pkt (pkt.allocated + len)
  if rc ≠ 0 then (rc, pkt, h)
  else
    (rc, { pkt with
      data := setBytes (setBytes pkt.data len.toNat pkt.data pkt.len.toNat) 0 buf len.toNat
      len := pkt.len + len }, h)

def pktAddTail (h : PktHeap) (pkt : EnNetPkt) (buf : Bytes) (len : UInt32) :
    ℤ × EnNetPkt × PktHeap :=
  let (rc, pkt, h) := pktReserve h pkt (pkt.allocated + len)
  if rc ≠ 0 then (rc, pkt, h)
  else
    (rc, { pkt with
      data := setBytes pkt.data pkt.len.toNat buf len.toNat
      len := pkt.len + len }, h)

def pktDelHead (pkt : EnNetPkt) (len : UInt32) : ℤ × EnNetPkt :=
  if pkt.len < len then (-1, pkt)
  else
    (0, { pkt with
      data := setBytes pkt.data 0 (fun i ↦ pkt.data (i + len.toNat)) (pkt.len - len).toNat
      len := pkt.len - len })

/-! ## What the packet functions keep -/

section Frame

variable (h : PktHeap) (pkt : EnNetPkt)

@[simp] theorem live_malloc : h.malloc.2.live = h.live := rfl

theorem pktGrow_frame (len : UInt32) : (pktGrow h pkt len).2.1.addr = pkt.addr ∧
    (pktGrow h pkt len).2.1.len = pkt.len ∧ (pktGrow h pkt len).2.2.live = h.live := by
  unfold pktGrow PktHeap.malloc
  dsimp only
  split_ifs <;> exact ⟨rfl, rfl, rfl⟩

theorem pktReserve_frame (len : UInt32) : (pktReserve h pkt len).2.1.addr = pkt.addr ∧
    (pktReserve h pkt len).2.1.len = pkt.len ∧ (pktReserve h pkt len).2.2.live = h.live := by
  unfold pktReserve
  split_ifs
  · exact pktGrow_frame h pkt len
  · exact ⟨rfl, rfl, rfl⟩

/-- Whether or not there is memory, the packet stays the packet it is. -/
theorem pktAddHead_frame (buf : Bytes) (len : UInt32) :
    (pktAddHead h pkt buf len).2.1.addr = pkt.addr ∧
      ((pktAddHead h pkt buf len).2.1.len = pkt.len ∨
        (pktAddHead h pkt buf len).2.1.len = pkt.len + len) ∧
      (pktAddHead h pkt buf len).2.2.live = h.live := by
  obtain ⟨haddr, hlen, hlive⟩ := pktReserve_frame h pkt (pkt.allocated + len)
  unfold pktAddHead
  dsimp only
  split_ifs
  · exact ⟨haddr, Or.inl hlen, hlive⟩
  · exact ⟨haddr, Or.inr (congrArg (· + len) hlen), hlive⟩

@[simp] theorem addr_pktDelHead (len : UInt32) : (pktDelHead pkt len).2.addr = pkt.addr := by
  unfold pktDelHead
  split_ifs <;> rfl

/-- An allocation fails, or yields a packet that takes the first block. -/
inductive PktAlloc (h : PktHeap) : Option EnNetPkt × PktHeap → Prop
  | failed {t : PktHeap} (hlive : t.live = h.live) : PktAlloc h (none, t)
  | ok {pkt : EnNetPkt} {t : PktHeap} (hnull : h.mallocs 0 ≠ NULL) (haddr : pkt.addr = h.mallocs 0)
      (hlive : t.live = Function.update h.live pkt.addr true) : PktAlloc h (some pkt, t)

theorem pktAlloc_spec (base : UInt32) : PktAlloc h (pktAlloc h base) := by
  unfold pktAlloc PktHeap.malloc
  dsimp only
  split_ifs with hnull hbase hbuf
  · exact .failed rfl
  · exact .failed rfl
  · exact .ok hnull rfl rfl
  · exact .ok hnull rfl rfl

end Frame

end Ertos
