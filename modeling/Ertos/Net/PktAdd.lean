import Ertos.Net.PktBytes

/-!
# Adding to both ends of a packet

`pkt_add` of `net/core/pkt.c` puts one buffer in front of the data of a packet and another behind
it. Before it touches the data, it reserves room for both. But `pkt_add_head` and `pkt_add_tail`
then reserve room once more, each on top of the size that the buffer has grown to, so there are up
to three allocations. When the last of them fails, the head is already in the packet, and stays
there.
-/

namespace Ertos

/-! ## The function -/

/-- `pkt_add`. A null buffer is `none`. -/
def pktAdd (h : PktHeap) (pkt : EnNetPkt) (hbuf : Option Bytes) (hlen : UInt32)
    (tbuf : Option Bytes) (tlen : UInt32) : ℤ × EnNetPkt × PktHeap :=
  let (rc, pkt, h) := pktReserve h pkt (pkt.allocated + hlen + tlen)
  if rc ≠ 0 then (rc, pkt, h)
  else
    let (rc, pkt, h) := hbuf.elim (rc, pkt, h) fun buf ↦ pktAddHead h pkt buf hlen
    if rc ≠ 0 then (rc, pkt, h)
    else tbuf.elim (rc, pkt, h) fun buf ↦ pktAddTail h pkt buf tlen

/-- The bytes of a buffer that may be null. -/
def partBytes (buf : Option Bytes) (len : UInt32) : List UInt8 :=
  buf.elim [] fun buf ↦ bytesOf buf len.toNat

/-- All or nothing: the packet carries the old bytes between the new ones, or is what it was. -/
def Atomic (pkt : EnNetPkt) (head tail : List UInt8) (r : ℤ × EnNetPkt × PktHeap) : Prop :=
  if r.1 = 0 then Carries r.2 (head ++ bytesOf pkt.data pkt.len.toNat ++ tail)
  else r.2.1.len = pkt.len ∧ bytesOf r.2.1.data r.2.1.len.toNat = bytesOf pkt.data pkt.len.toNat

/-! ## What the reservations come to -/

/-- The size of a data buffer, and the allocations to come. -/
structure BufRoom where
  size : UInt32
  heap : PktHeap

namespace BufRoom

/-- With room for `n` bytes, if the memory is there. -/
def reserve (r : BufRoom) (n : UInt32) : Option BufRoom :=
  if r.size < n then if r.heap.mallocs 0 = NULL then none else some ⟨pad n, r.heap.malloc.2⟩
  else some r

/-- With room for `len` bytes on top, unless there is nothing to add. -/
def reserveFor (r : BufRoom) (buf : Option Bytes) (len : UInt32) : Option BufRoom :=
  buf.elim (some r) fun _ ↦ r.reserve (r.size + len)

end BufRoom

/-- The memory for the head is there, and that for the tail is not. -/
def TailRefused (h : PktHeap) (pkt : EnNetPkt) (hbuf : Option Bytes) (hlen : UInt32)
    (tbuf : Option Bytes) (tlen : UInt32) : Prop :=
  (hbuf.isSome ∧ 0 < hlen) ∧
    ∃ r s, BufRoom.reserve ⟨pkt.allocated, h⟩ (pkt.allocated + hlen + tlen) = some r ∧
      r.reserveFor hbuf hlen = some s ∧ s.reserveFor tbuf tlen = none

/-- All memory is there, but the sizes have wrapped, and the buffer is too small. -/
def TooSmall (h : PktHeap) (pkt : EnNetPkt) (hbuf : Option Bytes) (hlen : UInt32)
    (tbuf : Option Bytes) (tlen : UInt32) : Prop :=
  ∃ r s t, BufRoom.reserve ⟨pkt.allocated, h⟩ (pkt.allocated + hlen + tlen) = some r ∧
    r.reserveFor hbuf hlen = some s ∧ s.reserveFor tbuf tlen = some t ∧
    t.size.toNat < (partBytes hbuf hlen).length + pkt.len.toNat + (partBytes tbuf tlen).length

/-! ## One reservation -/

/-- Adding `n` bytes, so that the data become `l`, in a buffer of the given size. -/
structure Added (pkt q : EnNetPkt) (size : UInt32) (n : ℕ) (l : List UInt8) : Prop where
  allocated : q.allocated = size
  len : q.len.toNat = (pkt.len.toNat + n) % 2 ^ 32
  bytes : pkt.len.toNat + n < 2 ^ 32 → bytesOf q.data q.len.toNat = l

section Reserve

variable {h : PktHeap} {pkt : EnNetPkt} {n len : UInt32} {buf : Bytes} {r : BufRoom}

theorem pktReserve_of_none (hr : BufRoom.reserve ⟨pkt.allocated, h⟩ n = none) :
    pktReserve h pkt n = (-1, pkt, h.malloc.2) := by
  unfold BufRoom.reserve at hr
  dsimp only at hr
  split_ifs at hr with hlt hnull
  have hgrow : ¬(n ≤ 0 ∨ n < pkt.allocated) := by
    rw [UInt32.le_iff_toNat_le, UInt32.lt_iff_toNat_lt, UInt32.toNat_zero]
    have := UInt32.lt_iff_toNat_lt.mp hlt
    omega
  rw [pktReserve, if_pos hlt, pktGrow, if_neg hgrow]
  exact if_pos hnull

theorem pktReserve_of_some (hr : BufRoom.reserve ⟨pkt.allocated, h⟩ n = some r) :
    ∃ d, (∀ i < pkt.len.toNat, d i = pkt.data i) ∧
      pktReserve h pkt n = (0, { pkt with allocated := r.size, data := d }, r.heap) := by
  unfold BufRoom.reserve at hr
  dsimp only at hr
  split_ifs at hr with hlt hnull
  · obtain rfl := Option.some.inj hr
    have hgrow : ¬(n ≤ 0 ∨ n < pkt.allocated) := by
      rw [UInt32.le_iff_toNat_le, UInt32.lt_iff_toNat_lt, UInt32.toNat_zero]
      have := UInt32.lt_iff_toNat_lt.mp hlt
      omega
    refine ⟨fun i ↦ if i < pkt.len.toNat then pkt.data i else 0, fun i hi ↦ if_pos hi, ?_⟩
    rw [pktReserve, if_pos hlt, pktGrow, if_neg hgrow]
    exact if_neg hnull
  · obtain rfl := Option.some.inj hr
    exact ⟨pkt.data, fun _ _ ↦ rfl, if_neg hlt⟩

theorem pktAddHead_of_none (hr : BufRoom.reserve ⟨pkt.allocated, h⟩ (pkt.allocated + len) = none) :
    pktAddHead h pkt buf len = (-1, pkt, h.malloc.2) := by
  rw [pktAddHead, pktReserve_of_none hr]
  rfl

theorem pktAddTail_of_none (hr : BufRoom.reserve ⟨pkt.allocated, h⟩ (pkt.allocated + len) = none) :
    pktAddTail h pkt buf len = (-1, pkt, h.malloc.2) := by
  rw [pktAddTail, pktReserve_of_none hr]
  rfl

theorem pktAddHead_of_some
    (hr : BufRoom.reserve ⟨pkt.allocated, h⟩ (pkt.allocated + len) = some r) :
    ∃ q, pktAddHead h pkt buf len = (0, q, r.heap) ∧ Added pkt q r.size len.toNat
      (bytesOf buf len.toNat ++ bytesOf pkt.data pkt.len.toNat) := by
  obtain ⟨d, hd, hreserve⟩ := pktReserve_of_some hr
  refine ⟨_, by rw [pktAddHead, hreserve]; rfl, rfl, UInt32.toNat_add _ _, fun hfits ↦ ?_⟩
  show bytesOf (setBytes (setBytes d len.toNat d pkt.len.toNat) 0 buf len.toNat)
    (pkt.len + len).toNat = _
  rw [toNat_add_of_lt hfits, Nat.add_comm, bytesOf_prepend, bytesOf_congr hd]

theorem pktAddTail_of_some
    (hr : BufRoom.reserve ⟨pkt.allocated, h⟩ (pkt.allocated + len) = some r) :
    ∃ q, pktAddTail h pkt buf len = (0, q, r.heap) ∧ Added pkt q r.size len.toNat
      (bytesOf pkt.data pkt.len.toNat ++ bytesOf buf len.toNat) := by
  obtain ⟨d, hd, hreserve⟩ := pktReserve_of_some hr
  refine ⟨_, by rw [pktAddTail, hreserve]; rfl, rfl, UInt32.toNat_add _ _, fun hfits ↦ ?_⟩
  show bytesOf (setBytes d pkt.len.toNat buf len.toNat) (pkt.len + len).toNat = _
  rw [toNat_add_of_lt hfits, bytesOf_append, bytesOf_congr hd]

end Reserve

/-! ## The parts -/

section Part

variable {h : PktHeap} {pkt : EnNetPkt} {len : UInt32} {r : BufRoom}

theorem Added.refl (pkt : EnNetPkt) :
    Added pkt pkt pkt.allocated 0 (bytesOf pkt.data pkt.len.toNat) :=
  ⟨rfl, (Nat.mod_eq_of_lt pkt.len.toNat_lt).symm, fun _ ↦ rfl⟩

theorem addHeadPart_of_none {buf : Option Bytes}
    (hr : BufRoom.reserveFor ⟨pkt.allocated, h⟩ buf len = none) :
    (buf.elim (0, pkt, h) fun buf ↦ pktAddHead h pkt buf len) = (-1, pkt, h.malloc.2) := by
  cases buf with
  | none => exact absurd hr (Option.some_ne_none _)
  | some buf => exact pktAddHead_of_none hr

theorem addTailPart_of_none {buf : Option Bytes}
    (hr : BufRoom.reserveFor ⟨pkt.allocated, h⟩ buf len = none) :
    (buf.elim (0, pkt, h) fun buf ↦ pktAddTail h pkt buf len) = (-1, pkt, h.malloc.2) := by
  cases buf with
  | none => exact absurd hr (Option.some_ne_none _)
  | some buf => exact pktAddTail_of_none hr

theorem addHeadPart_of_some {buf : Option Bytes}
    (hr : BufRoom.reserveFor ⟨pkt.allocated, h⟩ buf len = some r) :
    ∃ q, (buf.elim (0, pkt, h) fun buf ↦ pktAddHead h pkt buf len) = (0, q, r.heap) ∧
      Added pkt q r.size (partBytes buf len).length
        (partBytes buf len ++ bytesOf pkt.data pkt.len.toNat) := by
  cases buf with
  | none =>
    obtain rfl := Option.some.inj hr
    exact ⟨pkt, rfl, Added.refl pkt⟩
  | some buf =>
    have hlen : (partBytes (some buf) len).length = len.toNat := length_bytesOf _ _
    rw [hlen]
    exact pktAddHead_of_some hr

theorem addTailPart_of_some {buf : Option Bytes}
    (hr : BufRoom.reserveFor ⟨pkt.allocated, h⟩ buf len = some r) :
    ∃ q, (buf.elim (0, pkt, h) fun buf ↦ pktAddTail h pkt buf len) = (0, q, r.heap) ∧
      Added pkt q r.size (partBytes buf len).length
        (bytesOf pkt.data pkt.len.toNat ++ partBytes buf len) := by
  cases buf with
  | none =>
    obtain rfl := Option.some.inj hr
    refine ⟨pkt, rfl, ?_⟩
    show Added pkt pkt pkt.allocated 0 (bytesOf pkt.data pkt.len.toNat ++ [])
    rw [List.append_nil]
    exact Added.refl pkt
  | some buf =>
    have hlen : (partBytes (some buf) len).length = len.toNat := length_bytesOf _ _
    rw [hlen]
    exact pktAddTail_of_some hr

end Part

/-! ## The theorem -/

section Atomic

variable {h : PktHeap} {pkt : EnNetPkt} {hbuf tbuf : Option Bytes} {hlen tlen : UInt32}

theorem partBytes_eq_nil_iff : partBytes hbuf hlen = [] ↔ ¬(hbuf.isSome ∧ 0 < hlen) := by
  cases hbuf with
  | none => simp [partBytes]
  | some buf =>
    rw [← List.length_eq_zero_iff]
    show (bytesOf buf hlen.toNat).length = 0 ↔ _
    rw [length_bytesOf, UInt32.lt_iff_toNat_lt]
    simp

/-- **The head is in**, and the tail cannot be added: the packet is unchanged if and only if the
head is empty. -/
theorem atomic_of_refused {q : EnNetPkt} {size : UInt32} (t : PktHeap) (tail : List UInt8)
    (hq : Added pkt q size (partBytes hbuf hlen).length
      (partBytes hbuf hlen ++ bytesOf pkt.data pkt.len.toNat)) :
    Atomic pkt (partBytes hbuf hlen) tail (-1, q, t) ↔ ¬(hbuf.isSome ∧ 0 < hlen) := by
  have hpkt := pkt.len.toNat_lt
  have hlt : (partBytes hbuf hlen).length < 2 ^ 32 := by
    cases hbuf with
    | none => exact Nat.two_pow_pos 32
    | some buf => exact (length_bytesOf buf _).trans_lt hlen.toNat_lt
  have hiff : Atomic pkt (partBytes hbuf hlen) tail (-1, q, t) ↔
      q.len = pkt.len ∧ bytesOf q.data q.len.toNat = bytesOf pkt.data pkt.len.toNat :=
    iff_of_eq (if_neg (by simp))
  rw [hiff, ← partBytes_eq_nil_iff]
  constructor
  · rintro ⟨hlen, -⟩
    have hmod := hq.len
    rw [hlen] at hmod
    exact List.eq_nil_of_length_eq_zero (by omega)
  · intro hnil
    have hlen := hq.len
    have hbytes := hq.bytes
    rw [hnil, List.length_nil, Nat.add_zero] at hlen hbytes
    rw [Nat.mod_eq_of_lt hpkt] at hlen
    exact ⟨UInt32.toNat_inj.mp hlen, hbytes hpkt⟩

/-- **All is in**: the packet carries the bytes if and only if its buffer is large enough. -/
theorem atomic_of_added {head tail : List UInt8} {q q' : EnNetPkt} {m n : UInt32} (t : PktHeap)
    (hq : Added pkt q m head.length (head ++ bytesOf pkt.data pkt.len.toNat))
    (hq' : Added q q' n tail.length (bytesOf q.data q.len.toNat ++ tail)) :
    Atomic pkt head tail (0, q', t) ↔ head.length + pkt.len.toNat + tail.length ≤ n.toNat := by
  have hn := n.toNat_lt
  have hiff : Atomic pkt head tail (0, q', t) ↔
      Carries (q', t) (head ++ bytesOf pkt.data pkt.len.toNat ++ tail) := iff_of_eq (if_pos rfl)
  rw [hiff]
  constructor
  · intro hcarries
    have hlen := congrArg List.length hcarries.bytes
    rw [length_bytesOf, List.length_append, List.length_append, length_bytesOf] at hlen
    rw [← hlen, ← hq'.allocated]
    exact hcarries.len_le
  · intro hle
    -- nothing has wrapped
    have hqlen := hq.len
    rw [Nat.mod_eq_of_lt (by omega)] at hqlen
    have hqlen' := hq'.len
    rw [Nat.mod_eq_of_lt (by omega)] at hqlen'
    refine ⟨?_, ?_⟩
    · show bytesOf q'.data q'.len.toNat = _
      rw [hq'.bytes (by omega), hq.bytes (by omega)]
    · rw [UInt32.le_iff_toNat_le, hq'.allocated, hqlen', hqlen]
      omega

/-- **Adding to both ends, exactly.** For all packets, buffers and outcomes of the allocations,
`pkt_add` is atomic, except when it has put a head into the packet before it runs out of memory, and
when the sizes have wrapped and the buffer is too small. -/
theorem pktAdd_atomic_iff (h : PktHeap) (pkt : EnNetPkt) (hbuf : Option Bytes) (hlen : UInt32)
    (tbuf : Option Bytes) (tlen : UInt32) :
    Atomic pkt (partBytes hbuf hlen) (partBytes tbuf tlen) (pktAdd h pkt hbuf hlen tbuf tlen) ↔
      ¬TailRefused h pkt hbuf hlen tbuf tlen ∧ ¬TooSmall h pkt hbuf hlen tbuf tlen := by
  cases hr : BufRoom.reserve ⟨pkt.allocated, h⟩ (pkt.allocated + hlen + tlen) with
  | none =>
    have hcall : pktAdd h pkt hbuf hlen tbuf tlen = (-1, pkt, h.malloc.2) := by
      rw [pktAdd, pktReserve_of_none hr]
      rfl
    rw [hcall, TailRefused, TooSmall, hr]
    exact iff_of_true ((iff_of_eq (if_neg (by simp))).mpr ⟨rfl, rfl⟩) (by simp)
  | some r =>
    obtain ⟨d, hd, hreserve⟩ := pktReserve_of_some hr
    obtain ⟨p, hp⟩ : ∃ p : EnNetPkt, p = { pkt with allocated := r.size, data := d } := ⟨_, rfl⟩
    have hbytes : bytesOf p.data p.len.toNat = bytesOf pkt.data pkt.len.toNat := by
      rw [hp]
      exact bytesOf_congr hd
    have hhead : BufRoom.reserveFor ⟨p.allocated, r.heap⟩ hbuf hlen = r.reserveFor hbuf hlen := by
      rw [hp]
    have hcall : pktAdd h pkt hbuf hlen tbuf tlen =
        (let (rc, pkt, h) := hbuf.elim (0, p, r.heap) fun buf ↦ pktAddHead r.heap p buf hlen
        if rc ≠ 0 then (rc, pkt, h)
        else tbuf.elim (rc, pkt, h) fun buf ↦ pktAddTail h pkt buf tlen) := by
      rw [pktAdd, hreserve, hp]
      rfl
    have hatomic : ∀ x, Atomic pkt (partBytes hbuf hlen) (partBytes tbuf tlen) x ↔
        Atomic p (partBytes hbuf hlen) (partBytes tbuf tlen) x := by
      intro x
      rw [Atomic, Atomic, hbytes, hp]
    rw [TailRefused, TooSmall, hatomic, hcall, hr]
    cases hs : r.reserveFor hbuf hlen with
    | none =>
      rw [addHeadPart_of_none (hhead.trans hs)]
      exact iff_of_true ((iff_of_eq (if_neg (by simp))).mpr ⟨rfl, rfl⟩) (by simp [hs])
    | some s =>
      obtain ⟨q, hstage, hq⟩ := addHeadPart_of_some (hhead.trans hs)
      have htail : BufRoom.reserveFor ⟨q.allocated, s.heap⟩ tbuf tlen = s.reserveFor tbuf tlen := by
        rw [hq.allocated]
      rw [hstage]
      show Atomic p _ _ (tbuf.elim (0, q, s.heap) fun buf ↦ pktAddTail s.heap q buf tlen) ↔ _
      cases ht : s.reserveFor tbuf tlen with
      | none =>
        rw [addTailPart_of_none (htail.trans ht), atomic_of_refused _ _ hq]
        simp [hs, ht]
      | some t =>
        obtain ⟨q', hstage', hq'⟩ := addTailPart_of_some (htail.trans ht)
        have hlen : p.len = pkt.len := by rw [hp]
        rw [hstage', atomic_of_added _ hq hq', hlen]
        simp [hs, ht]

/-! ## Sizes that fit -/

/-- Without wrapping, there is an allocation for every part that is not empty. -/
theorem BufRoom.reserve_add {r : BufRoom} {n : UInt32} (hfits : r.size.toNat + n.toNat < 2 ^ 32) :
    r.reserve (r.size + n) = if 0 < n then
      if r.heap.mallocs 0 = NULL then none else some ⟨pad (r.size + n), r.heap.malloc.2⟩
    else some r := by
  have hiff : r.size < r.size + n ↔ 0 < n := by
    rw [UInt32.lt_iff_toNat_lt, UInt32.lt_iff_toNat_lt, toNat_add_of_lt hfits, UInt32.toNat_zero]
    omega
  simp only [BufRoom.reserve, hiff]

theorem BufRoom.size_of_reserve_add {r s : BufRoom} {n : UInt32}
    (hfits : r.size.toNat + n.toNat + 3 < 2 ^ 32) (hs : r.reserve (r.size + n) = some s) :
    r.size.toNat + n.toNat ≤ s.size.toNat ∧ s.size.toNat ≤ r.size.toNat + n.toNat + 3 := by
  have hsum := toNat_add_of_lt (a := r.size) (b := n) (by omega)
  rw [BufRoom.reserve_add (by omega)] at hs
  split_ifs at hs with hn hnull
  · obtain rfl := Option.some.inj hs
    show _ ≤ (pad (r.size + n)).toNat ∧ (pad (r.size + n)).toNat ≤ _
    rw [toNat_pad (by omega), hsum]
    omega
  · obtain rfl := Option.some.inj hs
    have hzero : n.toNat = 0 := Nat.eq_zero_of_not_pos hn
    omega

theorem BufRoom.size_of_reserveFor {r s : BufRoom} {buf : Option Bytes} {len : UInt32}
    (hfits : r.size.toNat + len.toNat + 3 < 2 ^ 32) (hs : r.reserveFor buf len = some s) :
    r.size.toNat + (partBytes buf len).length ≤ s.size.toNat ∧
      s.size.toNat ≤ r.size.toNat + len.toNat + 3 := by
  cases buf with
  | none =>
    obtain rfl := Option.some.inj hs
    show r.size.toNat + 0 ≤ _ ∧ _
    omega
  | some buf =>
    have hlen : (partBytes (some buf) len).length = len.toNat := length_bytesOf _ _
    rw [hlen]
    exact BufRoom.size_of_reserve_add hfits hs

/-- The sizes that the three reservations compute fit in 32 bits. -/
def SizesFit (pkt : EnNetPkt) (hlen tlen : UInt32) : Prop :=
  pkt.allocated.toNat + 2 * hlen.toNat + 2 * tlen.toNat + 9 < 2 ^ 32

theorem SizesFit.toNat_add (hfits : SizesFit pkt hlen tlen) :
    (hlen + tlen).toNat = hlen.toNat + tlen.toNat := by
  unfold SizesFit at hfits
  exact toNat_add_of_lt (by omega)

theorem not_tooSmall_of_sizesFit (hfits : SizesFit pkt hlen tlen) (hle : pkt.len ≤ pkt.allocated) :
    ¬TooSmall h pkt hbuf hlen tbuf tlen := by
  rintro ⟨r, s, t, hr, hs, ht, hlt⟩
  have hle : pkt.len.toNat ≤ pkt.allocated.toNat := hle
  have hsum := hfits.toNat_add
  unfold SizesFit at hfits
  rw [UInt32.add_assoc] at hr
  have hrsize := BufRoom.size_of_reserve_add (r := ⟨pkt.allocated, h⟩)
    (by rw [hsum]; dsimp only; omega) hr
  dsimp only at hrsize
  have hssize := BufRoom.size_of_reserveFor (by omega) hs
  have htsize := BufRoom.size_of_reserveFor (by omega) ht
  omega

/-- **With sizes that fit** the tail is refused if and only if neither part is empty, and of the
three allocations the last fails. -/
theorem tailRefused_iff_of_sizesFit (hfits : SizesFit pkt hlen tlen) :
    TailRefused h pkt hbuf hlen tbuf tlen ↔
      (hbuf.isSome ∧ 0 < hlen) ∧ (tbuf.isSome ∧ 0 < tlen) ∧
        h.mallocs 0 ≠ NULL ∧ h.mallocs 1 ≠ NULL ∧ h.mallocs 2 = NULL := by
  have hsum := hfits.toNat_add
  unfold SizesFit at hfits
  rw [TailRefused]
  refine and_congr_right fun ⟨hsome, hpos⟩ ↦ ?_
  obtain ⟨buf, rfl⟩ := Option.isSome_iff_exists.mp hsome
  have hpos' : 0 < hlen + tlen := by
    rw [UInt32.lt_iff_toNat_lt, hsum]
    exact Nat.lt_add_right _ hpos
  have hfirst := BufRoom.reserve_add (r := ⟨pkt.allocated, h⟩) (n := hlen + tlen)
    (by rw [hsum]; dsimp only; omega)
  rw [if_pos hpos', ← UInt32.add_assoc] at hfirst
  dsimp only at hfirst
  constructor
  · rintro ⟨r, s, hr, hs, ht⟩
    have hrsize := BufRoom.size_of_reserve_add (r := ⟨pkt.allocated, h⟩) (n := hlen + tlen)
      (by rw [hsum]; dsimp only; omega) (by rw [← UInt32.add_assoc]; exact hr)
    dsimp only at hrsize
    have hssize := BufRoom.size_of_reserveFor (by omega) hs
    rw [hfirst] at hr
    split_ifs at hr with h0
    obtain rfl := Option.some.inj hr
    have hs' := (BufRoom.reserve_add (r := ⟨pad (pkt.allocated + hlen + tlen), h.malloc.2⟩)
      (by omega)).symm.trans hs
    rw [if_pos hpos] at hs'
    split_ifs at hs' with h1
    obtain rfl := Option.some.inj hs'
    cases tbuf with
    | none => exact absurd ht (Option.some_ne_none _)
    | some tbuf =>
      have ht' := (BufRoom.reserve_add (by omega)).symm.trans ht
      split_ifs at ht' with htpos h2
      exact ⟨⟨rfl, htpos⟩, h0, h1, h2⟩
  · rintro ⟨⟨htsome, htpos⟩, h0, h1, h2⟩
    obtain ⟨tbuf, rfl⟩ := Option.isSome_iff_exists.mp htsome
    rw [if_neg h0] at hfirst
    have hrsize := BufRoom.size_of_reserve_add (r := ⟨pkt.allocated, h⟩) (n := hlen + tlen)
      (by rw [hsum]; dsimp only; omega) (by rw [← UInt32.add_assoc]; exact hfirst)
    dsimp only at hrsize
    have hsecond := BufRoom.reserve_add (r := ⟨pad (pkt.allocated + hlen + tlen), h.malloc.2⟩)
      (n := hlen) (by dsimp only; omega)
    have h1' : h.malloc.2.mallocs 0 ≠ NULL := h1
    rw [if_pos hpos, if_neg h1'] at hsecond
    have hssize := BufRoom.size_of_reserve_add (by dsimp only; omega) hsecond
    dsimp only at hssize
    refine ⟨_, _, hfirst, hsecond, ?_⟩
    have hthird := BufRoom.reserve_add (r := ⟨pad (pad (pkt.allocated + hlen + tlen) + hlen),
      h.malloc.2.malloc.2⟩) (n := tlen) (by dsimp only; omega)
    rw [if_pos htpos] at hthird
    exact hthird.trans (if_pos h2)

end Atomic

/-- The memory for the tail is missing. -/
def tailRefusedHeap : PktHeap := ⟨fun i ↦ if i = 2 then NULL else 0x1000 * (i + 1), fun _ ↦ false⟩

/-- **The head stays in**: a packet of four bytes has six when `pkt_add` has failed. -/
theorem pktAdd_keeps_head : ∃ q t,
    pktAdd tailRefusedHeap ⟨0x1000, fun _ ↦ 1, 4, 4, NULL⟩ (some fun _ ↦ 2) 2 (some fun _ ↦ 3) 2
      = (-1, q, t) ∧ bytesOf q.data q.len.toNat = [2, 2, 1, 1, 1, 1] ∧
    ¬Atomic ⟨0x1000, fun _ ↦ 1, 4, 4, NULL⟩ [2, 2] [3, 3] (-1, q, t) := by
  refine ⟨_, _, rfl, rfl, fun h ↦ ?_⟩
  have hunchanged := (iff_of_eq (if_neg (by simp))).mp h
  exact absurd hunchanged.1 (by decide)

end Ertos
