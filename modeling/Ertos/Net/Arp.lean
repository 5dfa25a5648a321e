import Ertos.Net.Eth

/-!
# ARP

`net/dll/arp.c`: the cache, requests, and the handling of ARP packets. A packet that is well formed
is answered or freed. One that `en_arp_input` rejects leaves by `goto out`, past every `pkt_free`.
-/

namespace Ertos

open Custody

def arpOpRequest : UInt16 := 1

def arpOpReply : UInt16 := 2

def arpHrdEthernet : UInt16 := 1

/-- The offset of `data` in `struct en_arp_pkt`. -/
def arpDataOffset : ℕ := 8

/-! ## Fields -/

def arpHlen (d : Bytes) : ℕ := (d 4).toNat

def arpPlen (d : Bytes) : ℕ := (d 5).toNat

def arpSrcHrdOffset (_ : Bytes) : ℕ := arpDataOffset

def arpSrcProtoOffset (d : Bytes) : ℕ := arpDataOffset + arpHlen d

def arpDstHrdOffset (d : Bytes) : ℕ := arpDataOffset + (arpHlen d + arpPlen d)

def arpDstProtoOffset (d : Bytes) : ℕ := arpDataOffset + (arpHlen d * 2 + arpPlen d)

/-- Four bytes, the most significant first. -/
def getAddr (d : Bytes) (i : ℕ) : UInt32 :=
  ((d i).toUInt32 <<< 24) ||| ((d (i + 1)).toUInt32 <<< 16) ||| ((d (i + 2)).toUInt32 <<< 8) |||
    (d (i + 3)).toUInt32

/-! ## Cache and requests -/

def enArpCacheLookup (cache : List EnArpEntry) (addr : UInt32) : Option EnArpEntry :=
  cache.find? (·.protoAddr = addr)

def enArpCacheAdd (n : Net) (e : EnArpEntry) : Net :=
  { n with arpCache := { e with created := n.clkticks } :: n.arpCache }

def macAddrBcast : MacAddr := fun _ ↦ 0xFF

/-- The request for `addr` that the interface `dev` sends, without its Ethernet header. -/
def arpRequestData (n : Net) (dev : Ptr) (addr : UInt32) (d : Bytes) : Bytes :=
  let d := set16 d 0 (enHtons arpHrdEthernet)
  let d := set16 d 2 (enHtons ethTypeIpv4)
  let d := Function.update d 4 6
  let d := Function.update d 5 4
  let d := set16 d 6 (enHtons arpOpRequest)
  let d := setBytes d (arpDstHrdOffset d) (fun _ ↦ 0xFF) 6
  let d := setBytes d (arpSrcHrdOffset d) (n.ethIf dev).addr 6
  let d := set32 d (arpDstProtoOffset d) (enNtohl addr)
  set32 d (arpSrcProtoOffset d) (enNtohl (n.firstAddr dev))

def enArpRequest (n : Net) (dev : Ptr) (addr : UInt32) : ℤ × Net :=
  let arpsz : UInt32 := 9 - 1 + 6 * 4 + 4 * 2
  match pktAlloc n.heap (arpsz + etherHdrSize) with
  | (none, heap) => (-1, n.setHeap heap)
  | (some pkt, heap) =>
    let n := n.setHeap heap
    let pkt := { pkt with data := arpRequestData n dev addr pkt.data, len := arpsz }
    (0, enEthOutput n dev pkt macAddrBcast ethTypeArp)

/-! ## Input -/

/-- The interface that has the address, the first one on the list. -/
def Net.owner (n : Net) (addr : UInt32) : Option Ptr :=
  n.ifs.find? fun i ↦ (enEthIpLookup (n.ethIf i) addr).isSome

/-- A request made into the reply of the interface `i`, still in host byte order. -/
def arpReplyData (n : Net) (i : Ptr) (addr : UInt32) (d : Bytes) : Bytes :=
  let d := set16 d 6 arpOpReply
  let d := setBytes d (arpDstHrdOffset d) (fun j ↦ d (arpSrcHrdOffset d + j)) (arpHlen d)
  let d := setBytes d (arpDstProtoOffset d) (fun j ↦ d (arpSrcProtoOffset d + j)) (arpPlen d)
  let d := setBytes d (arpSrcHrdOffset d) (n.ethIf i).addr (arpHlen d)
  set32 d (arpSrcProtoOffset d) (enHtonl addr)

/-- The byte order of the three header fields; the conversion is its own inverse. -/
def arpSwap (d : Bytes) : Bytes :=
  let d := set16 d 0 (enNtohs (get16 d 0))
  let d := set16 d 2 (enNtohs (get16 d 2))
  set16 d 6 (enNtohs (get16 d 6))

def enArpInputRequest (n : Net) (pkt : EnNetPkt) : ℤ × Net :=
  let addr := getAddr pkt.data (arpDstProtoOffset pkt.data)
  match n.owner addr with
  | some i =>
    let d := arpReplyData n i addr pkt.data
    let mac : MacAddr := fun j ↦ d (arpDstHrdOffset d + j)
    (0, enEthOutput n pkt.ethIf { pkt with data := arpSwap d } mac ethTypeArp)
  | none => (0, n.free pkt)

def enArpInputReply (n : Net) (pkt : EnNetPkt) : ℤ × Net :=
  let d := pkt.data
  let e : EnArpEntry :=
    ⟨fun j ↦ d (arpSrcHrdOffset d + j), enNtohl (get32 d (arpSrcProtoOffset d)), 0⟩
  match enArpCacheLookup n.arpCache e.protoAddr with
  | none =>
    let (p, heap) := n.heap.malloc
    let n := n.setHeap heap
    if p = NULL then (-1, n.free pkt)
    else
      let n := enArpCacheAdd n e
      (0, n.free pkt)
  | some _ => (0, n.free pkt)

def enArpInput (n : Net) (pkt : EnNetPkt) : ℤ × Net :=
  let pkt := { pkt with data := arpSwap pkt.data }
  let d := pkt.data
  if pkt.len < 9 - 1 + (d 4).toUInt32 * 2 + (d 5).toUInt32 * 2 then (-1, n)
  else if get16 d 0 ≠ arpHrdEthernet then (-2, n)
  else if get16 d 2 ≠ ethTypeIpv4 then (-2, n)
  else if d 4 ≠ 6 ∨ d 5 ≠ 4 then (-1, n)
  else if get16 d 6 = arpOpRequest then (0, (enArpInputRequest n pkt).2)
  else if get16 d 6 = arpOpReply then (0, (enArpInputReply n pkt).2)
  else (0, n.free pkt)

/-! ## Custody -/

section Custody

variable {n : Net} {pkt : EnNetPkt}

/-- `malloc` does not hand out a packet that is in use. -/
def PktHeap.Fresh (h : PktHeap) : Prop := ∀ i, h.mallocs i ≠ NULL → h.live (h.mallocs i) = false

theorem settled_enArpRequest {x : Ptr} (h : n.book.Bears x) (hfresh : n.heap.Fresh) (dev : Ptr)
    (addr : UInt32) : (enArpRequest n dev addr).2.book.Settled x False := by
  have hspec := pktAlloc_spec n.heap (9 - 1 + 6 * 4 + 4 * 2 + etherHdrSize)
  unfold enArpRequest
  dsimp only
  generalize pktAlloc n.heap (9 - 1 + 6 * 4 + 4 * 2 + etherHdrSize) = r at hspec
  cases hspec with
  | failed hlive =>
    dsimp only
    rw [Net.book_setHeap n hlive]
    exact h.forget
  | @ok q heap hnull haddr hlive =>
    dsimp only
    have hnew : n.heap.live q.addr = false := by
      rw [haddr]
      exact hfresh 0 hnull
    rw [book_enEthOutput, Net.book_setHeap_alloc n hlive]
    exact h.acquire_put (fun hq ↦ by simp [Net.book, hnew] at hq) _

theorem settled_enArpInputRequest (h : n.book.Bears pkt.addr) :
    (enArpInputRequest n pkt).2.book.Settled pkt.addr True := by
  unfold enArpInputRequest
  dsimp only
  cases n.owner (getAddr pkt.data (arpDstProtoOffset pkt.data)) with
  | some i =>
    dsimp only
    rw [book_enEthOutput]
    exact h.put _
  | none =>
    dsimp only
    rw [Net.book_free]
    exact h.release

theorem settled_enArpInputReply (h : n.book.Bears pkt.addr) :
    (enArpInputReply n pkt).2.book.Settled pkt.addr True := by
  -- whatever becomes of the cache, the packet is freed
  have hfree : ∀ t : Net, t.book = n.book → (t.free pkt).book.Settled pkt.addr True := by
    intro t ht
    rw [Net.book_free, ht]
    exact h.release
  have hmalloc : (n.setHeap n.heap.malloc.2).book = n.book := Net.book_setHeap n rfl
  unfold enArpInputReply
  dsimp only
  cases enArpCacheLookup n.arpCache _ with
  | none =>
    dsimp only
    split_ifs
    · exact hfree _ hmalloc
    · exact hfree _ ((Net.book_congr rfl fun _ ↦ rfl).trans hmalloc)
  | some e => exact hfree n rfl

theorem arpSwap_fields (d : Bytes) : get16 (arpSwap d) 0 = enNtohs (get16 d 0) ∧
    get16 (arpSwap d) 2 = enNtohs (get16 d 2) ∧ arpSwap d 4 = d 4 ∧ arpSwap d 5 = d 5 := by
  unfold arpSwap
  dsimp only
  refine ⟨?_, ?_, ?_, ?_⟩
  · rw [get16_set16_of_ne _ _ _ _ (by decide), get16_set16_of_ne _ _ _ _ (by decide), get16_set16]
  · rw [get16_set16_of_ne _ _ _ _ (by decide), get16_set16,
      get16_set16_of_ne _ _ _ _ (by decide)]
  · rw [set16_of_ne _ _ _ _ (by decide) (by decide), set16_of_ne _ _ _ _ (by decide) (by decide),
      set16_of_ne _ _ _ _ (by decide) (by decide)]
  · rw [set16_of_ne _ _ _ _ (by decide) (by decide), set16_of_ne _ _ _ _ (by decide) (by decide),
      set16_of_ne _ _ _ _ (by decide) (by decide)]

/-- An ARP packet for Ethernet and IPv4. -/
structure ArpWellFormed (pkt : EnNetPkt) : Prop where
  len : 28 ≤ pkt.len
  hrd : enNtohs (get16 pkt.data 0) = arpHrdEthernet
  proto : enNtohs (get16 pkt.data 2) = ethTypeIpv4
  hlen : pkt.data 4 = 6
  plen : pkt.data 5 = 4

/-- **ARP input disposes of well-formed packets only.** -/
theorem settled_enArpInput (h : n.book.Bears pkt.addr) :
    (enArpInput n pkt).2.book.Settled pkt.addr (ArpWellFormed pkt) := by
  obtain ⟨hhrd, hproto, hhlen, hplen⟩ := arpSwap_fields pkt.data
  have hreject : ¬ArpWellFormed pkt → n.book.Settled pkt.addr (ArpWellFormed pkt) :=
    fun hbad ↦ h.forget.of_iff (iff_of_false id hbad)
  have hswap : n.book.Bears ({ pkt with data := arpSwap pkt.data } : EnNetPkt).addr := h
  unfold enArpInput
  dsimp only
  split_ifs with hlen h₁ h₂ h₃ hreq hrep
  · refine hreject fun hwf ↦ ?_
    rw [hhlen, hplen, hwf.hlen, hwf.plen] at hlen
    exact absurd hwf.len (UInt32.not_le.mpr hlen)
  · exact hreject fun hwf ↦ h₁ (hhrd.trans hwf.hrd)
  · exact hreject fun hwf ↦ h₂ (hproto.trans hwf.proto)
  · exact hreject fun hwf ↦ h₃.elim (· (hhlen.trans hwf.hlen)) (· (hplen.trans hwf.plen))
  all_goals
    have hwf : ArpWellFormed pkt := by
      rw [not_or, not_not, not_not] at h₃
      rw [h₃.1, h₃.2] at hlen
      exact ⟨UInt32.not_lt.mp hlen, hhrd.symm.trans (not_not.mp h₁),
        hproto.symm.trans (not_not.mp h₂), hhlen.symm.trans h₃.1, hplen.symm.trans h₃.2⟩
  · exact (settled_enArpInputRequest hswap).of_iff (iff_of_true trivial hwf)
  · exact (settled_enArpInputReply hswap).of_iff (iff_of_true trivial hwf)
  · rw [Net.book_free]
    exact h.release.of_iff (iff_of_true trivial hwf)

end Custody

end Ertos
