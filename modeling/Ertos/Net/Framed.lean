import Ertos.Net.Echo

/-!
# Frames on the transmit queue

The bytes of a packet that `en_eth_output` queues: the two MAC addresses and the type, and then what
the packet was. `en_ip_output` puts its header in between. Each header needs a new buffer, and
neither function looks at what `pkt_add_head` returns, so a frame whose header found no memory is
queued without it.
-/

namespace Ertos

/-! ## Bytes on the wire -/

/-- The bytes a packet stands for. -/
def pktBytes (pkt : EnNetPkt) : List UInt8 := bytesOf pkt.data pkt.len.toNat

@[simp] theorem length_pktBytes (pkt : EnNetPkt) : (pktBytes pkt).length = pkt.len.toNat :=
  length_bytesOf _ _

/-- A complete Ethernet header, and what it is the header of. -/
def ethFrame (dst src : MacAddr) (type : UInt16) (rest : List UInt8) : List UInt8 :=
  bytesOf dst 6 ++ bytesOf src 6 ++ [UInt8.ofNat (type.toNat / 256), UInt8.ofNat type.toNat] ++ rest

theorem length_ethFrame (dst src : MacAddr) (type : UInt16) (rest : List UInt8) :
    (ethFrame dst src type rest).length = 14 + rest.length := by
  simp only [ethFrame, List.length_append, length_bytesOf, List.length_cons, List.length_nil]

/-- The header that `en_eth_output` adds. -/
def ethHdr (src dst : MacAddr) (type : UInt16) : Bytes :=
  set16 (setBytes (setBytes (fun _ ↦ 0) 6 src 6) 0 dst 6) 12 (enHtons type)

theorem bytesOf_ethHdr (src dst : MacAddr) (type : UInt16) :
    bytesOf (ethHdr src dst type) 14 = ethFrame dst src type [] := by
  have hlow : ∀ i < 6, ethHdr src dst type i = dst i := by
    intro i hi
    rw [ethHdr, set16_of_ne _ _ _ _ (by omega) (by omega), setBytes, if_pos (by omega),
      Nat.sub_zero]
  have hmid : ∀ i < 6, ethHdr src dst type (6 + i) = src i := by
    intro i hi
    rw [ethHdr, set16_of_ne _ _ _ _ (by omega) (by omega), setBytes, if_neg (by omega), setBytes,
      if_pos (by omega), Nat.add_sub_cancel_left]
  have hlt := type.toNat_lt
  have hswap : (enNtohs type).toNat = type.toNat / 256 + type.toNat % 256 * 256 := by
    rw [toNat_enNtohs, swapWord, Nat.add_comm]
  have hhigh : (type.toNat / 256 + type.toNat % 256 * 256) / 256 = type.toNat % 256 := by
    rw [Nat.add_mul_div_right _ _ (by decide), Nat.div_eq_of_lt (by omega), Nat.zero_add]
  have hfirst : ethHdr src dst type 12 = UInt8.ofNat (type.toNat / 256) := by
    rw [ethHdr, set16, Function.update_of_ne (by decide), Function.update_self, enHtons, hswap]
    refine UInt8.toNat_inj.mp ?_
    rw [UInt8.toNat_ofNat', UInt8.toNat_ofNat']
    omega
  have hsecond : ethHdr src dst type 13 = UInt8.ofNat type.toNat := by
    rw [ethHdr, set16, Function.update_self, enHtons, hswap, hhigh]
    refine UInt8.toNat_inj.mp ?_
    rw [UInt8.toNat_ofNat', UInt8.toNat_ofNat']
    omega
  rw [show 14 = 6 + (6 + 2) from rfl, bytesOf_add, bytesOf_add, bytesOf_congr hlow,
    bytesOf_congr hmid, ethFrame, List.append_nil, List.append_assoc]
  congr 2
  show [ethHdr src dst type 12, ethHdr src dst type 13] = _
  rw [hfirst, hsecond]

theorem Headed.bytes {pkt q : EnNetPkt} {buf : Bytes} {len : UInt32} (h : Headed pkt buf len q)
    (hfits : pkt.len.toNat + len.toNat < 2 ^ 32) :
    pktBytes q = bytesOf buf len.toNat ++ pktBytes pkt := by
  have hlen : q.len.toNat = len.toNat + pkt.len.toNat := by
    rw [h.size, toNat_add_of_lt hfits, Nat.add_comm]
  rw [pktBytes, hlen, bytesOf_add, pktBytes]
  exact congrArg₂ (· ++ ·) (bytesOf_congr h.head) (bytesOf_congr h.rest)

/-- The packet is within its buffer, and two headers can be added to the size of the buffer. -/
structure PktRoom (pkt : EnNetPkt) : Prop where
  len_le : pkt.len ≤ pkt.allocated
  fits : pkt.allocated.toNat + 40 < 2 ^ 32

/-! ## Queueing -/

/-- What a call added to the transmit queues is at most this frame, on this interface. -/
def Queues (n t : Net) (frame : Option (Ptr × List UInt8)) : Prop :=
  ∀ i, ∃ l, t.queue (.tx i) = l ++ n.queue (.tx i) ∧ ∀ q ∈ l, frame = some (i, pktBytes q)

section Queues

variable {n t : Net} {frame : Option (Ptr × List UInt8)}

theorem queues_of_same (h : ∀ i, t.queue (.tx i) = n.queue (.tx i)) : Queues n t frame :=
  fun i ↦ ⟨[], h i, by simp⟩

theorem queues_iff_of_cons {i : Ptr} {q : EnNetPkt} (hq : t.queue (.tx i) = q :: n.queue (.tx i))
    (hother : ∀ j, j ≠ i → t.queue (.tx j) = n.queue (.tx j)) :
    Queues n t frame ↔ frame = some (i, pktBytes q) := by
  constructor
  · intro h
    obtain ⟨l, hl, hframe⟩ := h i
    obtain rfl : [q] = l := List.append_cancel_right (hq.symm.trans hl)
    exact hframe q List.mem_cons_self
  · intro h j
    by_cases hj : j = i
    · subst hj
      refine ⟨[q], hq, fun p hp ↦ ?_⟩
      rw [List.mem_singleton.mp hp]
      exact h
    · exact ⟨[], hother j hj, by simp⟩

end Queues

section Output

variable {n : Net} {pkt : EnNetPkt}

theorem enEthOutput_def (n : Net) (i : Ptr) (pkt : EnNetPkt) (dst : MacAddr) (type : UInt16) :
    enEthOutput n i pkt dst type =
      (n.setHeap
        (pktAddHead n.heap pkt (ethHdr (n.ethIf i).addr dst type) etherHdrSize).2.2).modifyIf i
        fun x ↦ { x with
          txQueue := (pktAddHead n.heap pkt (ethHdr (n.ethIf i).addr dst type) etherHdrSize).2.1 ::
            x.txQueue } := rfl

/-- **Ethernet output** queues the packet with a complete header if there was memory for it, and the
bare packet otherwise. -/
theorem enEthOutput_queued (pkt : EnNetPkt) (hlen : pkt.len.toNat + 14 < 2 ^ 32)
    (hfits : pkt.allocated.toNat + 17 < 2 ^ 32) (i : Ptr) (dst : MacAddr) (type : UInt16) :
    ∃ q, (enEthOutput n i pkt dst type).queue (.tx i) = q :: n.queue (.tx i) ∧
      (∀ j, j ≠ i → (enEthOutput n i pkt dst type).queue (.tx j) = n.queue (.tx j)) ∧
      (n.heap.mallocs 0 = NULL → q = pkt) ∧
      (n.heap.mallocs 0 ≠ NULL →
        pktBytes q = ethFrame dst (n.ethIf i).addr type (pktBytes pkt)) := by
  have hsize : etherHdrSize.toNat = 14 := rfl
  set hdr := ethHdr (n.ethIf i).addr dst type with hhdr
  have hspec := pktAddHead_spec n.heap pkt hdr etherHdrSize (by decide) (by omega)
  obtain ⟨-, -, -, -, -, hother⟩ := enEthOutput_spec n i pkt dst type
  have hqueue : (enEthOutput n i pkt dst type).queue (.tx i) =
      (pktAddHead n.heap pkt hdr etherHdrSize).2.1 :: n.queue (.tx i) := by
    rw [enEthOutput_def]
    exact congrArg EnEthIf.txQueue (Net.ethIf_modifyIf_self _ i _)
  refine ⟨_, hqueue, fun j hj ↦ hother _ fun heq ↦ hj (PktQueue.tx.inj heq), ?_⟩
  generalize pktAddHead n.heap pkt hdr etherHdrSize = r at hspec
  cases hspec with
  | failed hnull => exact ⟨fun _ ↦ rfl, fun h ↦ absurd hnull h⟩
  | ok hnull hq =>
    refine ⟨fun h ↦ absurd h hnull, fun _ ↦ ?_⟩
    rw [hq.bytes (by omega), hsize, hhdr, bytesOf_ethHdr, ethFrame, ethFrame, List.append_nil]

theorem pktBytes_ne_ethFrame (pkt : EnNetPkt) (dst src : MacAddr) (type : UInt16)
    (rest : List UInt8) (h : pkt.len.toNat ≤ rest.length) :
    pktBytes pkt ≠ ethFrame dst src type rest := by
  intro heq
  have hlen := congrArg List.length heq
  rw [length_pktBytes, length_ethFrame] at hlen
  omega

/-- **Ethernet output queues a well-formed frame** if and only if there is memory for the header. -/
theorem queues_enEthOutput_iff (pkt : EnNetPkt) (hlen : pkt.len.toNat + 14 < 2 ^ 32)
    (hfits : pkt.allocated.toNat + 17 < 2 ^ 32) (i : Ptr) (dst : MacAddr) (type : UInt16) :
    Queues n (enEthOutput n i pkt dst type)
        (some (i, ethFrame dst (n.ethIf i).addr type (pktBytes pkt))) ↔
      n.heap.mallocs 0 ≠ NULL := by
  obtain ⟨q, hq, hother, hbare, hframed⟩ := enEthOutput_queued (n := n) pkt hlen hfits i dst type
  rw [queues_iff_of_cons hq hother]
  constructor
  · intro hbytes hnull
    rw [hbare hnull] at hbytes
    have hsame := (Prod.mk.inj (Option.some.inj hbytes)).2
    exact pktBytes_ne_ethFrame pkt _ _ _ _ (length_pktBytes pkt).ge hsame.symm
  · intro hnull
    rw [hframed hnull]

end Output

/-! ## The three calls -/

/-- The calls that put a packet of their own on a transmit queue. -/
inductive OutputCall
  | ipOutput (pkt : EnNetPkt) (dst : UInt32)
  | arpRequest (dev : Ptr) (addr : UInt32)
  | arpInputRequest (pkt : EnNetPkt)

namespace OutputCall

def run (n : Net) : OutputCall → Option Net
  | ipOutput pkt dst => (enIpOutput halfUp n pkt dst).map Prod.snd
  | arpRequest dev addr => some (enArpRequest n dev addr).2
  | arpInputRequest pkt => some (enArpInputRequest n pkt).2

/-- The packet handed in has room. -/
def Room : OutputCall → Prop
  | ipOutput pkt _ => PktRoom pkt
  | arpRequest _ _ => True
  | arpInputRequest pkt => PktRoom pkt

end OutputCall

/-- The address asked for in an ARP request. -/
def arpTarget (pkt : EnNetPkt) : UInt32 := getAddr pkt.data (arpDstProtoOffset pkt.data)

/-- The frame of an ARP request for `addr`. -/
def requestFrame (n : Net) (dev : Ptr) (addr : UInt32) : List UInt8 :=
  ethFrame macAddrBcast (n.ethIf dev).addr ethTypeArp
    (bytesOf (arpRequestData n dev addr fun _ ↦ 0) 40)

/-- The frame of the reply to an ARP request for an address of the interface `i`. -/
def replyFrame (n : Net) (i : Ptr) (pkt : EnNetPkt) : List UInt8 :=
  let d := arpReplyData n i (arpTarget pkt) pkt.data
  ethFrame (fun j ↦ d (arpDstHrdOffset d + j)) (n.ethIf pkt.ethIf).addr ethTypeArp
    (bytesOf (arpSwap d) pkt.len.toNat)

/-- The frame of an IP packet: both headers, and then the payload. -/
def ipFrame (n : Net) (rt : EnIpRoute) (arp : EnArpEntry) (pkt : EnNetPkt) (dst : UInt32) :
    List UInt8 :=
  ethFrame arp.hrdAddr (n.ethIf rt.ethIf).addr ethTypeIpv4
    (bytesOf (ipHdr n rt pkt.len dst) 20 ++ pktBytes pkt)

/-- The well-formed frame that a call may put on a transmit queue. -/
def OutputCall.frame (n : Net) : OutputCall → Option (Ptr × List UInt8)
  | ipOutput pkt dst =>
    match enIpRouteLookup n.routes dst, enArpCacheLookup n.arpCache dst with
    | none, _ => none
    | some rt, none => some (rt.ethIf, requestFrame n rt.ethIf dst)
    | some rt, some arp => some (rt.ethIf, ipFrame n rt arp pkt dst)
  | arpRequest dev addr => some (dev, requestFrame n dev addr)
  | arpInputRequest pkt =>
    match n.owner (arpTarget pkt) with
    | none => none
    | some i => some (pkt.ethIf, replyFrame n i pkt)

/-- A request that gets a packet and a buffer gets a buffer for its header. -/
def RequestFits (h : PktHeap) : Prop :=
  h.mallocs 0 ≠ NULL → h.mallocs 1 ≠ NULL → h.mallocs 2 ≠ NULL

/-- The allocations for the headers of what is queued succeed. -/
def OutputCall.HeadersFit (n : Net) : OutputCall → Prop
  | ipOutput _ dst =>
    match enIpRouteLookup n.routes dst, enArpCacheLookup n.arpCache dst with
    | none, _ => True
    | some _, none => RequestFits n.heap
    | some _, some _ => n.heap.mallocs 0 ≠ NULL ∧ n.heap.mallocs 1 ≠ NULL
  | arpRequest _ _ => RequestFits n.heap
  | arpInputRequest pkt =>
    match n.owner (arpTarget pkt) with
    | none => True
    | some _ => n.heap.mallocs 0 ≠ NULL

section Calls

variable {n : Net} {pkt : EnNetPkt}

/-- The packet of a request, before its header. -/
def requestPkt (n : Net) (dev : Ptr) (addr : UInt32) : EnNetPkt :=
  ⟨n.heap.mallocs 0, arpRequestData n dev addr fun _ ↦ 0, 40, 56, NULL⟩

/-- The allocator when the request has its packet. -/
def PktHeap.afterPkt (h : PktHeap) : PktHeap :=
  ⟨fun i ↦ h.mallocs (i + 2), Function.update h.live (h.mallocs 0) true⟩

theorem pktAlloc_ok {h : PktHeap} {base : UInt32} (h₀ : h.mallocs 0 ≠ NULL)
    (h₁ : h.mallocs 1 ≠ NULL) (hpos : 0 < pad base) :
    pktAlloc h base = (some ⟨h.mallocs 0, fun _ ↦ 0, 0, pad base, NULL⟩, h.afterPkt) := by
  unfold pktAlloc PktHeap.malloc
  dsimp only
  rw [if_neg h₀, if_pos hpos, if_neg h₁]
  rfl

theorem enArpRequest_ok (dev : Ptr) (addr : UInt32) (h₀ : n.heap.mallocs 0 ≠ NULL)
    (h₁ : n.heap.mallocs 1 ≠ NULL) : enArpRequest n dev addr =
      (0, enEthOutput (n.setHeap n.heap.afterPkt) dev (requestPkt n dev addr) macAddrBcast
        ethTypeArp) := by
  unfold enArpRequest
  dsimp only
  rw [pktAlloc_ok h₀ h₁ (by decide)]
  rfl

theorem enArpRequest_failed (dev : Ptr) (addr : UInt32)
    (h : n.heap.mallocs 0 = NULL ∨ n.heap.mallocs 1 = NULL) (q : PktQueue) :
    (enArpRequest n dev addr).2.queue q = n.queue q := by
  have halloc : (pktAlloc n.heap (9 - 1 + 6 * 4 + 4 * 2 + etherHdrSize)).1 = none := by
    unfold pktAlloc PktHeap.malloc
    dsimp only
    by_cases h₀ : n.heap.mallocs 0 = NULL
    · rw [if_pos h₀]
    · rw [if_neg h₀, if_pos (by decide), if_pos (h.resolve_left h₀)]
  unfold enArpRequest
  dsimp only
  generalize pktAlloc n.heap (9 - 1 + 6 * 4 + 4 * 2 + etherHdrSize) = r at halloc
  obtain ⟨p, heap⟩ := r
  obtain rfl : p = none := halloc
  rfl

theorem queues_enArpRequest_iff (dev : Ptr) (addr : UInt32) :
    Queues n (enArpRequest n dev addr).2 (some (dev, requestFrame n dev addr)) ↔
      RequestFits n.heap := by
  by_cases h : n.heap.mallocs 0 = NULL ∨ n.heap.mallocs 1 = NULL
  · refine iff_of_true (queues_of_same fun i ↦ enArpRequest_failed dev addr h (.tx i)) ?_
    intro h₀ h₁
    exact absurd h (not_or.mpr ⟨h₀, h₁⟩)
  · obtain ⟨h₀, h₁⟩ := not_or.mp h
    have hlen : (requestPkt n dev addr).len.toNat + 14 < 2 ^ 32 :=
      show (40 : UInt32).toNat + 14 < 2 ^ 32 by decide
    have hfits : (requestPkt n dev addr).allocated.toNat + 17 < 2 ^ 32 :=
      show (56 : UInt32).toNat + 17 < 2 ^ 32 by decide
    have heth :=
      queues_enEthOutput_iff (n := n.setHeap n.heap.afterPkt) _ hlen hfits dev macAddrBcast
      ethTypeArp
    rw [enArpRequest_ok dev addr h₀ h₁]
    exact heth.trans ⟨fun h₂ _ _ ↦ h₂, fun hfits ↦ hfits h₀ h₁⟩

theorem queues_enArpInputRequest_iff (h : PktRoom pkt) :
    Queues n (enArpInputRequest n pkt).2 ((OutputCall.arpInputRequest pkt).frame n) ↔
      (OutputCall.arpInputRequest pkt).HeadersFit n := by
  have hle : pkt.len.toNat ≤ pkt.allocated.toNat := h.len_le
  have hroom := h.fits
  rw [OutputCall.frame, OutputCall.HeadersFit, enArpInputRequest]
  dsimp only
  rw [← arpTarget]
  cases n.owner (arpTarget pkt) with
  | none => exact iff_of_true (queues_of_same fun _ ↦ rfl) trivial
  | some i =>
    set d := arpReplyData n i (arpTarget pkt) pkt.data with hd
    set reply : EnNetPkt := { pkt with data := arpSwap d } with hreply
    have hlen : reply.len.toNat + 14 < 2 ^ 32 := by
      show pkt.len.toNat + 14 < 2 ^ 32
      omega
    have hfits : reply.allocated.toNat + 17 < 2 ^ 32 := by
      show pkt.allocated.toNat + 17 < 2 ^ 32
      omega
    exact queues_enEthOutput_iff _ hlen hfits pkt.ethIf (fun j ↦ d (arpDstHrdOffset d + j))
      ethTypeArp

/-- **IP output on a hit** needs memory for both headers. -/
theorem queues_ipSend_iff (h : PktRoom pkt) (rt : EnIpRoute) {arp : EnArpEntry} {dst : UInt32}
    (harp : enArpCacheLookup n.arpCache dst = some arp) :
    Queues n (ipSend n rt pkt (ipHdr n rt pkt.len dst) dst)
        (some (rt.ethIf, ipFrame n rt arp pkt dst)) ↔
      n.heap.mallocs 0 ≠ NULL ∧ n.heap.mallocs 1 ≠ NULL := by
  have hle : pkt.len.toNat ≤ pkt.allocated.toNat := h.len_le
  have hroom := h.fits
  have hip : sizeofIpHdr.toNat = 20 := rfl
  have hspec := pktAddHead_spec n.heap pkt (ipHdr n rt pkt.len dst) sizeofIpHdr (by decide)
    (by omega)
  unfold ipSend
  rw [harp]
  dsimp only
  generalize pktAddHead n.heap pkt (ipHdr n rt pkt.len dst) sizeofIpHdr = r at hspec
  cases hspec with
  | failed hnull =>
    -- the packet is put in an Ethernet frame, or queued, without the IP header
    refine iff_of_false (fun hqueues ↦ ?_) fun hboth ↦ hboth.1 hnull
    obtain ⟨q, hq, hother, hbare, hframed⟩ := enEthOutput_queued (n := n.setHeap n.heap.malloc.2)
      pkt (by omega) (by omega) rt.ethIf arp.hrdAddr ethTypeIpv4
    have hlong : (ipFrame n rt arp pkt dst).length = 34 + pkt.len.toNat := by
      rw [ipFrame, length_ethFrame, List.length_append, length_bytesOf, length_pktBytes]
      omega
    have hsame := (queues_iff_of_cons hq hother).mp hqueues
    rw [(Prod.mk.inj (Option.some.inj hsame)).2] at hlong
    by_cases hnull' : (n.setHeap n.heap.malloc.2).heap.mallocs 0 = NULL
    · rw [hbare hnull', length_pktBytes] at hlong
      omega
    · rw [hframed hnull', length_ethFrame, length_pktBytes] at hlong
      omega
  | @ok p hnull hp =>
    have hsize : p.len.toNat = pkt.len.toNat + 20 := by
      rw [hp.size, toNat_add_of_lt (by omega), hip]
    have hroom' := hp.allocated
    have heth := queues_enEthOutput_iff (n := n.setHeap n.heap.malloc.2) p (by omega)
      (by omega) rt.ethIf arp.hrdAddr ethTypeIpv4
    rw [hp.bytes (by omega)] at heth
    exact heth.trans ⟨fun hnull' ↦ ⟨hnull, hnull'⟩, fun hboth ↦ hboth.2⟩

end Calls

/-- **Well-formed frames, exactly.** Each of the three calls ends, and what it put on a transmit
queue is the complete frame, if and only if there was memory for the headers. -/
theorem output_wellFormed_iff (n : Net) (call : OutputCall) (h : call.Room) :
    ∃ t, call.run n = some t ∧ (Queues n t (call.frame n) ↔ call.HeadersFit n) := by
  cases call with
  | ipOutput pkt dst =>
    cases hroute : enIpRouteLookup n.routes dst with
    | none =>
      have hrun : (OutputCall.ipOutput pkt dst).run n = some n := by
        rw [OutputCall.run, enIpOutput, hroute]
        rfl
      refine ⟨n, hrun, ?_⟩
      rw [OutputCall.HeadersFit, hroute]
      exact iff_of_true (queues_of_same fun _ ↦ rfl) trivial
    | some rt =>
      have hrun : (OutputCall.ipOutput pkt dst).run n =
          some (ipSend n rt pkt (ipHdr n rt pkt.len dst) dst) := by
        rw [OutputCall.run, enIpOutput_eq hroute (by decide)]
        rfl
      refine ⟨_, hrun, ?_⟩
      rw [OutputCall.frame, OutputCall.HeadersFit, hroute]
      cases harp : enArpCacheLookup n.arpCache dst with
      | none =>
        have hmiss : ipSend n rt pkt (ipHdr n rt pkt.len dst) dst =
            (enArpRequest n rt.ethIf dst).2 := by
          rw [ipSend, harp]
        rw [hmiss]
        exact queues_enArpRequest_iff rt.ethIf dst
      | some arp => exact queues_ipSend_iff h rt harp
  | arpRequest dev addr => exact ⟨_, rfl, queues_enArpRequest_iff dev addr⟩
  | arpInputRequest pkt => exact ⟨_, rfl, queues_enArpInputRequest_iff h⟩

/-- A packet of eight bytes. -/
def eightPkt : EnNetPkt := ⟨0x5000, fun _ ↦ 7, 8, 8, 0x100⟩

theorem pktRoom_eightPkt : PktRoom eightPkt := ⟨by decide, by decide⟩

theorem output_wellFormed_eight :
    ∃ t, (OutputCall.ipOutput eightPkt 0xC0A80001).run pingNet = some t ∧
    (Queues pingNet t ((OutputCall.ipOutput eightPkt 0xC0A80001).frame pingNet) ↔
      (OutputCall.ipOutput eightPkt 0xC0A80001).HeadersFit pingNet) :=
  output_wellFormed_iff pingNet (.ipOutput eightPkt 0xC0A80001) pktRoom_eightPkt

/-- The network of `pingNet`, out of memory. -/
def fullNet : Net := pingNet.setHeap ⟨fun _ ↦ NULL, fun _ ↦ false⟩

/-- **Out of memory, IP output queues the bare payload**, which is too short for a header. -/
theorem output_bare : ∃ t, (OutputCall.ipOutput eightPkt 0xC0A80001).run fullNet = some t ∧
    t.queue (.tx 0x100) = eightPkt :: fullNet.queue (.tx 0x100) ∧
    (pktBytes eightPkt).length < 14 ∧
    ¬Queues fullNet t ((OutputCall.ipOutput eightPkt 0xC0A80001).frame fullNet) := by
  have hroute : enIpRouteLookup fullNet.routes 0xC0A80001 = some pingRoute := by decide
  have hrun : (OutputCall.ipOutput eightPkt 0xC0A80001).run fullNet =
      some (ipSend fullNet pingRoute eightPkt (ipHdr fullNet pingRoute 8 0xC0A80001)
        0xC0A80001) := by
    rw [OutputCall.run, enIpOutput_eq hroute (by decide)]
    rfl
  refine ⟨_, hrun, rfl, by decide, fun hqueues ↦ ?_⟩
  exact ((queues_ipSend_iff pktRoom_eightPkt pingRoute rfl).mp hqueues).1 rfl

end Ertos
