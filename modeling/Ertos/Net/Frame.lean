import Ertos.Net.Terminate

/-!
# Frames

The two ends of the network code: `en_eth_input` and the receive and transmit tasks of
`net/dll/eth.c`, and the driver of `arch/eth.c`, which puts received frames on the receive queue and
copies frames from the transmit queue into descriptors.

A received packet is with the driver, on a receive queue, in the hand of the receiving task, or on a
transmit queue. `FrameDisposes` says which frames the task frees or answers; it loses the others.
-/

namespace Ertos

open Custody

/-! ## Receiving -/

def enEthInput (bound : ℕ → ℕ) (n : Net) (pkt : EnNetPkt) : Option Net :=
  let type := enNtohs (get16 pkt.data 12)
  let (_, pkt) := pktDelHead pkt etherHdrSize
  if type = ethTypeArp then some (enArpInput n pkt).2
  else if type = ethTypeIpv4 then (enIpInput bound n pkt).map Prod.snd
  else some (n.free pkt)

/-- One turn of the loop of `en_eth_rx_drain`, and whether there was a packet. -/
def enEthRxTurn (bound : ℕ → ℕ) (n : Net) (i : Ptr) : Option (Bool × Net) :=
  match (n.ethIf i).rxQueue with
  | [] => some (false, n)
  | pkt :: l =>
    let n := n.modifyIf i fun x ↦ { x with rxQueue := l }
    if (n.ethIf i).bound = 0 then some (true, n.free pkt)
    else (enEthInput bound n pkt).map fun n ↦ (true, n)

/-- The loop, or `none` if it is still running after that many turns. -/
def enEthRxDrain (bound : ℕ → ℕ) : ℕ → Net → Ptr → Option Net
  | 0, _, _ => none
  | turns + 1, n, i => do
    let (found, n) ← enEthRxTurn bound n i
    if found then enEthRxDrain bound turns n i else some n

def enEthRx (n : Net) (i : Ptr) (pkt : EnNetPkt) : Net :=
  n.modifyIf i fun x ↦ { x with rxQueue := { pkt with ethIf := i } :: x.rxQueue }

def Net.modifyStats (n : Net) (i : Ptr) (f : EnEthStats → EnEthStats) : Net :=
  n.modifyIf i fun x ↦ { x with stats := f x.stats }

/-- What `process_rx_queue` does with one frame. -/
def processRxFrame (n : Net) (dev : Ptr) (frame : Bytes) (len : UInt32) : Net :=
  let n := n.modifyStats dev fun s ↦
    { s with rxFrames := s.rxFrames + 1, rxBytes := s.rxBytes + len }
  if len < 60 then n.modifyStats dev fun s ↦ { s with runts := s.runts + 1 }
  else if 1518 < len then n.modifyStats dev fun s ↦ { s with oversized := s.oversized + 1 }
  else
    match pktAlloc n.heap len with
    | (none, heap) => n.setHeap heap
    | (some pkt, heap) =>
      enEthRx (n.setHeap heap) dev
        { pkt with data := setBytes pkt.data 0 frame len.toNat, len := len }

/-! ## Transmitting -/

def txDescNum : ℕ := 64

/-- Copying a packet into the next descriptor. -/
def Net.fillTxDesc (n : Net) (pkt : EnNetPkt) : Net :=
  let desc : TxDesc :=
    ⟨true, pkt.len % 4096, setBytes (n.txDesc n.next).buf 0 pkt.data pkt.len.toNat⟩
  { n with txDesc := Function.update n.txDesc n.next desc }

/-- Going on to the next descriptor, and telling the hardware. -/
def Net.nextTxDesc (n : Net) : Net :=
  { n with
    next := if txDescNum ≤ n.next + 1 then 0 else n.next + 1
    txdEnq := n.txdEnq + 1 }

def ep9301Xmit (n : Net) (pkt : EnNetPkt) (dev : Ptr) : ℤ × Net :=
  if 1518 < pkt.len then (-1, n)
  else
    let n := (n.fillTxDesc pkt).modifyStats dev fun s ↦
      { s with txFrames := s.txFrames + 1, txBytes := s.txBytes + pkt.len }
    (0, (n.free pkt).nextTxDesc)

/-- One turn of the inner loop of `en_eth_tx_task`. -/
def enEthTxTurn (n : Net) (i : Ptr) : Net :=
  match (n.ethIf i).txQueue with
  | [] => n
  | pkt :: l => (ep9301Xmit (n.modifyIf i fun x ↦ { x with txQueue := l }) pkt i).2

/-- One pass over the interfaces. -/
def enEthTxPass (n : Net) : Net := n.ifs.foldl enEthTxTurn n

/-! ## Custody -/

section Custody

variable {n : Net} {pkt : EnNetPkt}

theorem queue_enEthRx (n : Net) (i : Ptr) (pkt : EnNetPkt) :
    (enEthRx n i pkt).queue (.rx i) = { pkt with ethIf := i } :: n.queue (.rx i) := by
  show ((enEthRx n i pkt).ethIf i).rxQueue = _
  rw [enEthRx, Net.ethIf_modifyIf_self]
  rfl

theorem book_enEthRx (n : Net) (i : Ptr) (pkt : EnNetPkt) :
    (enEthRx n i pkt).book = n.book.put (.rx i) pkt.addr :=
  @Net.book_put n _ _ { pkt with ethIf := i } rfl (queue_enEthRx n i pkt)
    (n.queue_modifyIf_of_tx i fun _ ↦ rfl)

@[simp] theorem Net.heap_modifyStats (n : Net) (i : Ptr) (f : EnEthStats → EnEthStats) :
    (n.modifyStats i f).heap = n.heap := rfl

theorem Net.queue_modifyStats (n : Net) (i : Ptr) (f : EnEthStats → EnEthStats) (q : PktQueue) :
    (n.modifyStats i f).queue q = n.queue q :=
  n.queue_modifyIf i (f := fun x ↦ { x with stats := f x.stats }) (fun _ ↦ rfl) (fun _ ↦ rfl) q

theorem Net.book_modifyStats (n : Net) (i : Ptr) (f : EnEthStats → EnEthStats) :
    (n.modifyStats i f).book = n.book := Net.book_congr rfl (n.queue_modifyStats i f)

theorem queue_ep9301Xmit (n : Net) (pkt : EnNetPkt) (dev : Ptr) (q : PktQueue) :
    (ep9301Xmit n pkt dev).2.queue q = n.queue q := by
  unfold ep9301Xmit
  split_ifs
  · rfl
  · have hsent : ∀ f, (((n.fillTxDesc pkt).modifyStats dev f).free pkt).nextTxDesc.queue q =
        n.queue q := fun f ↦ (n.fillTxDesc pkt).queue_modifyStats dev f q
    exact hsent _

theorem settled_ipSend {dst : UInt32} (h : n.book.Bears pkt.addr) (hfresh : n.heap.Fresh)
    (rt : EnIpRoute) (hdr : Bytes) : (ipSend n rt pkt hdr dst).book.Settled pkt.addr
      (enArpCacheLookup n.arpCache dst ≠ none) := by
  unfold ipSend
  cases enArpCacheLookup n.arpCache dst with
  | none => exact (settled_enArpRequest h hfresh rt.ethIf dst).of_iff (by simp)
  | some arp =>
    obtain ⟨haddr, -, hlive⟩ := pktAddHead_frame n.heap pkt hdr sizeofIpHdr
    dsimp only
    rw [book_enEthOutput, haddr, Net.book_setHeap n hlive]
    exact (h.put _).of_iff (by simp)

/-- **IP output disposes of a packet when there is a route and an ARP entry.** -/
theorem settled_enIpOutput {bound : ℕ → ℕ} {dst : UInt32} {rc : ℤ} {t : Net}
    (h : n.book.Bears pkt.addr) (hfresh : n.heap.Fresh)
    (hrun : enIpOutput bound n pkt dst = some (rc, t)) :
    t.book.Settled pkt.addr (Reaches n.routes n.arpCache dst) := by
  rcases enIpOutput_some hrun with ⟨hroute, rfl⟩ | ⟨rt, hdr, hroute, rfl⟩
  · exact h.forget.of_iff (iff_of_false id fun hr ↦ hr.route hroute)
  · refine (settled_ipSend h hfresh rt hdr).of_iff ⟨fun harp ↦ ⟨?_, harp⟩, Reaches.arp⟩
    rw [hroute]
    exact Option.some_ne_none rt

theorem settled_free (h : n.book.Bears pkt.addr) : (n.free pkt).book.Settled pkt.addr True := by
  rw [Net.book_free]
  exact h.release

theorem settled_enUdpInput (h : n.book.Bears pkt.addr) :
    (enUdpInput n pkt).2.book.Settled pkt.addr True := by
  unfold enUdpInput
  dsimp only
  split_ifs <;> exact settled_free h

theorem addr_echoReply : (echoReply pkt).addr = pkt.addr := addr_pktDelHead _ _

theorem settled_enIcmpInput {bound : ℕ → ℕ} {rc : ℤ} {t : Net} (h : n.book.Bears pkt.addr)
    (hfresh : n.heap.Fresh) (hihl : 5 ≤ ipIhl pkt.data)
    (hrun : enIcmpInput bound n pkt = some (rc, t)) :
    t.book.Settled pkt.addr
      (EchoRequest pkt → Reaches n.routes n.arpCache (ipSrc pkt.data)) := by
  by_cases hends : CksumEnds bound (pkt.len - ipIhl pkt.data * 4)
  · rcases enIcmpInput_ends (n := n) hihl hends with ⟨hecho, heq⟩ | ⟨hecho, rc', heq⟩
    · rw [heq] at hrun
      obtain ⟨⟨rc', t'⟩, hout, ht⟩ := Option.bind_eq_some_iff.mp hrun
      obtain rfl : t' = t := (Prod.mk.inj (Option.some.inj ht)).2
      have hreply : n.book.Bears (echoReply pkt).addr := by
        rw [addr_echoReply]
        exact h
      have hsettled := settled_enIpOutput hreply hfresh hout
      rw [addr_echoReply] at hsettled
      exact hsettled.of_iff ⟨fun hr _ ↦ hr, fun hr ↦ hr hecho⟩
    · rw [heq] at hrun
      obtain rfl := (Prod.mk.inj (Option.some.inj hrun)).2
      exact (settled_free h).of_iff (iff_of_true trivial fun hreq ↦ absurd hreq hecho)
  · rw [enIcmpInput_not_ends hends] at hrun
    exact absurd hrun (Option.some_ne_none _).symm

/-- The IP packets that are freed or sent on: of the accepted ones the UDP packets, and the ICMP
packets other than echo requests from a host that no reply can be sent to. -/
def IpDisposes (n : Net) (pkt : EnNetPkt) : Prop :=
  IpAccepted pkt ∧ (ipProto pkt.data = ipProtoUdp ∨ ipProto pkt.data = ipProtoIcmp ∧
    (EchoRequest (hostPkt pkt) →
      Reaches n.routes n.arpCache (enNtohl (get32 pkt.data 12))))

theorem settled_ipDispatch {bound : ℕ → ℕ} {rc : ℤ} {t : Net} (h : n.book.Bears pkt.addr)
    (hfresh : n.heap.Fresh) (hacc : IpAccepted pkt)
    (hrun : ipDispatch bound n (hostPkt pkt) = some (rc, t)) :
    t.book.Settled pkt.addr (IpDisposes n pkt) := by
  have hproto : ipProto (hostPkt pkt).data = ipProto pkt.data := ipProto_ipToHost pkt.data
  have hihl : ipIhl (hostPkt pkt).data = ipIhl pkt.data := ipIhl_ipToHost pkt.data
  have hsrc : ipSrc (hostPkt pkt).data = enNtohl (get32 pkt.data 12) := ipSrc_ipToHost pkt.data
  have hne : ipProtoIcmp ≠ ipProtoUdp := by decide
  have hhost : n.book.Bears (hostPkt pkt).addr := h
  rw [ipDispatch, hproto] at hrun
  split_ifs at hrun with hicmp hudp
  · obtain ⟨⟨rc', t'⟩, hin, ht⟩ := Option.bind_eq_some_iff.mp hrun
    obtain rfl : t' = t := (Prod.mk.inj (Option.some.inj ht)).2
    refine (settled_enIcmpInput hhost hfresh (hihl ▸ hacc.ihl) hin).of_iff ?_
    rw [hsrc, IpDisposes, hicmp]
    simp [hacc, hne]
  · obtain rfl := (Prod.mk.inj (Option.some.inj hrun)).2
    exact (settled_enUdpInput hhost).of_iff (iff_of_true trivial ⟨hacc, Or.inl hudp⟩)
  · obtain rfl := (Prod.mk.inj (Option.some.inj hrun)).2
    exact h.forget.of_iff (iff_of_false id fun hd ↦ hd.2.elim hudp fun hd ↦ hicmp hd.1)

/-- **IP input** disposes of these packets only. -/
theorem settled_enIpInput {bound : ℕ → ℕ} {rc : ℤ} {t : Net} (h : n.book.Bears pkt.addr)
    (hfresh : n.heap.Fresh) (hrun : enIpInput bound n pkt = some (rc, t)) :
    t.book.Settled pkt.addr (IpDisposes n pkt) := by
  by_cases hacc : IpAccepted pkt
  · rw [enIpInput_accepted hacc] at hrun
    split_ifs at hrun
    exact settled_ipDispatch h hfresh hacc hrun
  · obtain rfl := enIpInput_rejected hacc hrun
    exact h.forget.of_iff (iff_of_false id fun hd ↦ hacc hd.1)

/-- The packet in a frame. -/
def payload (pkt : EnNetPkt) : EnNetPkt := (pktDelHead pkt etherHdrSize).2

/-- The frames that are freed or answered. -/
def FrameDisposes (n : Net) (pkt : EnNetPkt) : Prop :=
  if enNtohs (get16 pkt.data 12) = ethTypeArp then ArpWellFormed (payload pkt)
  else if enNtohs (get16 pkt.data 12) = ethTypeIpv4 then IpDisposes n (payload pkt)
  else True

/-- **Ethernet input** disposes of these frames only. -/
theorem settled_enEthInput {bound : ℕ → ℕ} {t : Net} (h : n.book.Bears pkt.addr)
    (hfresh : n.heap.Fresh) (hrun : enEthInput bound n pkt = some t) :
    t.book.Settled pkt.addr (FrameDisposes n pkt) := by
  have haddr : (payload pkt).addr = pkt.addr := addr_pktDelHead _ _
  have hpayload : n.book.Bears (payload pkt).addr := haddr ▸ h
  have hdef : enEthInput bound n pkt =
      if enNtohs (get16 pkt.data 12) = ethTypeArp then some (enArpInput n (payload pkt)).2
      else if enNtohs (get16 pkt.data 12) = ethTypeIpv4 then
        (enIpInput bound n (payload pkt)).map Prod.snd
      else some (n.free (payload pkt)) := rfl
  rw [hdef] at hrun
  rw [FrameDisposes, ← haddr]
  split_ifs at hrun ⊢
  · obtain rfl := Option.some.inj hrun
    exact settled_enArpInput hpayload
  · obtain ⟨⟨rc, t'⟩, hin, rfl⟩ := Option.map_eq_some_iff.mp hrun
    exact settled_enIpInput hpayload hfresh hin
  · obtain rfl := Option.some.inj hrun
    exact settled_free hpayload

end Custody

end Ertos
