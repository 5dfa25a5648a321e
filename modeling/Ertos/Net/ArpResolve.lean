import Ertos.Net.ArpMsg
import Ertos.Net.Frame

/-!
# ARP resolution

Two hosts that run this code. One asks for the hardware address of an IP address, the other answers
if it has the address, and the first one then knows it.

On the way a frame is padded, and the receiver has it in a buffer of its own; only its bytes are the
same. `Arrives pkt l` is a packet with these bytes.
-/

namespace Ertos

/-! ## Received frames -/

theorem eq_of_bytesOf {d d' : Bytes} {n : ℕ} (h : bytesOf d n = bytesOf d' n) :
    ∀ i < n, d i = d' i := by
  intro i hi
  have hget := congrArg (fun l ↦ l[i]?) h
  simpa only [bytesOf, List.getElem?_map, List.getElem?_range hi, Option.map_some,
    Option.some.injEq] using hget

theorem eq_of_pktBytes {pkt : EnNetPkt} {d : Bytes} {n : ℕ} {l : List UInt8}
    (h : pktBytes pkt = bytesOf d n ++ l) : ∀ i < n, pkt.data i = d i := by
  have hlen := congrArg List.length h
  rw [length_pktBytes, List.length_append, length_bytesOf] at hlen
  rw [pktBytes, hlen, bytesOf_add] at h
  exact eq_of_bytesOf (List.append_inj_left h (by rw [length_bytesOf, length_bytesOf]))

theorem ethFrame_eq (dst src : MacAddr) (type : UInt16) (rest : List UInt8) :
    ethFrame dst src type rest = bytesOf (ethHdr src dst type) 14 ++ rest := by
  rw [bytesOf_ethHdr, ethFrame, ethFrame, List.append_nil]

section Frame

variable {pkt : EnNetPkt} {dst src : MacAddr} {type : UInt16} {rest : List UInt8}
  (h : pktBytes pkt = ethFrame dst src type rest)

include h

theorem type_of_pktBytes : enNtohs (get16 pkt.data 12) = type := by
  have hhdr := eq_of_pktBytes (h.trans (ethFrame_eq dst src type rest))
  rw [get16_congr (hhdr 12 (by decide)) (hhdr 13 (by decide)), ethHdr, get16_set16, enHtons,
    enNtohs_enNtohs]

theorem pktBytes_payload : pktBytes (payload pkt) = rest := by
  have hsize : etherHdrSize.toNat = 14 := rfl
  have hlen := congrArg List.length h
  rw [length_pktBytes, length_ethFrame] at hlen
  have hle : etherHdrSize.toNat ≤ pkt.len.toNat := by omega
  have hsub : (pkt.len - etherHdrSize).toNat = pkt.len.toNat - etherHdrSize.toNat :=
    UInt32.toNat_sub_of_le _ _ hle
  have hdrop : pktBytes (payload pkt) = (pktBytes pkt).drop etherHdrSize.toNat := by
    rw [payload, pktDelHead, if_neg (UInt32.not_lt.mpr hle), pktBytes, pktBytes, hsub]
    exact bytesOf_drop pkt.data hle
  rw [hdrop, h, ethFrame_eq]
  exact List.drop_left' (length_bytesOf _ _)

theorem enEthInput_arp (bound : ℕ → ℕ) (n : Net) (htype : type = ethTypeArp) :
    enEthInput bound n pkt = some (enArpInput n (payload pkt)).2 := by
  unfold enEthInput
  dsimp only
  rw [type_of_pktBytes h, if_pos htype]
  rfl

end Frame

theorem payload_frame (pkt : EnNetPkt) : (payload pkt).ethIf = pkt.ethIf ∧
    (payload pkt).allocated = pkt.allocated := by
  unfold payload pktDelHead
  split_ifs <;> exact ⟨rfl, rfl⟩

/-- A packet that carries these bytes. -/
structure Arrives (pkt : EnNetPkt) (l : List UInt8) : Prop where
  bytes : pktBytes pkt = l
  room : PktRoom pkt

theorem arrives_processRxFrame {n : Net} (dev : Ptr) (frame : Bytes) {len : UInt32}
    (hmin : 60 ≤ len) (hmax : len ≤ 1518) (hmem : ∀ i, n.heap.mallocs i ≠ NULL) :
    ∃ pkt, (processRxFrame n dev frame len).queue (.rx dev) = pkt :: n.queue (.rx dev) ∧
      Arrives pkt (bytesOf frame len.toNat) ∧ pkt.ethIf = dev := by
  have hmin' : 60 ≤ len.toNat := hmin
  have hmax' : len.toNat ≤ 1518 := hmax
  have hpad : (pad len).toNat = (len.toNat + 3) / 4 * 4 := toNat_pad (by omega)
  have hpos : 0 < pad len := by
    show 0 < (pad len).toNat
    omega
  have hle : len.toNat ≤ (pad len).toNat := by omega
  have hroom : (pad len).toNat + 40 < 2 ^ 32 := by omega
  unfold processRxFrame
  dsimp only
  rw [if_neg (UInt32.not_lt.mpr hmin), if_neg (UInt32.not_lt.mpr hmax), Net.heap_modifyStats,
    pktAlloc_ok (hmem 0) (hmem 1) hpos]
  dsimp only
  refine ⟨⟨n.heap.mallocs 0, setBytes (fun _ ↦ 0) 0 frame len.toNat, len, pad len, dev⟩, ?_,
    ⟨?_, hle, hroom⟩, rfl⟩
  · refine (queue_enEthRx _ _ _).trans (congrArg (_ :: ·) ?_)
    exact n.queue_modifyStats dev
      (fun s ↦ { s with rxFrames := s.rxFrames + 1, rxBytes := s.rxBytes + len }) (.rx dev)
  · refine bytesOf_congr fun i hi ↦ ?_
    have hi' : i < len.toNat := hi
    dsimp only
    rw [setBytes, if_pos (by omega), Nat.sub_zero]

/-! ## Two hosts -/

/-- The padding to the least size of a frame. -/
def padded (l : List UInt8) : List UInt8 := l ++ List.replicate (60 - l.length) 0

/-- The packet is added to the transmit queue of this interface, and nothing to the others. -/
def Sends (n t : Net) (i : Ptr) (pkt : EnNetPkt) : Prop :=
  t.queue (.tx i) = pkt :: n.queue (.tx i) ∧ ∀ j, j ≠ i → t.queue (.tx j) = n.queue (.tx j)

/-- The first six bytes of a frame. -/
def AddressedTo (pkt : EnNetPkt) (mac : MacAddr) : Prop := (pktBytes pkt).take 6 = bytesOf mac 6

/-- One of the interfaces has the address. -/
def Assigned (n : Net) (addr : UInt32) : Prop := ∃ i ∈ n.ifs, addr ∈ (n.ethIf i).ipAddrs

/-- The interface has the address, and those before it on the list have not. -/
def FirstOwner (n : Net) (addr : UInt32) (i : Ptr) : Prop :=
  addr ∈ (n.ethIf i).ipAddrs ∧
    ∃ l l', n.ifs = l ++ i :: l' ∧ ∀ j ∈ l, addr ∉ (n.ethIf j).ipAddrs

/-- What a successful resolution leaves in the cache. -/
def Resolves (n : Net) (addr : UInt32) (mac : MacAddr) : Prop :=
  ∃ e, enArpCacheLookup n.arpCache addr = some e ∧ bytesOf e.hrdAddr 6 = bytesOf mac 6

section Owner

variable {n : Net} {addr : UInt32}

theorem isSome_enEthIpLookup (x : EnEthIf) :
    (enEthIpLookup x addr).isSome ↔ addr ∈ x.ipAddrs := by
  rw [enEthIpLookup, List.find?_isSome]
  constructor
  · rintro ⟨a, ha, heq⟩
    rwa [of_decide_eq_true heq]
  · intro h
    exact ⟨addr, h, decide_eq_true rfl⟩

theorem firstOwner_of_owner {i : Ptr} (h : n.owner addr = some i) : FirstOwner n addr i := by
  obtain ⟨hi, l, l', hl, hnot⟩ := List.find?_eq_some_iff_append.mp h
  refine ⟨(isSome_enEthIpLookup _).mp hi, l, l', hl, fun j hj hmem ↦ ?_⟩
  have hj' := hnot j hj
  rw [(isSome_enEthIpLookup _).mpr hmem] at hj'
  exact Bool.noConfusion hj'

theorem FirstOwner.assigned {i : Ptr} (h : FirstOwner n addr i) : Assigned n addr := by
  obtain ⟨hi, l, l', hl, -⟩ := h
  exact ⟨i, hl ▸ List.mem_append_right l List.mem_cons_self, hi⟩

theorem not_assigned_of_owner (h : n.owner addr = none) : ¬Assigned n addr := by
  rintro ⟨i, hi, hmem⟩
  exact List.find?_eq_none.mp h i hi ((isSome_enEthIpLookup _).mpr hmem)

end Owner

/-- The message of a request. -/
def requestMsg (n : Net) (dev : Ptr) (addr : UInt32) : ArpMsg :=
  ⟨arpOpRequest, (n.ethIf dev).addr, n.firstAddr dev, fun _ ↦ 0xFF, addr⟩

section Resolve

variable {n : Net} {pkt : EnNetPkt}

theorem sends_enEthOutput (pkt : EnNetPkt) (hmem : ∀ i, n.heap.mallocs i ≠ NULL)
    (hlen : pkt.len.toNat + 14 < 2 ^ 32) (hfits : pkt.allocated.toNat + 17 < 2 ^ 32)
    (i : Ptr) (dst : MacAddr) (type : UInt16) :
    ∃ q, Sends n (enEthOutput n i pkt dst type) i q ∧
      pktBytes q = ethFrame dst (n.ethIf i).addr type (pktBytes pkt) := by
  obtain ⟨q, hq, hother, -, hframed⟩ := enEthOutput_queued (n := n) pkt hlen hfits i dst type
  exact ⟨q, ⟨hq, hother⟩, hframed (hmem 0)⟩

theorem sends_enArpRequest (hmem : ∀ i, n.heap.mallocs i ≠ NULL) (dev : Ptr) (addr : UInt32) :
    ∃ q, Sends n (enArpRequest n dev addr).2 dev q ∧ pktBytes q = requestFrame n dev addr := by
  have hlen : (requestPkt n dev addr).len.toNat + 14 < 2 ^ 32 :=
    show (40 : UInt32).toNat + 14 < 2 ^ 32 by decide
  have hfits : (requestPkt n dev addr).allocated.toNat + 17 < 2 ^ 32 :=
    show (56 : UInt32).toNat + 17 < 2 ^ 32 by decide
  rw [enArpRequest_ok dev addr (hmem 0) (hmem 1)]
  exact sends_enEthOutput (n := n.setHeap n.heap.afterPkt) _ (fun i ↦ hmem (i + 2)) hlen hfits dev
    macAddrBcast ethTypeArp

/-- A packet that says this arrives, however much follows it in its frame. -/
theorem says_of_arrives {dst src : MacAddr} {type : UInt16} {d : Bytes} {size : ℕ} {l : List UInt8}
    {m : ArpMsg} (h : pktBytes pkt = ethFrame dst src type (bytesOf d size ++ l)) (hd : Says d m)
    (hsize : 28 ≤ size) : Says (payload pkt).data m ∧ ArpWellFormed (payload pkt) := by
  have hpayload := pktBytes_payload h
  have hmsg : Says (payload pkt).data m :=
    hd.congr fun j hj ↦ eq_of_pktBytes hpayload j (by omega)
  have hlen := congrArg List.length hpayload
  rw [length_pktBytes, List.length_append, length_bytesOf] at hlen
  refine ⟨hmsg, hmsg.wellFormed ?_⟩
  show 28 ≤ (payload pkt).len.toNat
  omega

/-- **The answer** to a request: none, or the reply of the first interface that has the address. -/
theorem enEthInput_request {a : Net} {dev : Ptr} {addr : UInt32} (bound : ℕ → ℕ)
    (h : Arrives pkt (padded (requestFrame a dev addr))) (hmem : ∀ i, n.heap.mallocs i ≠ NULL) :
    ∃ t, enEthInput bound n pkt = some t ∧
      ((n.owner addr = none ∧ ∀ q, t.queue q = n.queue q) ∨
        ∃ i q d l mac, n.owner addr = some i ∧ Sends n t pkt.ethIf q ∧
          (∀ j < 6, mac j = (a.ethIf dev).addr j) ∧ Says d ((requestMsg a dev addr).reply n i) ∧
          pktBytes q = ethFrame mac (n.ethIf pkt.ethIf).addr ethTypeArp (bytesOf d 40 ++ l)) := by
  have hframe : pktBytes pkt = ethFrame macAddrBcast (a.ethIf dev).addr ethTypeArp
      (bytesOf (arpRequestData a dev addr fun _ ↦ 0) 40 ++ List.replicate 6 0) := by
    rw [h.bytes, padded, requestFrame, length_ethFrame, length_bytesOf, ethFrame, ethFrame,
      List.append_assoc]
  obtain ⟨hmsg, hwf⟩ :=
    says_of_arrives hframe (says_arpRequestData a (fun _ ↦ 0) dev addr) (by decide)
  have hop : (arpMsg (payload pkt).data).op = arpOpRequest := hmsg.op
  have hlen := congrArg List.length (pktBytes_payload hframe)
  rw [length_pktBytes, List.length_append, length_bytesOf, List.length_replicate] at hlen
  obtain ⟨hif, halloc⟩ := payload_frame pkt
  have hroom := h.room.fits
  refine ⟨_, enEthInput_arp hframe bound n rfl, ?_⟩
  rw [enArpInput_wellFormed hwf, hop, if_pos rfl]
  rcases enArpInputRequest_says (n := n) hmsg with
    ⟨howner, hfree⟩ | ⟨i, d, mac, howner, hd, hmac, hout⟩
  · rw [hfree]
    exact Or.inl ⟨howner, fun _ ↦ rfl⟩
  · obtain ⟨q, hq, hbytes⟩ := sends_enEthOutput { payload pkt with data := d } hmem
      (show (payload pkt).len.toNat + 14 < 2 ^ 32 by omega)
      (show (payload pkt).allocated.toNat + 17 < 2 ^ 32 by rw [halloc]; omega)
      (payload pkt).ethIf mac ethTypeArp
    have hreply : pktBytes { payload pkt with data := d } =
        bytesOf d 40 ++ bytesOf (fun j ↦ d (40 + j)) 6 := by
      rw [← bytesOf_add, ← hlen]
      rfl
    rw [hout, ← hif]
    exact Or.inr ⟨i, q, d, _, mac, howner, hq, hmac, hd, hreply ▸ hbytes⟩

/-- **The end of a resolution.** -/
theorem enEthInput_reply {m : ArpMsg} {dst src : MacAddr} {d : Bytes} {l : List UInt8}
    (bound : ℕ → ℕ) (h : pktBytes pkt = ethFrame dst src ethTypeArp (bytesOf d 40 ++ l))
    (hd : Says d m) (hop : m.op = arpOpReply) (hmem : ∀ i, n.heap.mallocs i ≠ NULL)
    (hmiss : enArpCacheLookup n.arpCache m.srcProto = none) :
    ∃ t, enEthInput bound n pkt = some t ∧ Resolves t m.srcProto m.srcHrd := by
  obtain ⟨hmsg, hwf⟩ := says_of_arrives h hd (by decide)
  refine ⟨_, enEthInput_arp h bound n rfl, ?_⟩
  have hop' : (arpMsg (payload pkt).data).op = arpOpReply := hmsg.op.trans hop
  have hproto : (arpMsg (payload pkt).data).srcProto = m.srcProto := hmsg.srcProto
  rw [enArpInput_wellFormed hwf, hop', if_neg (by decide), if_pos rfl, Resolves,
    arpCache_enArpInputReply hmsg.hlen, if_pos ⟨hproto ▸ hmiss, hmem 0⟩]
  refine ⟨arpEntry n (payload pkt), ?_, bytesOf_congr hmsg.srcHrd⟩
  rw [enArpCacheLookup, List.find?_cons_of_pos]
  exact decide_eq_true hproto

end Resolve

/-- **ARP resolution.** What one host asks, in a padded frame, the other one answers to it if and
only if one of its interfaces has the address. The answer makes the address resolve to the first
such interface. -/
theorem arp_resolution {a b : Net} (bound : ℕ → ℕ) (dev : Ptr) (addr : UInt32)
    (ha : ∀ i, a.heap.mallocs i ≠ NULL) (hb : ∀ i, b.heap.mallocs i ≠ NULL) :
    ∃ r, Sends a (enArpRequest a dev addr).2 dev r ∧
      ∀ pkt, Arrives pkt (padded (pktBytes r)) → ∃ b', enEthInput bound b pkt = some b' ∧
        ((∃ q, Sends b b' pkt.ethIf q ∧ AddressedTo q (a.ethIf dev).addr) ↔ Assigned b addr) ∧
        ∀ q, Sends b b' pkt.ethIf q → ∀ pkt' a', Arrives pkt' (pktBytes q) →
          (∀ i, a'.heap.mallocs i ≠ NULL) → enArpCacheLookup a'.arpCache addr = none →
            ∃ a'' i, enEthInput bound a' pkt' = some a'' ∧ FirstOwner b addr i ∧
              Resolves a'' addr (b.ethIf i).addr := by
  obtain ⟨r, hr, hbytes⟩ := sends_enArpRequest ha dev addr
  refine ⟨r, hr, fun pkt hpkt ↦ ?_⟩
  rw [hbytes] at hpkt
  obtain ⟨b', hrun, ⟨hnone, hsame⟩ | ⟨i, q, d, l, mac, howner, hq, hmac, hd, hframe⟩⟩ :=
    enEthInput_request bound hpkt hb
  · have hnot : ∀ q, ¬Sends b b' pkt.ethIf q := by
      intro q hq
      exact List.cons_ne_self _ _ (hq.1.symm.trans (hsame _))
    refine ⟨b', hrun, iff_of_false ?_ (not_assigned_of_owner hnone), fun q hq ↦ absurd hq (hnot q)⟩
    rintro ⟨q, hq, -⟩
    exact hnot q hq
  · have hfirst := firstOwner_of_owner howner
    refine ⟨b', hrun, iff_of_true ⟨q, hq, ?_⟩ hfirst.assigned,
      fun q' hq' pkt' a' hpkt' hmem hmiss ↦ ?_⟩
    · rw [AddressedTo, hframe, ethFrame, List.append_assoc, List.append_assoc,
        List.take_left' (length_bytesOf mac 6)]
      exact bytesOf_congr hmac
    · obtain rfl : q' = q := (List.cons.inj (hq'.1.symm.trans hq.1)).1
      obtain ⟨a'', hrun', hresolves⟩ :=
        enEthInput_reply bound (hpkt'.bytes.trans hframe) hd rfl hmem hmiss
      exact ⟨a'', i, hrun', hfirst, hresolves⟩

theorem mallocs_bootNet (i : ℕ) : bootNet.heap.mallocs i ≠ NULL := by
  show 0x10000 + 0x1000 * i ≠ 0
  omega

/-- The host of `bootNet` answers for 192.168.0.99. -/
theorem arp_resolution_boot : ∃ r, Sends pingNet (enArpRequest pingNet 0x100 0xC0A80063).2 0x100 r ∧
    ∀ pkt, Arrives pkt (padded (pktBytes r)) → ∃ b' q, enEthInput halfUp bootNet pkt = some b' ∧
      Sends bootNet b' pkt.ethIf q ∧ AddressedTo q (pingNet.ethIf 0x100).addr := by
  obtain ⟨r, hr, hall⟩ := @arp_resolution pingNet bootNet halfUp 0x100 0xC0A80063 mallocs_bootNet
    mallocs_bootNet
  refine ⟨r, hr, fun pkt hpkt ↦ ?_⟩
  obtain ⟨b', hrun, hiff, -⟩ := hall pkt hpkt
  obtain ⟨q, hq, hdst⟩ := hiff.mpr ⟨0x100, List.mem_singleton.mpr rfl, List.mem_singleton.mpr rfl⟩
  exact ⟨b', q, hrun, hq, hdst⟩

end Ertos
