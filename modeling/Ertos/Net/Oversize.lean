import Ertos.Net.Leak

/-!
# Oversized packets

The driver does not send packets of more than 1518 bytes, and does not free them either. None are
ever queued: the driver receives no longer ones, an answer is as long as the packet it answers, and
what the network code sends on its own account is short. On a network with short queues the frames
taken off the receive queues are therefore all that matters.
-/

namespace Ertos

open Transition

def ShortQueues (n : Net) : Prop := ∀ q, ∀ pkt ∈ n.queue q, pkt.len ≤ 1518

section Short

variable {n t : Net} {pkt : EnNetPkt}

theorem ShortQueues.congr (h : ShortQueues n) (hqueue : ∀ q, t.queue q = n.queue q) :
    ShortQueues t := fun q p hp ↦ h q p (hqueue q ▸ hp)

theorem ShortQueues.put {q : PktQueue} (h : ShortQueues n) (hlen : pkt.len ≤ 1518)
    (hq : t.queue q = pkt :: n.queue q) (hother : ∀ p, p ≠ q → t.queue p = n.queue p) :
    ShortQueues t := by
  intro p x hx
  by_cases hp : p = q
  · subst hp
    rw [hq] at hx
    rcases List.mem_cons.mp hx with rfl | hx
    · exact hlen
    · exact h p x hx
  · rw [hother p hp] at hx
    exact h p x hx

theorem ShortQueues.take {q : PktQueue} {l : List EnNetPkt} (h : ShortQueues n)
    (hn : n.queue q = pkt :: l) (hq : t.queue q = l)
    (hother : ∀ p, p ≠ q → t.queue p = n.queue p) : ShortQueues t := by
  intro p x hx
  by_cases hp : p = q
  · subst hp
    rw [hq] at hx
    refine h p x ?_
    rw [hn]
    exact List.mem_cons_of_mem _ hx
  · rw [hother p hp] at hx
    exact h p x hx

theorem ShortQueues.output (h : ShortQueues n) (hlen : pkt.len ≤ 1504) (i : Ptr) (dst : MacAddr)
    (type : UInt16) : ShortQueues (enEthOutput n i pkt dst type) := by
  obtain ⟨pkt', -, hlen', -, hq, hother⟩ := enEthOutput_spec n i pkt dst type
  refine h.put ?_ hq hother
  have hle : pkt.len.toNat ≤ 1504 := hlen
  show pkt'.len.toNat ≤ 1518
  rcases hlen' with hsame | hmore
  · rw [hsame]
    omega
  · have hadd : (pkt.len + etherHdrSize).toNat = (pkt.len.toNat + 14) % 2 ^ 32 :=
      UInt32.toNat_add _ _
    rw [hmore, hadd]
    omega

theorem len_pktDelHead {len max : UInt32} (hle : len.toNat ≤ max.toNat)
    (h : pkt.len.toNat ≤ max.toNat + len.toNat) : (pktDelHead pkt len).2.len ≤ max := by
  unfold pktDelHead
  split_ifs with hlt
  · have hlt' : pkt.len.toNat < len.toNat := hlt
    show pkt.len.toNat ≤ max.toNat
    omega
  · have hle' : len ≤ pkt.len := UInt32.not_lt.mp hlt
    show (pkt.len - len).toNat ≤ max.toNat
    rw [UInt32.toNat_sub_of_le _ _ hle']
    omega

theorem ShortQueues.arpRequest (h : ShortQueues n) (dev : Ptr) (addr : UInt32) :
    ShortQueues (enArpRequest n dev addr).2 := by
  unfold enArpRequest
  dsimp only
  generalize pktAlloc n.heap (9 - 1 + 6 * 4 + 4 * 2 + etherHdrSize) = r
  obtain ⟨p, heap⟩ := r
  cases p with
  | none => exact h.congr fun _ ↦ rfl
  | some p =>
    have hheap : ShortQueues (n.setHeap heap) := h.congr fun _ ↦ rfl
    have hreq : (9 - 1 + 6 * 4 + 4 * 2 : UInt32) ≤ 1504 := by decide
    exact hheap.output hreq _ _ _

theorem ShortQueues.free (h : ShortQueues n) (pkt : EnNetPkt) : ShortQueues (n.free pkt) :=
  h.congr fun _ ↦ rfl

theorem ShortQueues.arpInput (h : ShortQueues n) (hlen : pkt.len ≤ 1504) :
    ShortQueues (enArpInput n pkt).2 := by
  have hrequest : ∀ p : EnNetPkt, p.len ≤ 1504 → ShortQueues (enArpInputRequest n p).2 := by
    intro p hp
    unfold enArpInputRequest
    dsimp only
    cases n.owner (getAddr p.data (arpDstProtoOffset p.data)) with
    | some i =>
      refine h.output ?_ _ _ _
      exact hp
    | none => exact h.free p
  have hreply : ∀ p : EnNetPkt, ShortQueues (enArpInputReply n p).2 := by
    intro p
    unfold enArpInputReply
    dsimp only
    cases enArpCacheLookup n.arpCache _ with
    | none =>
      dsimp only
      split_ifs
      · refine ShortQueues.free ?_ p
        exact h.congr fun _ ↦ rfl
      · refine ShortQueues.free ?_ p
        exact h.congr fun _ ↦ rfl
    | some e => exact h.free p
  unfold enArpInput
  dsimp only
  split_ifs
  · exact h
  · exact h
  · exact h
  · exact h
  · exact hrequest _ hlen
  · exact hreply _
  · exact h.free _

theorem ShortQueues.ipOutput {bound : ℕ → ℕ} {dst : UInt32} {rc : ℤ} (h : ShortQueues n)
    (hlen : pkt.len ≤ 1484) (hrun : enIpOutput bound n pkt dst = some (rc, t)) : ShortQueues t := by
  rcases enIpOutput_some hrun with ⟨-, rfl⟩ | ⟨rt, hdr, -, rfl⟩
  · exact h
  unfold ipSend
  cases enArpCacheLookup n.arpCache dst with
  | none => exact h.arpRequest _ _
  | some arp =>
    obtain ⟨-, hlen', -⟩ := pktAddHead_frame n.heap pkt hdr sizeofIpHdr
    have hheap : ShortQueues (n.setHeap (pktAddHead n.heap pkt hdr sizeofIpHdr).2.2) :=
      h.congr fun _ ↦ rfl
    refine hheap.output ?_ _ _ _
    have hle : pkt.len.toNat ≤ 1484 := hlen
    show (pktAddHead n.heap pkt hdr sizeofIpHdr).2.1.len.toNat ≤ 1504
    rcases hlen' with hsame | hmore
    · rw [hsame]
      omega
    · have hadd : (pkt.len + sizeofIpHdr).toNat = (pkt.len.toNat + 20) % 2 ^ 32 :=
        UInt32.toNat_add _ _
      rw [hmore, hadd]
      omega

theorem ShortQueues.icmpInput {bound : ℕ → ℕ} {rc : ℤ} (h : ShortQueues n)
    (hihl : 5 ≤ ipIhl pkt.data) (hlen : pkt.len ≤ 1504)
    (hrun : enIcmpInput bound n pkt = some (rc, t)) : ShortQueues t := by
  by_cases hends : CksumEnds bound (pkt.len - ipIhl pkt.data * 4)
  · rcases enIcmpInput_ends (n := n) hihl hends with ⟨-, heq⟩ | ⟨-, rc', heq⟩
    · rw [heq] at hrun
      obtain ⟨⟨rc', t'⟩, hout, ht⟩ := Option.bind_eq_some_iff.mp hrun
      obtain rfl : t' = t := (Prod.mk.inj (Option.some.inj ht)).2
      have hreply : (echoReply pkt).len ≤ 1484 := len_pktDelHead (by decide) hlen
      exact h.ipOutput hreply hout
    · rw [heq] at hrun
      obtain rfl := (Prod.mk.inj (Option.some.inj hrun)).2
      exact h.free pkt
  · rw [enIcmpInput_not_ends hends] at hrun
    exact absurd hrun (Option.some_ne_none _).symm

theorem len_hostPkt (hlen : pkt.len ≤ 1504) : (hostPkt pkt).len ≤ 1504 := by
  unfold hostPkt
  dsimp only
  split_ifs with hpad
  · have hlt : (ipLen (ipToHost pkt.data)).toNat < 46 := hpad.2
    show (ipLen (ipToHost pkt.data)).toUInt32.toNat ≤ 1504
    rw [UInt16.toNat_toUInt32]
    omega
  · exact hlen

theorem ShortQueues.ipInput {bound : ℕ → ℕ} {rc : ℤ} (h : ShortQueues n)
    (hlen : pkt.len ≤ 1504) (hrun : enIpInput bound n pkt = some (rc, t)) : ShortQueues t := by
  by_cases hacc : IpAccepted pkt
  · rw [enIpInput_accepted hacc] at hrun
    split_ifs at hrun
    unfold ipDispatch at hrun
    split_ifs at hrun
    · obtain ⟨⟨rc', t'⟩, hin, ht⟩ := Option.bind_eq_some_iff.mp hrun
      obtain rfl : t' = t := (Prod.mk.inj (Option.some.inj ht)).2
      have hihl : 5 ≤ ipIhl (hostPkt pkt).data := (ipIhl_ipToHost pkt.data).symm ▸ hacc.ihl
      exact h.icmpInput hihl (len_hostPkt hlen) hin
    · obtain rfl := (Prod.mk.inj (Option.some.inj hrun)).2
      unfold enUdpInput
      dsimp only
      split_ifs <;> exact h.free _
    · obtain rfl := (Prod.mk.inj (Option.some.inj hrun)).2
      exact h
  · obtain rfl := enIpInput_rejected hacc hrun
    exact h

theorem ShortQueues.ethInput {bound : ℕ → ℕ} (h : ShortQueues n) (hlen : pkt.len ≤ 1518)
    (hrun : enEthInput bound n pkt = some t) : ShortQueues t := by
  have hpayload : (pktDelHead pkt etherHdrSize).2.len ≤ 1504 := len_pktDelHead (by decide) hlen
  unfold enEthInput at hrun
  dsimp only at hrun
  split_ifs at hrun
  · obtain rfl := Option.some.inj hrun
    exact h.arpInput hpayload
  · obtain ⟨⟨rc, t'⟩, hin, rfl⟩ := Option.map_eq_some_iff.mp hrun
    exact h.ipInput hpayload hin
  · obtain rfl := Option.some.inj hrun
    exact h.free _

theorem ShortQueues.rxTurn {bound : ℕ → ℕ} {found : Bool} {i : Ptr} (h : ShortQueues n)
    (hrun : enEthRxTurn bound n i = some (found, t)) : ShortQueues t := by
  rw [enEthRxTurn] at hrun
  cases hq : (n.ethIf i).rxQueue with
  | nil =>
    rw [hq] at hrun
    obtain rfl := (Prod.mk.inj (Option.some.inj hrun)).2
    exact h
  | cons pkt l =>
    rw [hq] at hrun
    have hmem : pkt ∈ (n.ethIf i).rxQueue := by
      rw [hq]
      exact List.mem_cons_self
    have hlen : pkt.len ≤ 1518 := h (.rx i) pkt hmem
    have htake : ShortQueues (n.modifyIf i fun x ↦ { x with rxQueue := l }) :=
      h.take (q := .rx i) hq (congrArg EnEthIf.rxQueue (n.ethIf_modifyIf_self i _))
        (n.queue_modifyIf_of_tx i fun _ ↦ rfl)
    dsimp only at hrun
    split_ifs at hrun
    · obtain rfl := (Prod.mk.inj (Option.some.inj hrun)).2
      exact htake.free pkt
    · obtain ⟨t', hin, ht⟩ := Option.map_eq_some_iff.mp hrun
      obtain rfl := (Prod.mk.inj ht).2
      exact htake.ethInput hlen hin

theorem ShortQueues.modifyStats (h : ShortQueues n) (i : Ptr) (f : EnEthStats → EnEthStats) :
    ShortQueues (n.modifyStats i f) := h.congr (n.queue_modifyStats i f)

theorem ShortQueues.txTurn (h : ShortQueues n) (i : Ptr) : ShortQueues (enEthTxTurn n i) := by
  unfold enEthTxTurn
  cases hq : (n.ethIf i).txQueue with
  | nil => exact h
  | cons pkt l =>
    have htake : ShortQueues (n.modifyIf i fun x ↦ { x with txQueue := l }) :=
      h.take (q := .tx i) hq (congrArg EnEthIf.txQueue (n.ethIf_modifyIf_self i _))
        (n.queue_modifyIf_of_rx i fun _ ↦ rfl)
    exact htake.congr (queue_ep9301Xmit _ pkt i)

theorem ShortQueues.rxFrame (h : ShortQueues n) (i : Ptr) (frame : Bytes) (len : UInt32) :
    ShortQueues (processRxFrame n i frame len) := by
  unfold processRxFrame
  dsimp only
  set u := n.modifyStats i fun s ↦ { s with rxFrames := s.rxFrames + 1, rxBytes := s.rxBytes + len }
  have hu : ShortQueues u := h.modifyStats i _
  split_ifs with hrunt hlong
  · exact hu.modifyStats i _
  · exact hu.modifyStats i _
  · cases pktAlloc u.heap len with
    | mk p heap =>
      cases p with
      | none => exact hu.congr fun _ ↦ rfl
      | some p =>
        have hheap : ShortQueues (u.setHeap heap) := hu.congr fun _ ↦ rfl
        refine hheap.put ?_ (queue_enEthRx (u.setHeap heap) i _)
          ((u.setHeap heap).queue_modifyIf_of_tx i fun _ ↦ rfl)
        exact UInt32.not_lt.mp hlong

/-- **No step queues an oversized packet.** -/
theorem ShortQueues.step {e : NetOp} (h : ShortQueues n) (hstep : NetStep n e t) :
    ShortQueues t := by
  have hms : ∀ ms, ShortQueues (n.setMallocs ms) := fun ms ↦ h.congr fun _ ↦ rfl
  cases hstep with
  | @rx i ms frame len => exact (hms ms).rxFrame i frame len
  | @drain t i ms bound found hfresh hrun => exact (hms ms).rxTurn hrun
  | @tx i => exact h.txTurn i
  | config hlive hqueue => exact h.congr hqueue

end Short

/-- The frame taken off a receive queue, if there is one, is disposed of. -/
def DrainDisposes (n : Net) : NetOp → Prop
  | .tx _ => True
  | e => Disposes n e

theorem disposes_iff_of_short {n : Net} (h : ShortQueues n) (e : NetOp) :
    Disposes n e ↔ DrainDisposes n e := by
  cases e with
  | tx i => exact iff_of_true (fun pkt hpkt ↦ h (.tx i) pkt (List.mem_of_mem_head? hpkt)) trivial
  | rx | drain | config => exact Iff.rfl

/-- **Only the frames matter.** On a network that starts with short queues, no packet leaks just in
case every frame taken off a receive queue is disposed of. -/
theorem always_noLeak_iff_drainDisposes {n : Net} (hs : n.book.Sound) (hn : NoLeak n)
    (hshort : ShortQueues n) {r : List (NetOp × Net)} (hrun : IsRun NetStep n r) :
    Always NoLeak n r ↔ Guarded DrainDisposes n r := by
  refine always_iff_guarded
    (I := fun t ↦ t.book.Sound ∧ NoLeak t ∧ ShortQueues t) (fun _ h ↦ h.2.1) ?_ ?_
    ⟨hs, hn, hshort⟩ hrun
  · rintro s e t ⟨hs, hn, hshort⟩ hd hstep
    obtain ⟨hs', hiff⟩ := netStep_settled hs ((noLeak_iff_covered s).mp hn) hstep
    have ht := hiff.mpr ((disposes_iff_of_short hshort e).mpr hd)
    exact ⟨hs', (noLeak_iff_covered t).mpr ht, hshort.step hstep⟩
  · rintro s e t ⟨hs, hn, hshort⟩ hd hstep ht
    obtain ⟨-, hiff⟩ := netStep_settled hs ((noLeak_iff_covered s).mp hn) hstep
    exact hd ((disposes_iff_of_short hshort e).mp (hiff.mp ((noLeak_iff_covered t).mp ht)))

end Ertos
