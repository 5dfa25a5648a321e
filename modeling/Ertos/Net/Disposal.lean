import Ertos.Basis.Traced
import Ertos.Net.Frame
import Ertos.Net.Terminate

/-!
# Disposal

The path of a received frame once more, with a record of what is done to packets: each access to a
packet or its data, each `pkt_free`, and each `list_add_after` on a transmit queue. The definitions
follow the source statement by statement, and without the record they are those of the other files
(`result_enEthInputActs`).

On every path the frame is freed or queued at most once, and not touched any more after that. The
callers that still hold pointers into it return at once.
-/

namespace Ertos

open Traced

/-- What is done to the packet at an address. -/
inductive PktAct
  /-- A member or the data is read or written. -/
  | access (p : Ptr)
  /-- The packet is freed. -/
  | free (p : Ptr)
  /-- The packet is put on a transmit queue. -/
  | queue (p : Ptr)
  deriving DecidableEq

def PktAct.pkt : PktAct → Ptr
  | .access p => p
  | .free p => p
  | .queue p => p

/-- The action takes the packet at `p` out of the hands of the path. -/
def PktAct.Disposes (p : Ptr) (a : PktAct) : Prop := a = .free p ∨ a = .queue p

instance (p : Ptr) : DecidablePred (PktAct.Disposes p) := fun a ↦
  inferInstanceAs (Decidable (a = .free p ∨ a = .queue p))

/-- The action is about the packet at `p`. -/
def PktAct.Touches (p : Ptr) (a : PktAct) : Prop := a.pkt = p

abbrev Acts := Traced PktAct

def access (pkt : EnNetPkt) : Acts Unit := emit (.access pkt.addr)

/-! ## Packets -/

def pktAllocActs (h : PktHeap) (base : UInt32) : Acts (Option EnNetPkt × PktHeap) := do
  let (p, h) := h.malloc
  if p = NULL then pure (none, h)
  else
    emit (.access p)
    let base := pad base
    if 0 < base then
      let (buf, h) := h.malloc
      emit (.access p)
      if buf = NULL then
        emit (.free p)
        pure (none, h)
      else
        pure (some ⟨p, fun _ ↦ 0, 0, base, NULL⟩, { h with live := Function.update h.live p true })
    else pure (some ⟨p, fun _ ↦ 0, 0, 0, NULL⟩, { h with live := Function.update h.live p true })

def pktFreeActs (n : Net) (pkt : EnNetPkt) : Acts Net := do
  access pkt
  emit (.free pkt.addr)
  pure (n.free pkt)

def pktGrowActs (h : PktHeap) (pkt : EnNetPkt) (len : UInt32) : Acts (ℤ × EnNetPkt × PktHeap) := do
  access pkt
  if len ≤ 0 ∨ len < pkt.allocated then pure (0, pkt, h)
  else
    let len := pad len
    let (p, h) := h.malloc
    if p = NULL then pure (-1, pkt, h)
    else
      -- the old buffer is copied, freed and replaced
      access pkt
      pure (0, { pkt with
        allocated := len
        data := fun i ↦ if i < pkt.len.toNat then pkt.data i else 0 }, h)

def pktReserveActs (h : PktHeap) (pkt : EnNetPkt) (len : UInt32) :
    Acts (ℤ × EnNetPkt × PktHeap) := do
  access pkt
  if pkt.allocated < len then pktGrowActs h pkt len else pure (0, pkt, h)

def pktAddHeadActs (h : PktHeap) (pkt : EnNetPkt) (buf : Bytes) (len : UInt32) :
    Acts (ℤ × EnNetPkt × PktHeap) := do
  access pkt
  let (rc, pkt, h) ← pktReserveActs h pkt (pkt.allocated + len)
  if rc ≠ 0 then pure (rc, pkt, h)
  else
    access pkt
    pure (rc, { pkt with
      data := setBytes (setBytes pkt.data len.toNat pkt.data pkt.len.toNat) 0 buf len.toNat
      len := pkt.len + len }, h)

def pktDelHeadActs (pkt : EnNetPkt) (len : UInt32) : Acts (ℤ × EnNetPkt) := do
  access pkt
  if pkt.len < len then pure (-1, pkt)
  else
    access pkt
    pure (0, { pkt with
      data := setBytes pkt.data 0 (fun i ↦ pkt.data (i + len.toNat)) (pkt.len - len).toNat
      len := pkt.len - len })

/-- The loop of `ocksum16` on the data of a packet. -/
def ocksum16LoopActs (pkt : EnNetPkt) : ℕ → ℕ → UInt32 → UInt32 → Acts UInt32
  | 0, _, len, sum => if 0 < len then ofOption none else pure sum
  | fuel + 1, i, len, sum =>
    if 0 < len then do
      access pkt
      ocksum16LoopActs pkt fuel (i + 2) (len - 2) (sum + (get16 pkt.data i).toUInt32)
    else pure sum

def ocksum16Acts (bound : ℕ → ℕ) (pkt : EnNetPkt) (i : ℕ) (len : UInt32) : Acts UInt16 := do
  let sum ← ocksum16LoopActs pkt (bound len.toNat) i len 0
  pure (foldSum sum)

/-! ## Ethernet output and ARP -/

def enEthOutputActs (n : Net) (i : Ptr) (pkt : EnNetPkt) (dst : MacAddr) (type : UInt16) :
    Acts Net := do
  let hdr := setBytes (fun _ ↦ 0) 6 (n.ethIf i).addr 6
  let hdr := setBytes hdr 0 dst 6
  let hdr := set16 hdr 12 (enHtons type)
  let (_, pkt, heap) ← pktAddHeadActs n.heap pkt hdr etherHdrSize
  emit (.queue pkt.addr)
  pure ((n.setHeap heap).modifyIf i fun x ↦ { x with txQueue := pkt :: x.txQueue })

def enArpRequestActs (n : Net) (dev : Ptr) (addr : UInt32) : Acts (ℤ × Net) := do
  let arpsz : UInt32 := 9 - 1 + 6 * 4 + 4 * 2
  match ← pktAllocActs n.heap (arpsz + etherHdrSize) with
  | (none, heap) => pure (-1, n.setHeap heap)
  | (some pkt, heap) =>
    let n := n.setHeap heap
    access pkt
    let pkt := { pkt with data := arpRequestData n dev addr pkt.data, len := arpsz }
    let n ← enEthOutputActs n dev pkt macAddrBcast ethTypeArp
    pure (0, n)

def enArpInputRequestActs (n : Net) (pkt : EnNetPkt) : Acts (ℤ × Net) := do
  access pkt
  let addr := getAddr pkt.data (arpDstProtoOffset pkt.data)
  match n.owner addr with
  | some i =>
    access pkt
    let d := arpReplyData n i addr pkt.data
    let mac : MacAddr := fun j ↦ d (arpDstHrdOffset d + j)
    let n ← enEthOutputActs n pkt.ethIf { pkt with data := arpSwap d } mac ethTypeArp
    pure (0, n)
  | none =>
    let n ← pktFreeActs n pkt
    pure (0, n)

def enArpInputReplyActs (n : Net) (pkt : EnNetPkt) : Acts (ℤ × Net) := do
  access pkt
  let d := pkt.data
  let e : EnArpEntry :=
    ⟨fun j ↦ d (arpSrcHrdOffset d + j), enNtohl (get32 d (arpSrcProtoOffset d)), 0⟩
  match enArpCacheLookup n.arpCache e.protoAddr with
  | none =>
    let (p, heap) := n.heap.malloc
    let n := n.setHeap heap
    if p = NULL then
      let n ← pktFreeActs n pkt
      pure (-1, n)
    else
      let n := enArpCacheAdd n e
      let n ← pktFreeActs n pkt
      pure (0, n)
  | some _ =>
    let n ← pktFreeActs n pkt
    pure (0, n)

def enArpInputActs (n : Net) (pkt : EnNetPkt) : Acts (ℤ × Net) := do
  access pkt
  let pkt := { pkt with data := arpSwap pkt.data }
  let d := pkt.data
  access pkt
  if pkt.len < 9 - 1 + (d 4).toUInt32 * 2 + (d 5).toUInt32 * 2 then pure (-1, n)
  else if get16 d 0 ≠ arpHrdEthernet then pure (-2, n)
  else if get16 d 2 ≠ ethTypeIpv4 then pure (-2, n)
  else if d 4 ≠ 6 ∨ d 5 ≠ 4 then pure (-1, n)
  else
    access pkt
    if get16 d 6 = arpOpRequest then
      let (_, n) ← enArpInputRequestActs n pkt
      pure (0, n)
    else if get16 d 6 = arpOpReply then
      let (_, n) ← enArpInputReplyActs n pkt
      pure (0, n)
    else
      let n ← pktFreeActs n pkt
      pure (0, n)

/-! ## IP, ICMP and UDP -/

def ipSendActs (n : Net) (rt : EnIpRoute) (pkt : EnNetPkt) (hdr : Bytes) (dst : UInt32) :
    Acts Net := do
  match enArpCacheLookup n.arpCache dst with
  | none =>
    let (_, n) ← enArpRequestActs n rt.ethIf dst
    pure n
  | some arp =>
    let (_, pkt, heap) ← pktAddHeadActs n.heap pkt hdr sizeofIpHdr
    enEthOutputActs (n.setHeap heap) rt.ethIf pkt arp.hrdAddr ethTypeIpv4

def enIpOutputActs (bound : ℕ → ℕ) (n : Net) (pkt : EnNetPkt) (dst : UInt32) : Acts (ℤ × Net) := do
  match enIpRouteLookup n.routes dst with
  | none => pure (-1, n)
  | some rt =>
    access pkt
    let d := ipHdrData n rt pkt.len dst
    -- this checksum is over the header alone
    let sum ← ofOption (ocksum16 bound d 0 (ipIhl d * 4))
    let d := set16 d 10 (~~~sum)
    let n ← ipSendActs n rt pkt d dst
    pure (0, n)

def enIcmpInputActs (bound : ℕ → ℕ) (n : Net) (pkt : EnNetPkt) : Acts (ℤ × Net) := do
  access pkt
  let i := ipPayload pkt.data
  let sum ← ocksum16Acts bound pkt i (pkt.len - ipIhl pkt.data * 4)
  if sum ≠ 0xFFFF then
    access pkt
    let n ← pktFreeActs n pkt
    pure (-1, n)
  else
    access pkt
    let pkt := { pkt with data := icmpSwap pkt.data i }
    if pkt.data i = icmpTypeEcho then
      let dst := ipSrc pkt.data
      access pkt
      let pkt := { pkt with data := icmpReplyData pkt.data i }
      let sum ← ocksum16Acts bound pkt i (pkt.len - ipIhl pkt.data * 4)
      access pkt
      let pkt := { pkt with data := set16 pkt.data (i + 2) (enHtons sum) }
      let (_, pkt) ← pktDelHeadActs pkt sizeofIpHdr
      let (_, n) ← enIpOutputActs bound n pkt dst
      pure (0, n)
    else
      access pkt
      let n ← pktFreeActs n pkt
      pure (0, n)

def enUdpInputActs (n : Net) (pkt : EnNetPkt) : Acts (ℤ × Net) := do
  access pkt
  let d := pkt.data
  let i := ipPayload d
  let d := set16 d i (enNtohs (get16 d i))
  let d := set16 d (i + 2) (enNtohs (get16 d (i + 2)))
  let d := set16 d (i + 4) (enNtohs (get16 d (i + 4)))
  let len := get16 d (i + 4)
  access pkt
  if (len.toNat : ℤ) ≠ (ipLen d).toNat - (ipIhl d * 4).toNat ∧
      len.toUInt32 ≠ pkt.len - ipIhl d * 4 then
    let n ← pktFreeActs n pkt
    pure (-1, n)
  else
    let n ← pktFreeActs n pkt
    pure (0, n)

def ipDispatchActs (bound : ℕ → ℕ) (n : Net) (pkt : EnNetPkt) : Acts (ℤ × Net) := do
  access pkt
  if ipProto pkt.data = ipProtoIcmp then
    let (_, n) ← enIcmpInputActs bound n pkt
    pure (0, n)
  else if ipProto pkt.data = ipProtoUdp then
    let (_, n) ← enUdpInputActs n pkt
    pure (0, n)
  else pure (0, n)

def enIpInputActs (bound : ℕ → ℕ) (n : Net) (pkt : EnNetPkt) : Acts (ℤ × Net) := do
  access pkt
  if pkt.len < ipIhl pkt.data * 4 then pure (-1, n)
  else
    let sum ← ocksum16Acts bound pkt 0 (ipIhl pkt.data * 4)
    if sum ≠ 0xFFFF then
      access pkt
      pure (-1, n)
    else
      access pkt
      let d := ipToHost pkt.data
      let len := if pkt.len = 46 ∧ ipLen d < 46 then (ipLen d).toUInt32 else pkt.len
      let pkt := { pkt with data := d, len := len }
      access pkt
      if ipIhl d < 5 ∨ (ipLen d).toUInt32 ≠ pkt.len then pure (-1, n)
      else ipDispatchActs bound n pkt

def enEthInputActs (bound : ℕ → ℕ) (n : Net) (pkt : EnNetPkt) : Acts Net := do
  access pkt
  let type := enNtohs (get16 pkt.data 12)
  let (_, pkt) ← pktDelHeadActs pkt etherHdrSize
  if type = ethTypeArp then
    let (_, n) ← enArpInputActs n pkt
    pure n
  else if type = ethTypeIpv4 then
    let (_, n) ← enIpInputActs bound n pkt
    pure n
  else pktFreeActs n pkt

/-! ## Without the record -/

section Result

variable (bound : ℕ → ℕ) (h : PktHeap) (n : Net) (pkt : EnNetPkt)

@[simp] theorem result_access : (access pkt).result = some () := rfl

@[simp] theorem result_pktAllocActs (base : UInt32) :
    (pktAllocActs h base).result = some (pktAlloc h base) := by
  unfold pktAllocActs pktAlloc
  dsimp only
  split_ifs <;> simp

@[simp] theorem result_pktFreeActs : (pktFreeActs n pkt).result = some (n.free pkt) := rfl

@[simp] theorem result_pktGrowActs (len : UInt32) :
    (pktGrowActs h pkt len).result = some (pktGrow h pkt len) := by
  unfold pktGrowActs pktGrow
  dsimp only
  split_ifs <;> simp

@[simp] theorem result_pktReserveActs (len : UInt32) :
    (pktReserveActs h pkt len).result = some (pktReserve h pkt len) := by
  unfold pktReserveActs pktReserve
  split_ifs <;> simp

@[simp] theorem result_pktAddHeadActs (buf : Bytes) (len : UInt32) :
    (pktAddHeadActs h pkt buf len).result = some (pktAddHead h pkt buf len) := by
  unfold pktAddHeadActs pktAddHead
  simp
  split_ifs <;> rfl

@[simp] theorem result_pktDelHeadActs (len : UInt32) :
    (pktDelHeadActs pkt len).result = some (pktDelHead pkt len) := by
  unfold pktDelHeadActs pktDelHead
  split_ifs <;> simp

@[simp] theorem result_ocksum16LoopActs (fuel i : ℕ) (len sum : UInt32) :
    (ocksum16LoopActs pkt fuel i len sum).result = ocksum16Loop fuel pkt.data i len sum := by
  induction fuel generalizing i len sum with
  | zero =>
    unfold ocksum16LoopActs ocksum16Loop
    split_ifs <;> rfl
  | succ fuel ih =>
    unfold ocksum16LoopActs ocksum16Loop
    split_ifs
    · exact ih (i + 2) (len - 2) (sum + (get16 pkt.data i).toUInt32)
    · rfl

@[simp] theorem result_ocksum16Acts (i : ℕ) (len : UInt32) :
    (ocksum16Acts bound pkt i len).result = ocksum16 bound pkt.data i len := by
  rw [ocksum16Acts, result_bind, result_ocksum16LoopActs, ocksum16, Option.map_eq_bind]
  rfl

@[simp] theorem result_enEthOutputActs (i : Ptr) (dst : MacAddr) (type : UInt16) :
    (enEthOutputActs n i pkt dst type).result = some (enEthOutput n i pkt dst type) := by
  unfold enEthOutputActs enEthOutput
  simp

@[simp] theorem result_enArpRequestActs (dev : Ptr) (addr : UInt32) :
    (enArpRequestActs n dev addr).result = some (enArpRequest n dev addr) := by
  unfold enArpRequestActs enArpRequest
  dsimp only
  rw [result_bind, result_pktAllocActs, Option.bind_some]
  generalize pktAlloc n.heap (9 - 1 + 6 * 4 + 4 * 2 + etherHdrSize) = r
  obtain ⟨_ | q, heap⟩ := r <;> simp

@[simp] theorem result_enArpInputRequestActs :
    (enArpInputRequestActs n pkt).result = some (enArpInputRequest n pkt) := by
  unfold enArpInputRequestActs enArpInputRequest
  dsimp only
  cases n.owner (getAddr pkt.data (arpDstProtoOffset pkt.data)) <;> simp

@[simp] theorem result_enArpInputReplyActs :
    (enArpInputReplyActs n pkt).result = some (enArpInputReply n pkt) := by
  unfold enArpInputReplyActs enArpInputReply
  dsimp only
  cases enArpCacheLookup n.arpCache
    (enNtohl (get32 pkt.data (arpSrcProtoOffset pkt.data))) with
  | none =>
    dsimp only
    split_ifs <;> simp
  | some _ => simp

@[simp] theorem result_enArpInputActs :
    (enArpInputActs n pkt).result = some (enArpInput n pkt) := by
  unfold enArpInputActs enArpInput
  dsimp only
  split_ifs <;> simp

@[simp] theorem result_ipSendActs (rt : EnIpRoute) (hdr : Bytes) (dst : UInt32) :
    (ipSendActs n rt pkt hdr dst).result = some (ipSend n rt pkt hdr dst) := by
  unfold ipSendActs ipSend
  cases enArpCacheLookup n.arpCache dst <;> simp

@[simp] theorem result_enIpOutputActs (dst : UInt32) :
    (enIpOutputActs bound n pkt dst).result = enIpOutput bound n pkt dst := by
  unfold enIpOutputActs enIpOutput
  cases enIpRouteLookup n.routes dst <;> simp

@[simp] theorem result_enIcmpInputActs :
    (enIcmpInputActs bound n pkt).result = enIcmpInput bound n pkt := by
  unfold enIcmpInputActs enIcmpInput
  simp only [result_bind, result_access, result_ocksum16Acts, Option.bind_some, Option.bind_eq_bind]
  congr 1
  funext sum
  split_ifs
  · simp
  · simp
  · -- the packet that is freed has been converted, but it is the same packet
    simp only [result_bind, result_access, Option.bind_some, result_pktFreeActs, result_pure]
    rfl

@[simp] theorem result_enUdpInputActs :
    (enUdpInputActs n pkt).result = some (enUdpInput n pkt) := by
  unfold enUdpInputActs enUdpInput
  simp only [result_bind, result_access, Option.bind_some]
  split_ifs <;> simp

@[simp] theorem result_ipDispatchActs :
    (ipDispatchActs bound n pkt).result = ipDispatch bound n pkt := by
  unfold ipDispatchActs ipDispatch
  simp only [result_bind, result_access, Option.bind_some]
  split_ifs <;> simp

@[simp] theorem result_enIpInputActs :
    (enIpInputActs bound n pkt).result = enIpInput bound n pkt := by
  unfold enIpInputActs enIpInput
  simp only [result_bind, result_access, Option.bind_some]
  by_cases hlen : pkt.len < ipIhl pkt.data * 4
  · rw [if_pos hlen, if_pos hlen, result_pure]
  · rw [if_neg hlen, if_neg hlen, result_bind, result_ocksum16Acts, Option.bind_eq_bind]
    congr 1
    funext sum
    split_ifs <;> simp_all

theorem result_enEthInputActs :
    (enEthInputActs bound n pkt).result = enEthInput bound n pkt := by
  unfold enEthInputActs enEthInput
  simp only [result_bind, result_access, result_pktDelHeadActs, Option.bind_some]
  split_ifs
  · simp
  · rw [result_bind, result_enIpInputActs, Option.map_eq_bind]
    rfl
  · rfl

end Result

/-! ## The discipline -/

section Discipline

variable {p : Ptr} {α β : Type} {m : Acts α} {f : α → Acts β}

/-- The packet at `p` is disposed of at most once, and not touched any more after that. -/
def Disciplined (p : Ptr) (m : Acts α) : Prop :=
  Orderly (PktAct.Disposes p) (PktAct.Touches p) m.trace

/-- The packet at `p` is accessed, and nothing else is done. -/
def Accesses (p : Ptr) (m : Acts α) : Prop := m.All (· = .access p)

theorem PktAct.Disposes.touches {a : PktAct} (h : a.Disposes p) : a.Touches p := by
  rcases h with rfl | rfl <;> rfl

theorem Accesses.touches (h : Accesses p m) : m.All (PktAct.Touches p ·) :=
  h.imp fun _ ha ↦ congrArg PktAct.pkt ha

theorem Accesses.bind_disciplined (hm : Accesses p m)
    (hf : ∀ a, m.result = some a → Disciplined p (f a)) : Disciplined p (m >>= f) := by
  refine Orderly.bind (hm.imp fun a ha hd ↦ ?_) hf
  rcases hd with rfl | rfl <;> exact PktAct.noConfusion ha

theorem Disciplined.bind_return (hm : Disciplined p m) (hf : ∀ a, (f a).trace = []) :
    Disciplined p (m >>= f) := by
  refine Orderly.bind_after hm (fun a _ e he ↦ ?_) fun _ ↦ PktAct.Disposes.touches
  rw [hf a] at he
  exact absurd he List.not_mem_nil

theorem disciplined_pure (a : α) : Disciplined p (pure a : Acts α) := List.Pairwise.nil

theorem disciplined_emit (a : PktAct) : Disciplined p (emit a) := List.pairwise_singleton _ _

theorem Disciplined.early {c : Prop} [Decidable c] {a : α} (hm : ¬c → Disciplined p m) :
    Disciplined p (if c then pure a else m) := by
  split_ifs with hc
  · exact disciplined_pure a
  · exact hm hc

end Discipline

/-! ## Calls on one packet -/

section One

variable {bound : ℕ → ℕ} {h : PktHeap} {n : Net} {pkt : EnNetPkt} {p : Ptr}

theorem accesses_access (hp : pkt.addr = p) : Accesses p (access pkt) := All.emit (hp ▸ rfl)

theorem accesses_pktGrowActs (hp : pkt.addr = p) (len : UInt32) :
    Accesses p (pktGrowActs h pkt len) := by
  refine (accesses_access hp).bind fun _ _ ↦ ?_
  dsimp only
  split_ifs
  · exact All.pure _
  · exact All.pure _
  · exact (accesses_access hp).bind fun _ _ ↦ All.pure _

theorem accesses_pktReserveActs (hp : pkt.addr = p) (len : UInt32) :
    Accesses p (pktReserveActs h pkt len) := by
  refine (accesses_access hp).bind fun _ _ ↦ ?_
  split_ifs
  · exact accesses_pktGrowActs hp len
  · exact All.pure _

theorem accesses_pktAddHeadActs (hp : pkt.addr = p) (buf : Bytes) (len : UInt32) :
    Accesses p (pktAddHeadActs h pkt buf len) := by
  refine (accesses_access hp).bind fun _ _ ↦ ?_
  refine (accesses_pktReserveActs hp _).bind fun ⟨rc, q, h'⟩ hq ↦ ?_
  have hframe := (pktReserve_frame h pkt (pkt.allocated + len)).1
  rw [result_pktReserveActs] at hq
  rw [Option.some.inj hq] at hframe
  dsimp only
  split_ifs
  · exact All.pure _
  · exact (accesses_access (hframe.trans hp)).bind fun _ _ ↦ All.pure _

theorem addr_of_pktAddHeadActs {rc : ℤ} {q : EnNetPkt} {h' : PktHeap} {buf : Bytes} {len : UInt32}
    (hq : (pktAddHeadActs h pkt buf len).result = some (rc, q, h')) : q.addr = pkt.addr := by
  have hframe := (pktAddHead_frame h pkt buf len).1
  rw [result_pktAddHeadActs] at hq
  rwa [Option.some.inj hq] at hframe

theorem accesses_pktDelHeadActs (hp : pkt.addr = p) (len : UInt32) :
    Accesses p (pktDelHeadActs pkt len) := by
  refine (accesses_access hp).bind fun _ _ ↦ ?_
  split_ifs
  · exact All.pure _
  · exact (accesses_access hp).bind fun _ _ ↦ All.pure _

theorem addr_of_pktDelHeadActs {rc : ℤ} {q : EnNetPkt} {len : UInt32}
    (hq : (pktDelHeadActs pkt len).result = some (rc, q)) : q.addr = pkt.addr := by
  have hframe := addr_pktDelHead pkt len
  rw [result_pktDelHeadActs] at hq
  rwa [Option.some.inj hq] at hframe

theorem accesses_ocksum16LoopActs (hp : pkt.addr = p) (fuel i : ℕ) (len sum : UInt32) :
    Accesses p (ocksum16LoopActs pkt fuel i len sum) := by
  induction fuel generalizing i len sum with
  | zero =>
    unfold ocksum16LoopActs
    split_ifs
    · exact All.ofOption _
    · exact All.pure _
  | succ fuel ih =>
    unfold ocksum16LoopActs
    split_ifs
    · exact (accesses_access hp).bind fun _ _ ↦ ih _ _ _
    · exact All.pure _

theorem accesses_ocksum16Acts (hp : pkt.addr = p) (i : ℕ) (len : UInt32) :
    Accesses p (ocksum16Acts bound pkt i len) :=
  (accesses_ocksum16LoopActs hp _ i len 0).bind fun _ _ ↦ All.pure _

theorem disciplined_pktFreeActs (hp : pkt.addr = p) : Disciplined p (pktFreeActs n pkt) := by
  refine (accesses_access hp).bind_disciplined fun _ _ ↦ ?_
  exact (disciplined_emit _).bind_return fun _ ↦ rfl

/-- **Output** queues the packet, and that is the last it has to do with it. -/
theorem disciplined_enEthOutputActs (hp : pkt.addr = p) (i : Ptr) (dst : MacAddr)
    (type : UInt16) : Disciplined p (enEthOutputActs n i pkt dst type) := by
  refine (accesses_pktAddHeadActs hp _ _).bind_disciplined fun ⟨rc, q, h'⟩ _ ↦ ?_
  exact (disciplined_emit _).bind_return fun _ ↦ rfl

theorem touches_enEthOutputActs (hp : pkt.addr = p) (i : Ptr) (dst : MacAddr) (type : UInt16) :
    (enEthOutputActs n i pkt dst type).All (PktAct.Touches p ·) := by
  refine (accesses_pktAddHeadActs hp _ _).touches.bind fun ⟨rc, q, h'⟩ hq ↦ ?_
  have hqueue : PktAct.Touches p (.queue q.addr) := (addr_of_pktAddHeadActs hq).trans hp
  exact (All.emit hqueue).bind fun _ _ ↦ All.pure _

theorem all_pktAllocActs (h : PktHeap) (base : UInt32) :
    (pktAllocActs h base).All fun a ↦ h.mallocs 0 ≠ NULL ∧ a.pkt = h.mallocs 0 := by
  unfold pktAllocActs PktHeap.malloc
  dsimp only
  split_ifs with hnull hbase hbuf
  · exact All.pure _
  · refine (All.emit ⟨hnull, rfl⟩).bind fun _ _ ↦ (All.emit ⟨hnull, rfl⟩).bind fun _ _ ↦ ?_
    exact (All.emit ⟨hnull, rfl⟩).bind fun _ _ ↦ All.pure _
  · refine (All.emit ⟨hnull, rfl⟩).bind fun _ _ ↦ (All.emit ⟨hnull, rfl⟩).bind fun _ _ ↦ ?_
    exact All.pure _
  · exact (All.emit ⟨hnull, rfl⟩).bind fun _ _ ↦ All.pure _

theorem untouched_enArpRequestActs (hlive : n.heap.live p = true) (hfresh : n.heap.Fresh)
    (dev : Ptr) (addr : UInt32) : (enArpRequestActs n dev addr).All (¬PktAct.Touches p ·) := by
  have hnew : n.heap.mallocs 0 ≠ NULL → n.heap.mallocs 0 ≠ p := by
    intro hnull hp
    have hfree := hfresh 0 hnull
    rw [hp, hlive] at hfree
    exact Bool.noConfusion hfree
  have halloc : (pktAllocActs n.heap (9 - 1 + 6 * 4 + 4 * 2 + etherHdrSize)).All
      (¬PktAct.Touches p ·) :=
    (all_pktAllocActs n.heap _).imp fun a ha htouch ↦ hnew ha.1 (ha.2.symm.trans htouch)
  refine halloc.bind fun r hr ↦ ?_
  -- from here on only the new packet is touched
  have hspec := pktAlloc_spec n.heap (9 - 1 + 6 * 4 + 4 * 2 + etherHdrSize)
  rw [result_pktAllocActs] at hr
  rw [Option.some.inj hr] at hspec
  cases hspec with
  | failed => exact All.pure _
  | @ok q heap hnull haddr hheap =>
    have hq : ∀ a, PktAct.Touches q.addr a → ¬PktAct.Touches p a := fun a ha htouch ↦
      hnew hnull (haddr.symm.trans (ha.symm.trans htouch))
    have haccess : Accesses q.addr (access q) := accesses_access rfl
    refine (haccess.touches.imp hq).bind fun _ _ ↦ ?_
    refine All.bind (All.imp ?_ hq) fun _ _ ↦ All.pure _
    refine touches_enEthOutputActs ?_ dev macAddrBcast ethTypeArp
    rfl

end One

/-! ## The path -/

section Path

variable {bound : ℕ → ℕ} {n : Net} {pkt : EnNetPkt} {p : Ptr}

theorem disciplined_enArpInputRequestActs (hp : pkt.addr = p) :
    Disciplined p (enArpInputRequestActs n pkt) := by
  unfold enArpInputRequestActs
  refine (accesses_access hp).bind_disciplined fun _ _ ↦ ?_
  dsimp only
  cases n.owner (getAddr pkt.data (arpDstProtoOffset pkt.data)) with
  | some i =>
    refine (accesses_access hp).bind_disciplined fun _ _ ↦ ?_
    refine Disciplined.bind_return (disciplined_enEthOutputActs ?_ _ _ _) fun _ ↦ rfl
    exact hp
  | none => exact (disciplined_pktFreeActs hp).bind_return fun _ ↦ rfl

theorem disciplined_enArpInputReplyActs (hp : pkt.addr = p) :
    Disciplined p (enArpInputReplyActs n pkt) := by
  unfold enArpInputReplyActs
  refine (accesses_access hp).bind_disciplined fun _ _ ↦ ?_
  dsimp only
  cases enArpCacheLookup n.arpCache
    (enNtohl (get32 pkt.data (arpSrcProtoOffset pkt.data))) with
  | none =>
    dsimp only
    split_ifs
    · exact (disciplined_pktFreeActs hp).bind_return fun _ ↦ rfl
    · exact (disciplined_pktFreeActs hp).bind_return fun _ ↦ rfl
  | some _ => exact (disciplined_pktFreeActs hp).bind_return fun _ ↦ rfl

theorem disciplined_enArpInputActs (hp : pkt.addr = p) :
    Disciplined p (enArpInputActs n pkt) := by
  unfold enArpInputActs
  refine (accesses_access hp).bind_disciplined fun _ _ ↦ ?_
  refine (accesses_access hp).bind_disciplined fun _ _ ↦ ?_
  -- the checks of the length, the hardware type, the protocol type and the two address lengths
  refine Disciplined.early fun _ ↦ ?_
  refine Disciplined.early fun _ ↦ ?_
  refine Disciplined.early fun _ ↦ ?_
  refine Disciplined.early fun _ ↦ ?_
  refine (accesses_access hp).bind_disciplined fun _ _ ↦ ?_
  split_ifs
  · refine Disciplined.bind_return (disciplined_enArpInputRequestActs ?_) fun _ ↦ rfl
    exact hp
  · refine Disciplined.bind_return (disciplined_enArpInputReplyActs ?_) fun _ ↦ rfl
    exact hp
  · refine Disciplined.bind_return (disciplined_pktFreeActs ?_) fun _ ↦ rfl
    exact hp

theorem disciplined_ipSendActs (hp : pkt.addr = p) (hlive : n.heap.live p = true)
    (hfresh : n.heap.Fresh) (rt : EnIpRoute) (hdr : Bytes) (dst : UInt32) :
    Disciplined p (ipSendActs n rt pkt hdr dst) := by
  unfold ipSendActs
  cases enArpCacheLookup n.arpCache dst with
  | none =>
    -- the packet stays with nobody: what goes out is a request in a packet of its own
    have hrequest := untouched_enArpRequestActs hlive hfresh rt.ethIf dst
    have hkeeps := hrequest.imp fun _ ha hd ↦ ha (PktAct.Disposes.touches hd)
    exact Disciplined.bind_return (Orderly.of_all hkeeps) fun _ ↦ rfl
  | some arp =>
    refine (accesses_pktAddHeadActs hp hdr sizeofIpHdr).bind_disciplined fun ⟨rc, q, heap⟩ hq ↦ ?_
    exact disciplined_enEthOutputActs ((addr_of_pktAddHeadActs hq).trans hp) _ _ _

theorem disciplined_enIpOutputActs (hp : pkt.addr = p) (hlive : n.heap.live p = true)
    (hfresh : n.heap.Fresh) (dst : UInt32) : Disciplined p (enIpOutputActs bound n pkt dst) := by
  unfold enIpOutputActs
  cases enIpRouteLookup n.routes dst with
  | none => exact disciplined_pure _
  | some rt =>
    refine (accesses_access hp).bind_disciplined fun _ _ ↦ ?_
    refine Orderly.bind (All.ofOption _) fun sum _ ↦ ?_
    exact Disciplined.bind_return (disciplined_ipSendActs hp hlive hfresh _ _ _) fun _ ↦ rfl

theorem disciplined_enIcmpInputActs (hp : pkt.addr = p) (hlive : n.heap.live p = true)
    (hfresh : n.heap.Fresh) : Disciplined p (enIcmpInputActs bound n pkt) := by
  unfold enIcmpInputActs
  refine (accesses_access hp).bind_disciplined fun _ _ ↦ ?_
  refine (accesses_ocksum16Acts hp _ _).bind_disciplined fun sum _ ↦ ?_
  split_ifs
  · refine (accesses_access hp).bind_disciplined fun _ _ ↦ ?_
    exact (disciplined_pktFreeActs hp).bind_return fun _ ↦ rfl
  refine (accesses_access hp).bind_disciplined fun _ _ ↦ ?_
  -- from here on the packet is the converted one, at the same address
  dsimp only
  split_ifs
  · refine Accesses.bind_disciplined (accesses_access (by exact hp)) fun _ _ ↦ ?_
    refine Accesses.bind_disciplined (accesses_ocksum16Acts (by exact hp) _ _) fun sum _ ↦ ?_
    refine Accesses.bind_disciplined (accesses_access (by exact hp)) fun _ _ ↦ ?_
    refine Accesses.bind_disciplined (accesses_pktDelHeadActs (by exact hp) _) fun ⟨rc, q⟩ hq ↦ ?_
    have hq : q.addr = p := (addr_of_pktDelHeadActs hq).trans hp
    exact Disciplined.bind_return (disciplined_enIpOutputActs hq hlive hfresh _) fun _ ↦ rfl
  · refine Accesses.bind_disciplined (accesses_access (by exact hp)) fun _ _ ↦ ?_
    exact Disciplined.bind_return (disciplined_pktFreeActs (by exact hp)) fun _ ↦ rfl

theorem disciplined_enUdpInputActs (hp : pkt.addr = p) :
    Disciplined p (enUdpInputActs n pkt) := by
  unfold enUdpInputActs
  refine (accesses_access hp).bind_disciplined fun _ _ ↦ ?_
  refine (accesses_access hp).bind_disciplined fun _ _ ↦ ?_
  split_ifs
  · exact (disciplined_pktFreeActs hp).bind_return fun _ ↦ rfl
  · exact (disciplined_pktFreeActs hp).bind_return fun _ ↦ rfl

theorem disciplined_ipDispatchActs (hp : pkt.addr = p) (hlive : n.heap.live p = true)
    (hfresh : n.heap.Fresh) : Disciplined p (ipDispatchActs bound n pkt) := by
  unfold ipDispatchActs
  refine (accesses_access hp).bind_disciplined fun _ _ ↦ ?_
  split_ifs
  · exact (disciplined_enIcmpInputActs hp hlive hfresh).bind_return fun _ ↦ rfl
  · exact (disciplined_enUdpInputActs hp).bind_return fun _ ↦ rfl
  · exact disciplined_pure _

theorem disciplined_enIpInputActs (hp : pkt.addr = p) (hlive : n.heap.live p = true)
    (hfresh : n.heap.Fresh) : Disciplined p (enIpInputActs bound n pkt) := by
  unfold enIpInputActs
  refine (accesses_access hp).bind_disciplined fun _ _ ↦ ?_
  refine Disciplined.early fun _ ↦ ?_
  refine (accesses_ocksum16Acts hp _ _).bind_disciplined fun sum _ ↦ ?_
  by_cases hsum : sum ≠ 0xFFFF
  · rw [if_pos hsum]
    exact (accesses_access hp).bind_disciplined fun _ _ ↦ disciplined_pure _
  rw [if_neg hsum]
  refine (accesses_access hp).bind_disciplined fun _ _ ↦ ?_
  refine Accesses.bind_disciplined (accesses_access (by exact hp)) fun _ _ ↦ ?_
  show Disciplined p (if ipIhl (ipToHost pkt.data) < 5 ∨
      (ipLen (ipToHost pkt.data)).toUInt32 ≠ (hostPkt pkt).len then pure (-1, n)
    else ipDispatchActs bound n (hostPkt pkt))
  exact Disciplined.early fun _ ↦ disciplined_ipDispatchActs hp hlive hfresh

theorem disciplined_enEthInputActs (hp : pkt.addr = p) (hlive : n.heap.live p = true)
    (hfresh : n.heap.Fresh) : Disciplined p (enEthInputActs bound n pkt) := by
  unfold enEthInputActs
  refine (accesses_access hp).bind_disciplined fun _ _ ↦ ?_
  refine (accesses_pktDelHeadActs hp _).bind_disciplined fun ⟨rc, q⟩ hq ↦ ?_
  have hq : q.addr = p := (addr_of_pktDelHeadActs hq).trans hp
  dsimp only
  split_ifs
  · exact Disciplined.bind_return (disciplined_enArpInputActs hq) fun _ ↦ rfl
  · exact Disciplined.bind_return (disciplined_enIpInputActs hq hlive hfresh) fun _ ↦ rfl
  · exact disciplined_pktFreeActs hq

end Path

/-! ## The theorem -/

/-- **No double disposal.** At every point of the execution of `en_eth_input`, whatever the frame,
the tables and the outcomes of the allocations, and whether or not it ends, the frame has been freed
or queued at most once, and nothing has been done to it or its data since. -/
theorem disposed_once (bound : ℕ → ℕ) {n : Net} {pkt : EnNetPkt}
    (hlive : n.heap.live pkt.addr = true) (hfresh : n.heap.Fresh) :
    (enEthInputActs bound n pkt).result = enEthInput bound n pkt ∧
      ∀ l, l <+: (enEthInputActs bound n pkt).trace →
        l.countP (PktAct.Disposes pkt.addr ·) ≤ 1 ∧
        ∀ l₁ a l₂, l = l₁ ++ a :: l₂ → PktAct.Disposes pkt.addr a →
          ∀ b ∈ l₂, ¬PktAct.Touches pkt.addr b := by
  refine ⟨result_enEthInputActs bound n pkt, fun l hl ↦ ?_⟩
  have horder : Orderly (PktAct.Disposes pkt.addr) (PktAct.Touches pkt.addr) l :=
    (disciplined_enEthInputActs rfl hlive hfresh).of_initial hl
  refine ⟨horder.countP_le_one fun _ ↦ PktAct.Disposes.touches, ?_⟩
  rintro l₁ a l₂ rfl ha
  exact horder.after ha

/-- The network of `bootNet`, which knows 192.168.0.1 and has a packet in use. -/
def receivingNet : Net :=
  { bootNet with
    arpCache := [⟨fun _ ↦ 2, 0xC0A80001, 0⟩]
    heap := ⟨fun i ↦ 0x10000 + 0x1000 * i, fun p ↦ p = 0x5000⟩ }

/-- An echo request as it is received. -/
def pingFrame : EnNetPkt where
  addr := 0x5000
  data := fun i ↦
    if i < 14 then [2, 0, 0, 0, 0, 99, 2, 2, 2, 2, 2, 2, 8, 0].getD i 0
    else (pingPkt 28 0xF9 0x2C).data (i - 14)
  len := 60
  allocated := 60
  ethIf := 0x100

/-- The request is answered. -/
theorem disposed_once_ping :
    (enEthInputActs halfUp receivingNet pingFrame).result =
        enEthInput halfUp receivingNet pingFrame ∧
      ∀ l, l <+: (enEthInputActs halfUp receivingNet pingFrame).trace →
        l.countP (PktAct.Disposes 0x5000 ·) ≤ 1 ∧
        ∀ l₁ a l₂, l = l₁ ++ a :: l₂ → PktAct.Disposes 0x5000 a →
          ∀ b ∈ l₂, ¬PktAct.Touches 0x5000 b := by
  refine disposed_once halfUp (by decide) fun i _ ↦ decide_eq_false ?_
  show 0x10000 + 0x1000 * i ≠ 0x5000
  omega

example : (enEthInputActs halfUp receivingNet pingFrame).trace.getLast? = some (.queue 0x5000) := by
  decide +kernel

end Ertos
