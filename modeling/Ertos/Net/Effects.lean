import Ertos.Net.Frame
import Mathlib.Logic.Relation

/-!
# What the handling of a frame can do

Whatever a frame has in it, `en_eth_input` allocates and frees, puts packets on transmit queues, and
adds entries to the ARP cache, and does nothing else. A relation that these effects preserve is
therefore preserved by the handling of a frame.
-/

namespace Ertos

/-- One effect. -/
inductive NetEffect : Net → Net → Prop
  | heap {n : Net} (h : PktHeap) : NetEffect n (n.setHeap h)
  | output {n : Net} (i : Ptr) (pkt : EnNetPkt) (dst : MacAddr) (type : UInt16) :
      NetEffect n (enEthOutput n i pkt dst type)
  | cache {n : Net} (e : EnArpEntry) : NetEffect n (enArpCacheAdd n e)

/-- Some effects, one after the other. -/
abbrev NetEffects : Net → Net → Prop := Relation.ReflTransGen NetEffect

section Effects

variable {n t : Net} {pkt : EnNetPkt} {bound : ℕ → ℕ}

theorem NetEffects.heap (h : PktHeap) : NetEffects n (n.setHeap h) := .single (.heap h)

theorem NetEffects.free (pkt : EnNetPkt) : NetEffects n (n.free pkt) := .heap _

theorem NetEffects.output (i : Ptr) (pkt : EnNetPkt) (dst : MacAddr) (type : UInt16) :
    NetEffects n (enEthOutput n i pkt dst type) := .single (.output i pkt dst type)

theorem enArpRequest_effects (dev : Ptr) (addr : UInt32) :
    NetEffects n (enArpRequest n dev addr).2 := by
  unfold enArpRequest
  dsimp only
  generalize pktAlloc n.heap (9 - 1 + 6 * 4 + 4 * 2 + etherHdrSize) = r
  obtain ⟨p, heap⟩ := r
  cases p with
  | none => exact .heap heap
  | some p => exact (NetEffects.heap heap).tail (.output _ _ _ _)

theorem enArpInputRequest_effects : NetEffects n (enArpInputRequest n pkt).2 := by
  unfold enArpInputRequest
  dsimp only
  cases n.owner (getAddr pkt.data (arpDstProtoOffset pkt.data)) with
  | some i => exact .output _ _ _ _
  | none => exact .free pkt

theorem enArpInputReply_effects : NetEffects n (enArpInputReply n pkt).2 := by
  unfold enArpInputReply
  dsimp only
  cases enArpCacheLookup n.arpCache _ with
  | none =>
    dsimp only
    split_ifs
    · exact (NetEffects.heap _).tail (.heap _)
    · exact ((NetEffects.heap _).tail (.cache _)).tail (.heap _)
  | some e => exact .free pkt

theorem enArpInput_effects : NetEffects n (enArpInput n pkt).2 := by
  unfold enArpInput
  dsimp only
  split_ifs
  · exact .refl
  · exact .refl
  · exact .refl
  · exact .refl
  · exact enArpInputRequest_effects
  · exact enArpInputReply_effects
  · exact .free _

theorem ipSend_effects (rt : EnIpRoute) (hdr : Bytes) (dst : UInt32) :
    NetEffects n (ipSend n rt pkt hdr dst) := by
  unfold ipSend
  cases enArpCacheLookup n.arpCache dst with
  | none => exact enArpRequest_effects _ _
  | some arp => exact (NetEffects.heap _).tail (.output _ _ _ _)

theorem enIpOutput_effects {dst : UInt32} {rc : ℤ} (h : enIpOutput bound n pkt dst = some (rc, t)) :
    NetEffects n t := by
  rcases enIpOutput_some h with ⟨-, rfl⟩ | ⟨rt, hdr, -, rfl⟩
  · exact .refl
  · exact ipSend_effects rt hdr dst

theorem enIcmpInput_effects {rc : ℤ} (h : enIcmpInput bound n pkt = some (rc, t)) :
    NetEffects n t := by
  rw [enIcmpInput_def] at h
  obtain ⟨sum, -, h⟩ := Option.bind_eq_some_iff.mp h
  split_ifs at h
  · obtain rfl := (Prod.mk.inj (Option.some.inj h)).2
    exact .free pkt
  · obtain ⟨sum', -, h⟩ := Option.bind_eq_some_iff.mp h
    obtain ⟨⟨rc', t'⟩, hout, h⟩ := Option.bind_eq_some_iff.mp h
    obtain rfl := (Prod.mk.inj (Option.some.inj h)).2
    exact enIpOutput_effects hout
  · obtain rfl := (Prod.mk.inj (Option.some.inj h)).2
    exact .free pkt

theorem ipDispatch_effects {rc : ℤ} (h : ipDispatch bound n pkt = some (rc, t)) :
    NetEffects n t := by
  unfold ipDispatch at h
  split_ifs at h
  · obtain ⟨⟨rc', t'⟩, hin, h⟩ := Option.bind_eq_some_iff.mp h
    obtain rfl := (Prod.mk.inj (Option.some.inj h)).2
    exact enIcmpInput_effects hin
  · obtain rfl := (Prod.mk.inj (Option.some.inj h)).2
    unfold enUdpInput
    dsimp only
    split_ifs <;> exact .free _
  · obtain rfl := (Prod.mk.inj (Option.some.inj h)).2
    exact .refl

theorem enIpInput_effects {rc : ℤ} (h : enIpInput bound n pkt = some (rc, t)) : NetEffects n t := by
  by_cases hacc : IpAccepted pkt
  · rw [enIpInput_accepted hacc] at h
    split_ifs at h
    exact ipDispatch_effects h
  · obtain rfl := enIpInput_rejected hacc h
    exact .refl

theorem enEthInput_effects (h : enEthInput bound n pkt = some t) : NetEffects n t := by
  have hdef : enEthInput bound n pkt =
      if enNtohs (get16 pkt.data 12) = ethTypeArp then some (enArpInput n (payload pkt)).2
      else if enNtohs (get16 pkt.data 12) = ethTypeIpv4 then
        (enIpInput bound n (payload pkt)).map Prod.snd
      else some (n.free (payload pkt)) := rfl
  rw [hdef] at h
  split_ifs at h
  · obtain rfl := Option.some.inj h
    exact enArpInput_effects
  · obtain ⟨⟨rc, t'⟩, hin, rfl⟩ := Option.map_eq_some_iff.mp h
    exact enIpInput_effects hin
  · obtain rfl := Option.some.inj h
    exact .free _

/-! ## What the effects leave alone -/

/-- An interface still takes frames as it did: it is as bound, and its receive queue is the same. -/
structure SameReceiver (i : Ptr) (n t : Net) : Prop where
  queue : t.queue (.rx i) = n.queue (.rx i)
  bound : (t.ethIf i).bound = (n.ethIf i).bound

theorem NetEffect.sameReceiver (h : NetEffect n t) (i : Ptr) : SameReceiver i n t := by
  cases h with
  | heap h => exact ⟨rfl, rfl⟩
  | output j pkt dst type =>
    obtain ⟨-, -, -, -, -, hother⟩ := enEthOutput_spec n j pkt dst type
    refine ⟨hother (.rx i) PktQueue.noConfusion, ?_⟩
    unfold enEthOutput
    dsimp only
    by_cases hij : i = j
    · subst hij
      rw [Net.ethIf_modifyIf_self]
      rfl
    · rw [Net.ethIf_modifyIf_of_ne _ _ _ hij]
      rfl
  | cache e => exact ⟨rfl, rfl⟩

theorem NetEffects.sameReceiver (h : NetEffects n t) (i : Ptr) : SameReceiver i n t := by
  induction h with
  | refl => exact ⟨rfl, rfl⟩
  | tail _ hstep ih =>
    have hsame := hstep.sameReceiver i
    exact ⟨hsame.queue.trans ih.queue, hsame.bound.trans ih.bound⟩

end Effects

end Ertos
