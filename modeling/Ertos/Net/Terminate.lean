import Ertos.Net.Ip

/-!
# Whether receive processing ends

`ocksum16` counts its length down by two and stops at zero, so it never stops for an odd length. The
length of an IP header is a multiple of four. That of an ICMP message is whatever the header says:
for a packet that is accepted, `en_ip_input` ends unless it is an ICMP packet of odd length.
-/

namespace Ertos

/-- Half of the length, rounded up. -/
def halfUp (len : ℕ) : ℕ := (len + 1) / 2

/-- `en_ip_input` ends with no checksum loop taking more than one iteration for every two bytes, so
that the loop over the payload reads at most one byte past the end of the packet. -/
structure IpInputEnds (n : Net) (pkt : EnNetPkt) : Prop where
  ends : (enIpInput halfUp n pkt).isSome
  inside : ipPayload pkt.data + 2 * halfUp ((hostPkt pkt).len - ipIhl pkt.data * 4).toNat ≤
    (hostPkt pkt).len.toNat + 1

/-- An ICMP packet whose header gives an odd total length. -/
structure OddIcmp (pkt : EnNetPkt) : Prop where
  proto : ipProto pkt.data = ipProtoIcmp
  odd : (enNtohs (get16 pkt.data 2)).toNat % 2 = 1

section Ends

variable {n : Net} {pkt : EnNetPkt}

theorem cksumEnds_halfUp_iff (len : UInt32) : CksumEnds halfUp len ↔ len.toNat % 2 = 0 := by
  rw [CksumEnds, halfUp]
  omega

theorem payload_parity (h : IpAccepted pkt) :
    ((hostPkt pkt).len - ipIhl pkt.data * 4).toNat % 2 =
      (enNtohs (get16 pkt.data 2)).toNat % 2 := by
  have htotal : (hostPkt pkt).len.toNat = (enNtohs (get16 pkt.data 2)).toNat := by
    rw [← h.total, UInt16.toNat_toUInt32]
  have hsub := UInt32.toNat_sub (hostPkt pkt).len (ipIhl pkt.data * 4)
  have hpayload : (ipIhl pkt.data * 4).toNat = 4 * (ipIhl pkt.data).toNat := ipPayload_eq pkt.data
  have hihl := ipIhl_lt pkt.data
  rw [hpayload, htotal] at hsub
  rw [hsub]
  omega

/-- Any checksum loop over an odd length goes on forever. -/
theorem not_cksumEnds_of_odd {len : UInt32} (h : len.toNat % 2 = 1) (bound : ℕ → ℕ) :
    ¬CksumEnds bound len := by
  rintro ⟨heven, -⟩
  omega

theorem enIcmpInput_isSome (hihl : 5 ≤ ipIhl pkt.data)
    (heven : (pkt.len - ipIhl pkt.data * 4).toNat % 2 = 0) :
    (enIcmpInput halfUp n pkt).isSome := by
  rcases enIcmpInput_ends (n := n) hihl ((cksumEnds_halfUp_iff _).mpr heven) with
    ⟨-, hrun⟩ | ⟨-, rc, hrun⟩
  · have hout : (enIpOutput halfUp n (echoReply pkt) (ipSrc pkt.data)).isSome :=
      enIpOutput_isSome (by decide) (ipSrc pkt.data)
    obtain ⟨r, hr⟩ := Option.isSome_iff_exists.mp hout
    rw [hrun, hr]
    rfl
  · rw [hrun]
    rfl

theorem ipDispatch_isSome (h : IpAccepted pkt) (hodd : ¬OddIcmp pkt) :
    (ipDispatch halfUp n (hostPkt pkt)).isSome := by
  have hproto : ipProto (hostPkt pkt).data = ipProto pkt.data := ipProto_ipToHost pkt.data
  have hihl : ipIhl (hostPkt pkt).data = ipIhl pkt.data := ipIhl_ipToHost pkt.data
  unfold ipDispatch
  split_ifs with hicmp hudp
  · rw [hproto] at hicmp
    have heven : ((hostPkt pkt).len - ipIhl (hostPkt pkt).data * 4).toNat % 2 = 0 := by
      rw [hihl, payload_parity h]
      exact Nat.mod_two_ne_one.mp fun hone ↦ hodd ⟨hicmp, hone⟩
    obtain ⟨r, hr⟩ := Option.isSome_iff_exists.mp
      (enIcmpInput_isSome (n := n) (hihl ▸ h.ihl) heven)
    rw [hr]
    rfl
  · rfl
  · rfl

theorem ipDispatch_eq_none (h : IpAccepted pkt) (hodd : OddIcmp pkt) (bound : ℕ → ℕ) :
    ipDispatch bound n (hostPkt pkt) = none := by
  have hproto : ipProto (hostPkt pkt).data = ipProto pkt.data := ipProto_ipToHost pkt.data
  have hihl : ipIhl (hostPkt pkt).data = ipIhl pkt.data := ipIhl_ipToHost pkt.data
  have hnever : ¬CksumEnds bound ((hostPkt pkt).len - ipIhl (hostPkt pkt).data * 4) := by
    refine not_cksumEnds_of_odd ?_ bound
    rw [hihl, payload_parity h, hodd.odd]
  rw [ipDispatch, if_pos (hproto.trans hodd.proto), enIcmpInput_not_ends hnever]
  rfl

theorem payload_inside (hlen : ipIhl pkt.data * 4 ≤ (hostPkt pkt).len) :
    ipPayload pkt.data + 2 * halfUp ((hostPkt pkt).len - ipIhl pkt.data * 4).toNat ≤
      (hostPkt pkt).len.toNat + 1 := by
  have hle : ipPayload pkt.data ≤ (hostPkt pkt).len.toNat := hlen
  rw [UInt32.toNat_sub_of_le _ _ hlen, ← ipPayload, halfUp]
  omega

/-- **Receive processing ends just in case the packet is not an ICMP packet of odd length.** For an
accepted packet whose header still fits after the cut, `en_ip_input` ends within the bounds of its
checksum loops if and only if that is so, and otherwise it does not end within any bounds. -/
theorem ipInputEnds_iff (h : IpAccepted pkt)
    (hlen : ipIhl pkt.data * 4 ≤ (hostPkt pkt).len) :
    (IpInputEnds n pkt ↔ ¬OddIcmp pkt) ∧
      (OddIcmp pkt → ∀ bound, enIpInput bound n pkt = none) := by
  have hnone : OddIcmp pkt → ∀ bound, enIpInput bound n pkt = none := by
    intro hodd bound
    rw [enIpInput_accepted h, ipDispatch_eq_none h hodd, ite_self]
  refine ⟨⟨fun hends hodd ↦ ?_, fun hodd ↦ ⟨?_, payload_inside hlen⟩⟩, hnone⟩
  · have hsome := hends.ends
    rw [hnone hodd] at hsome
    exact absurd hsome Bool.false_ne_true
  · have hhdr : ipPayload pkt.data / 2 ≤ halfUp (ipPayload pkt.data) := by
      rw [halfUp]
      omega
    rw [enIpInput_accepted h, if_pos hhdr]
    exact ipDispatch_isSome h hodd

end Ends

/-! ## A packet that stops the network -/

/-- An echo request from 192.168.0.1 in a padded frame, with the total length and the checksum of
its header given. -/
def pingPkt (total cksumHigh cksumLow : UInt8) : EnNetPkt where
  addr := 0x5000
  data := fun i ↦ [0x45, 0, 0, total, 0, 0, 0, 0, 64, 1, cksumHigh, cksumLow, 192, 168, 0, 1,
    192, 168, 0, 99, 8, 0, 0xF7, 0xFF].getD i 0
  len := 46
  allocated := 60
  ethIf := 0x100

theorem ipInputEnds_evenPing : IpInputEnds bootNet (pingPkt 28 0xF9 0x2C) := by
  have haccepted : IpAccepted (pingPkt 28 0xF9 0x2C) :=
    ⟨by decide, by decide, by decide, by decide⟩
  exact (ipInputEnds_iff haccepted (by decide)).1.mpr fun hodd ↦ absurd hodd.odd (by decide)

/-- **Nine bytes of ICMP** keep `en_ip_input` in its checksum loop forever. -/
theorem oddPing_never_ends : IpAccepted (pingPkt 29 0xF9 0x2B) ∧
    ipIhl (pingPkt 29 0xF9 0x2B).data * 4 ≤ (hostPkt (pingPkt 29 0xF9 0x2B)).len ∧
    ¬IpInputEnds bootNet (pingPkt 29 0xF9 0x2B) ∧
    ∀ bound, enIpInput bound bootNet (pingPkt 29 0xF9 0x2B) = none := by
  have haccepted : IpAccepted (pingPkt 29 0xF9 0x2B) :=
    ⟨by decide, by decide, by decide, by decide⟩
  have hnone : ∀ bound, enIpInput bound bootNet (pingPkt 29 0xF9 0x2B) = none := by
    intro bound
    rw [enIpInput_accepted haccepted, ipDispatch_eq_none haccepted ⟨by decide, by decide⟩, ite_self]
  refine ⟨haccepted, by decide, fun hends ↦ ?_, hnone⟩
  have hsome := hends.ends
  rw [hnone] at hsome
  exact absurd hsome Bool.false_ne_true

end Ertos
