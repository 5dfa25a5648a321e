import Ertos.Net.Cksum

/-!
# Length validation

`en_ip_input` compares the header length with the length of the packet first. Then it cuts a padded
packet to the total length in its header, and what it checks after that is only that the header has
five words and that the total length is the length of the packet. So a padded packet with a total
length below its own header length is passed on, with a length from which ICMP and UDP subtract more
than there is.
-/

namespace Ertos

inductive UpperLayer
  | icmp
  | udp
  deriving DecidableEq

def UpperLayer.proto : UpperLayer → UInt8
  | .icmp => ipProtoIcmp
  | .udp => ipProtoUdp

/-- The upper layer that `en_ip_input` calls, and the packet it is called with. -/
def ipUpperCall (pkt : EnNetPkt) : Option (UpperLayer × EnNetPkt) :=
  let d := pkt.data
  if pkt.len < ipIhl d * 4 then none
  else do
    let sum ← ocksum16 halfUp d 0 (ipIhl d * 4)
    if sum ≠ 0xFFFF then none
    else
      let d := ipToHost d
      let len := if pkt.len = 46 ∧ ipLen d < 46 then (ipLen d).toUInt32 else pkt.len
      let pkt := { pkt with data := d, len := len }
      if ipIhl d < 5 ∨ (ipLen d).toUInt32 ≠ pkt.len then none
      else if ipProto d = ipProtoIcmp then some (.icmp, pkt)
      else if ipProto d = ipProtoUdp then some (.udp, pkt)
      else none

/-- What the upper layers rely on: the lengths fit together, and the differences they form are those
of the numbers. -/
structure LengthsSafe (pkt : EnNetPkt) : Prop where
  ihl : 20 ≤ (ipIhl pkt.data * 4).toNat
  inside : (ipIhl pkt.data * 4).toNat ≤ pkt.len.toNat
  total : (ipLen pkt.data).toUInt32 = pkt.len
  icmp : ((pkt.len - ipIhl pkt.data * 4).toNat : ℤ) = pkt.len.toNat - (ipIhl pkt.data * 4).toNat
  udp : 0 ≤ ((ipLen pkt.data).toNat : ℤ) - (ipIhl pkt.data * 4).toNat

/-- A padded packet whose header gives a total length less than that of the header itself. -/
structure Undercut (pkt : EnNetPkt) : Prop where
  padded : pkt.len = 46
  total : (enNtohs (get16 pkt.data 2)).toNat < (ipIhl pkt.data * 4).toNat

/-- The packets that are passed to an upper layer. -/
structure IpPassed (pkt : EnNetPkt) : Prop where
  accepted : IpAccepted pkt
  proto : ipProto pkt.data = ipProtoIcmp ∨ ipProto pkt.data = ipProtoUdp

/-! ## The call -/

section Call

variable {n : Net} {pkt q : EnNetPkt} {layer : UpperLayer}

theorem ipUpperCall_def : ipUpperCall pkt =
    if pkt.len < ipIhl pkt.data * 4 then none
    else (ocksum16 halfUp pkt.data 0 (ipIhl pkt.data * 4)).bind fun sum ↦
      if sum ≠ 0xFFFF then none
      else if ipIhl (ipToHost pkt.data) < 5 ∨
          (ipLen (ipToHost pkt.data)).toUInt32 ≠ (hostPkt pkt).len then none
      else if ipProto (ipToHost pkt.data) = ipProtoIcmp then some (.icmp, hostPkt pkt)
      else if ipProto (ipToHost pkt.data) = ipProtoUdp then some (.udp, hostPkt pkt)
      else none := rfl

theorem cksum_ipHdr_ends (d : Bytes) :
    ocksum16 halfUp d 0 (ipIhl d * 4) = some (cksum d 0 (ipPayload d / 2)) := by
  rw [ocksum16_ipHdr, if_pos (ipPayload_le_halfUp d)]

theorem ipUpperCall_accepted (h : IpAccepted pkt) : ipUpperCall pkt =
    if ipProto pkt.data = ipProtoIcmp then some (.icmp, hostPkt pkt)
    else if ipProto pkt.data = ipProtoUdp then some (.udp, hostPkt pkt)
    else none := by
  have hpass : ¬(ipIhl (ipToHost pkt.data) < 5 ∨
      (ipLen (ipToHost pkt.data)).toUInt32 ≠ (hostPkt pkt).len) := by
    rw [ipIhl_ipToHost, ipLen_ipToHost, not_or, not_not]
    exact ⟨UInt32.not_lt.mpr h.ihl, h.total⟩
  rw [ipUpperCall_def, if_neg (UInt32.not_lt.mpr h.len), cksum_ipHdr_ends, Option.bind_some,
    if_neg (not_not.mpr h.cksum), if_neg hpass, ipProto_ipToHost]

theorem ipUpperCall_rejected (h : ¬IpAccepted pkt) : ipUpperCall pkt = none := by
  by_contra hcall
  rw [ipUpperCall_def, cksum_ipHdr_ends, Option.bind_some] at hcall
  by_cases hlen : pkt.len < ipIhl pkt.data * 4
  · exact hcall (if_pos hlen)
  rw [if_neg hlen] at hcall
  by_cases hsum : cksum pkt.data 0 (ipPayload pkt.data / 2) = 0xFFFF
  · rw [if_neg (not_not.mpr hsum)] at hcall
    by_cases hpass : ipIhl (ipToHost pkt.data) < 5 ∨
        (ipLen (ipToHost pkt.data)).toUInt32 ≠ (hostPkt pkt).len
    · exact hcall (if_pos hpass)
    · rw [ipIhl_ipToHost, ipLen_ipToHost, not_or, not_not] at hpass
      exact h ⟨UInt32.not_lt.mp hlen, hsum, UInt32.not_lt.mp hpass.1, hpass.2⟩
  · exact hcall (if_pos hsum)

/-- **The call is the one that is made.** -/
theorem enIpInput_eq_upper (n : Net) (pkt : EnNetPkt) :
    (∃ q, ipUpperCall pkt = some (.icmp, q) ∧
      enIpInput halfUp n pkt = (enIcmpInput halfUp n q).bind fun r ↦ some (0, r.2)) ∨
    (∃ q, ipUpperCall pkt = some (.udp, q) ∧
      enIpInput halfUp n pkt = some (0, (enUdpInput n q).2)) ∨
    (ipUpperCall pkt = none ∧ ∃ rc, enIpInput halfUp n pkt = some (rc, n)) := by
  by_cases h : IpAccepted pkt
  · have hproto : ipProto (hostPkt pkt).data = ipProto pkt.data := ipProto_ipToHost pkt.data
    rw [ipUpperCall_accepted h, enIpInput_accepted h, if_pos (ipPayload_le_halfUp pkt.data),
      ipDispatch, hproto]
    split_ifs with hicmp hudp
    · exact Or.inl ⟨hostPkt pkt, rfl, rfl⟩
    · exact Or.inr (Or.inl ⟨hostPkt pkt, rfl, rfl⟩)
    · exact Or.inr (Or.inr ⟨rfl, 0, rfl⟩)
  · exact Or.inr (Or.inr ⟨ipUpperCall_rejected h, -1, enIpInput_of_not_accepted h⟩)

/-- Just the accepted packets of the two protocols are passed on, as `hostPkt`. -/
theorem ipUpperCall_eq_some_iff : ipUpperCall pkt = some (layer, q) ↔
    IpAccepted pkt ∧ ipProto pkt.data = layer.proto ∧ q = hostPkt pkt := by
  have hne : ipProtoUdp ≠ ipProtoIcmp := by decide
  by_cases h : IpAccepted pkt
  · rw [ipUpperCall_accepted h]
    cases layer with
    | icmp =>
      rw [UpperLayer.proto]
      split_ifs with hicmp hudp <;> simp [h, hicmp, eq_comm]
    | udp =>
      rw [UpperLayer.proto]
      split_ifs with hicmp hudp
      · simp [hicmp, hne.symm]
      · simp [h, hudp, eq_comm]
      · simp [hudp]
  · rw [ipUpperCall_rejected h]
    exact iff_of_false (Option.some_ne_none _).symm fun hpassed ↦ h hpassed.1

end Call

/-! ## The lengths -/

section Lengths

variable {pkt : EnNetPkt}

theorem IpAccepted.toNat_len (h : IpAccepted pkt) :
    (hostPkt pkt).len.toNat = (enNtohs (get16 pkt.data 2)).toNat := by
  rw [← h.total, UInt16.toNat_toUInt32]

/-- **The lengths are safe** when the header ends within the length that is passed on. -/
theorem lengthsSafe_hostPkt_iff (h : IpAccepted pkt) :
    LengthsSafe (hostPkt pkt) ↔ ipPayload pkt.data ≤ (hostPkt pkt).len.toNat := by
  have hihl : ipIhl (hostPkt pkt).data = ipIhl pkt.data := ipIhl_ipToHost pkt.data
  have htotal : ipLen (hostPkt pkt).data = enNtohs (get16 pkt.data 2) := ipLen_ipToHost pkt.data
  have hfive : 5 ≤ (ipIhl pkt.data).toNat := h.ihl
  have hpayload := ipPayload_eq pkt.data
  constructor
  · intro hsafe
    have hinside := hsafe.inside
    rwa [hihl] at hinside
  · intro hinside
    have hle : ipIhl pkt.data * 4 ≤ (hostPkt pkt).len := hinside
    refine ⟨?_, ?_, ?_, ?_, ?_⟩
    · rw [hihl, ← ipPayload]
      omega
    · rwa [hihl, ← ipPayload]
    · rw [htotal, h.total]
    · rw [hihl, UInt32.toNat_sub_of_le _ _ hle, ← ipPayload]
      omega
    · rw [hihl, htotal, ← h.toNat_len, ← ipPayload]
      omega

/-- **The cut decides.** The header of an accepted packet ended within the packet as it arrived. -/
theorem payload_le_iff (h : IpAccepted pkt) :
    ipPayload pkt.data ≤ (hostPkt pkt).len.toNat ↔ ¬Undercut pkt := by
  have harrived : ipPayload pkt.data ≤ pkt.len.toNat := h.len
  constructor
  · intro hle hcut
    have hlt := hcut.total
    rw [← h.toNat_len, ← ipPayload] at hlt
    omega
  · intro hcut
    by_cases hpadded : pkt.len = 46
    · by_contra hlt
      refine hcut ⟨hpadded, ?_⟩
      rw [← h.toNat_len, ← ipPayload]
      omega
    · have hlen : (hostPkt pkt).len = pkt.len := if_neg fun hcut ↦ hpadded hcut.1
      rwa [hlen]

end Lengths

/-- **Length validation, exactly.** Whenever `en_ip_input` calls ICMP or UDP, the lengths are
safe, if and only if the packet is not one that is passed on with a total length below its
header length. -/
theorem upper_lengths_safe_iff (pkt : EnNetPkt) :
    (∀ layer q, ipUpperCall pkt = some (layer, q) → LengthsSafe q) ↔
      ¬(IpPassed pkt ∧ Undercut pkt) := by
  constructor
  · rintro hsafe ⟨⟨haccepted, hproto⟩, hcut⟩
    obtain ⟨layer, hlayer⟩ : ∃ layer : UpperLayer, ipProto pkt.data = layer.proto :=
      hproto.elim (fun hicmp ↦ ⟨.icmp, hicmp⟩) fun hudp ↦ ⟨.udp, hudp⟩
    have hhost := hsafe layer _ (ipUpperCall_eq_some_iff.mpr ⟨haccepted, hlayer, rfl⟩)
    exact (payload_le_iff haccepted).mp ((lengthsSafe_hostPkt_iff haccepted).mp hhost) hcut
  · intro hpassed layer q hcall
    obtain ⟨haccepted, hlayer, rfl⟩ := ipUpperCall_eq_some_iff.mp hcall
    have hproto : ipProto pkt.data = ipProtoIcmp ∨ ipProto pkt.data = ipProtoUdp := by
      cases layer with
      | icmp => exact Or.inl hlayer
      | udp => exact Or.inr hlayer
    refine (lengthsSafe_hostPkt_iff haccepted).mpr ((payload_le_iff haccepted).mpr fun hcut ↦ ?_)
    exact hpassed ⟨⟨haccepted, hproto⟩, hcut⟩

/-- A packet of 46 bytes whose header has five words and gives a total length of ten bytes. -/
def undercutPkt : EnNetPkt where
  addr := 0x5000
  data := fun i ↦ [0x45, 0, 0, 10, 0, 0, 0, 0, 64, 1, 0xF9, 0x3E, 192, 168, 0, 1,
    192, 168, 0, 99].getD i 0
  len := 46
  allocated := 60
  ethIf := 0x100

/-- **ICMP is called with less than a header**, and computes a checksum over four gigabytes. -/
theorem undercut_passed : (20 : UInt32) ≤ undercutPkt.len ∧
    ∃ q, ipUpperCall undercutPkt = some (.icmp, q) ∧ q.len = 10 ∧ ipIhl q.data * 4 = 20 ∧
      q.len - ipIhl q.data * 4 = 4294967286 ∧ ¬LengthsSafe q := by
  have haccepted : IpAccepted undercutPkt := ⟨by decide, by decide, by decide, by decide⟩
  refine ⟨by decide, hostPkt undercutPkt, ipUpperCall_eq_some_iff.mpr ⟨haccepted, by decide, rfl⟩,
    by decide, by decide, by decide, fun hsafe ↦ ?_⟩
  exact absurd hsafe.inside (by decide)

end Ertos
