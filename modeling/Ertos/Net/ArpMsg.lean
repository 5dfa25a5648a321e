import Ertos.Net.Framed

/-!
# ARP messages

What an ARP packet for Ethernet and IPv4 says: who asks or answers, and for whom. `Says d m` relates
the bytes of a packet to a message, addresses in network byte order. The messages that are sent say
what they should, whatever was in the packet before, and `en_arp_input` acts on what a packet says.
-/

namespace Ertos

/-! ## Network byte order -/

theorem and_shiftLeft_mask (x mask k : ℕ) : x &&& mask <<< k = (x >>> k &&& mask) <<< k := by
  refine Nat.eq_of_testBit_eq fun i ↦ ?_
  simp only [Nat.testBit_and, Nat.testBit_shiftLeft, Nat.testBit_shiftRight]
  by_cases hi : k ≤ i
  · simp [hi]
  · simp [hi]

theorem and_byte_mask (x k : ℕ) : x &&& 255 <<< k = x / 2 ^ k % 256 * 2 ^ k := by
  rw [and_shiftLeft_mask, Nat.shiftLeft_eq, Nat.shiftRight_eq_div_pow]
  exact congrArg (· * 2 ^ k) (Nat.and_two_pow_sub_one_eq_mod (x / 2 ^ k) 8)

theorem or_bytes {a b c e : ℕ} (hb : b < 256) (hc : c < 256) (he : e < 256) :
    e ||| c * 2 ^ 8 ||| b * 2 ^ 16 ||| a * 2 ^ 24 =
      a * 2 ^ 24 + b * 2 ^ 16 + c * 2 ^ 8 + e := by
  rw [Nat.mul_comm c, Nat.or_comm e, ← Nat.two_pow_add_eq_or_of_lt (by omega), Nat.mul_comm b,
    Nat.or_comm _ (2 ^ 16 * b), ← Nat.two_pow_add_eq_or_of_lt (by omega), Nat.mul_comm a,
    Nat.or_comm _ (2 ^ 24 * a), ← Nat.two_pow_add_eq_or_of_lt (by omega)]
  omega

theorem toNat_enNtohl (x : UInt32) : (enNtohl x).toNat =
    x.toNat % 256 * 2 ^ 24 + x.toNat / 2 ^ 8 % 256 * 2 ^ 16 + x.toNat / 2 ^ 16 % 256 * 2 ^ 8 +
      x.toNat / 2 ^ 24 := by
  have hlt := x.toNat_lt
  have h₀ : ((x &&& 0xFF000000) >>> 24).toNat = x.toNat / 2 ^ 24 := by
    rw [UInt32.toNat_shiftRight, UInt32.toNat_and]
    show (x.toNat &&& 255 <<< 24) >>> 24 = _
    rw [and_byte_mask, Nat.shiftRight_eq_div_pow]
    omega
  have h₁ : ((x &&& 0x00FF0000) >>> 8).toNat = x.toNat / 2 ^ 16 % 256 * 2 ^ 8 := by
    rw [UInt32.toNat_shiftRight, UInt32.toNat_and]
    show (x.toNat &&& 255 <<< 16) >>> 8 = _
    rw [and_byte_mask, Nat.shiftRight_eq_div_pow]
    omega
  have h₂ : ((x &&& 0x0000FF00) <<< 8).toNat = x.toNat / 2 ^ 8 % 256 * 2 ^ 16 := by
    rw [UInt32.toNat_shiftLeft, UInt32.toNat_and]
    show ((x.toNat &&& 255 <<< 8) <<< 8) % 2 ^ 32 = _
    rw [and_byte_mask, Nat.shiftLeft_eq]
    omega
  have h₃ : ((x &&& 0x000000FF) <<< 24).toNat = x.toNat % 256 * 2 ^ 24 := by
    rw [UInt32.toNat_shiftLeft, UInt32.toNat_and]
    show ((x.toNat &&& 255 <<< 0) <<< 24) % 2 ^ 32 = _
    rw [and_byte_mask, Nat.shiftLeft_eq]
    omega
  rw [enNtohl, UInt32.toNat_or, UInt32.toNat_or, UInt32.toNat_or, h₀, h₁, h₂, h₃,
    or_bytes (by omega) (by omega) (by omega)]

theorem toNat_get32 (d : Bytes) (i : ℕ) : (get32 d i).toNat =
    (d i).toNat + 2 ^ 8 * (d (i + 1)).toNat + 2 ^ 16 * (d (i + 2)).toNat +
      2 ^ 24 * (d (i + 3)).toNat := by
  have h₀ := (d i).toNat_lt
  have h₁ := (d (i + 1)).toNat_lt
  have h₂ := (d (i + 2)).toNat_lt
  have h₃ := (d (i + 3)).toNat_lt
  rw [get32, toNat_get16, toNat_get16, show i + 2 + 1 = i + 3 from rfl, UInt32.toNat_ofNat']
  omega

theorem toNat_getAddr (d : Bytes) (i : ℕ) : (getAddr d i).toNat =
    (d i).toNat * 2 ^ 24 + (d (i + 1)).toNat * 2 ^ 16 + (d (i + 2)).toNat * 2 ^ 8 +
      (d (i + 3)).toNat := by
  have hbyte : ∀ (x : UInt8) (k : ℕ), k ≤ 24 → x.toNat <<< k % 2 ^ 32 = x.toNat * 2 ^ k := by
    intro x k hk
    have hx := x.toNat_lt
    have hpow : 2 ^ k ≤ 2 ^ 24 := Nat.pow_le_pow_right (by decide) hk
    rw [Nat.shiftLeft_eq]
    refine Nat.mod_eq_of_lt ?_
    calc x.toNat * 2 ^ k ≤ x.toNat * 2 ^ 24 := Nat.mul_le_mul_left _ hpow
      _ < 2 ^ 32 := by omega
  have h₀ : ((d i).toUInt32 <<< 24).toNat = (d i).toNat * 2 ^ 24 := by
    rw [UInt32.toNat_shiftLeft, UInt8.toNat_toUInt32]
    exact hbyte _ 24 (by decide)
  have h₁ : ((d (i + 1)).toUInt32 <<< 16).toNat = (d (i + 1)).toNat * 2 ^ 16 := by
    rw [UInt32.toNat_shiftLeft, UInt8.toNat_toUInt32]
    exact hbyte _ 16 (by decide)
  have h₂ : ((d (i + 2)).toUInt32 <<< 8).toNat = (d (i + 2)).toNat * 2 ^ 8 := by
    rw [UInt32.toNat_shiftLeft, UInt8.toNat_toUInt32]
    exact hbyte _ 8 (by decide)
  rw [getAddr, UInt32.toNat_or, UInt32.toNat_or, UInt32.toNat_or, h₀, h₁, h₂, UInt8.toNat_toUInt32,
    Nat.or_comm, Nat.or_comm _ ((d (i + 2)).toNat * 2 ^ 8), ← Nat.or_assoc,
    Nat.or_comm (_ * 2 ^ 24), ← Nat.or_assoc]
  exact or_bytes (UInt8.toNat_lt _) (UInt8.toNat_lt _) (UInt8.toNat_lt _)

theorem enNtohl_get32 (d : Bytes) (i : ℕ) : enNtohl (get32 d i) = getAddr d i := by
  have h₀ := (d i).toNat_lt
  have h₁ := (d (i + 1)).toNat_lt
  have h₂ := (d (i + 2)).toNat_lt
  have h₃ := (d (i + 3)).toNat_lt
  rw [← UInt32.toNat_inj, toNat_enNtohl, toNat_get32, toNat_getAddr]
  omega

theorem enNtohl_enNtohl (x : UInt32) : enNtohl (enNtohl x) = x := by
  have hlt := x.toNat_lt
  have hback : ∀ a b c e : ℕ, a < 256 → b < 256 → c < 256 → e < 256 →
      ∀ y, y = a * 2 ^ 24 + b * 2 ^ 16 + c * 2 ^ 8 + e →
        y % 256 * 2 ^ 24 + y / 2 ^ 8 % 256 * 2 ^ 16 + y / 2 ^ 16 % 256 * 2 ^ 8 + y / 2 ^ 24 =
          e * 2 ^ 24 + c * 2 ^ 16 + b * 2 ^ 8 + a := by
    intro a b c e ha hb hc he y hy
    omega
  rw [← UInt32.toNat_inj, toNat_enNtohl (enNtohl x), hback _ _ _ _ (by omega) (by omega) (by omega)
    (by omega) _ (toNat_enNtohl x)]
  omega

theorem getAddr_set32 (d : Bytes) (i : ℕ) (v : UInt32) : getAddr (set32 d i (enNtohl v)) i = v := by
  rw [← enNtohl_get32, get32_set32, enNtohl_enNtohl]

theorem getAddr_congr {d e : Bytes} {i i' : ℕ} (h : ∀ j < 4, d (i + j) = e (i' + j)) :
    getAddr d i = getAddr e i' := by
  have h₀ : d i = e i' := h 0 (by decide)
  rw [getAddr, getAddr, h₀, h 1 (by decide), h 2 (by decide), h 3 (by decide)]

/-! ## Messages -/

structure ArpMsg where
  op : UInt16
  srcHrd : MacAddr
  srcProto : UInt32
  dstHrd : MacAddr
  dstProto : UInt32

/-- The message in a packet. -/
def arpMsg (d : Bytes) : ArpMsg where
  op := enNtohs (get16 d 6)
  srcHrd := fun j ↦ d (8 + j)
  srcProto := getAddr d 14
  dstHrd := fun j ↦ d (18 + j)
  dstProto := getAddr d 24

/-- The bytes say this, in network byte order. -/
structure Says (d : Bytes) (m : ArpMsg) : Prop where
  hrd : enNtohs (get16 d 0) = arpHrdEthernet
  proto : enNtohs (get16 d 2) = ethTypeIpv4
  hlen : d 4 = 6
  plen : d 5 = 4
  op : enNtohs (get16 d 6) = m.op
  srcHrd : ∀ j < 6, d (8 + j) = m.srcHrd j
  srcProto : getAddr d 14 = m.srcProto
  dstHrd : ∀ j < 6, d (18 + j) = m.dstHrd j
  dstProto : getAddr d 24 = m.dstProto

/-- A message is in the first 28 bytes. -/
theorem Says.congr {d d' : Bytes} {m : ArpMsg} (h : Says d m) (heq : ∀ j < 28, d' j = d j) :
    Says d' m where
  hrd := (get16_congr (heq 0 (by decide)) (heq 1 (by decide))).symm ▸ h.hrd
  proto := (get16_congr (heq 2 (by decide)) (heq 3 (by decide))).symm ▸ h.proto
  hlen := (heq 4 (by decide)).trans h.hlen
  plen := (heq 5 (by decide)).trans h.plen
  op := (get16_congr (heq 6 (by decide)) (heq 7 (by decide))).symm ▸ h.op
  srcHrd := fun j hj ↦ (heq (8 + j) (by omega)).trans (h.srcHrd j hj)
  srcProto := (getAddr_congr fun j hj ↦ heq (14 + j) (by omega)).trans h.srcProto
  dstHrd := fun j hj ↦ (heq (18 + j) (by omega)).trans (h.dstHrd j hj)
  dstProto := (getAddr_congr fun j hj ↦ heq (24 + j) (by omega)).trans h.dstProto

theorem Says.wellFormed {pkt : EnNetPkt} {m : ArpMsg} (h : Says pkt.data m) (hlen : 28 ≤ pkt.len) :
    ArpWellFormed pkt := ⟨hlen, h.hrd, h.proto, h.hlen, h.plen⟩

/-! ## Offsets -/

section Offsets

variable {d : Bytes} (hhlen : d 4 = 6) (hplen : d 5 = 4)

include hhlen in
theorem arpSrcProtoOffset_eq : arpSrcProtoOffset d = 14 := by
  rw [arpSrcProtoOffset, arpHlen, hhlen]
  rfl

include hhlen hplen in
theorem arpDstHrdOffset_eq : arpDstHrdOffset d = 18 := by
  rw [arpDstHrdOffset, arpHlen, arpPlen, hhlen, hplen]
  rfl

include hhlen hplen in
theorem arpDstProtoOffset_eq : arpDstProtoOffset d = 24 := by
  rw [arpDstProtoOffset, arpHlen, arpPlen, hhlen, hplen]
  rfl

end Offsets

section Writes

variable (d src : Bytes) {i j n : ℕ}

theorem setBytes_of_lt (h : j < i) : setBytes d i src n j = d j := if_neg (by omega)

theorem setBytes_of_ge (h : i + n ≤ j) : setBytes d i src n j = d j := if_neg (by omega)

theorem setBytes_add (h : j < n) : setBytes d i src n (i + j) = src j := by
  rw [setBytes, if_pos (by omega), Nat.add_sub_cancel_left]

theorem arpSwap_of_ge (h : 8 ≤ j) : arpSwap d j = d j := by
  unfold arpSwap
  rw [set16_of_ne _ _ _ _ (by omega) (by omega), set16_of_ne _ _ _ _ (by omega) (by omega),
    set16_of_ne _ _ _ _ (by omega) (by omega)]

theorem get16_arpSwap_op : get16 (arpSwap d) 6 = enNtohs (get16 d 6) := by
  unfold arpSwap
  rw [get16_set16, get16_set16_of_ne _ _ _ _ (by decide), get16_set16_of_ne _ _ _ _ (by decide)]

end Writes

/-! ## What is sent -/

section Sent

variable (n : Net) (d : Bytes)

/-- The part of a request in front of its addresses. -/
def requestHdr (d : Bytes) : Bytes :=
  set16 (Function.update (Function.update (set16 (set16 d 0 (enHtons arpHrdEthernet)) 2
    (enHtons ethTypeIpv4)) 4 6) 5 4) 6 (enHtons arpOpRequest)

theorem arpRequestData_eq (dev : Ptr) (addr : UInt32) : arpRequestData n dev addr d =
    set32 (set32 (setBytes (setBytes (requestHdr d) 18 (fun _ ↦ 0xFF) 6) 8 (n.ethIf dev).addr 6) 24
      (enNtohl addr)) 14 (enNtohl (n.firstAddr dev)) := by
  have hhlen : requestHdr d 4 = 6 := by
    rw [requestHdr, set16_of_ne _ _ _ _ (by decide) (by decide), Function.update_of_ne (by decide),
      Function.update_self]
  have hplen : requestHdr d 5 = 4 := by
    rw [requestHdr, set16_of_ne _ _ _ _ (by decide) (by decide), Function.update_self]
  unfold arpRequestData
  dsimp only
  rw [← requestHdr, arpDstHrdOffset_eq hhlen hplen, arpSrcHrdOffset, arpDataOffset]
  set d₁ := setBytes (requestHdr d) 18 (fun _ ↦ 0xFF) 6
  set d₂ := setBytes d₁ 8 (n.ethIf dev).addr 6
  have hkeep : ∀ j < 8, d₂ j = requestHdr d j := fun j hj ↦
    (setBytes_of_lt _ _ hj).trans (setBytes_of_lt _ _ (by omega))
  have hhlen₂ : d₂ 4 = 6 := (hkeep 4 (by decide)).trans hhlen
  have hplen₂ : d₂ 5 = 4 := (hkeep 5 (by decide)).trans hplen
  rw [arpDstProtoOffset_eq hhlen₂ hplen₂, arpSrcProtoOffset_eq]
  rw [set32_of_lt _ _ _ _ (by decide)]
  exact hhlen₂

theorem says_arpRequestData (dev : Ptr) (addr : UInt32) : Says (arpRequestData n dev addr d)
    ⟨arpOpRequest, (n.ethIf dev).addr, n.firstAddr dev, fun _ ↦ 0xFF, addr⟩ := by
  rw [arpRequestData_eq]
  set d₁ := setBytes (requestHdr d) 18 (fun _ ↦ 0xFF) 6 with hd₁
  set d₂ := setBytes d₁ 8 (n.ethIf dev).addr 6 with hd₂
  set d₃ := set32 d₂ 24 (enNtohl addr) with hd₃
  set d₄ := set32 d₃ 14 (enNtohl (n.firstAddr dev)) with hd₄
  have hhdr : ∀ j < 8, d₄ j = requestHdr d j := by
    intro j hj
    rw [hd₄, set32_of_lt _ _ _ _ (by omega), hd₃, set32_of_lt _ _ _ _ (by omega), hd₂,
      setBytes_of_lt _ _ hj, hd₁, setBytes_of_lt _ _ (by omega)]
  have hget : ∀ j, j + 1 < 8 → get16 d₄ j = get16 (requestHdr d) j := fun j hj ↦
    get16_congr (hhdr j (by omega)) (hhdr (j + 1) hj)
  have hmid : ∀ (f : Bytes) (j : ℕ), j + 1 < 4 ∨ 5 < j →
      get16 (Function.update (Function.update f 4 6) 5 4) j = get16 f j := fun f j hj ↦
    get16_congr
      ((Function.update_of_ne (by omega) _ _).trans (Function.update_of_ne (by omega) _ _))
      ((Function.update_of_ne (by omega) _ _).trans (Function.update_of_ne (by omega) _ _))
  refine ⟨?_, ?_, ?_, ?_, ?_, fun j hj ↦ ?_, getAddr_set32 _ _ _, fun j hj ↦ ?_, ?_⟩
  · rw [hget 0 (by decide), requestHdr, get16_set16_of_ne _ _ _ _ (by decide), hmid _ _ (by decide),
      get16_set16_of_ne _ _ _ _ (by decide), get16_set16, enHtons, enNtohs_enNtohs]
  · rw [hget 2 (by decide), requestHdr, get16_set16_of_ne _ _ _ _ (by decide), hmid _ _ (by decide),
      get16_set16, enHtons, enNtohs_enNtohs]
  · rw [hhdr 4 (by decide), requestHdr, set16_of_ne _ _ _ _ (by decide) (by decide),
      Function.update_of_ne (by decide), Function.update_self]
  · rw [hhdr 5 (by decide), requestHdr, set16_of_ne _ _ _ _ (by decide) (by decide),
      Function.update_self]
  · rw [hget 6 (by decide), requestHdr, get16_set16, enHtons, enNtohs_enNtohs]
  · rw [hd₄, set32_of_lt _ _ _ _ (by omega), hd₃, set32_of_lt _ _ _ _ (by omega), hd₂,
      setBytes_add _ _ hj]
  · rw [hd₄, set32_of_ge _ _ _ _ (by omega), hd₃, set32_of_lt _ _ _ _ (by omega), hd₂,
      setBytes_of_ge _ _ (by omega), hd₁, setBytes_add _ _ hj]
  · rw [getAddr_congr (e := d₃) fun j hj ↦ set32_of_ge _ _ _ _ (by omega)]
    exact getAddr_set32 _ _ _

/-- The answer to a message, from the interface `i`. -/
def ArpMsg.reply (m : ArpMsg) (n : Net) (i : Ptr) : ArpMsg :=
  ⟨arpOpReply, (n.ethIf i).addr, m.dstProto, m.srcHrd, m.srcProto⟩

/-- The sender of a request made the target hardware address of the reply. -/
def replyDstHrd (d : Bytes) : Bytes :=
  setBytes (set16 d 6 arpOpReply) 18 (fun j ↦ set16 d 6 arpOpReply (8 + j)) 6

/-- And its protocol address. -/
def replyDst (d : Bytes) : Bytes :=
  setBytes (replyDstHrd d) 24 (fun j ↦ replyDstHrd d (14 + j)) 4

theorem arpReplyData_eq (i : Ptr) (addr : UInt32) (hhlen : d 4 = 6) (hplen : d 5 = 4) :
    arpReplyData n i addr d =
      set32 (setBytes (replyDst d) 8 (n.ethIf i).addr 6) 14 (enHtonl addr) := by
  have hhlen₁ : set16 d 6 arpOpReply 4 = 6 :=
    (set16_of_ne _ _ _ _ (by decide) (by decide)).trans hhlen
  have hplen₁ : set16 d 6 arpOpReply 5 = 4 :=
    (set16_of_ne _ _ _ _ (by decide) (by decide)).trans hplen
  have hhlen₂ : replyDstHrd d 4 = 6 := (setBytes_of_lt _ _ (by decide)).trans hhlen₁
  have hplen₂ : replyDstHrd d 5 = 4 := (setBytes_of_lt _ _ (by decide)).trans hplen₁
  have hhlen₃ : replyDst d 4 = 6 := (setBytes_of_lt _ _ (by decide)).trans hhlen₂
  have hhlen₄ : setBytes (replyDst d) 8 (n.ethIf i).addr 6 4 = 6 :=
    (setBytes_of_lt _ _ (by decide)).trans hhlen₃
  have hsix : (6 : UInt8).toNat = 6 := rfl
  have hfour : (4 : UInt8).toNat = 4 := rfl
  unfold arpReplyData
  dsimp only
  rw [arpDstHrdOffset_eq hhlen₁ hplen₁, arpHlen, hhlen₁, hsix, arpSrcHrdOffset, arpDataOffset,
    ← replyDstHrd, arpDstProtoOffset_eq hhlen₂ hplen₂, arpSrcProtoOffset_eq hhlen₂, arpPlen, hplen₂,
    hfour, ← replyDst, arpHlen, hhlen₃, hsix, arpSrcHrdOffset, arpDataOffset,
    arpSrcProtoOffset_eq hhlen₄]

theorem says_arpReplyData {m : ArpMsg} (h : Says d m) (i : Ptr) :
    Says (arpSwap (arpReplyData n i m.dstProto (arpSwap d))) (m.reply n i) := by
  obtain ⟨hhrd, hproto, hhlen, hplen⟩ := arpSwap_fields d
  rw [arpReplyData_eq _ _ _ _ (hhlen.trans h.hlen) (hplen.trans h.plen)]
  set e := arpSwap d with he
  set r := set32 (setBytes (replyDst e) 8 (n.ethIf i).addr 6) 14 (enHtonl m.dstProto) with hr
  obtain ⟨hhrd', hproto', hhlen', hplen'⟩ := arpSwap_fields r
  have hlow : ∀ j < 8, r j = set16 e 6 arpOpReply j := by
    intro j hj
    rw [hr, set32_of_lt _ _ _ _ (by omega), setBytes_of_lt _ _ hj, replyDst,
      setBytes_of_lt _ _ (by omega), replyDstHrd, setBytes_of_lt _ _ (by omega)]
  have hget : ∀ j, j + 1 < 8 → get16 r j = get16 (set16 e 6 arpOpReply) j := fun j hj ↦
    get16_congr (hlow j (by omega)) (hlow (j + 1) hj)
  have hsrc : ∀ j < 10, replyDstHrd e (8 + j) = d (8 + j) := by
    intro j hj
    rw [replyDstHrd, setBytes_of_lt _ _ (by omega), set16_of_ne _ _ _ _ (by omega) (by omega), he,
      arpSwap_of_ge _ (by omega)]
  have hdst : ∀ j < 10, arpSwap r (18 + j) = d (8 + j) := by
    intro j hj
    rw [arpSwap_of_ge _ (by omega), hr, set32_of_ge _ _ _ _ (by omega),
      setBytes_of_ge _ _ (by omega), replyDst]
    by_cases hj6 : j < 6
    · rw [setBytes_of_lt _ _ (by omega), replyDstHrd, setBytes_add _ _ hj6,
        set16_of_ne _ _ _ _ (by omega) (by omega), he, arpSwap_of_ge _ (by omega)]
    · obtain ⟨k, rfl⟩ := Nat.exists_eq_add_of_le (Nat.le_of_not_lt hj6)
      rw [show 18 + (6 + k) = 24 + k by omega, setBytes_add _ _ (by omega),
        show 14 + k = 8 + (6 + k) by omega, hsrc _ hj]
  refine ⟨?_, ?_, ?_, ?_, ?_, fun j hj ↦ ?_, ?_, fun j hj ↦ ?_, ?_⟩
  · rw [hhrd', enNtohs_enNtohs, hget 0 (by decide), get16_set16_of_ne _ _ _ _ (by decide), hhrd]
    exact h.hrd
  · rw [hproto', enNtohs_enNtohs, hget 2 (by decide), get16_set16_of_ne _ _ _ _ (by decide), hproto]
    exact h.proto
  · rw [hhlen', hlow 4 (by decide), set16_of_ne _ _ _ _ (by decide) (by decide), hhlen]
    exact h.hlen
  · rw [hplen', hlow 5 (by decide), set16_of_ne _ _ _ _ (by decide) (by decide), hplen]
    exact h.plen
  · rw [get16_arpSwap_op, enNtohs_enNtohs, hget 6 (by decide), get16_set16]
    rfl
  · rw [arpSwap_of_ge _ (by omega), hr, set32_of_lt _ _ _ _ (by omega), setBytes_add _ _ hj]
    rfl
  · rw [getAddr_congr (e := r) fun j _ ↦ arpSwap_of_ge _ (by omega)]
    exact getAddr_set32 _ _ _
  · rw [hdst j (by omega)]
    exact h.srcHrd j hj
  · refine (getAddr_congr fun j hj ↦ ?_).trans h.srcProto
    have hmove := hdst (6 + j) (by omega)
    rwa [← Nat.add_assoc, ← Nat.add_assoc] at hmove

end Sent

/-! ## What is understood -/

section Input

variable {n : Net} {pkt : EnNetPkt}

/-- **ARP input** looks at the operation of a well-formed packet. -/
theorem enArpInput_wellFormed (h : ArpWellFormed pkt) : (enArpInput n pkt).2 =
    if (arpMsg pkt.data).op = arpOpRequest then
      (enArpInputRequest n { pkt with data := arpSwap pkt.data }).2
    else if (arpMsg pkt.data).op = arpOpReply then
      (enArpInputReply n { pkt with data := arpSwap pkt.data }).2
    else n.free pkt := by
  obtain ⟨hhrd, hproto, hhlen, hplen⟩ := arpSwap_fields pkt.data
  have hop : (arpMsg pkt.data).op = enNtohs (get16 pkt.data 6) := rfl
  have hlen : ¬pkt.len < 9 - 1 + (arpSwap pkt.data 4).toUInt32 * 2 +
      (arpSwap pkt.data 5).toUInt32 * 2 := by
    rw [hhlen, hplen, h.hlen, h.plen]
    exact UInt32.not_lt.mpr h.len
  have hlens : ¬(arpSwap pkt.data 4 ≠ 6 ∨ arpSwap pkt.data 5 ≠ 4) := by
    rw [hhlen, hplen, h.hlen, h.plen]
    decide
  unfold enArpInput
  dsimp only
  rw [if_neg hlen, if_neg (not_not.mpr (hhrd.trans h.hrd)),
    if_neg (not_not.mpr (hproto.trans h.proto)), if_neg hlens, get16_arpSwap_op, ← hop]
  split_ifs <;> rfl

theorem enArpInput_malformed (h : ¬ArpWellFormed pkt) : (enArpInput n pkt).2 = n := by
  obtain ⟨hhrd, hproto, hhlen, hplen⟩ := arpSwap_fields pkt.data
  unfold enArpInput
  dsimp only
  split_ifs with hlen h₁ h₂ h₃
  · rfl
  · rfl
  · rfl
  · rfl
  all_goals
    rw [not_or, not_not, not_not] at h₃
    rw [h₃.1, h₃.2] at hlen
    exact absurd ⟨UInt32.not_lt.mp hlen, hhrd.symm.trans (not_not.mp h₁),
      hproto.symm.trans (not_not.mp h₂), hhlen.symm.trans h₃.1, hplen.symm.trans h₃.2⟩ h

/-- **A request** for an address of this host is made into the reply, and sent back to
its sender. -/
theorem enArpInputRequest_says {m : ArpMsg} (h : Says pkt.data m) :
    (n.owner m.dstProto = none ∧
      (enArpInputRequest n { pkt with data := arpSwap pkt.data }).2 =
        n.free { pkt with data := arpSwap pkt.data }) ∨
    ∃ i d mac, n.owner m.dstProto = some i ∧ Says d (m.reply n i) ∧ (∀ j < 6, mac j = m.srcHrd j) ∧
      (enArpInputRequest n { pkt with data := arpSwap pkt.data }).2 =
        enEthOutput n pkt.ethIf { pkt with data := d } mac ethTypeArp := by
  obtain ⟨-, -, hhlen, hplen⟩ := arpSwap_fields pkt.data
  have haddr : getAddr (arpSwap pkt.data) (arpDstProtoOffset (arpSwap pkt.data)) = m.dstProto := by
    rw [arpDstProtoOffset_eq (hhlen.trans h.hlen) (hplen.trans h.plen)]
    exact (getAddr_congr fun j _ ↦ arpSwap_of_ge _ (by omega)).trans h.dstProto
  unfold enArpInputRequest
  dsimp only
  rw [haddr]
  cases howner : n.owner m.dstProto with
  | none => exact Or.inl ⟨rfl, rfl⟩
  | some i =>
    right
    have hmsg := says_arpReplyData n pkt.data h i
    set d := arpReplyData n i m.dstProto (arpSwap pkt.data) with hd
    obtain ⟨-, -, hhlen', hplen'⟩ := arpSwap_fields d
    refine ⟨i, arpSwap d, fun j ↦ d (arpDstHrdOffset d + j), rfl, hmsg, fun j hj ↦ ?_, rfl⟩
    rw [arpDstHrdOffset_eq (hhlen'.symm.trans hmsg.hlen) (hplen'.symm.trans hmsg.plen)]
    exact (arpSwap_of_ge d (by omega)).symm.trans (hmsg.dstHrd j hj)

/-- The cache entry made from a reply. -/
def arpEntry (n : Net) (pkt : EnNetPkt) : EnArpEntry :=
  ⟨(arpMsg pkt.data).srcHrd, (arpMsg pkt.data).srcProto, n.clkticks⟩

/-- **A reply** is freed, and its sender added to the cache if it is not there yet and there is
memory. -/
theorem arpCache_enArpInputReply (hhlen : pkt.data 4 = 6) :
    (enArpInputReply n { pkt with data := arpSwap pkt.data }).2.arpCache =
      if enArpCacheLookup n.arpCache (arpMsg pkt.data).srcProto = none ∧
          n.heap.mallocs 0 ≠ NULL then
        arpEntry n pkt :: n.arpCache
      else n.arpCache := by
  obtain ⟨-, -, hhlen', -⟩ := arpSwap_fields pkt.data
  have hproto : enNtohl (get32 (arpSwap pkt.data) (arpSrcProtoOffset (arpSwap pkt.data))) =
      (arpMsg pkt.data).srcProto := by
    rw [arpSrcProtoOffset_eq (hhlen'.trans hhlen), enNtohl_get32]
    exact getAddr_congr fun j _ ↦ arpSwap_of_ge _ (by omega)
  have hhrd : (fun j ↦ arpSwap pkt.data (arpSrcHrdOffset (arpSwap pkt.data) + j)) =
      (arpMsg pkt.data).srcHrd := funext fun j ↦ arpSwap_of_ge pkt.data (Nat.le_add_right 8 j)
  unfold enArpInputReply PktHeap.malloc
  dsimp only
  rw [hproto, hhrd]
  cases enArpCacheLookup n.arpCache (arpMsg pkt.data).srcProto with
  | some e => exact (if_neg fun hboth ↦ Option.some_ne_none e hboth.1).symm
  | none =>
    by_cases hnull : n.heap.mallocs 0 = NULL
    · dsimp only
      rw [if_pos hnull, if_neg fun hboth ↦ hboth.2 hnull]
      rfl
    · dsimp only
      rw [if_neg hnull, if_pos ⟨rfl, hnull⟩]
      rfl

end Input

end Ertos
