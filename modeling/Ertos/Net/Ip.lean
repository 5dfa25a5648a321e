import Ertos.Net.Arp

/-!
# IP, ICMP and UDP

`net/trans/ip.c`, `icmp.c` and `udp.c`. The one thing here that may run forever is the checksum, so
the functions that compute one take a bound: the number of iterations granted to a checksum loop
over that many bytes. They return nothing if some loop needs more.
-/

namespace Ertos

/-! ## Header fields -/

def sizeofIpHdr : UInt32 := 20

def ipTtl : UInt8 := 64

def ipProtoIcmp : UInt8 := 0x01

def ipProtoUdp : UInt8 := 0x11

def icmpTypeEcho : UInt8 := 8

def icmpTypeEchoReply : UInt8 := 0

/-- The header length in words, the low half of the first byte. -/
def ipIhl (d : Bytes) : UInt32 := (d 0 &&& 0x0F).toUInt32

def ipLen (d : Bytes) : UInt16 := get16 d 2

def ipProto (d : Bytes) : UInt8 := d 9

def ipSrc (d : Bytes) : UInt32 := get32 d 12

/-- Where the header ends. -/
def ipPayload (d : Bytes) : ℕ := (ipIhl d * 4).toNat

/-- The conversion of `en_ip_input` to host byte order. The checksum goes through the conversion for
32 bits. -/
def ipToHost (d : Bytes) : Bytes :=
  let d := set16 d 2 (enNtohs (get16 d 2))
  let d := set16 d 4 (enNtohs (get16 d 4))
  let d := set16 d 10 (enNtohl (get16 d 10).toUInt32).toUInt16
  let d := set32 d 12 (enNtohl (get32 d 12))
  set32 d 16 (enNtohl (get32 d 16))

/-! ## Output -/

/-- The loop of `en_ip_route_lookup`, with the best route so far. -/
def routeLookupFrom (dst : UInt32) : List EnIpRoute → Option EnIpRoute → Option EnIpRoute
  | [], bestrt => bestrt
  | rt :: l, bestrt =>
    if dst &&& rt.netmask = rt.dst then
      match bestrt with
      | some b => routeLookupFrom dst l (if rt.metric < b.metric then some rt else bestrt)
      | none => routeLookupFrom dst l (some rt)
    else routeLookupFrom dst l bestrt

def enIpRouteLookup (routes : List EnIpRoute) (dst : UInt32) : Option EnIpRoute :=
  routeLookupFrom dst routes none

/-- The header of `en_ip_output`, before its checksum is filled in. -/
def ipHdrData (n : Net) (rt : EnIpRoute) (len : UInt32) (dst : UInt32) : Bytes :=
  let d : Bytes := fun _ ↦ 0
  let d := Function.update d 0 0x45
  let d := set16 d 2 (enNtohs (len + sizeofIpHdr).toUInt16)
  let d := Function.update d 8 ipTtl
  let d := Function.update d 9 ipProtoIcmp
  let d := set32 d 12 (enHtonl (n.firstAddr rt.ethIf))
  set32 d 16 (enHtonl dst)

/-- The end of `en_ip_output`: on a cache miss a request goes out instead of the packet. -/
def ipSend (n : Net) (rt : EnIpRoute) (pkt : EnNetPkt) (hdr : Bytes) (dst : UInt32) : Net :=
  match enArpCacheLookup n.arpCache dst with
  | none => (enArpRequest n rt.ethIf dst).2
  | some arp =>
    let (_, pkt, heap) := pktAddHead n.heap pkt hdr sizeofIpHdr
    enEthOutput (n.setHeap heap) rt.ethIf pkt arp.hrdAddr ethTypeIpv4

def enIpOutput (bound : ℕ → ℕ) (n : Net) (pkt : EnNetPkt) (dst : UInt32) : Option (ℤ × Net) :=
  match enIpRouteLookup n.routes dst with
  | none => some (-1, n)
  | some rt => do
    let d := ipHdrData n rt pkt.len dst
    let sum ← ocksum16 bound d 0 (ipIhl d * 4)
    let d := set16 d 10 (~~~sum)
    some (0, ipSend n rt pkt d dst)

/-! ## Input -/

/-- The conversion of an ICMP header at offset `i`, in either direction. -/
def icmpSwap (d : Bytes) (i : ℕ) : Bytes :=
  let d := set16 d (i + 2) (enNtohs (get16 d (i + 2)))
  let d := set16 d (i + 4) (enNtohs (get16 d (i + 4)))
  set16 d (i + 6) (enNtohs (get16 d (i + 6)))

/-- An echo request made into a reply, but for its checksum. -/
def icmpReplyData (d : Bytes) (i : ℕ) : Bytes :=
  let d := Function.update d i icmpTypeEchoReply
  let d := set16 d (i + 4) (enHtons (get16 d (i + 4)))
  set16 d (i + 6) (enHtons (get16 d (i + 6)))

def enIcmpInput (bound : ℕ → ℕ) (n : Net) (pkt : EnNetPkt) : Option (ℤ × Net) := do
  let d := pkt.data
  let i := ipPayload d
  let sum ← ocksum16 bound d i (pkt.len - ipIhl d * 4)
  if sum ≠ 0xFFFF then some (-1, n.free pkt)
  else
    let d := icmpSwap d i
    if d i = icmpTypeEcho then do
      let dst := ipSrc d
      let d := icmpReplyData d i
      let sum ← ocksum16 bound d i (pkt.len - ipIhl d * 4)
      let d := set16 d (i + 2) (enHtons sum)
      let (_, pkt) := pktDelHead { pkt with data := d } sizeofIpHdr
      let (_, n) ← enIpOutput bound n pkt dst
      some (0, n)
    else some (0, n.free pkt)

def enUdpInput (n : Net) (pkt : EnNetPkt) : ℤ × Net :=
  let d := pkt.data
  let i := ipPayload d
  let d := set16 d i (enNtohs (get16 d i))
  let d := set16 d (i + 2) (enNtohs (get16 d (i + 2)))
  let d := set16 d (i + 4) (enNtohs (get16 d (i + 4)))
  let len := get16 d (i + 4)
  if (len.toNat : ℤ) ≠ (ipLen d).toNat - (ipIhl d * 4).toNat ∧
      len.toUInt32 ≠ pkt.len - ipIhl d * 4 then (-1, n.free pkt)
  else (0, n.free pkt)

/-- The end of `en_ip_input`, which passes the packet on. -/
def ipDispatch (bound : ℕ → ℕ) (n : Net) (pkt : EnNetPkt) : Option (ℤ × Net) :=
  if ipProto pkt.data = ipProtoIcmp then do
    let (_, n) ← enIcmpInput bound n pkt
    some (0, n)
  else if ipProto pkt.data = ipProtoUdp then some (0, (enUdpInput n pkt).2)
  else some (0, n)

def enIpInput (bound : ℕ → ℕ) (n : Net) (pkt : EnNetPkt) : Option (ℤ × Net) :=
  let d := pkt.data
  if pkt.len < ipIhl d * 4 then some (-1, n)
  else do
    let sum ← ocksum16 bound d 0 (ipIhl d * 4)
    if sum ≠ 0xFFFF then some (-1, n)
    else
      let d := ipToHost d
      let len := if pkt.len = 46 ∧ ipLen d < 46 then (ipLen d).toUInt32 else pkt.len
      let pkt := { pkt with data := d, len := len }
      if ipIhl d < 5 ∨ (ipLen d).toUInt32 ≠ pkt.len then some (-1, n)
      else ipDispatch bound n pkt

/-! ## What the conversions keep -/

section Conversions

variable (d : Bytes)

theorem ipToHost_of_ne {j : ℕ} (hj : j < 2 ∨ 6 ≤ j ∧ j < 10 ∨ 20 ≤ j) : ipToHost d j = d j := by
  have hsrc : ∀ (d : Bytes) (v w : UInt32), set32 (set32 d 12 v) 16 w j = d j := by
    intro d v w
    rcases hj with hj | hj | hj
    · rw [set32_of_lt _ _ _ _ (by omega), set32_of_lt _ _ _ _ (by omega)]
    · rw [set32_of_lt _ _ _ _ (by omega), set32_of_lt _ _ _ _ (by omega)]
    · rw [set32_of_ge _ _ _ _ (by omega), set32_of_ge _ _ _ _ (by omega)]
  unfold ipToHost
  rw [hsrc, set16_of_ne _ _ _ _ (by omega) (by omega), set16_of_ne _ _ _ _ (by omega) (by omega),
    set16_of_ne _ _ _ _ (by omega) (by omega)]

@[simp] theorem ipIhl_ipToHost : ipIhl (ipToHost d) = ipIhl d := by
  rw [ipIhl, ipIhl, ipToHost_of_ne d (by decide)]

@[simp] theorem ipPayload_ipToHost : ipPayload (ipToHost d) = ipPayload d := by
  rw [ipPayload, ipPayload, ipIhl_ipToHost]

@[simp] theorem ipProto_ipToHost : ipProto (ipToHost d) = ipProto d := ipToHost_of_ne d (by decide)

@[simp] theorem ipLen_ipToHost : ipLen (ipToHost d) = enNtohs (get16 d 2) := by
  have hsrc : ∀ (d : Bytes) (v w : UInt32), get16 (set32 (set32 d 12 v) 16 w) 2 = get16 d 2 :=
    fun d v w ↦ get16_congr
      ((set32_of_lt _ _ _ _ (by decide)).trans (set32_of_lt _ _ _ _ (by decide)))
      ((set32_of_lt _ _ _ _ (by decide)).trans (set32_of_lt _ _ _ _ (by decide)))
  unfold ipLen ipToHost
  rw [hsrc, get16_set16_of_ne _ _ _ _ (by decide), get16_set16_of_ne _ _ _ _ (by decide),
    get16_set16]

@[simp] theorem ipSrc_ipToHost : ipSrc (ipToHost d) = enNtohl (get32 d 12) := by
  have hsrc : ∀ (d : Bytes) (v w : UInt32), get32 (set32 (set32 d 12 v) 16 w) 12 = v := by
    intro d v w
    rw [@get32_congr _ (set32 d 12 v) 12 fun j _ hj ↦ set32_of_lt _ _ _ _ (by omega), get32_set32]
  have hget : ∀ v w x : UInt16, get32 (set16 (set16 (set16 d 2 v) 4 w) 10 x) 12 = get32 d 12 := by
    intro v w x
    refine get32_congr fun j hj _ ↦ ?_
    rw [set16_of_ne _ _ _ _ (by omega) (by omega), set16_of_ne _ _ _ _ (by omega) (by omega),
      set16_of_ne _ _ _ _ (by omega) (by omega)]
  unfold ipSrc ipToHost
  rw [hsrc, hget]

theorem icmpSwap_of_lt {i j : ℕ} (hj : j < i + 2) : icmpSwap d i j = d j := by
  unfold icmpSwap
  rw [set16_of_ne _ _ _ _ (by omega) (by omega), set16_of_ne _ _ _ _ (by omega) (by omega),
    set16_of_ne _ _ _ _ (by omega) (by omega)]

theorem icmpReplyData_of_lt {i j : ℕ} (hj : j < i) : icmpReplyData d i j = d j := by
  unfold icmpReplyData
  rw [set16_of_ne _ _ _ _ (by omega) (by omega), set16_of_ne _ _ _ _ (by omega) (by omega),
    Function.update_of_ne (by omega)]

theorem ipIhl_lt : (ipIhl d).toNat < 16 := by
  have hand : (d 0 &&& 0x0F).toNat ≤ 15 := by
    rw [UInt8.toNat_and]
    exact Nat.and_le_right
  rw [ipIhl, UInt8.toNat_toUInt32]
  omega

theorem ipPayload_eq : ipPayload d = 4 * (ipIhl d).toNat := by
  have hlt := ipIhl_lt d
  have hmul : (ipIhl d * 4).toNat = (ipIhl d).toNat * 4 % 2 ^ 32 := UInt32.toNat_mul _ _
  rw [ipPayload, hmul, Nat.mod_eq_of_lt (by omega), Nat.mul_comm]

end Conversions

/-! ## What is accepted -/

/-- The packet as `en_ip_input` passes it on, with its length cut to the one in the header when the
frame was padded. -/
def hostPkt (pkt : EnNetPkt) : EnNetPkt :=
  { pkt with
    data := ipToHost pkt.data
    len :=
      if pkt.len = 46 ∧ ipLen (ipToHost pkt.data) < 46 then (ipLen (ipToHost pkt.data)).toUInt32
      else pkt.len }

/-- The checks of `en_ip_input`, on the packet as it arrives. -/
structure IpAccepted (pkt : EnNetPkt) : Prop where
  len : ipIhl pkt.data * 4 ≤ pkt.len
  cksum : cksum pkt.data 0 (ipPayload pkt.data / 2) = 0xFFFF
  ihl : 5 ≤ ipIhl pkt.data
  total : (enNtohs (get16 pkt.data 2)).toUInt32 = (hostPkt pkt).len

section Input

variable {bound : ℕ → ℕ} {n : Net} {pkt : EnNetPkt}

theorem enIpInput_def : enIpInput bound n pkt =
    if pkt.len < ipIhl pkt.data * 4 then some (-1, n)
    else (ocksum16 bound pkt.data 0 (ipIhl pkt.data * 4)).bind fun sum ↦
      if sum ≠ 0xFFFF then some (-1, n)
      else if ipIhl (ipToHost pkt.data) < 5 ∨
          (ipLen (ipToHost pkt.data)).toUInt32 ≠ (hostPkt pkt).len then some (-1, n)
      else ipDispatch bound n (hostPkt pkt) := rfl

theorem ocksum16_ipHdr (d : Bytes) : ocksum16 bound d 0 (ipIhl d * 4) =
    if ipPayload d / 2 ≤ bound (ipPayload d) then some (cksum d 0 (ipPayload d / 2)) else none := by
  have heven : ipPayload d % 2 = 0 := by
    rw [ipPayload_eq]
    omega
  rw [ocksum16_eq, ← ipPayload]
  simp only [heven, true_and]

theorem enIpInput_accepted (h : IpAccepted pkt) : enIpInput bound n pkt =
    if ipPayload pkt.data / 2 ≤ bound (ipPayload pkt.data) then ipDispatch bound n (hostPkt pkt)
    else none := by
  have hpass : ¬(ipIhl (ipToHost pkt.data) < 5 ∨
      (ipLen (ipToHost pkt.data)).toUInt32 ≠ (hostPkt pkt).len) := by
    rw [ipIhl_ipToHost, ipLen_ipToHost, not_or, not_not]
    exact ⟨UInt32.not_lt.mpr h.ihl, h.total⟩
  rw [enIpInput_def, if_neg (UInt32.not_lt.mpr h.len), ocksum16_ipHdr]
  by_cases hbound : ipPayload pkt.data / 2 ≤ bound (ipPayload pkt.data)
  · rw [if_pos hbound, if_pos hbound, Option.bind_some, if_neg (not_not.mpr h.cksum), if_neg hpass]
  · rw [if_neg hbound, if_neg hbound, Option.bind_none]

theorem enIpInput_rejected (h : ¬IpAccepted pkt) {rc : ℤ} {t : Net}
    (hrun : enIpInput bound n pkt = some (rc, t)) : t = n := by
  have hdrop : some (-1, n) = some (rc, t) → t = n :=
    fun heq ↦ (Prod.mk.inj (Option.some.inj heq)).2.symm
  rw [enIpInput_def, ocksum16_ipHdr] at hrun
  by_cases hlen : pkt.len < ipIhl pkt.data * 4
  · rw [if_pos hlen] at hrun
    exact hdrop hrun
  rw [if_neg hlen] at hrun
  by_cases hbound : ipPayload pkt.data / 2 ≤ bound (ipPayload pkt.data)
  · rw [if_pos hbound, Option.bind_some] at hrun
    split_ifs at hrun with hsum hpass
    · exact hdrop hrun
    · exact hdrop hrun
    · rw [ipIhl_ipToHost, ipLen_ipToHost, not_or, not_not] at hpass
      exact absurd ⟨UInt32.not_lt.mp hlen, not_not.mp hsum, UInt32.not_lt.mp hpass.1, hpass.2⟩ h
  · rw [if_neg hbound, Option.bind_none] at hrun
    exact absurd hrun (Option.some_ne_none _).symm

/-! ## Checksums -/

/-- The checksum loop over `len` bytes ends within its bound. -/
def CksumEnds (bound : ℕ → ℕ) (len : UInt32) : Prop :=
  len.toNat % 2 = 0 ∧ len.toNat / 2 ≤ bound len.toNat

theorem ocksum16_of_ends {len : UInt32} (h : CksumEnds bound len) (d : Bytes) (i : ℕ) :
    ocksum16 bound d i len = some (cksum d i (len.toNat / 2)) := by
  rw [ocksum16_eq]
  exact if_pos h

theorem ocksum16_of_not_ends {len : UInt32} (h : ¬CksumEnds bound len) (d : Bytes) (i : ℕ) :
    ocksum16 bound d i len = none := by
  rw [ocksum16_eq]
  exact if_neg h

/-- The packet an echo request becomes, and its destination. -/
def echoReply (pkt : EnNetPkt) : EnNetPkt :=
  let i := ipPayload pkt.data
  let d := icmpReplyData (icmpSwap pkt.data i) i
  let sum := cksum d i ((pkt.len - ipIhl pkt.data * 4).toNat / 2)
  (pktDelHead { pkt with data := set16 d (i + 2) (enHtons sum) } sizeofIpHdr).2

/-- What `en_icmp_input` takes for an echo request. -/
structure EchoRequest (pkt : EnNetPkt) : Prop where
  cksum : cksum pkt.data (ipPayload pkt.data) ((pkt.len - ipIhl pkt.data * 4).toNat / 2) = 0xFFFF
  type : pkt.data (ipPayload pkt.data) = icmpTypeEcho

theorem enIcmpInput_def : enIcmpInput bound n pkt =
    (ocksum16 bound pkt.data (ipPayload pkt.data) (pkt.len - ipIhl pkt.data * 4)).bind fun sum ↦
      if sum ≠ 0xFFFF then some (-1, n.free pkt)
      else if icmpSwap pkt.data (ipPayload pkt.data) (ipPayload pkt.data) = icmpTypeEcho then
        let i := ipPayload pkt.data
        let d := icmpReplyData (icmpSwap pkt.data i) i
        (ocksum16 bound d i (pkt.len - ipIhl d * 4)).bind fun sum ↦
          (enIpOutput bound n
            (pktDelHead { pkt with data := set16 d (i + 2) (enHtons sum) } sizeofIpHdr).2
            (ipSrc (icmpSwap pkt.data i))).bind fun r ↦ some (0, r.2)
      else some (0, n.free pkt) := rfl

theorem enIcmpInput_not_ends (h : ¬CksumEnds bound (pkt.len - ipIhl pkt.data * 4)) :
    enIcmpInput bound n pkt = none := by
  rw [enIcmpInput_def, ocksum16_of_not_ends h, Option.bind_none]

theorem ipIhl_icmpReplyData (d : Bytes) {i : ℕ} (hi : 0 < i) :
    ipIhl (icmpReplyData (icmpSwap d i) i) = ipIhl d := by
  rw [ipIhl, ipIhl, icmpReplyData_of_lt _ hi, icmpSwap_of_lt _ (by omega)]

theorem ipSrc_icmpSwap (d : Bytes) {i : ℕ} (hi : 16 ≤ i) : ipSrc (icmpSwap d i) = ipSrc d :=
  get32_congr fun j _ hj ↦ icmpSwap_of_lt d (by omega)

/-- **ICMP input**: an echo request goes to output as a reply, and anything else is freed. -/
theorem enIcmpInput_ends (hihl : 5 ≤ ipIhl pkt.data)
    (h : CksumEnds bound (pkt.len - ipIhl pkt.data * 4)) :
    (EchoRequest pkt ∧ enIcmpInput bound n pkt =
        (enIpOutput bound n (echoReply pkt) (ipSrc pkt.data)).bind fun r ↦ some (0, r.2)) ∨
      (¬EchoRequest pkt ∧ ∃ rc, enIcmpInput bound n pkt = some (rc, n.free pkt)) := by
  have hpayload : 20 ≤ ipPayload pkt.data := by
    have hihl' : 5 ≤ (ipIhl pkt.data).toNat := hihl
    rw [ipPayload_eq]
    omega
  have htype : icmpSwap pkt.data (ipPayload pkt.data) (ipPayload pkt.data) =
      pkt.data (ipPayload pkt.data) := icmpSwap_of_lt _ (by omega)
  rw [enIcmpInput_def, ocksum16_of_ends h, Option.bind_some, htype]
  by_cases hsum : cksum pkt.data (ipPayload pkt.data)
      ((pkt.len - ipIhl pkt.data * 4).toNat / 2) = 0xFFFF
  · rw [if_neg (not_not.mpr hsum)]
    by_cases hecho : pkt.data (ipPayload pkt.data) = icmpTypeEcho
    · rw [if_pos hecho]
      refine Or.inl ⟨⟨hsum, hecho⟩, ?_⟩
      dsimp only
      rw [ipIhl_icmpReplyData _ (by omega), ocksum16_of_ends h, Option.bind_some,
        ipSrc_icmpSwap _ (by omega)]
      rfl
    · rw [if_neg hecho]
      exact Or.inr ⟨fun hreq ↦ hecho hreq.type, 0, rfl⟩
  · rw [if_pos hsum]
    exact Or.inr ⟨fun hreq ↦ hsum hreq.cksum, -1, rfl⟩

/-! ## Output -/

theorem ipIhl_ipHdrData (rt : EnIpRoute) (len dst : UInt32) :
    ipIhl (ipHdrData n rt len dst) = 5 := by
  unfold ipHdrData
  rw [ipIhl, set32_of_lt _ _ _ _ (by decide), set32_of_lt _ _ _ _ (by decide),
    Function.update_of_ne (by decide), Function.update_of_ne (by decide),
    set16_of_ne _ _ _ _ (by decide) (by decide), Function.update_self]
  decide

/-- A destination that a packet can be sent to at once. -/
structure Reaches (routes : List EnIpRoute) (cache : List EnArpEntry) (dst : UInt32) : Prop where
  route : enIpRouteLookup routes dst ≠ none
  arp : enArpCacheLookup cache dst ≠ none

/-- **IP output** ends when its own checksum may run for ten iterations. -/
theorem enIpOutput_isSome (hbound : 10 ≤ bound 20) (dst : UInt32) :
    (enIpOutput bound n pkt dst).isSome := by
  unfold enIpOutput
  cases enIpRouteLookup n.routes dst with
  | none => rfl
  | some rt =>
    dsimp only
    rw [ipIhl_ipHdrData, ocksum16_of_ends ⟨by decide, hbound⟩]
    rfl

theorem enIpOutput_some {dst : UInt32} {rc : ℤ} {t : Net}
    (h : enIpOutput bound n pkt dst = some (rc, t)) :
    enIpRouteLookup n.routes dst = none ∧ t = n ∨
      ∃ rt hdr, enIpRouteLookup n.routes dst = some rt ∧ t = ipSend n rt pkt hdr dst := by
  unfold enIpOutput at h
  cases hroute : enIpRouteLookup n.routes dst with
  | none =>
    rw [hroute] at h
    exact Or.inl ⟨rfl, (Prod.mk.inj (Option.some.inj h)).2.symm⟩
  | some rt =>
    rw [hroute] at h
    obtain ⟨sum, -, hsend⟩ := Option.bind_eq_some_iff.mp h
    exact Or.inr ⟨rt, _, rfl, (Prod.mk.inj (Option.some.inj hsend)).2.symm⟩

end Input

end Ertos
