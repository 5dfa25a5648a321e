import Ertos.Net.Cksum
import Ertos.Net.Frame
import Ertos.Net.PktBytes

/-!
# Echo replies

`en_icmp_input` turns an echo request into a reply in place. It leaves the old checksum in the
field, in the wrong byte order, while it computes the new one, and stores that without inverting it;
and it strips the twenty bytes of a header without options, whatever the length of the header.

So a reply is right for one checksum of the request only, and only when the header has no options.
All of it is arithmetic modulo `0xFFFF`, in which exchanging the bytes of a halfword is
multiplication by `256`.
-/

namespace Ertos

open OnesComplement

/-! ## Exchanging bytes -/

/-- The halfword with its bytes exchanged. -/
def swapWord (x : ℕ) : ℕ := x % 256 * 256 + x / 256

theorem toNat_enNtohs (x : UInt16) : (enNtohs x).toNat = swapWord x.toNat := by
  have hlt := x.toNat_lt
  have hhigh : ((x &&& 0xFF00) >>> 8).toNat = x.toNat / 256 := by
    rw [UInt16.toNat_shiftRight, UInt16.toNat_and]
    show (x.toNat &&& 0xFF00) >>> 8 = x.toNat / 256
    rw [Nat.shiftRight_and_distrib, Nat.shiftRight_eq_div_pow]
    show x.toNat / 2 ^ 8 &&& 2 ^ 8 - 1 = x.toNat / 256
    rw [Nat.and_two_pow_sub_one_eq_mod]
    omega
  have hlow : ((x &&& 0x00FF) <<< 8).toNat = 2 ^ 8 * (x.toNat % 256) := by
    rw [UInt16.toNat_shiftLeft, UInt16.toNat_and]
    show ((x.toNat &&& 2 ^ 8 - 1) <<< 8) % 2 ^ 16 = 2 ^ 8 * (x.toNat % 256)
    rw [Nat.and_two_pow_sub_one_eq_mod, Nat.shiftLeft_eq]
    omega
  rw [enNtohs, UInt16.toNat_or, hhigh, hlow, Nat.or_comm,
    ← Nat.two_pow_add_eq_or_of_lt (by omega : x.toNat / 256 < 2 ^ 8), swapWord, Nat.mul_comm]

theorem swapWord_swapWord {x : ℕ} (h : x < 65536) : swapWord (swapWord x) = x := by
  unfold swapWord
  omega

theorem enNtohs_enNtohs (x : UInt16) : enNtohs (enNtohs x) = x := by
  rw [← UInt16.toNat_inj, toNat_enNtohs, toNat_enNtohs, swapWord_swapWord x.toNat_lt]

/-- Modulo `65535`, exchanging the bytes is multiplication by `256`. -/
theorem swapWord_add (x : ℕ) : swapWord x + 65535 * (x / 256) = 256 * x := by
  unfold swapWord
  omega

theorem toNat_get16 (d : Bytes) (i : ℕ) :
    (get16 d i).toNat = (d i).toNat + 256 * (d (i + 1)).toNat := by
  have hlow := (d i).toNat_lt
  have hhigh := (d (i + 1)).toNat_lt
  have hlt : (d i).toNat + 256 * (d (i + 1)).toNat < 2 ^ 16 := by omega
  exact UInt16.toNat_ofNat_of_lt' hlt

/-! ## The arithmetic of the checksum -/

section Arithmetic

variable {c rest : ℕ}

theorem fold_eq (s : ℕ) : fold 65535 s + 65535 * (s / 65536) = s :=
  (eq_fold_add_mul 65535 s).symm

/-- A request adds up to a multiple of `65535`; `rest` is what it shares with its reply. When
folding does not carry, only one checksum makes a right reply. -/
theorem cksum_of_fold {w z : ℕ} (hc : c < 65536) (hreq : 8 + rest + c = 65535 * w)
    (hreply : rest + swapWord (fold 65535 (rest + swapWord c)) = 65535 * z) : c = 0xF7F7 := by
  have hfold := fold_eq (rest + swapWord c)
  have hswap := swapWord_add c
  have hswap' := swapWord_add (fold 65535 (rest + swapWord c))
  omega

/-- When it carries, the one that would make a right reply does not carry. -/
theorem not_dvd_of_carry {w z : ℕ} (hc : c < 65536) (hw : w < 65000)
    (hreq : 8 + rest + c = 65535 * w) (hcarry : 65535 < fold 65535 (rest + swapWord c)) :
    rest + swapWord (fold 65535 (rest + swapWord c) - 65536) ≠ 65535 * z := by
  intro hreply
  have hfold := fold_eq (rest + swapWord c)
  have hswap := swapWord_add c
  have hswap' := swapWord_add (fold 65535 (rest + swapWord c) - 65536)
  have hc' : c = 0xF7F6 := by omega
  subst hc'
  unfold fold swapWord at hcarry
  omega

/-- **The checksum of a reply** is right for one checksum of the request. -/
theorem dvd_reply_iff (hc : c < 65536) (hsmall : rest < 65535 * 32767)
    (hreq : 65535 ∣ 8 + rest + c) :
    65535 ∣ rest + swapWord (fold 65535 (rest + swapWord c) % 65536) ↔ c = 0xF7F7 := by
  obtain ⟨w, hw⟩ := hreq
  have hswap : swapWord c < 65536 := by
    unfold swapWord
    omega
  constructor
  · rintro ⟨z, hz⟩
    -- the fold is cut to 16 bits, which matters when it carries
    rcases Nat.lt_or_ge 65535 (fold 65535 (rest + swapWord c)) with hcarry | hle
    · have hmod : fold 65535 (rest + swapWord c) % 65536 =
          fold 65535 (rest + swapWord c) - 65536 := by
        unfold fold at hcarry ⊢
        omega
      rw [hmod] at hz
      exact absurd hz (not_dvd_of_carry hc (by omega) hw hcarry)
    · rw [Nat.mod_eq_of_lt (Nat.lt_succ_of_le hle)] at hz
      exact cksum_of_fold hc hw hz
  · rintro rfl
    have hs : fold 65535 (rest + swapWord 0xF7F7) = 65527 := by
      unfold fold swapWord
      omega
    refine ⟨w, ?_⟩
    rw [hs]
    unfold swapWord
    omega

end Arithmetic

/-! ## The message -/

/-- The length of the ICMP message of a packet that `en_ip_input` passes on. -/
def icmpLen (pkt : EnNetPkt) : UInt32 := pkt.len - ipIhl pkt.data * 4

section Message

variable (d : Bytes) (i : ℕ)

/-- The reply, whose checksum is still that of the request with its bytes exchanged. -/
theorem icmpReplyData_type : icmpReplyData (icmpSwap d i) i i = icmpTypeEchoReply := by
  unfold icmpReplyData
  rw [set16_of_ne _ _ _ _ (by omega) (by omega), set16_of_ne _ _ _ _ (by omega) (by omega),
    Function.update_self]

theorem get16_icmpReplyData_cksum :
    get16 (icmpReplyData (icmpSwap d i) i) (i + 2) = enNtohs (get16 d (i + 2)) := by
  unfold icmpReplyData icmpSwap
  rw [get16_set16_of_ne _ _ _ _ (by omega), get16_set16_of_ne _ _ _ _ (by omega),
    get16_congr (Function.update_of_ne (by omega) _ _) (Function.update_of_ne (by omega) _ _),
    get16_set16_of_ne _ _ _ _ (by omega), get16_set16_of_ne _ _ _ _ (by omega), get16_set16]

theorem set16_get16 (x : Bytes) {j : ℕ} (hj : j = i ∨ j = i + 1) :
    set16 x i (get16 d i) j = d j := by
  have hlow := (d i).toNat_lt
  have hhigh := (d (i + 1)).toNat_lt
  rw [set16, toNat_get16]
  rcases hj with rfl | rfl
  · rw [Function.update_of_ne (by omega), Function.update_self]
    refine UInt8.toNat_inj.mp ?_
    rw [UInt8.toNat_ofNat']
    omega
  · rw [Function.update_self]
    refine UInt8.toNat_inj.mp ?_
    rw [UInt8.toNat_ofNat']
    omega

theorem icmpReplyData_of_ne {j : ℕ} (hj : j ≠ i) (hcksum : j ≠ i + 2) (hcksum' : j ≠ i + 3) :
    icmpReplyData (icmpSwap d i) i j = d j := by
  have hid : get16 (icmpSwap d i) (i + 4) = enNtohs (get16 d (i + 4)) := by
    unfold icmpSwap
    rw [get16_set16_of_ne _ _ _ _ (by omega), get16_set16, get16_set16_of_ne _ _ _ _ (by omega)]
  have hseq : get16 (icmpSwap d i) (i + 6) = enNtohs (get16 d (i + 6)) := by
    unfold icmpSwap
    rw [get16_set16, get16_set16_of_ne _ _ _ _ (by omega), get16_set16_of_ne _ _ _ _ (by omega)]
  have htype : ∀ k, i < k → get16 (Function.update (icmpSwap d i) i icmpTypeEchoReply) k =
      get16 (icmpSwap d i) k := fun k hk ↦
    get16_congr (Function.update_of_ne (by omega) _ _) (Function.update_of_ne (by omega) _ _)
  unfold icmpReplyData
  rw [get16_set16_of_ne _ _ _ _ (by omega), htype _ (by omega), htype _ (by omega), hid, hseq,
    enHtons, enHtons, enNtohs_enNtohs, enNtohs_enNtohs]
  -- the sequence number was written last, the identifier before it
  by_cases hat : j = i + 6 ∨ j = i + 6 + 1
  · exact set16_get16 d _ _ hat
  rw [set16_of_ne _ _ _ _ (by omega) (by omega)]
  by_cases hat' : j = i + 4 ∨ j = i + 4 + 1
  · exact set16_get16 d _ _ hat'
  rw [set16_of_ne _ _ _ _ (by omega) (by omega), Function.update_of_ne hj]
  unfold icmpSwap
  rw [set16_of_ne _ _ _ _ (by omega) (by omega), set16_of_ne _ _ _ _ (by omega) (by omega),
    set16_of_ne _ _ _ _ (by omega) (by omega)]

theorem sum_words_message (n : ℕ) : (words d i (n + 2)).sum =
    (d i).toNat + 256 * (d (i + 1)).toNat + (get16 d (i + 2)).toNat + (words d (i + 4) n).sum := by
  rw [words, words, List.sum_cons, List.sum_cons, toNat_get16 d i, Nat.add_assoc _ _ (List.sum _)]

/-- The message of the reply, with its new checksum. -/
def replyData (n : ℕ) : Bytes :=
  let r := icmpReplyData (icmpSwap d i) i
  set16 r (i + 2) (enHtons (cksum r i n))

theorem replyData_of_ne {j : ℕ} (n : ℕ) (hj : j ≠ i) (hcksum : j ≠ i + 2) (hcksum' : j ≠ i + 3) :
    replyData d i n j = d j := by
  rw [replyData, set16_of_ne _ _ _ _ hcksum hcksum', icmpReplyData_of_ne d i hj hcksum hcksum']

theorem replyData_type (n : ℕ) : replyData d i n i = icmpTypeEchoReply := by
  rw [replyData, set16_of_ne _ _ _ _ (by omega) (by omega), icmpReplyData_type]

/-- **A reply passes the test** of `en_icmp_input` for one checksum of the request. -/
theorem cksum_replyData_iff {n : ℕ} (hn : n + 2 ≤ 32767) (htype : d i = icmpTypeEcho)
    (hreq : cksum d i (n + 2) = 0xFFFF) :
    cksum (replyData d i (n + 2)) i (n + 2) = 0xFFFF ↔ get16 d (i + 2) = 0xF7F7 := by
  set r := icmpReplyData (icmpSwap d i) i with hr
  set rest := 256 * (d (i + 1)).toNat + (words d (i + 4) n).sum with hrest
  have hkept : ∀ j, i + 4 ≤ j → r j = d j := fun j hj ↦
    icmpReplyData_of_ne d i (by omega) (by omega) (by omega)
  have hcode : r (i + 1) = d (i + 1) := icmpReplyData_of_ne d i (by omega) (by omega) (by omega)
  have hsum : (words d i (n + 2)).sum = 8 + rest + (get16 d (i + 2)).toNat := by
    rw [sum_words_message, htype, hrest]
    show 8 + _ + _ + _ = _
    omega
  have hsum' : (words r i (n + 2)).sum = rest + swapWord (get16 d (i + 2)).toNat := by
    rw [sum_words_message, hr, icmpReplyData_type, get16_icmpReplyData_cksum, toNat_enNtohs, ← hr,
      hcode, words_congr fun j hj _ ↦ hkept j hj, hrest]
    show 0 + _ + _ + _ = _
    omega
  -- the sum that is stored replaces the old checksum among the words
  have hfinal : (words (replyData d i (n + 2)) i (n + 2)).sum =
      rest + swapWord (fold 65535 (words r i (n + 2)).sum % 65536) := by
    have hset := sum_words_set16 r (enHtons (cksum r i (n + 2))) (i := i) (j := 1) (n := n + 2)
      (by omega)
    rw [Nat.mul_one, enHtons, toNat_enNtohs, toNat_cksum r i hn, hr, get16_icmpReplyData_cksum,
      toNat_enNtohs, ← hr, hsum'] at hset
    rw [replyData, ← hr, enHtons, hsum']
    omega
  obtain ⟨-, hdvd⟩ := (cksum_eq_max_iff_dvd d i hn).mp hreq
  have hc := (get16 d (i + 2)).toNat_lt
  have hle := sum_words_le d i (n + 2)
  rw [hsum] at hdvd hle
  rw [cksum_eq_max_iff_dvd _ i hn, hfinal, hsum', dvd_reply_iff hc (by omega) hdvd,
    ← UInt16.toNat_inj]
  refine and_iff_right_of_imp fun h ↦ ?_
  -- the code and the rest of such a request are not all zero
  obtain ⟨w, hw⟩ := hdvd
  rw [h] at hw
  change 8 + rest + 63479 = 65535 * w at hw
  exact Nat.add_pos_left (by omega) _

end Message

/-! ## Adding the headers -/

/-- The packet `q` is `pkt` with `len` bytes of `buf` in front. -/
structure Headed (pkt : EnNetPkt) (buf : Bytes) (len : UInt32) (q : EnNetPkt) : Prop where
  size : q.len = pkt.len + len
  head : ∀ j < len.toNat, q.data j = buf j
  rest : ∀ j < pkt.len.toNat, q.data (len.toNat + j) = pkt.data j
  allocated : q.allocated.toNat ≤ pkt.allocated.toNat + len.toNat + 3

/-- The bytes are added if there is memory for another buffer, and otherwise nothing happens. -/
inductive AddsHead (h : PktHeap) (pkt : EnNetPkt) (buf : Bytes) (len : UInt32) :
    ℤ × EnNetPkt × PktHeap → Prop
  | failed (hnull : h.mallocs 0 = NULL) : AddsHead h pkt buf len (-1, pkt, h.malloc.2)
  | ok {q : EnNetPkt} (hnull : h.mallocs 0 ≠ NULL) (hq : Headed pkt buf len q) :
      AddsHead h pkt buf len (0, q, h.malloc.2)

theorem pktAddHead_spec (h : PktHeap) (pkt : EnNetPkt) (buf : Bytes) (len : UInt32)
    (hlen : 0 < len) (hfits : pkt.allocated.toNat + len.toNat + 3 < 2 ^ 32) :
    AddsHead h pkt buf len (pktAddHead h pkt buf len) := by
  have hpos : 0 < len.toNat := hlen
  have hsum := toNat_add_of_lt (a := pkt.allocated) (b := len) (by omega)
  have hgrow : pkt.allocated < pkt.allocated + len := by
    rw [UInt32.lt_iff_toNat_lt, hsum]
    omega
  have hnew : ¬(pkt.allocated + len ≤ 0 ∨ pkt.allocated + len < pkt.allocated) := by
    rw [UInt32.le_iff_toNat_le, UInt32.lt_iff_toNat_lt, UInt32.toNat_zero]
    omega
  unfold pktAddHead pktReserve pktGrow
  rw [if_pos hgrow, if_neg hnew]
  dsimp only
  by_cases hnull : h.malloc.1 = NULL
  · rw [if_pos hnull]
    exact .failed hnull
  · rw [if_neg hnull]
    refine .ok hnull ⟨rfl, fun j hj ↦ ?_, fun j hj ↦ ?_, ?_⟩
    · dsimp only
      rw [setBytes, if_pos (by omega), Nat.sub_zero]
    · dsimp only
      rw [setBytes, if_neg (by omega), setBytes, if_pos (by omega), Nat.add_sub_cancel_left,
        if_pos hj]
    · dsimp only
      rw [toNat_pad (by omega), hsum]
      omega

theorem queue_enEthOutput (n : Net) (pkt : EnNetPkt) (i : Ptr) (mac : MacAddr) (type : UInt16) :
    ∃ hdr, (enEthOutput n i pkt mac type).queue (.tx i) =
      (pktAddHead n.heap pkt hdr etherHdrSize).2.1 :: n.queue (.tx i) := by
  set hdr : Bytes := set16 (setBytes (setBytes (fun _ ↦ 0) 6 (n.ethIf i).addr 6) 0 mac 6) 12
    (enHtons type)
  set q := (pktAddHead n.heap pkt hdr etherHdrSize).2.1
  set heap := (pktAddHead n.heap pkt hdr etherHdrSize).2.2
  have hdef : enEthOutput n i pkt mac type =
      (n.setHeap heap).modifyIf i fun x ↦ { x with txQueue := q :: x.txQueue } := rfl
  rw [hdef]
  exact ⟨hdr, congrArg EnEthIf.txQueue ((n.setHeap heap).ethIf_modifyIf_self i _)⟩

/-- What `en_ip_output` sends has both headers, unless it ran out of memory for one of them. -/
inductive Sent (h : PktHeap) (pkt : EnNetPkt) (hdr : Bytes) (q : EnNetPkt) : Prop
  | short (hnull : h.mallocs 0 = NULL ∨ h.mallocs 1 = NULL)
      (hlen : q.len ≠ pkt.len + sizeofIpHdr + etherHdrSize)
  | whole (hnull : h.mallocs 0 ≠ NULL) (hnull' : h.mallocs 1 ≠ NULL) {p : EnNetPkt} {eth : Bytes}
      (hip : Headed pkt hdr sizeofIpHdr p) (heth : Headed p eth etherHdrSize q)

theorem short_of_len {len len' : UInt32}
    (h : len' = len ∨ len' = len + etherHdrSize ∨ len' = len + sizeofIpHdr) :
    len' ≠ len + sizeofIpHdr + etherHdrSize := by
  unfold sizeofIpHdr etherHdrSize at *
  grind

theorem sent_ipSend (n : Net) (pkt : EnNetPkt) (rt : EnIpRoute) {arp : EnArpEntry} {dst : UInt32}
    (harp : enArpCacheLookup n.arpCache dst = some arp)
    (hfits : pkt.allocated.toNat + 40 < 2 ^ 32) (hdr : Bytes) :
    ∃ q, (ipSend n rt pkt hdr dst).queue (.tx rt.ethIf) = q :: n.queue (.tx rt.ethIf) ∧
      Sent n.heap pkt hdr q := by
  have hip : sizeofIpHdr.toNat = 20 := rfl
  have heth : etherHdrSize.toNat = 14 := rfl
  have hspec := pktAddHead_spec n.heap pkt hdr sizeofIpHdr (by decide) (by omega)
  unfold ipSend
  rw [harp]
  dsimp only
  generalize pktAddHead n.heap pkt hdr sizeofIpHdr = r at hspec
  cases hspec with
  | failed hnull =>
    -- `en_ip_output` does not look at the result, and sends the packet without the header
    obtain ⟨eth, hq⟩ := queue_enEthOutput (n.setHeap n.heap.malloc.2) pkt rt.ethIf arp.hrdAddr
      ethTypeIpv4
    refine ⟨_, hq, .short (Or.inl hnull) ?_⟩
    obtain ⟨-, hlen | hlen, -⟩ := pktAddHead_frame n.heap.malloc.2 pkt eth etherHdrSize
    · exact short_of_len (Or.inl hlen)
    · exact short_of_len (Or.inr (Or.inl hlen))
  | @ok p hnull hp =>
    obtain ⟨eth, hq⟩ := queue_enEthOutput (n.setHeap n.heap.malloc.2) p rt.ethIf arp.hrdAddr
      ethTypeIpv4
    refine ⟨_, hq, ?_⟩
    have hroom := hp.allocated
    have hspec := pktAddHead_spec n.heap.malloc.2 p eth etherHdrSize (by decide) (by omega)
    dsimp only [Net.setHeap]
    generalize pktAddHead n.heap.malloc.2 p eth etherHdrSize = r at hspec
    cases hspec with
    | failed hnull' => exact .short (Or.inr hnull') (short_of_len (Or.inr (Or.inr hp.size)))
    | ok hnull' hq => exact .whole hnull hnull' hp hq

/-! ## The theorem -/

/-- The packet `q` is the right answer to the echo request `pkt`: it has an Ethernet header, the IP
header `hdr`, and the message of the request with the type of a reply and with a checksum that
`en_icmp_input` would accept, and nothing else. -/
structure EchoAnswered (pkt : EnNetPkt) (hdr : Bytes) (q : EnNetPkt) : Prop where
  len : q.len.toNat = 14 + 20 + (icmpLen (hostPkt pkt)).toNat
  header : ∀ j < 20, q.data (14 + j) = hdr j
  total : (enNtohs (ipLen hdr)).toNat = 20 + (icmpLen (hostPkt pkt)).toNat
  type : q.data 34 = icmpTypeEchoReply
  message : ∀ j < (icmpLen (hostPkt pkt)).toNat, j ≠ 0 → j ≠ 2 → j ≠ 3 →
    q.data (34 + j) = pkt.data (ipPayload pkt.data + j)
  cksum : cksum q.data 34 ((icmpLen (hostPkt pkt)).toNat / 2) = 0xFFFF

theorem ipLen_ipHdr (n : Net) (rt : EnIpRoute) (len dst : UInt32) :
    ipLen (ipHdr n rt len dst) = enNtohs (len + sizeofIpHdr).toUInt16 := by
  unfold ipLen ipHdr ipHdrData
  rw [get16_set16_of_ne _ _ _ _ (by decide)]
  have hdst : ∀ (d : Bytes) (v w : UInt32), get16 (set32 (set32 d 12 v) 16 w) 2 = get16 d 2 :=
    fun d v w ↦ get16_congr
      ((set32_of_lt _ _ _ _ (by decide)).trans (set32_of_lt _ _ _ _ (by decide)))
      ((set32_of_lt _ _ _ _ (by decide)).trans (set32_of_lt _ _ _ _ (by decide)))
  dsimp only
  rw [hdst, get16_congr
    ((Function.update_of_ne (by decide) _ _).trans (Function.update_of_ne (by decide) _ _))
    ((Function.update_of_ne (by decide) _ _).trans (Function.update_of_ne (by decide) _ _)),
    get16_set16]

theorem echoReply_spec (pkt : EnNetPkt) (hlen : 20 ≤ pkt.len.toNat) :
    (echoReply pkt).len.toNat + 20 = pkt.len.toNat ∧
      (echoReply pkt).allocated = pkt.allocated ∧
      ∀ j < (echoReply pkt).len.toNat, (echoReply pkt).data j =
        replyData pkt.data (ipPayload pkt.data) ((icmpLen pkt).toNat / 2) (20 + j) := by
  set d := replyData pkt.data (ipPayload pkt.data) ((icmpLen pkt).toNat / 2) with hd
  have hdef : echoReply pkt = (pktDelHead { pkt with data := d } sizeofIpHdr).2 := rfl
  have hle : sizeofIpHdr ≤ pkt.len := UInt32.le_iff_toNat_le.mpr hlen
  have hsub : (pkt.len - sizeofIpHdr).toNat = pkt.len.toNat - 20 :=
    UInt32.toNat_sub_of_le _ _ hle
  rw [hdef, pktDelHead, if_neg (UInt32.not_lt.mpr hle)]
  refine ⟨by rw [hsub]; omega, rfl, fun j hj ↦ ?_⟩
  dsimp only at hj ⊢
  rw [setBytes, if_pos (by omega), Nat.sub_zero, Nat.add_comm]
  rfl

/-- A sum of all ones that starts with the type of a request has the checksum in it. -/
theorem two_le_of_echo {d : Bytes} {i n : ℕ} (htype : d i = icmpTypeEcho) (hn : n ≤ 32767)
    (hsum : cksum d i n = 0xFFFF) : 2 ≤ n := by
  obtain ⟨hpos, w, hw⟩ := (cksum_eq_max_iff_dvd d i hn).mp hsum
  by_contra hlt
  rcases (by omega : n = 0 ∨ n = 1) with rfl | rfl
  · exact absurd hpos (Nat.lt_irrefl 0)
  · have hcode := (d (i + 1)).toNat_lt
    rw [words, words, List.sum_singleton, toNat_get16, htype] at hw
    change 8 + _ = _ at hw
    omega

theorem words_shift {d d' : Bytes} {i i' n : ℕ} (h : ∀ j < 2 * n, d (i + j) = d' (i' + j)) :
    words d i n = words d' i' n := by
  induction n generalizing i i' with
  | zero => rfl
  | succ n ih =>
    have hget : get16 d i = get16 d' i' := by
      rw [get16, get16, h 1 (by omega)]
      congr 3
      exact h 0 (by omega)
    rw [words, words, hget, ih fun j hj ↦ ?_]
    have hj' := h (2 + j) (by omega)
    rwa [← Nat.add_assoc, ← Nat.add_assoc] at hj'

/-- The echo requests with a message of even length that get as far as a reply. -/
structure AcceptedEcho (pkt : EnNetPkt) : Prop where
  accepted : IpAccepted pkt
  proto : ipProto pkt.data = ipProtoIcmp
  inside : ipIhl pkt.data * 4 ≤ (hostPkt pkt).len
  even : (icmpLen (hostPkt pkt)).toNat % 2 = 0
  echo : EchoRequest (hostPkt pkt)

theorem data_hostPkt (pkt : EnNetPkt) {j : ℕ} (hj : 20 ≤ j) : (hostPkt pkt).data j = pkt.data j :=
  ipToHost_of_ne pkt.data (Or.inr (Or.inr hj))

namespace AcceptedEcho

variable {n : Net} {pkt : EnNetPkt}

theorem len (h : AcceptedEcho pkt) :
    (hostPkt pkt).len.toNat = ipPayload pkt.data + (icmpLen (hostPkt pkt)).toNat := by
  have hle : ipPayload pkt.data ≤ (hostPkt pkt).len.toNat := h.inside
  have hlen : icmpLen (hostPkt pkt) = (hostPkt pkt).len - ipIhl pkt.data * 4 :=
    congrArg (fun ihl ↦ (hostPkt pkt).len - ihl * 4) (ipIhl_ipToHost pkt.data)
  rw [hlen, UInt32.toNat_sub_of_le _ _ h.inside, ← ipPayload]
  omega

theorem len_lt (h : AcceptedEcho pkt) : (hostPkt pkt).len.toNat < 65536 := by
  rw [← h.accepted.total, UInt16.toNat_toUInt32]
  exact UInt16.toNat_lt _

theorem payload (h : AcceptedEcho pkt) : 20 ≤ ipPayload pkt.data := by
  have hihl : 5 ≤ (ipIhl pkt.data).toNat := h.accepted.ihl
  rw [ipPayload_eq]
  omega

theorem two_le (h : AcceptedEcho pkt) : 2 ≤ (icmpLen (hostPkt pkt)).toNat / 2 := by
  have hlen := h.len
  have hlt := h.len_lt
  exact two_le_of_echo h.echo.type (by omega) h.echo.cksum

theorem enIpInput_eq (h : AcceptedEcho pkt) {rt : EnIpRoute}
    (hroute : enIpRouteLookup n.routes (enNtohl (get32 pkt.data 12)) = some rt) :
    enIpInput halfUp n pkt = some (0, ipSend n rt (echoReply (hostPkt pkt))
      (ipHdr n rt (echoReply (hostPkt pkt)).len (enNtohl (get32 pkt.data 12)))
      (enNtohl (get32 pkt.data 12))) := by
  have hproto : ipProto (hostPkt pkt).data = ipProtoIcmp :=
    (ipProto_ipToHost pkt.data).trans h.proto
  have hihl : 5 ≤ ipIhl (hostPkt pkt).data := (ipIhl_ipToHost pkt.data).symm ▸ h.accepted.ihl
  have hsrc : ipSrc (hostPkt pkt).data = enNtohl (get32 pkt.data 12) := ipSrc_ipToHost pkt.data
  rw [enIpInput_accepted h.accepted, if_pos (ipPayload_le_halfUp pkt.data), ipDispatch,
    if_pos hproto]
  rcases enIcmpInput_ends (n := n) hihl ((cksumEnds_halfUp_iff _).mpr h.even) with
    ⟨-, heq⟩ | ⟨hecho, -⟩
  · rw [heq, hsrc, enIpOutput_eq hroute (by decide)]
    rfl
  · exact absurd h.echo hecho

theorem total (h : AcceptedEcho pkt) (n : Net) (rt : EnIpRoute) (dst : UInt32) :
    (enNtohs (ipLen (ipHdr n rt (echoReply (hostPkt pkt)).len dst))).toNat =
      ipPayload pkt.data + (icmpLen (hostPkt pkt)).toNat := by
  have hlen := h.len
  have hlt := h.len_lt
  have hpayload := h.payload
  obtain ⟨hreply, -, -⟩ := echoReply_spec (hostPkt pkt) (by omega)
  have hip : sizeofIpHdr.toNat = 20 := rfl
  rw [ipLen_ipHdr, enNtohs_enNtohs, UInt32.toNat_toUInt16, toNat_add_of_lt (by omega), hip]
  omega

theorem echoReply_len (h : AcceptedEcho pkt) :
    (echoReply (hostPkt pkt)).len.toNat + 20 =
      ipPayload pkt.data + (icmpLen (hostPkt pkt)).toNat := by
  have hlen := h.len
  have hpayload := h.payload
  obtain ⟨hreply, -, -⟩ := echoReply_spec (hostPkt pkt) (by omega)
  exact hreply.trans hlen

section Whole

variable {hdr eth : Bytes} {p q : EnNetPkt}

theorem len_whole (h : AcceptedEcho pkt) (hihl : ipPayload pkt.data = 20)
    (hip : Headed (echoReply (hostPkt pkt)) hdr sizeofIpHdr p)
    (heth : Headed p eth etherHdrSize q) :
    p.len.toNat = 20 + (icmpLen (hostPkt pkt)).toNat ∧
      q.len.toNat = 14 + 20 + (icmpLen (hostPkt pkt)).toNat := by
  have hlen := h.len
  have hlt := h.len_lt
  have hreply := h.echoReply_len
  have hipSize : sizeofIpHdr.toNat = 20 := rfl
  have hethSize : etherHdrSize.toNat = 14 := rfl
  have hp : p.len.toNat = 20 + (icmpLen (hostPkt pkt)).toNat := by
    rw [hip.size, toNat_add_of_lt (by omega)]
    omega
  refine ⟨hp, ?_⟩
  rw [heth.size, toNat_add_of_lt (by omega)]
  omega

theorem message_whole (h : AcceptedEcho pkt) (hihl : ipPayload pkt.data = 20)
    (hip : Headed (echoReply (hostPkt pkt)) hdr sizeofIpHdr p)
    (heth : Headed p eth etherHdrSize q) {j : ℕ} (hj : j < (icmpLen (hostPkt pkt)).toNat) :
    q.data (34 + j) =
      replyData (hostPkt pkt).data 20 ((icmpLen (hostPkt pkt)).toNat / 2) (20 + j) := by
  have hlen := h.len
  have hreply := h.echoReply_len
  have hpayload : ipPayload (hostPkt pkt).data = 20 := (ipPayload_ipToHost pkt.data).trans hihl
  obtain ⟨hp, -⟩ := h.len_whole hihl hip heth
  obtain ⟨-, -, hdata⟩ := echoReply_spec (hostPkt pkt) (by omega)
  rw [hpayload] at hdata
  have hmove : q.data (34 + j) = p.data (20 + j) := by
    have hrest := heth.rest (20 + j) (by omega)
    rwa [show etherHdrSize.toNat = 14 from rfl, ← Nat.add_assoc] at hrest
  exact hmove.trans ((hip.rest j (by omega)).trans (hdata j (by omega)))

/-- The checksum of the request decides about that of the reply. -/
theorem cksum_whole_iff (h : AcceptedEcho pkt) (hihl : ipPayload pkt.data = 20)
    (hip : Headed (echoReply (hostPkt pkt)) hdr sizeofIpHdr p)
    (heth : Headed p eth etherHdrSize q) :
    cksum q.data 34 ((icmpLen (hostPkt pkt)).toNat / 2) = 0xFFFF ↔
      get16 pkt.data (ipPayload pkt.data + 2) = 0xF7F7 := by
  have hlen := h.len
  have hlt := h.len_lt
  have htwo := h.two_le
  have heven := h.even
  have hpayload : ipPayload (hostPkt pkt).data = 20 := (ipPayload_ipToHost pkt.data).trans hihl
  have hmessage := @message_whole _ _ _ _ _ h hihl hip heth
  set L := (icmpLen (hostPkt pkt)).toNat with hL
  obtain ⟨k, hk⟩ := Nat.exists_eq_add_of_le' htwo
  have htype : (hostPkt pkt).data 20 = icmpTypeEcho := hpayload ▸ h.echo.type
  have hreq : Ertos.cksum (hostPkt pkt).data 20 (L / 2) = 0xFFFF := by
    have hecho := h.echo.cksum
    rwa [hpayload] at hecho
  have hmove : Ertos.cksum q.data 34 (L / 2) =
      Ertos.cksum (replyData (hostPkt pkt).data 20 (L / 2)) 20 (L / 2) := by
    rw [← UInt16.toNat_inj, toNat_cksum _ _ (by omega), toNat_cksum _ _ (by omega),
      words_shift fun j hj ↦ hmessage (by omega)]
  rw [hmove, hihl, ← get16_congr (data_hostPkt pkt (by decide)) (data_hostPkt pkt (by decide))]
  rw [hk] at hreq ⊢
  exact cksum_replyData_iff _ _ (by omega) htype hreq

theorem answered_iff (h : AcceptedEcho pkt) (hihl : ipPayload pkt.data = 20)
    (hip : Headed (echoReply (hostPkt pkt)) hdr sizeofIpHdr p)
    (heth : Headed p eth etherHdrSize q)
    (htotal : (enNtohs (ipLen hdr)).toNat = 20 + (icmpLen (hostPkt pkt)).toNat) :
    EchoAnswered pkt hdr q ↔ get16 pkt.data (ipPayload pkt.data + 2) = 0xF7F7 := by
  have htwo := h.two_le
  have hethSize : etherHdrSize.toNat = 14 := rfl
  obtain ⟨hp, hq⟩ := h.len_whole hihl hip heth
  have hcksum := h.cksum_whole_iff hihl hip heth
  constructor
  · intro hanswered
    exact hcksum.mp hanswered.cksum
  · intro hfield
    refine ⟨hq, fun j hj ↦ ?_, htotal, ?_, fun j hj h0 h2 h3 ↦ ?_, hcksum.mpr hfield⟩
    · exact (heth.rest j (by omega)).trans (hip.head j hj)
    · exact (h.message_whole hihl hip heth (j := 0) (by omega)).trans (replyData_type _ _ _)
    · rw [h.message_whole hihl hip heth hj,
        replyData_of_ne _ _ _ (by omega) (by omega) (by omega), data_hostPkt pkt (by omega), hihl]

end Whole

theorem not_answered_of_short (h : AcceptedEcho pkt) {hdr : Bytes} {q : EnNetPkt}
    (hihl : ipPayload pkt.data = 20)
    (hshort : q.len ≠ (echoReply (hostPkt pkt)).len + sizeofIpHdr + etherHdrSize) :
    ¬EchoAnswered pkt hdr q := by
  intro hanswered
  have hqlen := hanswered.len
  have hlen := h.len
  have hlt := h.len_lt
  have hreply := h.echoReply_len
  have hip : sizeofIpHdr.toNat = 20 := rfl
  have heth : etherHdrSize.toNat = 14 := rfl
  have hsum := toNat_add_of_lt (a := (echoReply (hostPkt pkt)).len) (b := sizeofIpHdr) (by omega)
  refine hshort (UInt32.toNat_inj.mp ?_)
  rw [toNat_add_of_lt (by omega), hsum]
  omega

end AcceptedEcho

/-- **Echo replies, exactly.** An accepted echo request of even length from a host with a route and
an ARP entry puts a packet on the transmit queue. It is a right answer if and only if the header of
the request has no options, its checksum is `0xF7F7`, and there is memory for both headers. -/
theorem echo_reply_exact_iff {n : Net} {pkt : EnNetPkt} {rt : EnIpRoute} {arp : EnArpEntry}
    (hecho : AcceptedEcho pkt) (hfits : pkt.allocated.toNat + 40 < 2 ^ 32)
    (hroute : enIpRouteLookup n.routes (enNtohl (get32 pkt.data 12)) = some rt)
    (harp : enArpCacheLookup n.arpCache (enNtohl (get32 pkt.data 12)) = some arp) :
    ∃ t q, enIpInput halfUp n pkt = some (0, t) ∧
      t.queue (.tx rt.ethIf) = q :: n.queue (.tx rt.ethIf) ∧
      (EchoAnswered pkt
          (ipHdr n rt (echoReply (hostPkt pkt)).len (enNtohl (get32 pkt.data 12))) q ↔
        ipIhl pkt.data = 5 ∧ get16 pkt.data (ipPayload pkt.data + 2) = 0xF7F7 ∧
          n.heap.mallocs 0 ≠ NULL ∧ n.heap.mallocs 1 ≠ NULL) := by
  have hlen := hecho.len
  have hpayload := hecho.payload
  obtain ⟨-, halloc, -⟩ := echoReply_spec (hostPkt pkt) (by omega)
  set hdr := ipHdr n rt (echoReply (hostPkt pkt)).len (enNtohl (get32 pkt.data 12)) with hhdr
  have htotal : (enNtohs (ipLen hdr)).toNat = ipPayload pkt.data + (icmpLen (hostPkt pkt)).toNat :=
    hecho.total n rt (enNtohl (get32 pkt.data 12))
  have hihl : ipIhl pkt.data = 5 ↔ ipPayload pkt.data = 20 := by
    rw [ipPayload_eq, ← UInt32.toNat_inj]
    show _ = 5 ↔ _
    omega
  obtain ⟨q, hq, hsent⟩ := sent_ipSend n (echoReply (hostPkt pkt)) rt harp (halloc ▸ hfits) hdr
  refine ⟨_, q, hecho.enIpInput_eq hroute, hq, ?_⟩
  rw [hihl]
  by_cases hplain : ipPayload pkt.data = 20
  · cases hsent with
    | short hnull hshort =>
      exact iff_of_false (hecho.not_answered_of_short hplain hshort) fun hright ↦
        hnull.elim hright.2.2.1 hright.2.2.2
    | whole hnull hnull' hip heth =>
      rw [hecho.answered_iff hplain hip heth (hplain ▸ htotal)]
      exact ⟨fun hfield ↦ ⟨hplain, hfield, hnull, hnull'⟩, fun hright ↦ hright.2.1⟩
  · -- the total length of an answer leaves no room for options
    refine iff_of_false (fun hanswered ↦ hplain ?_) fun hright ↦ hplain hright.1
    have hqtotal := hanswered.total
    omega

/-- The network of `bootNet`, which knows 192.168.0.1. -/
def pingNet : Net := { bootNet with arpCache := [⟨fun _ ↦ 2, 0xC0A80001, 0⟩] }

/-- An echo request of eight bytes from 192.168.0.1, with the given bytes in its checksum and its
identifier. -/
def echoPkt (cksumHigh cksumLow idLow : UInt8) : EnNetPkt where
  addr := 0x5000
  data := fun i ↦ [0x45, 0, 0, 28, 0, 0, 0, 0, 64, 1, 0xF9, 0x2C, 192, 168, 0, 1,
    192, 168, 0, 99, 8, 0, cksumHigh, cksumLow, 0, idLow].getD i 0
  len := 46
  allocated := 60
  ethIf := 0x100

/-- The route to the network of 192.168.0.1. -/
def pingRoute : EnIpRoute := ⟨0xC0A80000, 0xFFFFFF00, 0, 1, 1, 0x100⟩

/-- The header of the reply. -/
def pingHdr (pkt : EnNetPkt) : Bytes :=
  ipHdr pingNet pingRoute (echoReply (hostPkt pkt)).len (enNtohl (get32 pkt.data 12))

/-- The identifier `8` makes the checksum the one that is answered. -/
theorem echo_reply_exact_identifier :
    ∃ t q, enIpInput halfUp pingNet (echoPkt 0xF7 0xF7 8) = some (0, t) ∧
      t.queue (.tx 0x100) = q :: pingNet.queue (.tx 0x100) ∧
      (EchoAnswered (echoPkt 0xF7 0xF7 8) (pingHdr (echoPkt 0xF7 0xF7 8)) q ↔
        ipIhl (echoPkt 0xF7 0xF7 8).data = 5 ∧
          get16 (echoPkt 0xF7 0xF7 8).data (ipPayload (echoPkt 0xF7 0xF7 8).data + 2) = 0xF7F7 ∧
          pingNet.heap.mallocs 0 ≠ NULL ∧ pingNet.heap.mallocs 1 ≠ NULL) := by
  have haccepted : IpAccepted (echoPkt 0xF7 0xF7 8) :=
    ⟨by decide, by decide, by decide, by decide⟩
  have hecho : AcceptedEcho (echoPkt 0xF7 0xF7 8) :=
    ⟨haccepted, by decide, by decide, by decide, by decide, by decide⟩
  have hroute : enIpRouteLookup pingNet.routes
      (enNtohl (get32 (echoPkt 0xF7 0xF7 8).data 12)) = some pingRoute := by decide
  have harp : enArpCacheLookup pingNet.arpCache (enNtohl (get32 (echoPkt 0xF7 0xF7 8).data 12)) =
      some ⟨fun _ ↦ 2, 0xC0A80001, 0⟩ := rfl
  exact echo_reply_exact_iff hecho (by decide) hroute harp

/-- **The checksum of a reply is wrong** for another identifier. -/
theorem echo_reply_bad_cksum : AcceptedEcho (echoPkt 0xF7 0xFF 0) ∧
    ∃ t q, enIpInput halfUp pingNet (echoPkt 0xF7 0xFF 0) = some (0, t) ∧
      t.queue (.tx 0x100) = q :: pingNet.queue (.tx 0x100) ∧
      ¬EchoAnswered (echoPkt 0xF7 0xFF 0) (pingHdr (echoPkt 0xF7 0xFF 0)) q := by
  have haccepted : IpAccepted (echoPkt 0xF7 0xFF 0) :=
    ⟨by decide, by decide, by decide, by decide⟩
  have hecho : AcceptedEcho (echoPkt 0xF7 0xFF 0) :=
    ⟨haccepted, by decide, by decide, by decide, by decide, by decide⟩
  have hroute : enIpRouteLookup pingNet.routes
      (enNtohl (get32 (echoPkt 0xF7 0xFF 0).data 12)) = some pingRoute := by decide
  have harp : enArpCacheLookup pingNet.arpCache (enNtohl (get32 (echoPkt 0xF7 0xFF 0).data 12)) =
      some ⟨fun _ ↦ 2, 0xC0A80001, 0⟩ := rfl
  obtain ⟨q, hq, hsent⟩ := sent_ipSend pingNet (echoReply (hostPkt (echoPkt 0xF7 0xFF 0)))
    pingRoute harp (by decide) (pingHdr (echoPkt 0xF7 0xFF 0))
  refine ⟨hecho, _, q, hecho.enIpInput_eq hroute, hq, fun hanswered ↦ ?_⟩
  cases hsent with
  | short hnull _ => exact hnull.elim (absurd · (by decide)) (absurd · (by decide))
  | whole _ _ hip heth =>
    have hfield := (hecho.answered_iff (by decide) hip heth hanswered.total).mp hanswered
    exact absurd hfield (by decide)

end Ertos
