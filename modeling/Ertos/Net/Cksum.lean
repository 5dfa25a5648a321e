import Ertos.Basis.OnesComplement
import Ertos.Net.Terminate

/-!
# The checksum is a one's-complement sum, nearly

`ocksum16` adds halfwords in an accumulator of 32 bits and brings the carries back once. The first
folding can carry again; that carry is lost. The test of `en_ip_input`, for a sum of all ones, is
right nevertheless. The headers of `en_ip_output` are wrong when their sum loses a carry, and no
others.
-/

namespace Ertos

open OnesComplement

/-! ## Words -/

/-- The `n` halfwords from offset `i`. -/
def words (d : Bytes) : ℕ → ℕ → List ℕ
  | _, 0 => []
  | i, n + 1 => (get16 d i).toNat :: words d (i + 2) n

/-- The one's-complement sum of `n` halfwords, with all carries brought back. -/
def ocSum (d : Bytes) (i n : ℕ) : ℕ := OnesComplement.sum 65535 (words d i n)

/-- Bringing back the carries once does not carry again. -/
def FoldsOnce (d : Bytes) (i n : ℕ) : Prop :=
  (words d i n).sum % 65536 + (words d i n).sum / 65536 < 65536

instance (d : Bytes) (i n : ℕ) : Decidable (FoldsOnce d i n) :=
  inferInstanceAs (Decidable (_ < _))

theorem toNat_le_ones (x : UInt16) : x.toNat ≤ 65535 := Nat.le_of_lt_succ x.toNat_lt

theorem le_of_mem_words {d : Bytes} {i n x : ℕ} (h : x ∈ words d i n) : x ≤ 65535 := by
  induction n generalizing i with
  | zero => exact absurd h List.not_mem_nil
  | succ n ih =>
    rcases List.mem_cons.mp h with rfl | h
    · exact toNat_le_ones _
    · exact ih h

theorem sum_words_le (d : Bytes) (i n : ℕ) : (words d i n).sum ≤ 65535 * n := by
  induction n generalizing i with
  | zero => exact le_rfl
  | succ n ih =>
    have hhead := toNat_le_ones (get16 d i)
    have htail := ih (i + 2)
    rw [words, List.sum_cons, Nat.mul_succ]
    omega

theorem words_congr {d d' : Bytes} {i n : ℕ} (h : ∀ j, i ≤ j → j < i + 2 * n → d j = d' j) :
    words d i n = words d' i n := by
  induction n generalizing i with
  | zero => rfl
  | succ n ih =>
    have hget : get16 d i = get16 d' i :=
      get16_congr (h i (by omega) (by omega)) (h (i + 1) (by omega) (by omega))
    rw [words, words, hget, ih fun j hj hj' ↦ h j (by omega) (by omega)]

theorem sum_words_set16 (d : Bytes) (v : UInt16) {i j n : ℕ} (hj : j < n) :
    (words (set16 d (i + 2 * j) v) i n).sum + (get16 d (i + 2 * j)).toNat =
      (words d i n).sum + v.toNat := by
  induction n generalizing i j with
  | zero => exact absurd hj (Nat.not_lt_zero j)
  | succ n ih =>
    rw [words, words, List.sum_cons, List.sum_cons]
    cases j with
    | zero =>
      have hrest : words (set16 d i v) (i + 2) n = words d (i + 2) n :=
        words_congr fun k hk _ ↦ set16_of_ne _ _ _ _ (by omega) (by omega)
      rw [Nat.mul_zero, Nat.add_zero, get16_set16, hrest]
      omega
    | succ j =>
      have hhead : get16 (set16 d (i + 2 * (j + 1)) v) i = get16 d i :=
        get16_set16_of_ne _ _ _ _ (by omega)
      have hrest := ih (i := i + 2) (Nat.lt_of_succ_lt_succ hj)
      rw [show i + 2 + 2 * j = i + 2 * (j + 1) by omega] at hrest
      rw [hhead]
      omega

/-! ## The accumulator -/

theorem toNat_halfwords (d : Bytes) {i n : ℕ} {sum : UInt32}
    (h : sum.toNat + 65535 * n < 2 ^ 32) :
    (halfwords d n i sum).toNat = sum.toNat + (words d i n).sum := by
  induction n generalizing i sum with
  | zero => rfl
  | succ n ih =>
    have hhead := toNat_le_ones (get16 d i)
    have hadd : (sum + (get16 d i).toUInt32).toNat = sum.toNat + (get16 d i).toNat := by
      rw [UInt32.toNat_add, UInt16.toNat_toUInt32]
      exact Nat.mod_eq_of_lt (by omega)
    rw [halfwords, ih (by omega), hadd, words, List.sum_cons, Nat.add_assoc]

theorem toNat_foldSum (sum : UInt32) : (foldSum sum).toNat = fold 65535 sum.toNat % 65536 := by
  have hlt := sum.toNat_lt
  have hlow : (sum &&& (0xFFFF : UInt32)).toNat = sum.toNat % 65536 := by
    rw [UInt32.toNat_and]
    exact Nat.and_two_pow_sub_one_eq_mod sum.toNat 16
  have hhigh : (sum >>> (16 : UInt32)).toNat = sum.toNat / 65536 := by
    rw [UInt32.toNat_shiftRight]
    exact Nat.shiftRight_eq_div_pow sum.toNat 16
  rw [foldSum, UInt32.toNat_toUInt16, UInt32.toNat_add, hlow, hhigh,
    Nat.mod_eq_of_lt (b := 2 ^ 32) (by omega)]
  rfl

section Sums

variable (d : Bytes) (i : ℕ) {n : ℕ}

theorem toNat_cksum (hn : n ≤ 32767) :
    (cksum d i n).toNat = fold 65535 (words d i n).sum % 65536 := by
  rw [cksum, toNat_foldSum, toNat_halfwords d (by rw [UInt32.toNat_zero]; omega), UInt32.toNat_zero,
    Nat.zero_add]

theorem ocSum_eq : ocSum d i n = reduce 65535 (words d i n).sum :=
  sum_eq_reduce (by decide) fun _ hx ↦ le_of_mem_words hx

theorem ocSum_lt : ocSum d i n < 65536 := by
  rw [ocSum_eq]
  exact Nat.lt_succ_of_le (reduce_le (by decide) _)

theorem carries_le (hn : n ≤ 32767) : (words d i n).sum / (65535 + 1) ≤ 32767 := by
  have hle := sum_words_le d i n
  omega

theorem foldsOnce_iff : FoldsOnce d i n ↔ fold 65535 (words d i n).sum ≤ 65535 :=
  Nat.lt_succ_iff

/-- **`ocksum16` is the one's-complement sum** if and only if it loses no carry. -/
theorem cksum_eq_iff (hn : n ≤ 32767) :
    cksum d i n = UInt16.ofNat (ocSum d i n) ↔ FoldsOnce d i n := by
  have hcarries := carries_le d i hn
  rw [foldsOnce_iff, ← fold_mod_eq_iff (by omega), ← UInt16.toNat_inj, toNat_cksum d i hn,
    UInt16.toNat_ofNat_of_lt' (ocSum_lt d i), ocSum_eq]

theorem cksum_eq_max_iff (hn : n ≤ 32767) : cksum d i n = 0xFFFF ↔ ocSum d i n = 0xFFFF := by
  have hcarries := carries_le d i hn
  rw [← UInt16.toNat_inj, toNat_cksum d i hn, ocSum_eq]
  exact fold_mod_eq_max_iff (by omega)

theorem cksum_eq_max_iff_dvd (hn : n ≤ 32767) :
    cksum d i n = 0xFFFF ↔ 0 < (words d i n).sum ∧ 65535 ∣ (words d i n).sum := by
  rw [cksum_eq_max_iff d i hn, ocSum_eq]
  exact reduce_eq_max_iff (by decide)

end Sums

/-! ## The headers of `en_ip_output` -/

/-- The header that `en_ip_output` sends. -/
def ipHdr (n : Net) (rt : EnIpRoute) (len dst : UInt32) : Bytes :=
  set16 (ipHdrData n rt len dst) 10 (~~~cksum (ipHdrData n rt len dst) 0 10)

/-- **IP output**, when there is a route. -/
theorem enIpOutput_eq {bound : ℕ → ℕ} {n : Net} {pkt : EnNetPkt} {dst : UInt32} {rt : EnIpRoute}
    (hroute : enIpRouteLookup n.routes dst = some rt) (hbound : 10 ≤ bound 20) :
    enIpOutput bound n pkt dst = some (0, ipSend n rt pkt (ipHdr n rt pkt.len dst) dst) := by
  unfold enIpOutput
  rw [hroute]
  dsimp only
  rw [ipIhl_ipHdrData, ocksum16_of_ends ⟨by decide, hbound⟩]
  rfl

section Header

variable (n : Net) (rt : EnIpRoute) (len dst : UInt32)

theorem ipIhl_ipHdr : ipIhl (ipHdr n rt len dst) = 5 := by
  rw [← ipIhl_ipHdrData rt len dst (n := n), ipIhl, ipIhl, ipHdr,
    set16_of_ne _ _ _ _ (by decide) (by decide)]

theorem get16_ipHdrData_cksum : get16 (ipHdrData n rt len dst) 10 = 0 := by
  have hzero : ∀ j, 10 ≤ j → j < 12 → ipHdrData n rt len dst j = 0 := by
    intro j hj hj'
    unfold ipHdrData
    rw [set32_of_lt _ _ _ _ (by omega), set32_of_lt _ _ _ _ hj', Function.update_of_ne (by omega),
      Function.update_of_ne (by omega), set16_of_ne _ _ _ _ (by omega) (by omega),
      Function.update_of_ne (by omega)]
  rw [get16, hzero 10 (by decide) (by decide), hzero 11 (by decide) (by decide)]
  rfl

/-- **A header passes the test** if and only if its sum lost no carry. -/
theorem cksum_ipHdr_iff :
    cksum (ipHdr n rt len dst) 0 10 = 0xFFFF ↔ FoldsOnce (ipHdrData n rt len dst) 0 10 := by
  set d := ipHdrData n rt len dst with hd
  have hsum := sum_words_set16 d (~~~cksum d 0 10) (i := 0) (j := 5) (n := 10) (by decide)
  have hnot : (~~~cksum d 0 10).toNat = 65535 - fold 65535 (words d 0 10).sum % 65536 := by
    rw [UInt16.toNat_not, toNat_cksum d 0 (by decide)]
    rfl
  rw [Nat.zero_add, hnot, hd, get16_ipHdrData_cksum, ← hd, UInt16.toNat_zero, Nat.add_zero] at hsum
  have hcarries := carries_le d 0 (show 10 ≤ 32767 by decide)
  have hten := sum_words_le d 0 10
  rw [foldsOnce_iff, ← fold_complement_iff (by decide) (by omega), ← UInt16.toNat_inj,
    toNat_cksum _ 0 (by decide), ipHdr, ← hd, hsum]
  rfl

end Header

/-! ## The test of `en_ip_input` -/

/-- The checks of `en_ip_input` but for the checksum. -/
structure HeaderLengths (pkt : EnNetPkt) : Prop where
  len : ipIhl pkt.data * 4 ≤ pkt.len
  ihl : 5 ≤ ipIhl pkt.data
  total : (enNtohs (get16 pkt.data 2)).toUInt32 = (hostPkt pkt).len

theorem ipAccepted_iff (pkt : EnNetPkt) : IpAccepted pkt ↔
    HeaderLengths pkt ∧ ocSum pkt.data 0 (ipPayload pkt.data / 2) = 0xFFFF := by
  have hihl := ipIhl_lt pkt.data
  have hn : ipPayload pkt.data / 2 ≤ 32767 := by
    rw [ipPayload_eq]
    omega
  rw [← cksum_eq_max_iff pkt.data 0 hn]
  exact ⟨fun h ↦ ⟨⟨h.len, h.ihl, h.total⟩, h.cksum⟩, fun ⟨h, hsum⟩ ↦ ⟨h.len, hsum, h.ihl, h.total⟩⟩

/-- A header is short enough for the checksum loop to end. -/
theorem ipPayload_le_halfUp (d : Bytes) : ipPayload d / 2 ≤ halfUp (ipPayload d) :=
  Nat.div_le_div_right (Nat.le_succ _)

theorem enIpInput_of_not_accepted {n : Net} {pkt : EnNetPkt} (h : ¬IpAccepted pkt) :
    enIpInput halfUp n pkt = some (-1, n) := by
  rw [enIpInput_def, ocksum16_ipHdr, if_pos (ipPayload_le_halfUp pkt.data), Option.bind_some]
  split_ifs with hlen hsum hpass
  · rfl
  · rfl
  · rfl
  · rw [ipIhl_ipToHost, ipLen_ipToHost, not_or, not_not] at hpass
    exact absurd ⟨UInt32.not_lt.mp hlen, not_not.mp hsum, UInt32.not_lt.mp hpass.1, hpass.2⟩ h

/-! ## The theorem -/

/-- **The Internet checksum, exactly.** `ocksum16` is the one's-complement sum of an even number of
bytes, and a header of `en_ip_output` passes the test of `en_ip_input`, if and only if one folding
brings back all the carries; and `en_ip_input` accepts a header of the right lengths if and only if
its one's-complement sum is all ones. -/
theorem ocksum16_exact_iff (n : Net) (pkt : EnNetPkt) :
    (∀ (d : Bytes) (i : ℕ) (len : UInt32), len.toNat % 2 = 0 → len.toNat ≤ 65534 →
      (ocksum16 halfUp d i len = some (UInt16.ofNat (ocSum d i (len.toNat / 2))) ↔
        FoldsOnce d i (len.toNat / 2))) ∧
    (∀ (dst : UInt32) (rt : EnIpRoute), enIpRouteLookup n.routes dst = some rt →
      ∃ hdr, enIpOutput halfUp n pkt dst = some (0, ipSend n rt pkt hdr dst) ∧
        (ocksum16 halfUp hdr 0 (ipIhl hdr * 4) = some 0xFFFF ↔
          FoldsOnce (ipHdrData n rt pkt.len dst) 0 10)) ∧
    (HeaderLengths pkt ∧ ocSum pkt.data 0 (ipPayload pkt.data / 2) = 0xFFFF →
      enIpInput halfUp n pkt = ipDispatch halfUp n (hostPkt pkt)) ∧
    (¬(HeaderLengths pkt ∧ ocSum pkt.data 0 (ipPayload pkt.data / 2) = 0xFFFF) →
      enIpInput halfUp n pkt = some (-1, n)) := by
  rw [← ipAccepted_iff]
  refine ⟨fun d i len heven hlen ↦ ?_, fun dst rt hroute ↦ ?_, fun h ↦ ?_,
    enIpInput_of_not_accepted⟩
  · rw [ocksum16_of_ends ((cksumEnds_halfUp_iff len).mpr heven), Option.some_inj]
    exact cksum_eq_iff d i (by omega)
  · refine ⟨ipHdr n rt pkt.len dst, enIpOutput_eq hroute (by decide), ?_⟩
    rw [ipIhl_ipHdr, ocksum16_of_ends ((cksumEnds_halfUp_iff _).mpr (by decide)), Option.some_inj]
    exact cksum_ipHdr_iff n rt pkt.len dst
  · rw [enIpInput_accepted h, if_pos (ipPayload_le_halfUp pkt.data)]

/-- The words `0xFFFF`, `0xFFFF` and `1`. -/
def carryWords : Bytes := fun i ↦ [0xFF, 0xFF, 0xFF, 0xFF, 1, 0].getD i 0

/-- The network of `bootNet`, with a default route. -/
def defaultNet : Net := { bootNet with routes := [⟨0, 0, 0, 1, 1, 0x100⟩] }

/-- A packet of eight bytes for 10.214.176.0, whose header sums up to `0x1FFFF`. -/
def carryPkt : EnNetPkt := ⟨0x5000, fun _ ↦ 0, 8, 8, 0x100⟩

/-- **The second carry is lost**: a sum of `1` comes out as `0`, and a header is sent that fails the
test. -/
theorem ocksum16_loses_carry :
    ocksum16 halfUp carryWords 0 6 = some 0 ∧ ocSum carryWords 0 3 = 1 ∧
      ∃ rt hdr, enIpRouteLookup defaultNet.routes 0x0AD6B000 = some rt ∧
        enIpOutput halfUp defaultNet carryPkt 0x0AD6B000 =
          some (0, ipSend defaultNet rt carryPkt hdr 0x0AD6B000) ∧
        ocksum16 halfUp hdr 0 (ipIhl hdr * 4) = some 0 := by
  refine ⟨by decide, by decide, ⟨0, 0, 0, 1, 1, 0x100⟩, ipHdr defaultNet _ 8 0x0AD6B000, by decide,
    enIpOutput_eq (by decide) (by decide), ?_⟩
  rw [ipIhl_ipHdr, ocksum16_of_ends ((cksumEnds_halfUp_iff _).mpr (by decide)), Option.some_inj]
  decide

end Ertos
