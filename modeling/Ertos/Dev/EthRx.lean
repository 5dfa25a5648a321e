import Ertos.Net.Frame
import Ertos.Net.PktBytes
import Mathlib.Algebra.Ring.Nat

/-!
# Receiving frames

`process_rx_queue` of `arch/eth.c`, the part of the Ethernet interrupt that takes received frames.
The hardware fills a ring of 64 status entries; it is now at `cur`, and the driver has come to
`last`. Each entry between the two gives the length of a frame and the buffer it is in.

The loop moves on to the next entry at the end of its body, but a frame that is too short or too
long is left with `continue`, which is behind that only for the condition of the loop. So the loop
never gets past such a frame, and counts it until it has made its 64 rounds. And since the condition
comes at the end, an empty ring is taken for a full one.
-/

namespace Ertos

/-! ## The loop -/

/-- `struct rx_sts`, as far as it is read. -/
structure RxSts where
  frameLength : UInt16
  bufferIndex : ℕ

def rxStsNum : ℕ := 64

/-- The interface, and the variables of `process_rx_queue`. -/
structure EthRx where
  heap : PktHeap
  ethIf : EnEthIf
  /-- The index of `last` in `rx_sts`. -/
  last : ℕ
  q : ℕ
  /-- How often the receiving task was woken. -/
  wakes : ℕ

/-- `en_eth_rx`, on this state. -/
def EthRx.enEthRx (dev : Ptr) (s : EthRx) (pkt : EnNetPkt) : EthRx :=
  { s with
    ethIf.rxQueue := { pkt with ethIf := dev } :: s.ethIf.rxQueue
    wakes := s.wakes + 1 }

/-- The next entry, with wraparound. -/
def rxNext (i : ℕ) : ℕ := if rxStsNum - 1 < i + 1 then 0 else i + 1

/-- The packet with the frame copied in. -/
def rxCopy (pkt : EnNetPkt) (buf : Bytes) (len : UInt32) : EnNetPkt :=
  { pkt with data := setBytes pkt.data 0 buf len.toNat, len := len }

/-- Taking a frame of a length that is allowed. -/
def rxFrame (dev : Ptr) (s : EthRx) (buf : Bytes) (len : UInt32) : EthRx :=
  match pktAlloc s.heap len with
  | (none, h) => { s with heap := h }
  | (some pkt, h) => EthRx.enEthRx dev { s with heap := h } (rxCopy pkt buf len)

/-- The body of the loop. The buffers are those of the receive descriptors. -/
def rxBody (dev : Ptr) (sts : ℕ → RxSts) (bufs : ℕ → Bytes) (s : EthRx) : EthRx :=
  let e := sts s.last
  let len := e.frameLength.toUInt32
  let s := { s with
    q := s.q + 1
    ethIf.stats.rxFrames := s.ethIf.stats.rxFrames + 1
    ethIf.stats.rxBytes := s.ethIf.stats.rxBytes + len }
  if e.frameLength < 60 then { s with ethIf.stats.runts := s.ethIf.stats.runts + 1 }
  else if 1518 < e.frameLength then
    { s with ethIf.stats.oversized := s.ethIf.stats.oversized + 1 }
  else
    let s := rxFrame dev s (bufs e.bufferIndex) len
    { s with last := rxNext s.last }

/-- The loop, of `n` more rounds at most. -/
def rxStsLoop (dev : Ptr) (sts : ℕ → RxSts) (bufs : ℕ → Bytes) (cur : ℕ) : ℕ → EthRx → EthRx
  | 0, s => s
  | n + 1, s =>
    let s := rxBody dev sts bufs s
    if s.last ≠ cur ∧ s.q < rxStsNum then rxStsLoop dev sts bufs cur n s else s

/-- What is written to `RXStsEnq` and to `RXDEnq`. -/
def EthRx.enqueued (s : EthRx) : ℕ := s.q

/-- `process_rx_queue`. -/
def processRxQueue (dev : Ptr) (sts : ℕ → RxSts) (bufs : ℕ → Bytes) (heap : PktHeap)
    (ethIf : EnEthIf) (last cur : ℕ) : EthRx :=
  rxStsLoop dev sts bufs cur rxStsNum ⟨heap, ethIf, last, 0, 0⟩

/-! ## The law -/

/-- The entries from `last` up to `cur`. -/
def rxEntries (last cur : ℕ) : List ℕ :=
  (List.range ((cur + rxStsNum - last) % rxStsNum)).map fun i ↦ (last + i) % rxStsNum

def RxSts.isRunt (e : RxSts) : Bool := e.frameLength < 60

def RxSts.isOversized (e : RxSts) : Bool := 1518 < e.frameLength

/-- Neither too short nor too long. -/
def RxSts.Good (e : RxSts) : Prop := 60 ≤ e.frameLength ∧ e.frameLength ≤ 1518

instance (e : RxSts) : Decidable e.Good :=
  inferInstanceAs (Decidable (60 ≤ e.frameLength ∧ e.frameLength ≤ 1518))

/-- From a list of entries, the packets are delivered for which there is memory, each with exactly
the bytes of its frame. -/
inductive Delivers (dev : Ptr) (bufs : ℕ → Bytes) :
    PktHeap → List RxSts → List EnNetPkt → PktHeap → Prop
  | nil {h : PktHeap} : Delivers dev bufs h [] [] h
  | bad {h t : PktHeap} {e : RxSts} {es : List RxSts} {ps : List EnNetPkt} (he : ¬e.Good)
      (hrest : Delivers dev bufs h es ps t) : Delivers dev bufs h (e :: es) ps t
  | failed {h u t : PktHeap} {e : RxSts} {es : List RxSts} {ps : List EnNetPkt} (he : e.Good)
      (halloc : pktAlloc h e.frameLength.toUInt32 = (none, u))
      (hrest : Delivers dev bufs u es ps t) : Delivers dev bufs h (e :: es) ps t
  | delivered {h u t : PktHeap} {e : RxSts} {es : List RxSts} {p p' : EnNetPkt}
      {ps : List EnNetPkt} (he : e.Good)
      (halloc : pktAlloc h e.frameLength.toUInt32 = (some p, u)) (haddr : p'.addr = p.addr)
      (hif : p'.ethIf = dev)
      (hbytes : bytesOf p'.data p'.len.toNat = bytesOf (bufs e.bufferIndex) e.frameLength.toNat)
      (hrest : Delivers dev bufs u es ps t) : Delivers dev bufs h (e :: es) (p' :: ps) t

/-- What taking the entries does to the interface and to the allocator. -/
structure Received (dev : Ptr) (bufs : ℕ → Bytes) (s : EthRx) (es : List RxSts) (t : EthRx) :
    Prop where
  frames : t.ethIf.stats.rxFrames = s.ethIf.stats.rxFrames + UInt32.ofNat es.length
  bytes : t.ethIf.stats.rxBytes
    = s.ethIf.stats.rxBytes + UInt32.ofNat (es.map fun e ↦ e.frameLength.toNat).sum
  runts : t.ethIf.stats.runts
    = s.ethIf.stats.runts + UInt32.ofNat (es.countP RxSts.isRunt)
  oversized : t.ethIf.stats.oversized
    = s.ethIf.stats.oversized + UInt32.ofNat (es.countP RxSts.isOversized)
  delivered : ∃ ps, Delivers dev bufs s.heap es ps t.heap ∧
    t.ethIf.rxQueue = ps.reverse ++ s.ethIf.rxQueue ∧ t.wakes = s.wakes + ps.length
  frame : t.ethIf = { s.ethIf with stats := t.ethIf.stats, rxQueue := t.ethIf.rxQueue } ∧
    t.ethIf.stats.txBytes = s.ethIf.stats.txBytes ∧ t.ethIf.stats.txFrames = s.ethIf.stats.txFrames

/-- Exactly the entries from `last` up to `cur` are taken, and that many are returned. -/
structure RxLaw (dev : Ptr) (sts : ℕ → RxSts) (bufs : ℕ → Bytes) (s : EthRx) (cur : ℕ) (t : EthRx) :
    Prop where
  received : Received dev bufs s ((rxEntries s.last cur).map sts) t
  last : t.last = cur
  enqueued : t.enqueued = (rxEntries s.last cur).length

/-! ## The entries -/

theorem rxNext_eq {i : ℕ} (hi : i < rxStsNum) : rxNext i = (i + 1) % rxStsNum := by
  unfold rxNext
  split_ifs with h
  · have hlast : i + 1 = rxStsNum := by omega
    rw [hlast, Nat.mod_self]
  · exact (Nat.mod_eq_of_lt (by omega)).symm

theorem rxEntries_self (i : ℕ) : rxEntries i i = [] := by
  rw [rxEntries, Nat.add_sub_cancel_left, Nat.mod_self]
  rfl

theorem rxEntries_cons {last cur : ℕ} (hlast : last < rxStsNum) (hcur : cur < rxStsNum)
    (hne : last ≠ cur) : rxEntries last cur = last :: rxEntries (rxNext last) cur := by
  have hcount : (cur + rxStsNum - last) % rxStsNum
      = (cur + rxStsNum - rxNext last) % rxStsNum + 1 := by
    unfold rxNext rxStsNum at *
    split_ifs <;> omega
  rw [rxEntries, rxEntries, hcount, List.range_succ_eq_map, List.map_cons, List.map_map]
  congr 1
  · exact Nat.mod_eq_of_lt hlast
  · refine List.map_congr_left fun i _ ↦ ?_
    rw [rxNext_eq hlast]
    show (last + (i + 1)) % rxStsNum = ((last + 1) % rxStsNum + i) % rxStsNum
    rw [Nat.mod_add_mod, Nat.add_assoc, Nat.add_comm 1]

theorem length_rxEntries_lt (last cur : ℕ) : (rxEntries last cur).length < rxStsNum := by
  rw [rxEntries, List.length_map, List.length_range]
  exact Nat.mod_lt _ (by decide)

/-! ## One round -/

section Round

variable {dev : Ptr} {sts : ℕ → RxSts} {bufs : ℕ → Bytes} {s t : EthRx} {cur : ℕ}

/-- The counters that every entry goes into. -/
def EthRx.counted (s : EthRx) (len : UInt32) : EthRx :=
  { s with
    q := s.q + 1
    ethIf.stats.rxFrames := s.ethIf.stats.rxFrames + 1
    ethIf.stats.rxBytes := s.ethIf.stats.rxBytes + len }

/-- **A bad frame** is counted, and the loop stays where it is. -/
theorem rxBody_of_bad (he : ¬(sts s.last).Good) :
    (rxBody dev sts bufs s).last = s.last ∧ (rxBody dev sts bufs s).q = s.q + 1 := by
  rw [rxBody]
  dsimp only
  split_ifs with hshort hlong
  · exact ⟨rfl, rfl⟩
  · exact ⟨rfl, rfl⟩
  · exact absurd ⟨UInt16.not_lt.mp hshort, UInt16.not_lt.mp hlong⟩ he

/-- What becomes of a frame: there is no memory for it, or it is in front of the receive queue. -/
inductive RxOutcome (dev : Ptr) (s : EthRx) (buf : Bytes) (len : UInt32) : EthRx → Prop
  | failed {t : EthRx} (halloc : pktAlloc s.heap len = (none, t.heap))
      (hqueue : t.ethIf.rxQueue = s.ethIf.rxQueue) (hwakes : t.wakes = s.wakes) :
      RxOutcome dev s buf len t
  | delivered {p : EnNetPkt} {t : EthRx} (halloc : pktAlloc s.heap len = (some p, t.heap))
      (hqueue : t.ethIf.rxQueue = { rxCopy p buf len with ethIf := dev } :: s.ethIf.rxQueue)
      (hwakes : t.wakes = s.wakes + 1) : RxOutcome dev s buf len t

theorem rxFrame_spec (dev : Ptr) (s : EthRx) (buf : Bytes) (len : UInt32) :
    RxOutcome dev s buf len (rxFrame dev s buf len) ∧
      (rxFrame dev s buf len).ethIf
        = { s.ethIf with rxQueue := (rxFrame dev s buf len).ethIf.rxQueue } ∧
      (rxFrame dev s buf len).last = s.last ∧ (rxFrame dev s buf len).q = s.q := by
  unfold rxFrame
  obtain ⟨⟨o, u⟩, ho⟩ : ∃ r, pktAlloc s.heap len = r := ⟨_, rfl⟩
  rw [ho]
  cases o with
  | none => exact ⟨.failed ho rfl rfl, rfl, rfl, rfl⟩
  | some p => exact ⟨.delivered ho rfl rfl, rfl, rfl, rfl⟩

/-- **A good frame** is counted and taken, and the loop goes on to the next. -/
theorem rxBody_of_good (he : (sts s.last).Good) {len : UInt32}
    (hlen : len = (sts s.last).frameLength.toUInt32) (ht : t = rxBody dev sts bufs s) :
    RxOutcome dev s (bufs (sts s.last).bufferIndex) len t ∧
      t.ethIf.stats = (s.counted len).ethIf.stats ∧
      t.ethIf = { s.ethIf with stats := t.ethIf.stats, rxQueue := t.ethIf.rxQueue } ∧
      t.last = rxNext s.last ∧ t.q = s.q + 1 := by
  obtain ⟨houtcome, hif, hlast, hq⟩ :=
    rxFrame_spec dev (s.counted len) (bufs (sts s.last).bufferIndex) len
  obtain ⟨u, hu⟩ : ∃ u, u = rxFrame dev (s.counted len) (bufs (sts s.last).bufferIndex) len :=
    ⟨_, rfl⟩
  have hbody : t = { u with last := rxNext u.last } := by
    rw [ht, rxBody, hu, hlen]
    dsimp only
    rw [if_neg (UInt16.not_lt.mpr he.1), if_neg (UInt16.not_lt.mpr he.2)]
    rfl
  rw [← hu] at houtcome hif hlast hq
  subst hbody
  refine ⟨?_, ?_, ?_, congrArg rxNext hlast, hq⟩
  · cases houtcome with
    | failed halloc hqueue hwakes => exact .failed halloc hqueue hwakes
    | delivered halloc hqueue hwakes => exact .delivered halloc hqueue hwakes
  · show u.ethIf.stats = _
    rw [hif]
  · show u.ethIf = { s.ethIf with stats := u.ethIf.stats, rxQueue := u.ethIf.rxQueue }
    rw [hif]
    rfl

theorem received_nil (s : EthRx) : Received dev bufs s [] s where
  frames := (UInt32.add_zero _).symm
  bytes := (UInt32.add_zero _).symm
  runts := (UInt32.add_zero _).symm
  oversized := (UInt32.add_zero _).symm
  delivered := ⟨[], .nil, rfl, rfl⟩
  frame := ⟨rfl, rfl, rfl⟩

theorem bytesOf_rxCopy (p : EnNetPkt) (buf : Bytes) (len : UInt32) :
    bytesOf (rxCopy p buf len).data (rxCopy p buf len).len.toNat = bytesOf buf len.toNat := by
  refine bytesOf_congr fun i hi ↦ ?_
  show setBytes p.data 0 buf len.toNat i = buf i
  have hlt : i < len.toNat := hi
  rw [setBytes, if_pos ⟨Nat.zero_le i, by omega⟩, Nat.sub_zero]

theorem Received.cons {es : List RxSts} {u : EthRx} (he : (sts s.last).Good)
    (hu : u = rxBody dev sts bufs s) (h : Received dev bufs u es t) :
    Received dev bufs s (sts s.last :: es) t := by
  obtain ⟨houtcome, hstats, hif, -⟩ := rxBody_of_good he rfl hu
  obtain ⟨e, hdef⟩ : ∃ e, e = sts s.last := ⟨_, rfl⟩
  rw [← hdef] at he houtcome hstats ⊢
  have hlen : e.frameLength.toUInt32.toNat = e.frameLength.toNat := UInt16.toNat_toUInt32 _
  have hshort : ¬e.isRunt = true := by
    rw [RxSts.isRunt, decide_eq_true_iff]
    exact UInt16.not_lt.mpr he.1
  have hlong : ¬e.isOversized = true := by
    rw [RxSts.isOversized, decide_eq_true_iff]
    exact UInt16.not_lt.mpr he.2
  constructor
  · rw [h.frames, hstats, List.length_cons, Nat.add_comm es.length, UInt32.ofNat_add,
      ← UInt32.add_assoc]
    rfl
  · rw [h.bytes, hstats, List.map_cons, List.sum_cons, UInt32.ofNat_add, ← UInt32.add_assoc, ← hlen,
      UInt32.ofNat_toNat]
    rfl
  · rw [h.runts, hstats, List.countP_cons_of_neg hshort]
    rfl
  · rw [h.oversized, hstats, List.countP_cons_of_neg hlong]
    rfl
  · obtain ⟨ps, hps, hqueue, hwakes⟩ := h.delivered
    cases houtcome with
    | failed halloc hq hw => exact ⟨ps, .failed he halloc hps, hq ▸ hqueue, hw ▸ hwakes⟩
    | @delivered p _ halloc hq hw =>
      obtain ⟨p', hp'⟩ : ∃ p' : EnNetPkt, p' = { rxCopy p (bufs e.bufferIndex)
        e.frameLength.toUInt32 with ethIf := dev } := ⟨_, rfl⟩
      have hbytes : bytesOf p'.data p'.len.toNat
          = bytesOf (bufs e.bufferIndex) e.frameLength.toNat := by
        rw [hp', ← hlen]
        exact bytesOf_rxCopy p _ _
      refine ⟨p' :: ps, .delivered he halloc (by rw [hp']; rfl) (by rw [hp']) hbytes hps, ?_, ?_⟩
      · rw [hqueue, hq, ← hp', List.reverse_cons, List.append_assoc]
        rfl
      · rw [hwakes, hw, List.length_cons]
        omega
  · obtain ⟨hframe, htxb, htxf⟩ := h.frame
    refine ⟨?_, htxb.trans (by rw [hstats]; rfl), htxf.trans (by rw [hstats]; rfl)⟩
    rw [hframe, hif]

/-- The interface and the allocator are those of the network. -/
structure EthRx.SameAs (s : EthRx) (n : Net) (dev : Ptr) : Prop where
  heap : n.heap = s.heap
  ethIf : n.ethIf dev = s.ethIf

/-- **The body of the loop is `processRxFrame`**, which the network is modelled with. -/
theorem rxBody_sameAs {n : Net} (h : s.SameAs n dev) :
    (rxBody dev sts bufs s).SameAs (processRxFrame n dev (bufs (sts s.last).bufferIndex)
      (sts s.last).frameLength.toUInt32) dev := by
  obtain ⟨hheap, hif⟩ := h
  have hshort : (sts s.last).frameLength.toUInt32 < 60 ↔ (sts s.last).frameLength < 60 := by
    rw [UInt32.lt_iff_toNat_lt, UInt16.lt_iff_toNat_lt, UInt16.toNat_toUInt32]
    rfl
  have hlong : 1518 < (sts s.last).frameLength.toUInt32 ↔ 1518 < (sts s.last).frameLength := by
    rw [UInt32.lt_iff_toNat_lt, UInt16.lt_iff_toNat_lt, UInt16.toNat_toUInt32]
    rfl
  unfold rxBody processRxFrame
  simp only [hshort, hlong]
  split_ifs
  · refine ⟨hheap, ?_⟩
    simp only [Net.modifyStats, Net.ethIf_modifyIf_self, hif]
  · refine ⟨hheap, ?_⟩
    simp only [Net.modifyStats, Net.ethIf_modifyIf_self, hif]
  · unfold rxFrame
    have hsame : (n.modifyStats dev fun x ↦ { x with
        rxFrames := x.rxFrames + 1
        rxBytes := x.rxBytes + (sts s.last).frameLength.toUInt32 }).heap = s.heap := hheap
    rw [hsame]
    obtain ⟨⟨o, u⟩, ho⟩ : ∃ r, pktAlloc s.heap (sts s.last).frameLength.toUInt32 = r := ⟨_, rfl⟩
    simp only [ho]
    cases o with
    | none =>
      refine ⟨rfl, ?_⟩
      simp only [Net.modifyStats, Net.setHeap, Net.ethIf_modifyIf_self, hif]
    | some p =>
      refine ⟨rfl, ?_⟩
      simp only [enEthRx, EthRx.enEthRx, rxCopy, Net.modifyStats, Net.setHeap,
        Net.ethIf_modifyIf_self, hif]

end Round

/-! ## The loop -/

section Loop

variable {dev : Ptr} {sts : ℕ → RxSts} {bufs : ℕ → Bytes} {s : EthRx} {cur : ℕ}

/-- **Good frames only**: the loop goes through the entries in turn and ends at `cur`. -/
theorem rxStsLoop_of_good (dev : Ptr) (bufs : ℕ → Bytes) {n : ℕ} (hlast : s.last < rxStsNum)
    (hcur : cur < rxStsNum) (hne : s.last ≠ cur) (hgood : ∀ i ∈ rxEntries s.last cur, (sts i).Good)
    (hn : (rxEntries s.last cur).length ≤ n)
    (hq : s.q + (rxEntries s.last cur).length ≤ rxStsNum) :
    Received dev bufs s ((rxEntries s.last cur).map sts) (rxStsLoop dev sts bufs cur n s) ∧
      (rxStsLoop dev sts bufs cur n s).last = cur ∧
      (rxStsLoop dev sts bufs cur n s).q = s.q + (rxEntries s.last cur).length := by
  induction n generalizing s with
  | zero =>
    rw [rxEntries_cons hlast hcur hne] at hn
    exact absurd hn (Nat.not_succ_le_zero _)
  | succ n ih =>
    have hentries := rxEntries_cons hlast hcur hne
    rw [hentries] at hgood hn hq ⊢
    rw [List.forall_mem_cons] at hgood
    obtain ⟨u, hu⟩ : ∃ u, u = rxBody dev sts bufs s := ⟨_, rfl⟩
    obtain ⟨-, -, -, hulast, huq⟩ := rxBody_of_good hgood.1 rfl hu
    have hnext : rxNext s.last < rxStsNum := by
      rw [rxNext_eq hlast]
      exact Nat.mod_lt _ (by decide)
    rw [List.length_cons] at hn hq
    rw [List.map_cons, rxStsLoop, ← hu]
    by_cases hend : u.last = cur
    · -- the last one
      have hnil : rxEntries (rxNext s.last) cur = [] := by
        rw [← hulast, hend, rxEntries_self]
      have hstop :
          (if u.last ≠ cur ∧ u.q < rxStsNum then rxStsLoop dev sts bufs cur n u else u) = u :=
        if_neg fun h ↦ h.1 hend
      rw [hstop, hnil]
      exact ⟨(received_nil u).cons hgood.1 hu, hend, huq⟩
    · have hpos : 0 < (rxEntries u.last cur).length := by
        rw [rxEntries_cons (hulast ▸ hnext) hcur hend]
        exact Nat.succ_pos _
      rw [← hulast] at hgood hn hq ⊢
      have hmore : (if u.last ≠ cur ∧ u.q < rxStsNum then rxStsLoop dev sts bufs cur n u else u)
          = rxStsLoop dev sts bufs cur n u := if_pos ⟨hend, by omega⟩
      obtain ⟨hreceived, hl, hq'⟩ :=
        ih (s := u) (hulast ▸ hnext) hend hgood.2 (by omega) (by omega)
      rw [hmore, List.length_cons]
      exact ⟨hreceived.cons hgood.1 hu, hl, by omega⟩

/-- **A bad frame** among the entries is never passed. -/
theorem rxStsLoop_of_bad {n : ℕ} (hlast : s.last < rxStsNum) (hcur : cur < rxStsNum)
    (hbad : ∃ i ∈ rxEntries s.last cur, ¬(sts i).Good) :
    (rxStsLoop dev sts bufs cur n s).last ≠ cur := by
  have hne : ∀ i, (∃ j ∈ rxEntries i cur, ¬(sts j).Good) → i ≠ cur := by
    rintro i ⟨j, hj, -⟩ rfl
    rw [rxEntries_self] at hj
    exact List.not_mem_nil hj
  induction n generalizing s with
  | zero => exact hne s.last hbad
  | succ n ih =>
    obtain ⟨u, hu⟩ : ∃ u, u = rxBody dev sts bufs s := ⟨_, rfl⟩
    -- wherever the loop is next, the bad frame is still ahead
    have hahead : u.last < rxStsNum ∧ ∃ i ∈ rxEntries u.last cur, ¬(sts i).Good := by
      by_cases hgood : (sts s.last).Good
      · obtain ⟨-, -, -, hulast, -⟩ := rxBody_of_good hgood rfl hu
        obtain ⟨i, hi, hibad⟩ := hbad
        rw [rxEntries_cons hlast hcur (hne s.last ⟨i, hi, hibad⟩)] at hi
        rcases List.mem_cons.mp hi with rfl | hi
        · exact absurd hgood hibad
        · rw [hulast, rxNext_eq hlast]
          exact ⟨Nat.mod_lt _ (by decide), i, rxNext_eq hlast ▸ hi, hibad⟩
      · rw [hu, (rxBody_of_bad hgood).1]
        exact ⟨hlast, hbad⟩
    rw [rxStsLoop, ← hu]
    split_ifs
    · exact ih hahead.1 hahead.2
    · exact hne u.last hahead.2

theorem q_rxBody (dev : Ptr) (sts : ℕ → RxSts) (bufs : ℕ → Bytes) (s : EthRx) :
    (rxBody dev sts bufs s).q = s.q + 1 := by
  by_cases hgood : (sts s.last).Good
  · exact (rxBody_of_good (t := rxBody dev sts bufs s) hgood rfl rfl).2.2.2.2
  · exact (rxBody_of_bad hgood).2

theorem le_q_rxStsLoop (n : ℕ) (s : EthRx) : s.q ≤ (rxStsLoop dev sts bufs cur n s).q := by
  induction n generalizing s with
  | zero => exact Nat.le_refl _
  | succ n ih =>
    have hq := q_rxBody dev sts bufs s
    rw [rxStsLoop]
    split_ifs
    · exact Nat.le_trans (by omega) (ih _)
    · omega

theorem q_rxStsLoop_pos {n : ℕ} (hn : 0 < n) (s : EthRx) :
    0 < (rxStsLoop dev sts bufs cur n s).q := by
  obtain ⟨n, rfl⟩ := Nat.exists_eq_succ_of_ne_zero hn.ne'
  have hq := q_rxBody dev sts bufs s
  rw [rxStsLoop]
  split_ifs
  · exact Nat.lt_of_lt_of_le (by omega) (le_q_rxStsLoop n _)
  · omega

end Loop

/-! ## The theorem -/

/-- **The receive ring, exactly.** For every content of the status queue and of the buffers, every
position reached so far and every position of the hardware, and whatever memory there is: exactly
the entries between the two are taken, each once, if and only if there are any, and none of them is
for a frame that is too short or too long. -/
theorem rxLaw_iff (dev : Ptr) (sts : ℕ → RxSts) (bufs : ℕ → Bytes) (heap : PktHeap)
    (ethIf : EnEthIf) {last cur : ℕ} (hlast : last < 64) (hcur : cur < 64) :
    RxLaw dev sts bufs ⟨heap, ethIf, last, 0, 0⟩ cur
        (processRxQueue dev sts bufs heap ethIf last cur) ↔
      last ≠ cur ∧ ∀ i ∈ rxEntries last cur, (sts i).Good := by
  constructor
  · intro hlaw
    refine ⟨fun heq ↦ ?_, fun i hi ↦ ?_⟩
    · have hzero : (rxEntries last cur).length = 0 := by rw [heq, rxEntries_self, List.length_nil]
      have hpos : 0 < (processRxQueue dev sts bufs heap ethIf last cur).q :=
        q_rxStsLoop_pos (by decide) _
      exact hpos.ne' (hlaw.enqueued.trans hzero)
    · by_contra hbad
      exact rxStsLoop_of_bad (s := ⟨heap, ethIf, last, 0, 0⟩) hlast hcur ⟨i, hi, hbad⟩ hlaw.last
  · rintro ⟨hne, hgood⟩
    have hlen := length_rxEntries_lt last cur
    obtain ⟨hreceived, hl, hq⟩ := rxStsLoop_of_good dev bufs (n := rxStsNum)
      (s := ⟨heap, ethIf, last, 0, 0⟩) hlast hcur hne hgood hlen.le (by dsimp only; omega)
    exact ⟨hreceived, hl, hq.trans (Nat.zero_add _)⟩

/-- An interface that has received nothing yet. -/
def idleIf : EnEthIf := ⟨fun _ ↦ 0, ⟨0, 0, 0, 0, 0, 0⟩, 1, [], [], []⟩

/-- Two good frames. -/
theorem rxLaw_iff_two :
    RxLaw 0x100 (fun i ↦ ⟨100, i⟩) (fun _ _ ↦ 7) ⟨pktHeapExample, idleIf, 63, 0, 0⟩ 1
    (processRxQueue 0x100 (fun i ↦ ⟨100, i⟩) (fun _ _ ↦ 7) pktHeapExample idleIf 63 1) := by
  have hgood : ∀ i, RxSts.Good ⟨100, i⟩ := fun i ↦ by
    show (60 : UInt16) ≤ 100 ∧ (100 : UInt16) ≤ 1518
    decide
  exact (rxLaw_iff _ _ _ _ _ (by decide) (by decide)).mpr ⟨by decide, fun i _ ↦ hgood i⟩

/-- **One runt** is counted 64 times, and 64 descriptors are returned for it. -/
theorem rx_runt_counted_64 : ∃ t,
    processRxQueue 0x100 (fun _ ↦ ⟨0, 0⟩) (fun _ _ ↦ 7) pktHeapExample idleIf 0 1 = t ∧
      t.ethIf.stats.runts = 64 ∧ t.enqueued = 64 ∧ t.last = 0 ∧
      ¬RxLaw 0x100 (fun _ ↦ ⟨0, 0⟩) (fun _ _ ↦ 7) ⟨pktHeapExample, idleIf, 0, 0, 0⟩ 1 t := by
  refine ⟨_, rfl, by decide +kernel, by decide +kernel, by decide +kernel, fun h ↦ ?_⟩
  exact absurd h.last (by decide +kernel)

end Ertos
