import Ertos.Basis.Transition
import Ertos.Net.Frame

/-!
# Packet leaks

Runs of the network code: frames arrive, the receiving task takes them off the receive queues, and
the transmitting task takes packets off the transmit queues, in any order and with the tables
changing in between. A packet in use that is on no queue has been leaked.

Nothing leaks as long as the frames taken are those the receiving task disposes of and the packets
sent are not oversized; any other frame or packet is leaked. Oversized packets do not arise: see
`ShortQueues`.
-/

namespace Ertos

open Custody Transition

/-! ## Runs -/

/-- Every packet in use is on a queue. -/
def NoLeak (n : Net) : Prop := ∀ p, n.heap.live p = true → ∃ q, ∃ pkt ∈ n.queue q, pkt.addr = p

theorem noLeak_iff_covered (n : Net) : NoLeak n ↔ n.book.Covered := by
  have hmem : ∀ p q, p ∈ n.book.held q ↔ ∃ pkt ∈ n.queue q, pkt.addr = p := by
    intro p q
    exact List.mem_map
  simp only [NoLeak, Book.Covered, hmem]
  rfl

/-- The results of the calls of `malloc` to come. -/
def Net.setMallocs (n : Net) (ms : ℕ → Ptr) : Net := n.setHeap { n.heap with mallocs := ms }

inductive NetOp
  /-- A frame arrives at an interface. -/
  | rx (i : Ptr) (ms : ℕ → Ptr) (frame : Bytes) (len : UInt32)
  /-- A turn of `en_eth_rx_drain` on the receive queue of an interface. -/
  | drain (i : Ptr) (ms : ℕ → Ptr)
  /-- A turn of `en_eth_tx_task` on the transmit queue of an interface. -/
  | tx (i : Ptr)
  /-- The tables change. -/
  | config

/-- One step. Each time `malloc` may return anything but a packet in use. A turn of the receiving
task ends if its checksum loops do. -/
inductive NetStep : Net → NetOp → Net → Prop
  | rx {n : Net} {i : Ptr} {ms : ℕ → Ptr} {frame : Bytes} {len : UInt32}
      (hfresh : (n.setMallocs ms).heap.Fresh) :
      NetStep n (.rx i ms frame len) (processRxFrame (n.setMallocs ms) i frame len)
  | drain {n t : Net} {i : Ptr} {ms : ℕ → Ptr} {bound : ℕ → ℕ} {found : Bool}
      (hfresh : (n.setMallocs ms).heap.Fresh)
      (h : enEthRxTurn bound (n.setMallocs ms) i = some (found, t)) : NetStep n (.drain i ms) t
  | tx {n : Net} {i : Ptr} : NetStep n (.tx i) (enEthTxTurn n i)
  | config {n t : Net} (hlive : t.heap.live = n.heap.live) (hqueue : ∀ q, t.queue q = n.queue q) :
      NetStep n .config t

/-- The packet taken off a queue, if there is one, is disposed of. -/
def Disposes (n : Net) : NetOp → Prop
  | .drain i _ => ∀ pkt ∈ (n.ethIf i).rxQueue.head?, (n.ethIf i).bound ≠ 0 → FrameDisposes n pkt
  | .tx i => ∀ pkt ∈ (n.ethIf i).txQueue.head?, pkt.len ≤ 1518
  | _ => True

/-! ## Steps -/

section Steps

variable {n : Net} {pkt : EnNetPkt}

theorem bears_take {t : Net} {q : PktQueue} {l : List EnNetPkt} (hs : n.book.Sound)
    (hc : n.book.Covered) (h : n.queue q = pkt :: l) (hlive : t.heap.live = n.heap.live)
    (hq : t.queue q = l) (hother : ∀ p, p ≠ q → t.queue p = n.queue p) :
    t.book.Bears pkt.addr := by
  have hheld : n.book.held q = pkt.addr :: l.map EnNetPkt.addr :=
    congrArg (List.map EnNetPkt.addr) h
  have htail : t.queue q = (n.queue q).tail := by rw [hq, h, List.tail_cons]
  rw [Net.book_take hlive htail hother]
  exact hs.take hc hheld

/-- **The driver frees a packet it sends**, and keeps one that is too long. -/
theorem settled_ep9301Xmit (h : n.book.Bears pkt.addr) (dev : Ptr) :
    (ep9301Xmit n pkt dev).2.book.Settled pkt.addr (pkt.len ≤ 1518) := by
  unfold ep9301Xmit
  split_ifs with hlen
  · exact h.forget.of_iff (iff_of_false id (UInt32.not_le.mpr hlen))
  · have hsettled := h.release.of_iff (iff_of_true trivial (UInt32.not_lt.mp hlen))
    have hbook : ∀ f, (((n.fillTxDesc pkt).modifyStats dev f).free pkt).nextTxDesc.book =
        n.book.release pkt.addr := by
      intro f
      have hfree := ((n.fillTxDesc pkt).modifyStats dev f).book_free pkt
      rw [Net.book_modifyStats] at hfree
      exact hfree
    dsimp only
    rw [hbook]
    exact hsettled

theorem settled_enEthTxTurn (hs : n.book.Sound) (hc : n.book.Covered) (i : Ptr) :
    (enEthTxTurn n i).book.Sound ∧ ((enEthTxTurn n i).book.Covered ↔ Disposes n (.tx i)) := by
  cases hq : (n.ethIf i).txQueue with
  | nil =>
    have hturn : enEthTxTurn n i = n := by rw [enEthTxTurn, hq]
    rw [hturn, Disposes, hq]
    exact ⟨hs, iff_of_true hc (by simp)⟩
  | cons pkt l =>
    set t := n.modifyIf i fun x ↦ { x with txQueue := l }
    have hturn : enEthTxTurn n i = (ep9301Xmit t pkt i).2 := by rw [enEthTxTurn, hq]
    have hbears : t.book.Bears pkt.addr := bears_take (q := .tx i) hs hc hq rfl
      (congrArg EnEthIf.txQueue (n.ethIf_modifyIf_self i _))
      (n.queue_modifyIf_of_rx i fun _ ↦ rfl)
    have hsettled := settled_ep9301Xmit hbears i
    rw [hturn, Disposes, hq, hsettled.covered_iff]
    exact ⟨hsettled.sound, by simp⟩

theorem enEthRxTurn_false {bound : ℕ → ℕ} {t : Net} {i : Ptr}
    (h : enEthRxTurn bound n i = some (false, t)) : t = n := by
  unfold enEthRxTurn at h
  cases hq : (n.ethIf i).rxQueue with
  | nil =>
    rw [hq] at h
    exact (Prod.mk.inj (Option.some.inj h)).2.symm
  | cons pkt l =>
    rw [hq] at h
    dsimp only at h
    split_ifs at h
    · exact absurd (Prod.mk.inj (Option.some.inj h)).1 Bool.false_ne_true.symm
    · obtain ⟨u, -, hu⟩ := Option.map_eq_some_iff.mp h
      exact absurd (Prod.mk.inj hu).1 Bool.false_ne_true.symm

theorem settled_enEthRxTurn {bound : ℕ → ℕ} {found : Bool} {t : Net} {i : Ptr}
    (hs : n.book.Sound) (hc : n.book.Covered) (hfresh : n.heap.Fresh) (ms : ℕ → Ptr)
    (hrun : enEthRxTurn bound n i = some (found, t)) :
    t.book.Sound ∧ (t.book.Covered ↔ Disposes n (.drain i ms)) := by
  rw [enEthRxTurn] at hrun
  cases hq : (n.ethIf i).rxQueue with
  | nil =>
    rw [hq] at hrun
    obtain rfl := (Prod.mk.inj (Option.some.inj hrun)).2
    rw [Disposes, hq]
    exact ⟨hs, iff_of_true hc (by simp)⟩
  | cons pkt l =>
    rw [hq] at hrun
    set u := n.modifyIf i fun x ↦ { x with rxQueue := l }
    have hbound : (u.ethIf i).bound = (n.ethIf i).bound := by
      rw [Net.ethIf_modifyIf_self]
    have hbears : u.book.Bears pkt.addr := bears_take (q := .rx i) hs hc hq rfl
      (congrArg EnEthIf.rxQueue (n.ethIf_modifyIf_self i _))
      (n.queue_modifyIf_of_tx i fun _ ↦ rfl)
    rw [Disposes, hq]
    dsimp only at hrun
    rw [hbound] at hrun
    split_ifs at hrun with hunbound
    · -- an interface that is not bound drops the packet
      obtain rfl := (Prod.mk.inj (Option.some.inj hrun)).2
      have hsettled := settled_free hbears
      exact ⟨hsettled.sound, iff_of_true (hsettled.covered trivial) (by simp [hunbound])⟩
    · obtain ⟨t', hin, ht⟩ := Option.map_eq_some_iff.mp hrun
      obtain rfl := (Prod.mk.inj ht).2
      have hsettled := settled_enEthInput (n := u) hbears hfresh hin
      have hframe : FrameDisposes u pkt ↔ FrameDisposes n pkt := Iff.rfl
      rw [hsettled.covered_iff, hframe]
      exact ⟨hsettled.sound, by simp [hunbound]⟩

theorem settled_processRxFrame (hs : n.book.Sound) (hc : n.book.Covered) (hfresh : n.heap.Fresh)
    (i : Ptr) (frame : Bytes) (len : UInt32) :
    (processRxFrame n i frame len).book.Sound ∧ (processRxFrame n i frame len).book.Covered := by
  unfold processRxFrame
  dsimp only
  set u := n.modifyStats i fun s ↦ { s with rxFrames := s.rxFrames + 1, rxBytes := s.rxBytes + len }
  have hu : u.book = n.book := n.book_modifyStats i _
  have hstats : ∀ f, (u.modifyStats i f).book.Sound ∧ (u.modifyStats i f).book.Covered := by
    intro f
    rw [Net.book_modifyStats, hu]
    exact ⟨hs, hc⟩
  split_ifs
  · exact hstats _
  · exact hstats _
  · have hspec := pktAlloc_spec u.heap len
    generalize pktAlloc u.heap len = r at hspec
    cases hspec with
    | @failed heap hlive =>
      dsimp only
      rw [u.book_setHeap hlive, hu]
      exact ⟨hs, hc⟩
    | @ok pkt heap hnull haddr hlive =>
      -- the packet is new, and goes straight to the receive queue
      have hnew : pkt.addr ∉ n.book.live := by
        have hfalse : n.heap.live pkt.addr = false := by
          rw [haddr]
          exact hfresh 0 hnull
        exact fun h ↦ Bool.false_ne_true (hfalse.symm.trans h)
      dsimp only
      rw [book_enEthRx, u.book_setHeap_alloc hlive, hu]
      have hsettled := hs.acquire_put hc hnew (.rx i)
      exact ⟨hsettled.sound, hsettled.covered trivial⟩

theorem netStep_settled {t : Net} {e : NetOp} (hs : n.book.Sound) (hc : n.book.Covered)
    (hstep : NetStep n e t) : t.book.Sound ∧ (t.book.Covered ↔ Disposes n e) := by
  have hms : ∀ ms, (n.setMallocs ms).book = n.book := fun ms ↦ n.book_setHeap rfl
  cases hstep with
  | @rx i ms frame len hfresh =>
    obtain ⟨hs', hc'⟩ := settled_processRxFrame (hms ms ▸ hs) (hms ms ▸ hc) hfresh i frame len
    exact ⟨hs', iff_of_true hc' trivial⟩
  | @drain t i ms bound found hfresh h =>
    exact settled_enEthRxTurn (hms ms ▸ hs) (hms ms ▸ hc) hfresh ms h
  | @tx i => exact settled_enEthTxTurn hs hc i
  | config hlive hqueue =>
    rw [Net.book_congr hlive hqueue]
    exact ⟨hs, iff_of_true hc trivial⟩

end Steps

/-- **No packet leaks just in case every packet taken off a queue is disposed of.** -/
theorem always_noLeak_iff_disposes {n : Net} (hs : n.book.Sound) (hn : NoLeak n)
    {r : List (NetOp × Net)} (hrun : IsRun NetStep n r) :
    Always NoLeak n r ↔ Guarded Disposes n r := by
  refine always_iff_guarded (I := fun t ↦ t.book.Sound ∧ NoLeak t) (fun _ h ↦ h.2) ?_ ?_
    ⟨hs, hn⟩ hrun
  · rintro s e t ⟨hs, hn⟩ hd hstep
    obtain ⟨hs', hiff⟩ := netStep_settled hs ((noLeak_iff_covered s).mp hn) hstep
    exact ⟨hs', (noLeak_iff_covered t).mpr (hiff.mpr hd)⟩
  · rintro s e t ⟨hs, hn⟩ hd hstep ht
    obtain ⟨-, hiff⟩ := netStep_settled hs ((noLeak_iff_covered s).mp hn) hstep
    exact hd (hiff.mp ((noLeak_iff_covered t).mp ht))

/-! ## The loops around the turns -/

theorem enEthTxPass_run (n : Net) : ∃ r, r.map Prod.fst = n.ifs.map NetOp.tx ∧
    IsRun NetStep n r ∧ last n r = enEthTxPass n := by
  have hlist : ∀ (l : List Ptr) (n : Net), ∃ r, r.map Prod.fst = l.map NetOp.tx ∧
      IsRun NetStep n r ∧ last n r = l.foldl enEthTxTurn n := by
    intro l
    induction l with
    | nil => exact fun n ↦ ⟨[], rfl, trivial, rfl⟩
    | cons i l ih =>
      intro n
      obtain ⟨r, hmap, hrun, hlast⟩ := ih (enEthTxTurn n i)
      exact ⟨(.tx i, enEthTxTurn n i) :: r, congrArg (NetOp.tx i :: ·) hmap, ⟨.tx, hrun⟩, hlast⟩
  exact hlist n.ifs n

/-- A drain that ends is a sequence of turns up to one that finds no packet. -/
theorem enEthRxDrain_turns {bound : ℕ → ℕ} {turns : ℕ} {n t : Net} {i : Ptr}
    (h : enEthRxDrain bound turns n i = some t) :
    ∃ r : List (Unit × Net), IsRun (fun n _ t ↦ enEthRxTurn bound n i = some (true, t)) n r ∧
      last n r = t ∧ enEthRxTurn bound t i = some (false, t) := by
  induction turns generalizing n with
  | zero => exact absurd h (Option.some_ne_none t).symm
  | succ turns ih =>
    obtain ⟨⟨found, u⟩, hturn, hrest⟩ := Option.bind_eq_some_iff.mp h
    cases found with
    | true =>
      obtain ⟨r, hrun, hlast, hend⟩ := ih hrest
      exact ⟨((), u) :: r, ⟨hturn, hrun⟩, hlast, hend⟩
    | false =>
      obtain rfl := Option.some.inj hrest
      have hsame : u = n := enEthRxTurn_false hturn
      subst hsame
      exact ⟨[], trivial, rfl, hturn⟩

/-! ## Two frames -/

theorem sound_bootNet : bootNet.book.Sound where
  live := fun q _ h ↦ by cases q <;> exact absurd h List.not_mem_nil
  nodup := fun q ↦ by cases q <;> exact List.nodup_nil
  unique := fun q _ _ h ↦ by cases q <;> exact absurd h List.not_mem_nil

theorem noLeak_bootNet : NoLeak bootNet := fun _ h ↦ absurd h Bool.false_ne_true

theorem fresh_bootNet : bootNet.heap.Fresh := fun _ _ ↦ rfl

/-- An ARP request of 192.168.0.1 for 192.168.0.99. -/
def arpRequestFrame : Bytes := fun i ↦
  [255, 255, 255, 255, 255, 255, 2, 0, 0, 0, 0, 1, 8, 6, 0, 1, 8, 0, 6, 4, 0, 1, 2, 0, 0, 0, 0, 1,
    192, 168, 0, 1, 0, 0, 0, 0, 0, 0, 192, 168, 0, 99].getD i 0

/-- The packet it is received as. -/
def arpRequestPkt : EnNetPkt := ⟨0x10000, setBytes (fun _ ↦ 0) 0 arpRequestFrame 60, 60, 60, 0x100⟩

theorem arpWellFormed_arpRequestPkt : ArpWellFormed (payload arpRequestPkt) :=
  ⟨by decide, by decide, by decide, by decide, by decide⟩

/-- The request is received, answered, and the answer sent. -/
theorem always_noLeak_iff_disposes_arpRequest :
    ∃ r, r.map Prod.fst = [NetOp.rx 0x100 bootNet.heap.mallocs arpRequestFrame 60,
        .drain 0x100 (fun _ ↦ 0x20000), .tx 0x100] ∧
      IsRun NetStep bootNet r ∧ Always NoLeak bootNet r := by
  have hrun : IsRun NetStep bootNet
      [(.rx 0x100 bootNet.heap.mallocs arpRequestFrame 60, _), (.drain 0x100 (fun _ ↦ 0x20000), _),
        (.tx 0x100, _)] :=
    ⟨.rx fresh_bootNet, @NetStep.drain _ _ _ _ (fun _ ↦ 0) _ (fun _ _ ↦ rfl) rfl, .tx, trivial⟩
  refine ⟨_, rfl, hrun, (always_noLeak_iff_disposes sound_bootNet noLeak_bootNet hrun).mpr
    ⟨trivial, ?_, ?_, trivial⟩⟩
  · intro pkt hpkt _
    obtain rfl : arpRequestPkt = pkt := Option.some.inj hpkt
    have htype : enNtohs (get16 arpRequestPkt.data 12) = ethTypeArp := by decide
    rw [FrameDisposes, if_pos htype]
    exact arpWellFormed_arpRequestPkt
  · intro pkt hpkt
    obtain rfl := Option.some.inj hpkt
    decide

/-- An IPv4 frame, zero but for its type, so that the checksum of its header is wrong. -/
def badCksumFrame : Bytes := fun i ↦ if i = 12 then 8 else 0

def badCksumPkt : EnNetPkt := ⟨0x10000, setBytes (fun _ ↦ 0) 0 badCksumFrame 60, 60, 60, 0x100⟩

/-- **A frame with a bad checksum is leaked.** It is received into the packet at `0x10000`, which is
on the receive queue until the receiving task takes it, and on no queue after that. -/
theorem badCksum_leaks :
    ∃ s t, IsRun NetStep bootNet
        [(NetOp.rx 0x100 bootNet.heap.mallocs badCksumFrame 60, s),
          (.drain 0x100 (fun _ ↦ 0x20000), t)] ∧
      NoLeak s ∧ t.heap.live 0x10000 = true ∧ ¬NoLeak t := by
  have hrun : IsRun NetStep bootNet
      [(.rx 0x100 bootNet.heap.mallocs badCksumFrame 60, _), (.drain 0x100 (fun _ ↦ 0x20000), _)] :=
    ⟨.rx fresh_bootNet, @NetStep.drain _ _ _ _ (fun _ ↦ 0) _ (fun _ _ ↦ rfl) rfl, trivial⟩
  obtain ⟨hs, hiff⟩ := netStep_settled sound_bootNet
    ((noLeak_iff_covered bootNet).mp noLeak_bootNet) hrun.1
  have hc := hiff.mpr trivial
  refine ⟨_, _, hrun, (noLeak_iff_covered _).mpr hc, rfl, fun hn ↦ ?_⟩
  have hdisposes := (netStep_settled hs hc hrun.2.1).2.mp ((noLeak_iff_covered _).mp hn)
  have hframe : FrameDisposes _ badCksumPkt := hdisposes badCksumPkt rfl (by decide)
  have harp : enNtohs (get16 badCksumPkt.data 12) ≠ ethTypeArp := by decide
  have hip : enNtohs (get16 badCksumPkt.data 12) = ethTypeIpv4 := by decide
  rw [FrameDisposes, if_neg harp, if_pos hip] at hframe
  exact absurd hframe.1.cksum (by decide)

end Ertos
