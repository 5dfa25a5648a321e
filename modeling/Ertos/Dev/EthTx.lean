import Ertos.Basis.Spool
import Ertos.Net.Effects
import Ertos.Net.Leak
import Ertos.Net.PktBytes

/-!
# Transmit descriptors

`ep9301_xmit` of `arch/eth.c` copies a frame into the buffer of the next of 64 descriptors and tells
the hardware that there is one more. The hardware transmits the frames behind it, at the speed of
the wire. Nothing in `ep9301_xmit` waits for it, and `process_tx_queue`, which reads what became of
the frames, does not hold up anything either.

So the descriptors are a ring that is filled without looking. `frames_transmitted_iff` is about the
whole network code with the hardware beside it: the frames on the wire are those that were accepted,
in order and unchanged, as long as no more than 64 are waiting.
-/

namespace Ertos

open Transition Custody

/-! ## The ring -/

/-- What is transmitted for a descriptor. -/
structure TxFrame where
  eof : Bool
  bytes : List UInt8

def TxDesc.frame (d : TxDesc) : TxFrame := ⟨d.eof, bytesOf d.buf d.bufferLength.toNat⟩

/-- The network code, and the hardware that transmits. -/
structure EthTx where
  net : Net
  /-- The descriptor of `TXDQCurAdd`. -/
  cur : ℕ
  /-- The frames that `ep9301_xmit` has accepted. -/
  given : List TxFrame
  /-- The frames that the hardware has transmitted. -/
  wire : List TxFrame

/-- The frame that a step has `ep9301_xmit` accept. -/
def Net.accepted (n : Net) : NetOp → Option TxFrame
  | .tx i => (n.ethIf i).txQueue.head?.bind fun pkt ↦
      if 1518 < pkt.len then none else some ⟨true, bytesOf pkt.data pkt.len.toNat⟩
  | _ => none

/-- The descriptors are as they were. -/
structure SameRing (n t : Net) : Prop where
  txDesc : t.txDesc = n.txDesc
  next : t.next = n.next
  txdEnq : t.txdEnq = n.txdEnq

inductive EthTxOp
  | net (e : NetOp)
  | transmit

/-- A step of the network code, or the hardware transmits a frame that it was told of. -/
inductive EthTxStep : EthTx → EthTxOp → EthTx → Prop
  | net {s : EthTx} {e : NetOp} {t : Net} (h : NetStep s.net e t)
      (hconfig : e = .config → SameRing s.net t) :
      EthTxStep s (.net e) ⟨t, s.cur, s.given ++ (s.net.accepted e).toList, s.wire⟩
  | transmit {s : EthTx} (h : s.wire.length < s.net.txdEnq) :
      EthTxStep s .transmit ⟨s.net, Ring.advance txDescNum s.cur, s.given,
        s.wire ++ [(s.net.txDesc s.cur).frame]⟩

namespace EthTx

/-- How many frames the hardware was told of and has not transmitted. -/
def backlog (s : EthTx) : ℕ := s.net.txdEnq - s.wire.length

/-- The frames it will transmit for them. -/
def waiting (s : EthTx) : List TxFrame :=
  Ring.window (fun i ↦ (s.net.txDesc i).frame) txDescNum s.cur s.backlog

/-- Every frame accepted is transmitted, or will be, in order and unchanged. -/
def Delivers (s : EthTx) : Prop := s.given = s.wire ++ s.waiting

/-- A frame is accepted only while a descriptor is free, unless the same frame is in it. -/
def Free (s : EthTx) : EthTxOp → Prop
  | .net e => ∀ x ∈ s.net.accepted e, s.backlog < txDescNum ∨ (s.net.txDesc s.net.next).frame = x
  | .transmit => True

def spool (s : EthTx) : Ring.Spool TxFrame :=
  ⟨fun i ↦ (s.net.txDesc i).frame, s.cur, s.backlog, s.given, s.wire⟩

def spoolOp (s : EthTx) : EthTxOp → Ring.SpoolOp TxFrame
  | .net e => match s.net.accepted e with
    | some x => .put x
    | none => .idle
  | .transmit => .take

/-- The driver is as far ahead of the hardware as it was told. -/
structure Inv (s : EthTx) : Prop where
  told : s.wire.length ≤ s.net.txdEnq
  cur_lt : s.cur < txDescNum
  next_eq : s.net.next = (s.cur + s.backlog) % txDescNum

end EthTx

/-! ## The network code and the ring -/

section SameRing

variable {n t u : Net}

theorem SameRing.refl (n : Net) : SameRing n n := ⟨rfl, rfl, rfl⟩

theorem SameRing.trans (h : SameRing n t) (h' : SameRing t u) : SameRing n u :=
  ⟨h'.txDesc.trans h.txDesc, h'.next.trans h.next, h'.txdEnq.trans h.txdEnq⟩

theorem SameRing.modifyIf (n : Net) (i : Ptr) (f : EnEthIf → EnEthIf) :
    SameRing n (n.modifyIf i f) := ⟨rfl, rfl, rfl⟩

theorem SameRing.setMallocs (n : Net) (ms : ℕ → Ptr) : SameRing n (n.setMallocs ms) :=
  ⟨rfl, rfl, rfl⟩

theorem NetEffect.sameRing (h : NetEffect n t) : SameRing n t := by
  cases h <;> exact ⟨rfl, rfl, rfl⟩

theorem NetEffects.sameRing (h : NetEffects n t) : SameRing n t := by
  induction h with
  | refl => exact .refl n
  | tail _ h ih => exact ih.trans h.sameRing

theorem processRxFrame_sameRing (n : Net) (dev : Ptr) (frame : Bytes) (len : UInt32) :
    SameRing n (processRxFrame n dev frame len) := by
  unfold processRxFrame
  dsimp only
  split_ifs
  · exact ⟨rfl, rfl, rfl⟩
  · exact ⟨rfl, rfl, rfl⟩
  · split <;> exact ⟨rfl, rfl, rfl⟩

theorem enEthRxTurn_sameRing {bound : ℕ → ℕ} {i : Ptr} {found : Bool}
    (h : enEthRxTurn bound n i = some (found, t)) : SameRing n t := by
  unfold enEthRxTurn at h
  cases hq : (n.ethIf i).rxQueue with
  | nil =>
    rw [hq] at h
    obtain rfl := (Prod.mk.inj (Option.some.inj h)).2
    exact .refl n
  | cons pkt l =>
    rw [hq] at h
    dsimp only at h
    split_ifs at h
    · obtain rfl := (Prod.mk.inj (Option.some.inj h)).2
      exact ⟨rfl, rfl, rfl⟩
    · obtain ⟨t', hin, ht⟩ := Option.map_eq_some_iff.mp h
      obtain rfl := (Prod.mk.inj ht).2
      exact (SameRing.modifyIf n i _).trans (enEthInput_effects hin).sameRing

/-- An accepted frame is in the next descriptor, and the hardware is told. -/
structure Enqueued (n : Net) (x : TxFrame) (t : Net) : Prop where
  frames : (fun i ↦ (t.txDesc i).frame) =
    Function.update (fun i ↦ (n.txDesc i).frame) n.next x
  next : t.next = Ring.advance txDescNum n.next
  txdEnq : t.txdEnq = n.txdEnq + 1

theorem ep9301Xmit_enqueued {pkt : EnNetPkt} (hlen : ¬1518 < pkt.len) (dev : Ptr) :
    Enqueued n ⟨true, bytesOf pkt.data pkt.len.toNat⟩ (ep9301Xmit n pkt dev).2 := by
  have hnat : pkt.len.toNat ≤ 1518 := UInt32.le_iff_toNat_le.mp (UInt32.not_lt.mp hlen)
  have hmod : (pkt.len % 4096).toNat = pkt.len.toNat := by
    rw [UInt32.toNat_mod]
    exact Nat.mod_eq_of_lt (hnat.trans_lt (by decide))
  have hframe : TxDesc.frame ⟨true, pkt.len % 4096,
      setBytes (n.txDesc n.next).buf 0 pkt.data pkt.len.toNat⟩ =
        ⟨true, bytesOf pkt.data pkt.len.toNat⟩ := by
    rw [TxDesc.frame, hmod]
    congr 1
    refine bytesOf_congr fun i hi ↦ ?_
    exact if_pos ⟨Nat.zero_le i, by omega⟩
  rw [ep9301Xmit, if_neg hlen]
  refine ⟨?_, rfl, rfl⟩
  rw [← hframe]
  exact Function.comp_update TxDesc.frame n.txDesc n.next _

/-- What a step that accepts `o` does to the ring. -/
def RingEffect (n : Net) (o : Option TxFrame) (t : Net) : Prop :=
  match o with
  | some x => Enqueued n x t
  | none => SameRing n t

theorem enEthTxTurn_ring (n : Net) (i : Ptr) :
    RingEffect n (n.accepted (.tx i)) (enEthTxTurn n i) := by
  cases hq : (n.ethIf i).txQueue with
  | nil =>
    have hacc : n.accepted (.tx i) = none := by rw [Net.accepted, hq]; rfl
    rw [hacc, enEthTxTurn, hq]
    exact SameRing.refl n
  | cons pkt l =>
    have hacc : n.accepted (.tx i) =
        if 1518 < pkt.len then none else some ⟨true, bytesOf pkt.data pkt.len.toNat⟩ := by
      rw [Net.accepted, hq]
      rfl
    rw [hacc, enEthTxTurn, hq]
    dsimp only
    by_cases hlen : 1518 < pkt.len
    · rw [if_pos hlen, ep9301Xmit, if_pos hlen]
      exact ⟨rfl, rfl, rfl⟩
    · rw [if_neg hlen]
      have h := ep9301Xmit_enqueued (n := n.modifyIf i fun x ↦ { x with txQueue := l }) hlen i
      exact ⟨h.frames, h.next, h.txdEnq⟩

theorem netStep_ring {e : NetOp} (h : NetStep n e t) (hconfig : e = .config → SameRing n t) :
    RingEffect n (n.accepted e) t := by
  cases h with
  | rx => exact (SameRing.setMallocs n _).trans (processRxFrame_sameRing _ _ _ _)
  | drain _ h => exact (SameRing.setMallocs n _).trans (enEthRxTurn_sameRing h)
  | tx => exact enEthTxTurn_ring _ _
  | config => exact hconfig rfl

end SameRing

/-! ## Steps -/

theorem EthTx.spoolOp_of_none {s : EthTx} {e : NetOp} (h : s.net.accepted e = none) :
    s.spoolOp (.net e) = .idle := by rw [spoolOp, h]

theorem EthTx.spoolOp_of_some {s : EthTx} {e : NetOp} {x : TxFrame}
    (h : s.net.accepted e = some x) : s.spoolOp (.net e) = .put x := by rw [spoolOp, h]

theorem EthTxStep.spoolStep {s t : EthTx} {e : EthTxOp} (hinv : s.Inv) (h : EthTxStep s e t) :
    t.Inv ∧ Ring.SpoolStep txDescNum s.spool (s.spoolOp e) t.spool := by
  obtain ⟨htold, hcur, hnext⟩ := hinv
  cases h with
  | @net e u h hconfig =>
    have hring := netStep_ring h hconfig
    cases hacc : s.net.accepted e with
    | none =>
      rw [hacc] at hring
      obtain ⟨hdesc, hnext', htxd⟩ := hring
      have hspool : EthTx.spool ⟨u, s.cur, s.given ++ [], s.wire⟩ = s.spool := by
        rw [EthTx.spool, EthTx.spool, EthTx.backlog, EthTx.backlog, hdesc, htxd, List.append_nil]
      rw [EthTx.spoolOp_of_none hacc, Option.toList_none, hspool]
      refine ⟨⟨htold.trans_eq htxd.symm, hcur, ?_⟩, .idle⟩
      rw [EthTx.backlog, hnext', htxd, hnext]
      rfl
    | some x =>
      rw [hacc] at hring
      obtain ⟨hframes, hnext', htxd⟩ := hring
      have hbacklog : u.txdEnq - s.wire.length = s.backlog + 1 := by
        rw [htxd, EthTx.backlog, Nat.sub_add_comm htold]
      have hspool : EthTx.spool ⟨u, s.cur, s.given ++ [x], s.wire⟩ =
          ⟨Function.update s.spool.slots (s.spool.next txDescNum) x, s.cur, s.backlog + 1,
            s.given ++ [x], s.wire⟩ := by
        rw [EthTx.spool, EthTx.backlog, hbacklog, hframes, hnext]
        rfl
      rw [EthTx.spoolOp_of_some hacc, Option.toList_some, hspool]
      refine ⟨⟨htold.trans (htxd ▸ Nat.le_succ _), hcur, ?_⟩, .put⟩
      have hlt : s.net.next < txDescNum := hnext ▸ Nat.mod_lt _ (by decide)
      rw [EthTx.backlog, hbacklog, hnext', Ring.advance_eq_mod hlt, hnext, Nat.mod_add_mod,
        Nat.add_assoc]
  | transmit hpos =>
    have hpos' : 0 < s.backlog := Nat.sub_pos_of_lt hpos
    have hbacklog : s.net.txdEnq - (s.wire ++ [(s.net.txDesc s.cur).frame]).length =
        s.backlog - 1 := by
      rw [List.length_append, EthTx.backlog]
      exact (Nat.sub_sub _ _ 1).symm
    have hspool : EthTx.spool ⟨s.net, Ring.advance txDescNum s.cur, s.given,
        s.wire ++ [(s.net.txDesc s.cur).frame]⟩ =
          ⟨s.spool.slots, Ring.advance txDescNum s.cur, s.backlog - 1, s.given,
            s.wire ++ [(s.net.txDesc s.cur).frame]⟩ := by
      rw [EthTx.spool, EthTx.backlog, hbacklog]
      rfl
    rw [hspool]
    refine ⟨⟨?_, Ring.advance_lt (by decide), ?_⟩, .take hpos'⟩
    · rw [List.length_append]
      exact hpos
    · rw [EthTx.backlog, hbacklog, Ring.advance_eq_mod hcur, hnext, Nat.mod_add_mod]
      congr 1
      omega

theorem EthTx.free_iff {s : EthTx} (hinv : s.Inv) (e : EthTxOp) :
    s.Free e ↔ s.spool.Room txDescNum (s.spoolOp e) := by
  cases e with
  | transmit => exact Iff.rfl
  | net e =>
    cases hacc : s.net.accepted e with
    | none =>
      rw [spoolOp_of_none hacc]
      exact iff_of_true (fun x hx ↦ nomatch hacc.symm.trans hx) trivial
    | some x =>
      have hiff : s.Free (.net e) ↔
          s.backlog < txDescNum ∨ (s.net.txDesc s.net.next).frame = x := by
        simp only [Free, hacc, Option.mem_some_iff, forall_eq']
      rw [spoolOp_of_some hacc, hiff, hinv.next_eq]
      exact Iff.rfl

/-- **Frames and the wire, exactly.** In every run of the network code with the transmitter beside
it, the frames transmitted so far are the first ones accepted, each in order and unchanged, and the
others are in the descriptors the hardware will come to, if and only if no frame is accepted while
64 frames wait, unless the descriptor that it overwrites holds the same frame. -/
theorem frames_transmitted_iff {n : Net} (hnext : n.next < txDescNum) (htxd : n.txdEnq = 0)
    {r : List (EthTxOp × EthTx)} (hrun : IsRun EthTxStep ⟨n, n.next, [], []⟩ r) :
    Always EthTx.Delivers ⟨n, n.next, [], []⟩ r ↔ Guarded EthTx.Free ⟨n, n.next, [], []⟩ r := by
  have hbacklog : EthTx.backlog ⟨n, n.next, [], []⟩ = 0 := by
    rw [EthTx.backlog, htxd]
    rfl
  have hinv : EthTx.Inv ⟨n, n.next, [], []⟩ := by
    refine ⟨Nat.zero_le _, hnext, ?_⟩
    rw [hbacklog, Nat.add_zero, Nat.mod_eq_of_lt hnext]
  have hintact : (EthTx.spool ⟨n, n.next, [], []⟩).Intact txDescNum := by
    rw [EthTx.spool, hbacklog]
    rfl
  exact Ring.always_intact_iff EthTx.spool EthTx.spoolOp
    (fun _ _ _ hinv hst ↦ EthTxStep.spoolStep hinv hst) (fun _ e hinv ↦ EthTx.free_iff hinv e) hinv
    hnext hintact hrun

/-- The network with a frame to transmit. -/
def sendNet : Net :=
  bootNet.modifyIf 0x100 fun x ↦ { x with txQueue := [⟨0x200, fun _ ↦ 7, 60, 60, 0x100⟩] }

theorem frames_transmitted_one : ∃ s t : EthTx,
    t.wire = [⟨true, List.replicate 60 7⟩] ∧
      IsRun EthTxStep ⟨sendNet, 0, [], []⟩
        [(EthTxOp.net (.tx 0x100), s), (EthTxOp.transmit, t)] ∧
      (Always EthTx.Delivers ⟨sendNet, 0, [], []⟩
          [(EthTxOp.net (.tx 0x100), s), (EthTxOp.transmit, t)] ↔
        Guarded EthTx.Free ⟨sendNet, 0, [], []⟩
          [(EthTxOp.net (.tx 0x100), s), (EthTxOp.transmit, t)]) := by
  have hfirst := EthTxStep.net (s := ⟨sendNet, 0, [], []⟩) (NetStep.tx (i := 0x100))
    (fun h ↦ NetOp.noConfusion h)
  have hsecond := EthTxStep.transmit
    (s := ⟨enEthTxTurn sendNet 0x100, 0, [⟨true, bytesOf (fun _ ↦ 7) 60⟩], []⟩) Nat.one_pos
  have hrun := And.intro hfirst (And.intro hsecond trivial)
  exact ⟨_, _, rfl, hrun, frames_transmitted_iff (by decide) rfl hrun⟩

/-! ## The status queue -/

/-- `struct tx_sts`, as far as it is read. -/
structure TxSts where
  frameStatus : ℕ
  txWE : Bool

def txStsNum : ℕ := 64

/-- The variables of `process_tx_queue`, and the entries it has looked at. -/
structure TxPoll where
  /-- The index of `last` in `tx_sts`. -/
  last : ℕ
  q : ℕ
  read : List TxSts

/-- What it prints: the status of each frame that failed. -/
def TxPoll.printed (s : TxPoll) : List ℕ :=
  (s.read.filter fun e ↦ !e.txWE).map TxSts.frameStatus

def TxPoll.body (sts : ℕ → TxSts) (s : TxPoll) : TxPoll :=
  ⟨if txStsNum - 1 < s.last + 1 then 0 else s.last + 1, s.q + 1, s.read ++ [sts s.last]⟩

/-- The loop, of at most `n` rounds. -/
def txStsLoop (sts : ℕ → TxSts) (cur : ℕ) : ℕ → TxPoll → TxPoll
  | 0, s => s
  | n + 1, s =>
    let s := s.body sts
    if s.last ≠ cur ∧ s.q < txStsNum then txStsLoop sts cur n s else s

def processTxQueue (sts : ℕ → TxSts) (last cur : ℕ) : TxPoll :=
  txStsLoop sts cur txStsNum ⟨last, 0, []⟩

/-- The status queue with the hardware that fills it. -/
structure TxReap where
  /-- `tx_sts`, and the memory behind it. -/
  sts : ℕ → TxSts
  /-- The entry of `TXStsQCurAdd`. -/
  cur : ℕ
  last : ℕ
  /-- How many entries were filled since `process_tx_queue` was called. -/
  pending : ℕ
  filled : List TxSts
  /-- The entries that `process_tx_queue` has looked at. -/
  read : List TxSts

inductive TxReapOp
  | fill (e : TxSts)
  | intr

inductive TxReapStep : TxReap → TxReapOp → TxReap → Prop
  | fill {s : TxReap} {e : TxSts} :
      TxReapStep s (.fill e) { s with
        sts := Function.update s.sts s.cur e
        cur := Ring.advance txStsNum s.cur
        pending := s.pending + 1
        filled := s.filled ++ [e] }
  | intr {s : TxReap} :
      TxReapStep s .intr { s with
        last := (processTxQueue s.sts s.last s.cur).last
        pending := 0
        read := s.read ++ (processTxQueue s.sts s.last s.cur).read }

namespace TxReap

/-- At boot `last` points behind `tx_sts`. -/
def boot (sts : ℕ → TxSts) : TxReap := ⟨sts, 0, txStsNum, 0, [], []⟩

/-- The entries filled are those looked at, but the first one, and those that still can be. -/
def Accounts (s : TxReap) : Prop :=
  s.filled = s.read.tail ++ Ring.window s.sts txStsNum (s.last % txStsNum) s.pending

/-- No entry is filled before the last one there was looked at, and an interrupt finds an entry, but
the first one less than all of them. -/
def Timely (s : TxReap) : TxReapOp → Prop
  | .fill _ => s.pending < txStsNum
  | .intr => if s.read = [] then s.pending < txStsNum else 0 < s.pending

structure Inv (s : TxReap) : Prop where
  cur_eq : s.cur = (s.last + s.pending) % txStsNum
  pending_le : s.pending ≤ txStsNum
  first : s.read = [] → s.last = txStsNum
  later : s.read ≠ [] → s.last < txStsNum
  accounts : s.Accounts

end TxReap

theorem TxPoll.body_eq (sts : ℕ → TxSts) (last q : ℕ) (read : List TxSts) :
    TxPoll.body sts ⟨last, q, read⟩ =
      ⟨Ring.advance txStsNum last, q + 1, read ++ [sts last]⟩ := rfl

/-- The loop takes the entries from `last` to `cur`; all of them, if these are the same. -/
theorem txStsLoop_eq (sts : ℕ → TxSts) {n last q d : ℕ} (hlast : last < txStsNum)
    (hq : q + (d + 1) ≤ txStsNum) (hn : d < n) (read : List TxSts) :
    txStsLoop sts ((last + (d + 1)) % txStsNum) n ⟨last, q, read⟩ =
      ⟨(last + (d + 1)) % txStsNum, q + (d + 1),
        read ++ Ring.window sts txStsNum last (d + 1)⟩ := by
  have hshift {i : ℕ} (hi : i < txStsNum) (k : ℕ) :
      (Ring.advance txStsNum i + k) % txStsNum = (i + (k + 1)) % txStsNum := by
    rw [Ring.advance_eq_mod hi, Nat.mod_add_mod, Nat.add_assoc, Nat.add_comm 1]
  induction d generalizing n last q read with
  | zero =>
    obtain ⟨n, rfl⟩ := Nat.exists_eq_add_one_of_ne_zero (Nat.ne_zero_of_lt hn)
    have hnext := Ring.advance_eq_mod hlast
    rw [txStsLoop, TxPoll.body_eq, Ring.window_succ_left sts hlast]
    dsimp only
    rw [if_neg (fun h ↦ h.1 hnext), Ring.window_zero, hnext]
  | succ d ih =>
    obtain ⟨n, rfl⟩ := Nat.exists_eq_add_one_of_ne_zero (Nat.ne_zero_of_lt hn)
    have hmore : Ring.advance txStsNum last ≠ (last + (d + 1 + 1)) % txStsNum := by
      rw [Ring.advance_eq_mod hlast]
      simp only [txStsNum] at hq ⊢
      omega
    have hround : q + 1 < txStsNum := by omega
    have hlast' : Ring.advance txStsNum last < txStsNum := Ring.advance_lt (by decide)
    have hcount : q + 1 + (d + 1) = q + (d + 1 + 1) := by omega
    have hrest := ih hlast' (hcount ▸ hq) (Nat.lt_of_succ_lt_succ hn) (read ++ [sts last])
    rw [txStsLoop, TxPoll.body_eq, Ring.window_succ_left sts hlast]
    dsimp only
    rw [if_pos ⟨hmore, hround⟩, ← hshift hlast, hrest, hcount, List.append_assoc]
    rfl

theorem processTxQueue_eq (sts : ℕ → TxSts) {last k : ℕ} (hlast : last < txStsNum) (hk : 0 < k)
    (hk' : k ≤ txStsNum) : processTxQueue sts last ((last + k) % txStsNum) =
      ⟨(last + k) % txStsNum, k, Ring.window sts txStsNum last k⟩ := by
  obtain ⟨d, rfl⟩ := Nat.exists_eq_add_one_of_ne_zero (Nat.ne_zero_of_lt hk)
  have h := txStsLoop_eq sts (n := txStsNum) (q := 0) hlast (by omega) hk' []
  rwa [Nat.zero_add, List.nil_append] at h

/-- The first call looks behind the queue before it begins. -/
theorem processTxQueue_first (sts : ℕ → TxSts) {k : ℕ} (hk : k < txStsNum) :
    processTxQueue sts txStsNum k =
      ⟨k, k + 1, sts txStsNum :: Ring.window sts txStsNum 0 k⟩ := by
  have hbody : TxPoll.body sts ⟨txStsNum, 0, []⟩ = ⟨0, 1, [sts txStsNum]⟩ := rfl
  have hloop : processTxQueue sts txStsNum k =
      if 0 ≠ k ∧ 1 < txStsNum then txStsLoop sts k (txStsNum - 1) ⟨0, 1, [sts txStsNum]⟩
      else ⟨0, 1, [sts txStsNum]⟩ := rfl
  rw [hloop]
  cases k with
  | zero => rfl
  | succ d =>
    have hzero : 0 < txStsNum := by decide
    have h := txStsLoop_eq sts (n := txStsNum - 1) (q := 1) (d := d) hzero (by omega) (by omega)
      [sts txStsNum]
    rw [Nat.zero_add, Nat.mod_eq_of_lt hk] at h
    rw [if_pos ⟨(Nat.succ_ne_zero d).symm, by decide⟩, h, Nat.add_comm 1]
    rfl

namespace TxReap

variable {s t : TxReap}

theorem Inv.boot (sts : ℕ → TxSts) : (TxReap.boot sts).Inv where
  cur_eq := (Nat.mod_self 64).symm
  pending_le := Nat.zero_le _
  first _ := rfl
  later h := absurd rfl h
  accounts := rfl

theorem Inv.fill (h : s.Inv) {e : TxSts} (hroom : s.pending < txStsNum)
    (hst : TxReapStep s (.fill e) t) : t.Inv := by
  obtain ⟨hcur, hpending, hfirst, hlater, haccounts⟩ := h
  cases hst with
  | fill =>
    have hslot : s.cur = (s.last % txStsNum + s.pending) % txStsNum := by
      rw [hcur, Nat.mod_add_mod]
    refine ⟨?_, hroom, hfirst, hlater, ?_⟩
    · have hlt : s.cur < txStsNum := hcur ▸ Nat.mod_lt _ (by decide)
      rw [Ring.advance_eq_mod hlt, hcur, Nat.mod_add_mod, Nat.add_assoc]
    · unfold Accounts at haccounts ⊢
      rw [hslot, Ring.window_update s.sts hroom, ← List.append_assoc, ← haccounts]

theorem Inv.of_read {read : List TxSts} {q : ℕ} (hcur : s.cur < txStsNum)
    (hpoll : processTxQueue s.sts s.last s.cur = ⟨s.cur, q, read⟩) (hne : s.read ++ read ≠ [])
    (hfilled : s.filled = (s.read ++ read).tail) (hst : TxReapStep s .intr t) : t.Inv := by
  cases hst with
  | intr =>
    rw [hpoll]
    refine ⟨?_, Nat.zero_le _, fun h ↦ absurd h hne, fun _ ↦ hcur, ?_⟩
    · rw [Nat.add_zero, Nat.mod_eq_of_lt hcur]
    · unfold Accounts
      rw [Ring.window_zero, List.append_nil, hfilled]

theorem Inv.intr (h : s.Inv) (htimely : s.Timely .intr) (hst : TxReapStep s .intr t) : t.Inv := by
  obtain ⟨hcur, hpending, hfirst, hlater, haccounts⟩ := h
  have hlt : s.cur < txStsNum := hcur ▸ Nat.mod_lt _ (by decide)
  unfold Accounts at haccounts
  by_cases hread : s.read = []
  · have hlast := hfirst hread
    have hk : s.pending < txStsNum := by rwa [Timely, if_pos hread] at htimely
    have hcur' : s.cur = s.pending := by
      rw [hcur, hlast, Nat.add_mod_left, Nat.mod_eq_of_lt hk]
    have hpoll : processTxQueue s.sts s.last s.cur =
        ⟨s.cur, s.cur + 1, s.sts txStsNum :: Ring.window s.sts txStsNum 0 s.cur⟩ := by
      rw [hlast]
      exact processTxQueue_first s.sts hlt
    refine .of_read hlt hpoll ?_ ?_ hst
    · rw [hread]
      exact List.cons_ne_nil _ _
    · rw [haccounts, hread, hlast, Nat.mod_self, hcur']
      rfl
  · have hlast := hlater hread
    have hk : 0 < s.pending := by rwa [Timely, if_neg hread] at htimely
    have hpoll : processTxQueue s.sts s.last s.cur =
        ⟨s.cur, s.pending, Ring.window s.sts txStsNum s.last s.pending⟩ := by
      rw [hcur]
      exact processTxQueue_eq s.sts hlast hk hpending
    refine .of_read hlt hpoll ?_ ?_ hst
    · exact fun h ↦ hread (List.append_eq_nil_iff.mp h).1
    · rw [haccounts, Nat.mod_eq_of_lt hlast, List.tail_append_of_ne_nil hread]

end TxReap

/-- **The status of every frame is looked at once.** In every run of the hardware with
`process_tx_queue` as its interrupt, in which interrupts are timely, the entries that were looked
at, but for what lies behind the queue at first, are those that were filled, in order; and those
that were not looked at yet are still there. -/
theorem tx_statuses_read {sts : ℕ → TxSts} {r : List (TxReapOp × TxReap)}
    (hrun : IsRun TxReapStep (TxReap.boot sts) r)
    (hg : Guarded TxReap.Timely (TxReap.boot sts) r) :
    Always TxReap.Accounts (TxReap.boot sts) r := by
  refine (always_of_guarded (fun s e t hs hC hst ↦ ?_) (TxReap.Inv.boot sts) hrun hg).imp
    fun _ h ↦ TxReap.Inv.accounts h
  cases e with
  | fill e => exact hs.fill hC hst
  | intr => exact hs.intr hC hst

/-- Two frames, of which the second one fails, and an interrupt. -/
theorem tx_statuses_read_two : ∃ s t u : TxReap,
    (processTxQueue t.sts t.last t.cur).printed = [7, 5] ∧
      Always TxReap.Accounts (TxReap.boot fun _ ↦ ⟨7, false⟩)
        [(TxReapOp.fill ⟨0, true⟩, s), (TxReapOp.fill ⟨5, false⟩, t), (TxReapOp.intr, u)] := by
  refine ⟨_, _, _, ?_,
    tx_statuses_read ⟨TxReapStep.fill, TxReapStep.fill, TxReapStep.intr, trivial⟩ ?_⟩
  · rfl
  · exact ⟨(by decide : 0 < 64), (by decide : 1 < 64), (by decide : 2 < 64), trivial⟩

end Ertos
