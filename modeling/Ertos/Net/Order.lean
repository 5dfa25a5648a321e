import Ertos.Basis.Service
import Ertos.Net.Effects
import Ertos.Net.Framed
import Ertos.Net.Leak

/-!
# The order of frames

`list_add_after` puts a frame at the front of its queue, and both tasks take frames from the front.
The queues are therefore stacks: frames go through in order as long as each is taken before the next
one comes, and the first frame taken while another one waits is out of order.

This is so for the links in memory, for the receive queue of an interface between `en_eth_rx` and
`en_eth_input`, and for its transmit queue between `en_eth_output` and the driver.
-/

namespace Ertos

open Service Transition

/-! ## The links -/

/-- What both tasks do: take the first member, if there is one. -/
def listTake (h : ListHeap) (head : Ptr) : Option Ptr × ListHeap :=
  if listEmpty h head then (none, h) else (some (h.next head), listRemove h (h.next head))

/-- A list used as a queue, and what went through it. -/
structure LinkedQueue where
  list : ListState
  put : List Ptr
  taken : List Ptr

inductive LinkedOp
  | add (x : Ptr)
  | take

/-- One `list_add_after` of an object that is not linked, or one taking. -/
inductive LinkedStep (head : Ptr) : LinkedQueue → LinkedOp → LinkedQueue → Prop
  | add {s : LinkedQueue} {x : Ptr} : x ≠ NULL → x ≠ head → x ∉ s.list.members →
      LinkedStep head s (.add x)
        ⟨⟨listAddAfter s.list.heap head x, x :: s.list.members⟩, s.put ++ [x], s.taken⟩
  | take {s : LinkedQueue} {p : Option Ptr} {h : ListHeap} : listTake s.list.heap head = (p, h) →
      LinkedStep head s .take
        ⟨⟨h, p.elim s.list.members s.list.members.erase⟩, s.put, s.taken ++ p.toList⟩

def LinkedQueue.log (s : LinkedQueue) : Log Ptr := ⟨s.put, s.taken, s.list.members⟩

def LinkedOp.op : LinkedOp → Op Ptr
  | .add x => .put x
  | .take => .take

theorem listTake_spec {head : Ptr} {h : ListHeap} {l : List Ptr} (hhead : head ≠ NULL)
    (hinv : ListInv head ⟨h, l⟩) :
    (listTake h head).1 = l.head? ∧ ListInv head ⟨(listTake h head).2, l.tail⟩ := by
  cases l with
  | nil =>
    have hempty : listEmpty h head = true := decide_eq_true hinv.path
    rw [listTake, if_pos hempty]
    exact ⟨rfl, hinv⟩
  | cons x l =>
    have hfirst : h.next head = x := hinv.path.1
    have hx : x ≠ NULL := fun hnull ↦ hinv.null_notMem (hnull ▸ List.mem_cons_self)
    have hempty : ¬listEmpty h head = true := by
      rw [listEmpty, decide_eq_true_iff, hfirst]
      exact hx
    have hremove := hinv.remove_first hhead List.mem_cons_self hfirst
    rw [List.erase_cons_head] at hremove
    rw [listTake, if_neg hempty, hfirst]
    exact ⟨rfl, hremove⟩

/-- **A linked queue is a stack.** -/
theorem LinkedStep.stackStep {head : Ptr} (hhead : head ≠ NULL) {s t : LinkedQueue} {e : LinkedOp}
    (hinv : ListInv head s.list) (hst : LinkedStep head s e t) :
    ListInv head t.list ∧ StackStep s.log e.op t.log := by
  obtain ⟨⟨h, l⟩, put, taken⟩ := s
  cases hst with
  | add hnull hne hx => exact ⟨hinv.add hnull hne hx, .put hx⟩
  | @take p heap htake =>
    obtain ⟨hp, hinv'⟩ := listTake_spec hhead hinv
    rw [htake] at hp hinv'
    obtain rfl : p = l.head? := hp
    have hmembers : l.head?.elim l l.erase = l.tail := by
      cases l with
      | nil => rfl
      | cons x l => exact List.erase_cons_head x l
    dsimp only at hmembers ⊢
    rw [hmembers]
    exact ⟨hinv', .first put taken l⟩

/-- **The links**: from an empty list, members are taken in the order in which they were added if
and only if no member is taken while another one is linked. -/
theorem always_linked_inOrder_iff {head : Ptr} (hhead : head ≠ NULL) {h : ListHeap}
    (hnext : h.next head = NULL) {r : List (LinkedOp × LinkedQueue)}
    (hrun : IsRun (LinkedStep head) ⟨⟨h, []⟩, [], []⟩ r) :
    Always (fun s ↦ InOrder s.log) ⟨⟨h, []⟩, [], []⟩ r ↔
      Guarded (fun s e ↦ Alone s.log e.op) ⟨⟨h, []⟩, [], []⟩ r :=
  always_inOrder_iff LinkedQueue.log (fun _ ↦ LinkedOp.op)
    (J := fun s ↦ ListInv head s.list) (fun _ _ _ hinv hst ↦ LinkedStep.stackStep hhead hinv hst)
    (fun _ _ ↦ Iff.rfl) (ListInv.init hnext) .init hrun

/-! ## Receiving -/

/-- The network, the frames that `en_eth_rx` received on an interface, and those that were handed to
`en_eth_input`. -/
structure RxState where
  net : Net
  received : List EnNetPkt
  handed : List EnNetPkt

inductive RxOp
  | rx (pkt : EnNetPkt)
  | drain
  | other

/-- The frame that a turn of `en_eth_rx_drain` hands to `en_eth_input`. -/
def handedFrame (n : Net) (i : Ptr) : Option EnNetPkt :=
  if (n.ethIf i).bound = 0 then none else (n.ethIf i).rxQueue.head?

/-- One `en_eth_rx` of a frame that is not linked, one turn of `en_eth_rx_drain` with any outcome of
its allocations, or anything that leaves the receiving side of the interface alone. -/
inductive RxStep (i : Ptr) : RxState → RxOp → RxState → Prop
  | rx {s : RxState} {pkt : EnNetPkt}
      (h : pkt.addr ∉ (s.net.queue (.rx i)).map EnNetPkt.addr) :
      RxStep i s (.rx pkt)
        ⟨enEthRx s.net i pkt, s.received ++ [{ pkt with ethIf := i }], s.handed⟩
  | drain {s : RxState} {t : Net} {ms : ℕ → Ptr} {bound : ℕ → ℕ} {found : Bool}
      (h : enEthRxTurn bound (s.net.setMallocs ms) i = some (found, t)) :
      RxStep i s .drain ⟨t, s.received, s.handed ++ (handedFrame s.net i).toList⟩
  | other {s : RxState} {t : Net} (h : SameReceiver i s.net t) :
      RxStep i s .other ⟨t, s.received, s.handed⟩

def rxLog (i : Ptr) (s : RxState) : Log EnNetPkt := ⟨s.received, s.handed, s.net.queue (.rx i)⟩

def rxOp (i : Ptr) : RxOp → Op EnNetPkt
  | .rx pkt => .put { pkt with ethIf := i }
  | .drain => .take
  | .other => .idle

/-- A turn takes the first frame off the queue of a bound interface, and hands it on. -/
theorem enEthRxTurn_spec {n t : Net} {i : Ptr} {bound : ℕ → ℕ} {found : Bool}
    (hbound : (n.ethIf i).bound ≠ 0) (h : enEthRxTurn bound n i = some (found, t)) :
    (t.ethIf i).bound ≠ 0 ∧ t.queue (.rx i) = (n.queue (.rx i)).tail := by
  unfold enEthRxTurn at h
  cases hq : (n.ethIf i).rxQueue with
  | nil =>
    rw [hq] at h
    obtain rfl := (Prod.mk.inj (Option.some.inj h)).2
    refine ⟨hbound, ?_⟩
    show (n.ethIf i).rxQueue = (n.ethIf i).rxQueue.tail
    rw [hq, List.tail_nil]
  | cons pkt l =>
    rw [hq] at h
    dsimp only at h
    set u := n.modifyIf i fun x ↦ { x with rxQueue := l } with hu
    have hu' : u.ethIf i = { n.ethIf i with rxQueue := l } := Net.ethIf_modifyIf_self _ _ _
    have hubound : ¬(u.ethIf i).bound = 0 := by
      rw [hu']
      exact hbound
    rw [if_neg hubound] at h
    obtain ⟨t', hin, ht⟩ := Option.map_eq_some_iff.mp h
    obtain rfl := (Prod.mk.inj ht).2
    have hsame := (enEthInput_effects hin).sameReceiver i
    refine ⟨hsame.bound ▸ hubound, hsame.queue.trans ?_⟩
    show (u.ethIf i).rxQueue = (n.ethIf i).rxQueue.tail
    rw [hu', hq, List.tail_cons]

theorem RxStep.stackStep {i : Ptr} {s t : RxState} {e : RxOp} (hbound : (s.net.ethIf i).bound ≠ 0)
    (hst : RxStep i s e t) :
    (t.net.ethIf i).bound ≠ 0 ∧ StackStep (rxLog i s) (rxOp i e) (rxLog i t) := by
  cases hst with
  | @rx pkt h =>
    have hqueue := queue_enEthRx s.net i pkt
    have hnew : ({ pkt with ethIf := i } : EnNetPkt) ∉ s.net.queue (.rx i) :=
      fun hmem ↦ h (List.mem_map.mpr ⟨_, hmem, rfl⟩)
    refine ⟨?_, ?_⟩
    · rw [enEthRx, Net.ethIf_modifyIf_self]
      exact hbound
    · rw [rxLog, rxLog, hqueue]
      exact .put hnew
  | @drain u ms bound found h =>
    obtain ⟨hbound', hqueue⟩ := enEthRxTurn_spec (n := s.net.setMallocs ms) hbound h
    have hhanded : handedFrame s.net i = (s.net.queue (.rx i)).head? := if_neg hbound
    refine ⟨hbound', ?_⟩
    rw [rxLog, rxLog, hqueue, hhanded]
    exact .first s.received s.handed (s.net.queue (.rx i))
  | other h =>
    refine ⟨h.bound ▸ hbound, ?_⟩
    rw [rxLog, rxLog, h.queue]
    exact .idle

/-! ## Transmitting -/

/-- The network, the frames that `en_eth_output` queued on an interface, and those that were passed
to the driver. -/
structure TxState where
  net : Net
  output : List EnNetPkt
  sent : List EnNetPkt

inductive TxOp
  | output (ms : ℕ → Ptr) (pkt : EnNetPkt) (dst : MacAddr) (type : UInt16)
  | tx
  | other

/-- The frame that `en_eth_output` makes of a packet, with any outcome of its allocation. -/
def outputFrame (n : Net) (ms : ℕ → Ptr) (i : Ptr) (pkt : EnNetPkt) (dst : MacAddr)
    (type : UInt16) : EnNetPkt :=
  (pktAddHead (n.setMallocs ms).heap pkt (ethHdr (n.ethIf i).addr dst type) etherHdrSize).2.1

/-- One `en_eth_output` of a packet that is not linked, one turn of `en_eth_tx_task`, or anything
that leaves the transmit queue of the interface alone. -/
inductive TxStep (i : Ptr) : TxState → TxOp → TxState → Prop
  | output {s : TxState} {ms : ℕ → Ptr} {pkt : EnNetPkt} {dst : MacAddr} {type : UInt16}
      (h : pkt.addr ∉ (s.net.queue (.tx i)).map EnNetPkt.addr) :
      TxStep i s (.output ms pkt dst type)
        ⟨enEthOutput (s.net.setMallocs ms) i pkt dst type,
          s.output ++ [outputFrame s.net ms i pkt dst type], s.sent⟩
  | tx {s : TxState} :
      TxStep i s .tx
        ⟨enEthTxTurn s.net i, s.output, s.sent ++ (s.net.ethIf i).txQueue.head?.toList⟩
  | other {s : TxState} {t : Net} (h : t.queue (.tx i) = s.net.queue (.tx i)) :
      TxStep i s .other ⟨t, s.output, s.sent⟩

def txLog (i : Ptr) (s : TxState) : Log EnNetPkt := ⟨s.output, s.sent, s.net.queue (.tx i)⟩

/-- What a call puts on the queue or takes off it. -/
def txOp (i : Ptr) (s : TxState) : TxOp → Op EnNetPkt
  | .output ms pkt dst type => .put (outputFrame s.net ms i pkt dst type)
  | .tx => .take
  | .other => .idle

theorem queue_enEthTxTurn (n : Net) (i : Ptr) :
    (enEthTxTurn n i).queue (.tx i) = (n.queue (.tx i)).tail := by
  unfold enEthTxTurn
  show _ = (n.ethIf i).txQueue.tail
  cases hq : (n.ethIf i).txQueue with
  | nil => exact hq
  | cons pkt l =>
    dsimp only
    rw [queue_ep9301Xmit]
    show ((n.modifyIf i _).ethIf i).txQueue = l
    rw [Net.ethIf_modifyIf_self]

theorem TxStep.stackStep {i : Ptr} {s t : TxState} {e : TxOp} (hst : TxStep i s e t) :
    StackStep (txLog i s) (txOp i s e) (txLog i t) := by
  cases hst with
  | @output ms pkt dst type h =>
    have hqueue : (enEthOutput (s.net.setMallocs ms) i pkt dst type).queue (.tx i) =
        outputFrame s.net ms i pkt dst type :: s.net.queue (.tx i) := by
      rw [enEthOutput_def]
      exact congrArg EnEthIf.txQueue (Net.ethIf_modifyIf_self _ i _)
    have haddr : (outputFrame s.net ms i pkt dst type).addr = pkt.addr :=
      (pktAddHead_frame _ pkt _ etherHdrSize).1
    have hnew : outputFrame s.net ms i pkt dst type ∉ s.net.queue (.tx i) :=
      fun hmem ↦ h (haddr ▸ List.mem_map_of_mem hmem)
    rw [txLog, txLog, hqueue]
    exact .put hnew
  | tx =>
    rw [txLog, txLog, queue_enEthTxTurn]
    exact .first s.output s.sent (s.net.queue (.tx i))
  | other h =>
    rw [txLog, txLog, h]
    exact .idle

/-! ## The theorem -/

/-- No frame is taken off the receive queue while another one waits on it. -/
def RxAlone (i : Ptr) (s : RxState) (e : RxOp) : Prop :=
  e = .drain → (s.net.queue (.rx i)).length ≤ 1

/-- No frame is taken off the transmit queue while another one waits on it. -/
def TxAlone (i : Ptr) (s : TxState) (e : TxOp) : Prop :=
  e = .tx → (s.net.queue (.tx i)).length ≤ 1

theorem rxAlone_iff (i : Ptr) (s : RxState) (e : RxOp) :
    RxAlone i s e ↔ Alone (rxLog i s) (rxOp i e) := by
  cases e <;> simp [RxAlone, Alone, rxOp, rxLog]

theorem txAlone_iff (i : Ptr) (s : TxState) (e : TxOp) :
    TxAlone i s e ↔ Alone (txLog i s) (txOp i s e) := by
  cases e <;> simp [TxAlone, Alone, txOp, txLog]

/-- **Frames keep their order, exactly.** On an interface that is bound and whose queues are empty
at first, frames reach `en_eth_input` in the order in which `en_eth_rx` received them, each once, if
and only if none is taken while another one waits on the receive queue; and they reach the driver in
the order in which they were output, each once, if and only if none is taken while another one waits
on the transmit queue. -/
theorem frames_inOrder_iff {n : Net} {i : Ptr} (hbound : (n.ethIf i).bound ≠ 0)
    (hrx : n.queue (.rx i) = []) (htx : n.queue (.tx i) = []) :
    (∀ r, IsRun (RxStep i) ⟨n, [], []⟩ r →
      (Always (fun s ↦ InOrder (rxLog i s)) ⟨n, [], []⟩ r ↔
        Guarded (RxAlone i) ⟨n, [], []⟩ r)) ∧
    (∀ r, IsRun (TxStep i) ⟨n, [], []⟩ r →
      (Always (fun s ↦ InOrder (txLog i s)) ⟨n, [], []⟩ r ↔
        Guarded (TxAlone i) ⟨n, [], []⟩ r)) := by
  have hrxLog : Stacked (rxLog i ⟨n, [], []⟩) := by
    rw [rxLog, hrx]
    exact .init
  have htxLog : Stacked (txLog i ⟨n, [], []⟩) := by
    rw [txLog, htx]
    exact .init
  constructor
  · intro r hrun
    exact always_inOrder_iff (rxLog i) (fun _ ↦ rxOp i) (J := fun s ↦ (s.net.ethIf i).bound ≠ 0)
      (fun _ _ _ hJ hst ↦ hst.stackStep hJ) (rxAlone_iff i) hbound hrxLog hrun
  · intro r hrun
    exact always_inOrder_iff (txLog i) (txOp i) (J := fun _ ↦ True)
      (fun _ _ _ _ hst ↦ ⟨trivial, hst.stackStep⟩)
      (txAlone_iff i) trivial htxLog hrun

/-- A frame of a type that nobody takes. -/
def strayFrame (p : Ptr) : EnNetPkt := ⟨p, fun _ ↦ 0, 60, 60, 0x100⟩

/-- A frame arrives, is taken, and the next one arrives. -/
theorem frames_inOrder_alone :
    ∃ r, r.map Prod.fst =
        [RxOp.rx (strayFrame 0x10000), .drain, .rx (strayFrame 0x20000), .drain] ∧
      IsRun (RxStep 0x100) ⟨bootNet, [], []⟩ r ∧
      Always (fun s ↦ InOrder (rxLog 0x100 s)) ⟨bootNet, [], []⟩ r := by
  have hrun : IsRun (RxStep 0x100) ⟨bootNet, [], []⟩
      [(.rx (strayFrame 0x10000), _), (.drain, _), (.rx (strayFrame 0x20000), _), (.drain, _)] :=
    ⟨.rx (by decide), @RxStep.drain _ _ _ bootNet.heap.mallocs (fun _ ↦ 0) _ rfl, .rx (by decide),
      @RxStep.drain _ _ _ bootNet.heap.mallocs (fun _ ↦ 0) _ rfl, trivial⟩
  refine ⟨_, rfl, hrun, ((frames_inOrder_iff (by decide) rfl rfl).1 _ hrun).mpr ?_⟩
  exact ⟨RxOp.noConfusion, fun _ ↦ by decide, RxOp.noConfusion, fun _ ↦ by decide, trivial⟩

/-- **Two frames change places**: of two that are received, the second one is handed on first, and
of two that are output, the second one is sent first. -/
theorem frames_change_places :
    (∃ s t u, IsRun (RxStep 0x100) ⟨bootNet, [], []⟩
        [(.rx (strayFrame 0x10000), s), (.rx (strayFrame 0x20000), t), (.drain, u)] ∧
      u.received.map EnNetPkt.addr = [0x10000, 0x20000] ∧
      u.handed.map EnNetPkt.addr = [0x20000] ∧ ¬InOrder (rxLog 0x100 u)) ∧
    (∃ s t u, IsRun (TxStep 0x100) ⟨bootNet, [], []⟩
        [(.output bootNet.heap.mallocs (strayFrame 0x50000) macAddrBcast ethTypeArp, s),
          (.output bootNet.heap.mallocs (strayFrame 0x60000) macAddrBcast ethTypeArp, t),
          (.tx, u)] ∧
      u.output.map EnNetPkt.addr = [0x50000, 0x60000] ∧
      u.sent.map EnNetPkt.addr = [0x60000] ∧ ¬InOrder (txLog 0x100 u)) := by
  -- the addresses tell the frames apart
  have hdisorder : ∀ (s : Log EnNetPkt) (put taken : List Ptr), s.put.map EnNetPkt.addr = put →
      s.taken.map EnNetPkt.addr = taken → ¬taken <+: put → ¬InOrder s := by
    rintro s _ _ rfl rfl hnot h
    exact hnot (h.first.map EnNetPkt.addr)
  constructor
  · have hrun : IsRun (RxStep 0x100) ⟨bootNet, [], []⟩
        [(.rx (strayFrame 0x10000), _), (.rx (strayFrame 0x20000), _), (.drain, _)] :=
      ⟨.rx (by decide), .rx (by decide),
        @RxStep.drain _ _ _ bootNet.heap.mallocs (fun _ ↦ 0) _ rfl, trivial⟩
    exact ⟨_, _, _, hrun, rfl, rfl, hdisorder _ _ _ rfl rfl (by decide)⟩
  · have hrun : IsRun (TxStep 0x100) ⟨bootNet, [], []⟩
        [(.output bootNet.heap.mallocs (strayFrame 0x50000) macAddrBcast ethTypeArp, _),
          (.output bootNet.heap.mallocs (strayFrame 0x60000) macAddrBcast ethTypeArp, _),
          (.tx, _)] := ⟨.output (by decide), .output (by decide), .tx, trivial⟩
    exact ⟨_, _, _, hrun, rfl, rfl, hdisorder _ _ _ rfl rfl (by decide)⟩

end Ertos
