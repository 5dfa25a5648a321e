import Ertos.Basis.Custody
import Ertos.Net.Pkt
import Ertos.Net.Route

/-!
# Interfaces and output

The state of the network code, and `en_eth_output` of `net/dll/eth.c`, which puts a packet on the
transmit queue of an interface.

The lists of the source are lists here, the first element being the one the head points at;
`list_add_after` on a head is `cons`, and taking the first element off is what `list_remove` does
right. Who holds which packet is the `book` of the network.
-/

namespace Ertos

open Custody

/-- `struct mac_addr`; six of its bytes are used. -/
abbrev MacAddr := Bytes

structure EnEthStats where
  rxBytes : UInt32
  txBytes : UInt32
  rxFrames : UInt32
  txFrames : UInt32
  runts : UInt32
  oversized : UInt32

/-- `struct en_eth_if`, as far as frames pass through it. -/
structure EnEthIf where
  addr : MacAddr
  stats : EnEthStats
  bound : UInt8
  rxQueue : List EnNetPkt
  txQueue : List EnNetPkt
  /-- The assigned addresses. -/
  ipAddrs : List UInt32

structure EnArpEntry where
  hrdAddr : MacAddr
  protoAddr : UInt32
  created : UInt32

/-- A transmit descriptor and the buffer it points to. -/
structure TxDesc where
  eof : Bool
  bufferLength : UInt32
  buf : Bytes

/-- The state of the network code. -/
structure Net where
  heap : PktHeap
  /-- `eth_if_list`. -/
  ifs : List Ptr
  ethIf : Ptr → EnEthIf
  routes : List EnIpRoute
  arpCache : List EnArpEntry
  clkticks : UInt32
  /-- What is read in place of the first address of an interface that has none. -/
  nullAddr : UInt32
  txDesc : ℕ → TxDesc
  /-- The index of the next transmit descriptor. -/
  next : ℕ
  /-- How often the hardware was told of a new descriptor. -/
  txdEnq : ℕ

/-- Writing through an interface pointer. -/
def Net.modifyIf (n : Net) (i : Ptr) (f : EnEthIf → EnEthIf) : Net :=
  { n with ethIf := Function.update n.ethIf i (f (n.ethIf i)) }

def Net.setHeap (n : Net) (h : PktHeap) : Net := { n with heap := h }

/-- `pkt_free`. -/
def Net.free (n : Net) (pkt : EnNetPkt) : Net := n.setHeap (pktFree n.heap pkt)

def etherHdrSize : UInt32 := 14

def ethTypeIpv4 : UInt16 := 0x0800

def ethTypeArp : UInt16 := 0x0806

def enEthIpLookup (x : EnEthIf) (addr : UInt32) : Option UInt32 := x.ipAddrs.find? (addr = ·)

/-- The address an interface speaks from: the first one assigned. -/
def Net.firstAddr (n : Net) (i : Ptr) : UInt32 := (n.ethIf i).ipAddrs.headD n.nullAddr

def enEthOutput (n : Net) (i : Ptr) (pkt : EnNetPkt) (dst : MacAddr) (type : UInt16) : Net :=
  let hdr := setBytes (fun _ ↦ 0) 6 (n.ethIf i).addr 6
  let hdr := setBytes hdr 0 dst 6
  let hdr := set16 hdr 12 (enHtons type)
  let (_, pkt, heap) := pktAddHead n.heap pkt hdr etherHdrSize
  (n.setHeap heap).modifyIf i fun x ↦ { x with txQueue := pkt :: x.txQueue }

/-- The network as `ep9301_eth_init` leaves it: one interface, bound, with the address 192.168.0.99
and a route to its network. -/
def bootNet : Net where
  heap := ⟨fun i ↦ 0x10000 + 0x1000 * i, fun _ ↦ false⟩
  ifs := [0x100]
  ethIf := fun _ ↦ ⟨fun _ ↦ 0, ⟨0, 0, 0, 0, 0, 0⟩, 1, [], [], [0xC0A80063]⟩
  routes := [⟨0xC0A80000, 0xFFFFFF00, 0, 1, 1, 0x100⟩]
  arpCache := []
  clkticks := 0
  nullAddr := 0
  txDesc := fun _ ↦ ⟨false, 0, fun _ ↦ 0⟩
  next := 0
  txdEnq := 0

/-! ## Custody of packets -/

/-- Where packets are held. -/
inductive PktQueue
  | rx (i : Ptr)
  | tx (i : Ptr)
  deriving DecidableEq

def Net.queue (n : Net) : PktQueue → List EnNetPkt
  | .rx i => (n.ethIf i).rxQueue
  | .tx i => (n.ethIf i).txQueue

/-- The packets in use, and the queues they are on. -/
def Net.book (n : Net) : Book Ptr PktQueue where
  live := { p | n.heap.live p = true }
  held := fun q ↦ (n.queue q).map EnNetPkt.addr

theorem Net.book_congr {n t : Net} (hlive : t.heap.live = n.heap.live)
    (hqueue : ∀ q, t.queue q = n.queue q) : t.book = n.book := by
  rw [Net.book, Net.book, hlive]
  simp only [hqueue]

theorem Net.book_setHeap (n : Net) {h : PktHeap} (hlive : h.live = n.heap.live) :
    (n.setHeap h).book = n.book := Net.book_congr hlive fun _ ↦ rfl

theorem Net.book_free (n : Net) (pkt : EnNetPkt) :
    (n.free pkt).book = n.book.release pkt.addr := by
  have hlive : { p | Function.update n.heap.live pkt.addr false p = true } =
      { p | n.heap.live p = true } \ {pkt.addr} := by
    ext p
    by_cases hp : p = pkt.addr
    · subst hp
      simp
    · simp [hp]
  exact congrArg (fun live ↦ (⟨live, n.book.held⟩ : Book Ptr PktQueue)) hlive

theorem Net.book_setHeap_alloc (n : Net) {h : PktHeap} {p : Ptr}
    (hlive : h.live = Function.update n.heap.live p true) :
    (n.setHeap h).book = n.book.acquire p := by
  have hset : { q | h.live q = true } = insert p { q | n.heap.live q = true } := by
    rw [hlive]
    ext q
    by_cases hq : q = p
    · subst hq
      simp
    · simp [hq]
  exact Book.ext hset rfl

theorem Net.book_put {n t : Net} {q : PktQueue} {pkt : EnNetPkt}
    (hlive : t.heap.live = n.heap.live) (hq : t.queue q = pkt :: n.queue q)
    (hother : ∀ p, p ≠ q → t.queue p = n.queue p) : t.book = n.book.put q pkt.addr := by
  have hset : { p | t.heap.live p = true } = { p | n.heap.live p = true } := by rw [hlive]
  refine Book.ext hset (funext fun p ↦ ?_)
  show (t.queue p).map EnNetPkt.addr = _
  by_cases hp : p = q
  · subst hp
    rw [hq, List.map_cons, Book.held_put_self]
    rfl
  · rw [hother p hp, Book.held_put_of_ne n.book hp]
    rfl

theorem Net.book_take {n t : Net} {q : PktQueue} (hlive : t.heap.live = n.heap.live)
    (hq : t.queue q = (n.queue q).tail) (hother : ∀ p, p ≠ q → t.queue p = n.queue p) :
    t.book = n.book.take q := by
  have hset : { p | t.heap.live p = true } = { p | n.heap.live p = true } := by rw [hlive]
  refine Book.ext hset (funext fun p ↦ ?_)
  show (t.queue p).map EnNetPkt.addr = _
  by_cases hp : p = q
  · subst hp
    rw [hq, Book.held_take_self, List.map_tail]
    rfl
  · rw [hother p hp, Book.held_take_of_ne n.book hp]
    rfl

section ModifyIf

variable (n : Net) (i : Ptr) (f : EnEthIf → EnEthIf)

theorem Net.ethIf_modifyIf_self : (n.modifyIf i f).ethIf i = f (n.ethIf i) :=
  Function.update_self _ _ _

theorem Net.ethIf_modifyIf_of_ne {j : Ptr} (h : j ≠ i) : (n.modifyIf i f).ethIf j = n.ethIf j :=
  Function.update_of_ne h _ _

variable {f}

theorem Net.queue_modifyIf_of_rx (hrx : ∀ x, (f x).rxQueue = x.rxQueue) (q : PktQueue)
    (hq : q ≠ .tx i) : (n.modifyIf i f).queue q = n.queue q := by
  cases q with
  | rx j =>
    show ((n.modifyIf i f).ethIf j).rxQueue = (n.ethIf j).rxQueue
    by_cases hij : j = i
    · rw [hij, ethIf_modifyIf_self, hrx]
    · rw [ethIf_modifyIf_of_ne n i f hij]
  | tx j =>
    have hij : j ≠ i := fun hij ↦ hq (congrArg PktQueue.tx hij)
    show ((n.modifyIf i f).ethIf j).txQueue = (n.ethIf j).txQueue
    rw [ethIf_modifyIf_of_ne n i f hij]

theorem Net.queue_modifyIf_of_tx (htx : ∀ x, (f x).txQueue = x.txQueue) (q : PktQueue)
    (hq : q ≠ .rx i) : (n.modifyIf i f).queue q = n.queue q := by
  cases q with
  | rx j =>
    have hij : j ≠ i := fun hij ↦ hq (congrArg PktQueue.rx hij)
    show ((n.modifyIf i f).ethIf j).rxQueue = (n.ethIf j).rxQueue
    rw [ethIf_modifyIf_of_ne n i f hij]
  | tx j =>
    show ((n.modifyIf i f).ethIf j).txQueue = (n.ethIf j).txQueue
    by_cases hij : j = i
    · rw [hij, ethIf_modifyIf_self, htx]
    · rw [ethIf_modifyIf_of_ne n i f hij]

theorem Net.queue_modifyIf (hrx : ∀ x, (f x).rxQueue = x.rxQueue)
    (htx : ∀ x, (f x).txQueue = x.txQueue) (q : PktQueue) :
    (n.modifyIf i f).queue q = n.queue q := by
  cases q with
  | rx j => exact n.queue_modifyIf_of_rx i hrx (.rx j) PktQueue.noConfusion
  | tx j => exact n.queue_modifyIf_of_tx i htx (.tx j) PktQueue.noConfusion

end ModifyIf

/-- The packet that ends up on the transmit queue: the one given, with a header if there was memory
for one. -/
theorem enEthOutput_spec (n : Net) (i : Ptr) (pkt : EnNetPkt) (dst : MacAddr) (type : UInt16) :
    ∃ pkt' : EnNetPkt, pkt'.addr = pkt.addr ∧
      (pkt'.len = pkt.len ∨ pkt'.len = pkt.len + etherHdrSize) ∧
      (enEthOutput n i pkt dst type).heap.live = n.heap.live ∧
      (enEthOutput n i pkt dst type).queue (.tx i) = pkt' :: n.queue (.tx i) ∧
      ∀ q, q ≠ .tx i → (enEthOutput n i pkt dst type).queue q = n.queue q := by
  set hdr : Bytes := set16 (setBytes (setBytes (fun _ ↦ 0) 6 (n.ethIf i).addr 6) 0 dst 6) 12
    (enHtons type)
  obtain ⟨haddr, hlen, hlive⟩ := pktAddHead_frame n.heap pkt hdr etherHdrSize
  set pkt' := (pktAddHead n.heap pkt hdr etherHdrSize).2.1
  set heap' := (pktAddHead n.heap pkt hdr etherHdrSize).2.2
  have hdef : enEthOutput n i pkt dst type = (n.setHeap heap').modifyIf i fun x ↦
      { x with txQueue := pkt' :: x.txQueue } := rfl
  rw [hdef]
  refine ⟨pkt', haddr, hlen, hlive, ?_, (n.setHeap heap').queue_modifyIf_of_rx i fun _ ↦ rfl⟩
  exact congrArg EnEthIf.txQueue ((n.setHeap heap').ethIf_modifyIf_self i _)

/-- **Output takes custody**, even when there was no memory for the header. -/
theorem book_enEthOutput (n : Net) (i : Ptr) (pkt : EnNetPkt) (dst : MacAddr) (type : UInt16) :
    (enEthOutput n i pkt dst type).book = n.book.put (.tx i) pkt.addr := by
  obtain ⟨pkt', haddr, -, hlive, hq, hother⟩ := enEthOutput_spec n i pkt dst type
  rw [← haddr]
  exact Net.book_put hlive hq hother

end Ertos
