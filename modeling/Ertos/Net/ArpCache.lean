import Ertos.Basis.WriteOnce
import Ertos.Net.ArpMsg

/-!
# The ARP cache

Whatever packets are given to `en_arp_input`, the cache is a table that is written once: the first
reply that passes the checks and gets memory for its entry decides what is known of its sender.
-/

namespace Ertos

open Transition WriteOnce

/-- A call of `en_arp_input`: the packet, and the state of the network it is called in. -/
structure ArpCall where
  net : Net
  pkt : EnNetPkt

/-- Between the calls anything may change but the cache. -/
def ArpCacheStep (s : List EnArpEntry) (c : ArpCall) (t : List EnArpEntry) : Prop :=
  c.net.arpCache = s ∧ t = (enArpInput c.net c.pkt).2.arpCache

/-- A reply that passes the checks. -/
def ArpAccepted (pkt : EnNetPkt) : Prop :=
  ArpWellFormed pkt ∧ (arpMsg pkt.data).op = arpOpReply

instance (pkt : EnNetPkt) : Decidable (ArpWellFormed pkt) :=
  decidable_of_iff (28 ≤ pkt.len ∧ enNtohs (get16 pkt.data 0) = arpHrdEthernet ∧
      enNtohs (get16 pkt.data 2) = ethTypeIpv4 ∧ pkt.data 4 = 6 ∧ pkt.data 5 = 4)
    ⟨fun ⟨hlen, hhrd, hproto, hhlen, hplen⟩ ↦ ⟨hlen, hhrd, hproto, hhlen, hplen⟩,
      fun h ↦ ⟨h.len, h.hrd, h.proto, h.hlen, h.plen⟩⟩

instance (pkt : EnNetPkt) : Decidable (ArpAccepted pkt) := inferInstanceAs (Decidable (_ ∧ _))

namespace ArpCall

/-- An accepted reply for whose entry there is memory. -/
def Records (c : ArpCall) : Prop := ArpAccepted c.pkt ∧ c.net.heap.mallocs 0 ≠ NULL

instance (c : ArpCall) : Decidable c.Records := inferInstanceAs (Decidable (_ ∧ _))

/-- The sender of the packet. -/
def sender (c : ArpCall) : UInt32 := (arpMsg c.pkt.data).srcProto

/-- What the call offers to the cache. -/
def offers (c : ArpCall) : Option EnArpEntry :=
  if c.Records then some (arpEntry c.net c.pkt) else none

end ArpCall

theorem enArpCacheLookup_eq (cache : List EnArpEntry) (addr : UInt32) :
    enArpCacheLookup cache addr = lookup EnArpEntry.protoAddr cache addr := rfl

theorem arpCache_enArpInputRequest (n : Net) (pkt : EnNetPkt) :
    (enArpInputRequest n pkt).2.arpCache = n.arpCache := by
  unfold enArpInputRequest
  dsimp only
  cases n.owner (getAddr pkt.data (arpDstProtoOffset pkt.data)) with
  | none => rfl
  | some i => rfl

/-- **A call offers its entry**, and does nothing else to the cache. -/
theorem arpCache_enArpInput (c : ArpCall) : (enArpInput c.net c.pkt).2.arpCache =
    offer EnArpEntry.protoAddr c.net.arpCache c.offers := by
  by_cases hwf : ArpWellFormed c.pkt
  · rw [enArpInput_wellFormed hwf]
    by_cases hreq : (arpMsg c.pkt.data).op = arpOpRequest
    · have hrec : ¬c.Records := fun h ↦ absurd (hreq.symm.trans h.1.2) (by decide)
      rw [if_pos hreq, arpCache_enArpInputRequest, ArpCall.offers, if_neg hrec, offer]
    · rw [if_neg hreq]
      by_cases hrep : (arpMsg c.pkt.data).op = arpOpReply
      · rw [if_pos hrep, arpCache_enArpInputReply hwf.hlen, enArpCacheLookup_eq, ArpCall.offers]
        by_cases hnull : c.net.heap.mallocs 0 = NULL
        · rw [if_neg fun h ↦ h.2 hnull, if_neg fun h ↦ h.2 hnull, offer]
        · rw [if_pos (show c.Records from ⟨⟨hwf, hrep⟩, hnull⟩), offer, record]
          cases h : lookup EnArpEntry.protoAddr c.net.arpCache (arpMsg c.pkt.data).srcProto with
          | none => rw [if_pos ⟨rfl, hnull⟩, if_neg (by rw [arpEntry, h]; exact Bool.false_ne_true)]
          | some e =>
            rw [if_neg fun h ↦ Option.some_ne_none e h.1, if_pos (by rw [arpEntry, h]; rfl)]
      · rw [if_neg hrep, ArpCall.offers, if_neg fun h ↦ hrep h.1.2, offer]
        rfl
  · rw [enArpInput_malformed hwf, ArpCall.offers, if_neg fun h ↦ hwf h.1.1, offer]

theorem ArpCacheStep.eq_offer (s : List EnArpEntry) (c : ArpCall) (t : List EnArpEntry)
    (h : ArpCacheStep s c t) : t = offer EnArpEntry.protoAddr s c.offers := by
  obtain ⟨rfl, rfl⟩ := h
  exact arpCache_enArpInput c

/-- The first offer for an address is that of the first call that records it. -/
theorem lookup_offers (calls : List ArpCall) (addr : UInt32) :
    lookup EnArpEntry.protoAddr (calls.filterMap ArpCall.offers) addr =
      (calls.find? fun c ↦ decide (c.Records ∧ c.sender = addr)).map
        fun c ↦ arpEntry c.net c.pkt := by
  induction calls with
  | nil => rfl
  | cons c calls ih =>
    by_cases hrec : c.Records
    · have hoffer : c.offers = some (arpEntry c.net c.pkt) := if_pos hrec
      rw [List.filterMap_cons_some hoffer, lookup_cons, ih]
      by_cases hsender : c.sender = addr
      · rw [if_pos (show (arpEntry c.net c.pkt).protoAddr = addr from hsender)]
        simp [hrec, hsender]
      · rw [if_neg (show (arpEntry c.net c.pkt).protoAddr ≠ addr from hsender)]
        simp [hsender]
    · have hoffer : c.offers = none := if_neg hrec
      rw [List.filterMap_cons_none hoffer, ih]
      simp [hrec]

/-- **The ARP cache.** Along every sequence of calls, from the empty cache, there is one entry for
an address at most, entries stay as they are, and what is found under an address was made from the
first call that could record it. -/
theorem arpCache_writeOnce {r : List (ArpCall × List EnArpEntry)} (hrun : IsRun ArpCacheStep [] r) :
    Always (fun cache ↦ (cache.map EnArpEntry.protoAddr).Nodup) [] r ∧
      (∀ r₁ r₂, r = r₁ ++ r₂ → last [] r₁ <:+ last [] r) ∧
      ∀ addr, enArpCacheLookup (last [] r) addr =
        ((r.map Prod.fst).find? fun c ↦ decide (c.Records ∧ c.sender = addr)).map
          fun c ↦ arpEntry c.net c.pkt := by
  refine ⟨always_nodup ArpCacheStep.eq_offer List.nodup_nil hrun, ?_, fun addr ↦ ?_⟩
  · rintro r₁ r₂ rfl
    rw [last_append]
    exact suffix_last ArpCacheStep.eq_offer (isRun_append.mp hrun).2
  · rw [enArpCacheLookup_eq, lookup_last ArpCacheStep.eq_offer hrun, lookup_offers]
    exact Option.none_or

/-- The reply of 192.168.0.1 to 192.168.0.99. -/
def replyPkt : EnNetPkt where
  addr := 0x5000
  data := fun i ↦ [0, 1, 8, 0, 6, 4, 0, 2, 2, 2, 2, 2, 2, 2, 192, 168, 0, 1,
    0, 0, 0, 0, 0, 0, 192, 168, 0, 99].getD i 0
  len := 46
  allocated := 60
  ethIf := 0x100

theorem arpCache_writeOnce_reply :
    enArpCacheLookup (enArpInput bootNet replyPkt).2.arpCache 0xC0A80001 =
      some (arpEntry bootNet replyPkt) := by
  have hrun : IsRun ArpCacheStep []
      [((⟨bootNet, replyPkt⟩ : ArpCall), (enArpInput bootNet replyPkt).2.arpCache)] :=
    ⟨⟨rfl, rfl⟩, trivial⟩
  have hrecords : (⟨bootNet, replyPkt⟩ : ArpCall).Records ∧
      (⟨bootNet, replyPkt⟩ : ArpCall).sender = 0xC0A80001 := by decide
  refine ((arpCache_writeOnce hrun).2.2 0xC0A80001).trans ?_
  simp [hrecords]

end Ertos
