import Ertos.Basis.Transition
import Ertos.Net.PktBytes

/-!
# The root hub

The virtual root hub of `dev/ohci.c`, a device with one control endpoint. The host begins a transfer
with a SETUP token, sends a request in a data packet, and ends the transfer with an IN token; the
hub is called through `hub_out` for what the host sends and through `hub_in` for what it receives.

A SET_ADDRESS request only leaves a pending address, and the IN token that ends the transfer makes
it the hub's. But a transfer may be abandoned: then the pending address stays, and the end of any
later transfer applies it.
-/

namespace Ertos

open Transition

/-! ## Packets and requests -/

def pidIn : UInt8 := 0x09

def pidSetup : UInt8 := 0x0D

def pidData0 : UInt8 := 0x03

def pidData1 : UInt8 := 0x0B

def pidAck : UInt8 := 0x02

def usbSetAddress : UInt8 := 5

def usbGetDescriptor : UInt8 := 6

def usbDescDevice : UInt16 := 1

def usbDescConfiguration : UInt16 := 2

def usbDescString : UInt16 := 3

/-- `struct usb_request`. -/
structure UsbRequest where
  bmRequestType : UInt8
  bRequest : UInt8
  wValue : UInt16
  wIndex : UInt16
  wLength : UInt16

/-- The request in a `struct usb_request_pkt`, behind its packet identifier. -/
def usbRequest (buf : Bytes) : UsbRequest := ⟨buf 1, buf 2, get16 buf 3, get16 buf 5, get16 buf 7⟩

def UsbRequest.descType (req : UsbRequest) : UInt16 := (req.wValue &&& 0xFF00) >>> 8

def UsbRequest.strIndex (req : UsbRequest) : ℕ := (req.wValue &&& 0xFF).toNat

/-! ## The hub -/

inductive HubState
  | idle
  | setup
  | data
  | status
  deriving DecidableEq

/-- `struct hub_data`. -/
structure HubData where
  address : ℕ
  newAddress : ℕ
  ep0Data : Bytes
  ep0Len : ℕ
  state : HubState
  status : UInt8

/-- The hub at power on. -/
def hubInit : HubData := ⟨0, 0, fun _ ↦ 0, 0, .idle, 0⟩

/-- The two descriptors in `root_hub`, and the strings that are found where `ohci_str` is indexed
past its end. -/
structure RootHub where
  deviceDesc : Bytes
  configurationDesc : Bytes
  stray : ℕ → List UInt8

def sizeofDeviceDesc : ℕ := 18

def sizeofConfigurationDesc : ℕ := 9

def strBytes (s : String) : List UInt8 := s.toList.map fun c ↦ UInt8.ofNat c.toNat

def ohciStr : List (List UInt8) :=
  [strBytes "<null>", strBytes "EEnright", strBytes "OHCI Root Hub", strBytes "12345678",
    strBytes "Hub"]

/-- "Maximum index into ohci_str". -/
def ohciStrMax : ℕ := 5

/-- The loop of `create_string_desc`, from the character `i` on. -/
def putString (d : Bytes) : ℕ → List UInt8 → Bytes
  | _, [] => d
  | i, c :: l =>
    putString (Function.update (Function.update d (2 + i * 2) 0) (2 + (i * 2 + 1)) c) (i + 1) l

def createStringDesc (rh : RootHub) (hub : HubData) (idx : ℕ) : HubData :=
  if ohciStrMax < idx then { hub with ep0Len := 0 }
  else
    let str := ohciStr[idx]?.getD (rh.stray idx)
    let bLength := UInt8.ofNat (2 + str.length * 2)
    let d := Function.update (Function.update hub.ep0Data 0 bLength) 1 usbDescString.toUInt8
    { hub with ep0Data := putString d 0 str, ep0Len := bLength.toNat }

/-- Copying a descriptor of this size, or as much of it as was asked for. -/
def copyDesc (hub : HubData) (p : Bytes) (size : ℕ) (wLength : UInt16) : HubData :=
  let len := if size < wLength.toNat then size else wLength.toNat
  { hub with ep0Len := len, ep0Data := setBytes hub.ep0Data 0 p len, state := .data }

def getDescriptor (rh : RootHub) (hub : HubData) (req : UsbRequest) : HubData :=
  if req.descType = usbDescDevice then copyDesc hub rh.deviceDesc sizeofDeviceDesc req.wLength
  else if req.descType = usbDescConfiguration then
    copyDesc hub rh.configurationDesc sizeofConfigurationDesc req.wLength
  else if req.descType = usbDescString then
    { createStringDesc rh hub req.strIndex with state := .data }
  else hub

def hubHandleRequest (rh : RootHub) (hub : HubData) (req : UsbRequest) : HubData :=
  if req.bRequest = usbSetAddress then
    { hub with newAddress := req.wValue.toNat, status := pidAck, state := .status }
  else if req.bRequest = usbGetDescriptor then getDescriptor rh hub req
  else hub

/-- An IN token. -/
def hubInToken (hub : HubData) : HubData :=
  if hub.state = .status then
    let hub := { hub with state := .idle }
    if hub.newAddress ≠ 0 then { hub with address := hub.newAddress, newAddress := 0 } else hub
  else hub

def hubOut (rh : RootHub) (hub : HubData) (ep : UInt32) (buf : Bytes) : ℤ × HubData :=
  if ep &&& 0x7F = 0 then
    let pid := buf 0 &&& 0x0F
    if pid = pidSetup then (0, { hub with state := .setup })
    else if pid = pidData0 ∨ pid = pidData1 then
      if hub.state = .setup then (0, hubHandleRequest rh hub (usbRequest buf)) else (0, hub)
    else if pid = pidIn then (0, hubInToken hub)
    else (0, hub)
  else if ep &&& 0x7F = 1 then (0, hub)
  else (-1, hub)

/-- The return code, the bytes copied to the caller, and the hub. -/
def hubIn (hub : HubData) (ep : UInt32) (len : UInt32) : ℤ × List UInt8 × HubData :=
  if ep &&& 0x7F = 0 then
    let len := if hub.ep0Len < len.toNat then hub.ep0Len else len.toNat
    (0, bytesOf hub.ep0Data len, { hub with state := .status, status := pidAck })
  else if ep &&& 0x7F = 1 then (0, [], hub)
  else (-1, [], hub)

/-! ## Calls -/

inductive HubCall
  | hubOut (ep : UInt32) (buf : Bytes)
  | hubIn (ep : UInt32) (len : UInt32)

namespace HubCall

def run (rh : RootHub) (hub : HubData) : HubCall → HubData
  | hubOut ep buf => (Ertos.hubOut rh hub ep buf).2
  | hubIn ep len => (Ertos.hubIn hub ep len).2.2

/-- The packet identifier of what is sent to the control endpoint. -/
def pid : HubCall → Option UInt8
  | hubOut ep buf => if ep &&& 0x7F = 0 then some (buf 0 &&& 0x0F) else none
  | hubIn _ _ => none

/-- The call begins a transfer. -/
def Begins (c : HubCall) : Prop := c.pid = some pidSetup

/-- The call ends a transfer. -/
def Ends (c : HubCall) (hub : HubData) : Prop := c.pid = some pidIn ∧ hub.state = .status

/-- The request in the call, if the hub waits for one. -/
def request (hub : HubData) : HubCall → Option UsbRequest
  | hubOut ep buf =>
    if ep &&& 0x7F = 0 ∧ (buf 0 &&& 0x0F = pidData0 ∨ buf 0 &&& 0x0F = pidData1) ∧
        hub.state = .setup then some (usbRequest buf)
    else none
  | hubIn _ _ => none

end HubCall

instance (c : HubCall) : Decidable c.Begins := inferInstanceAs (Decidable (_ = _))

/-- What a call may do to the hub. -/
inductive HubEffect (rh : RootHub) (hub : HubData) (c : HubCall) : HubData → Prop
  | begins (h : c.Begins) (hreq : c.request hub = none) :
      HubEffect rh hub c { hub with state := .setup }
  | request {req : UsbRequest} (h : ¬c.Begins) (hends : ¬c.Ends hub) (hstate : hub.state = .setup)
      (hreq : c.request hub = some req) : HubEffect rh hub c (hubHandleRequest rh hub req)
  | ends (h : ¬c.Begins) (hends : c.Ends hub) (hreq : c.request hub = none) :
      HubEffect rh hub c (hubInToken hub)
  | other {hub' : HubData} (h : ¬c.Begins) (hends : ¬c.Ends hub) (hreq : c.request hub = none)
      (haddress : hub'.address = hub.address) (hnew : hub'.newAddress = hub.newAddress)
      (hdata : hub'.ep0Data = hub.ep0Data) (hlen : hub'.ep0Len = hub.ep0Len)
      (hstate : hub'.state = hub.state ∨ hub'.state = .status) : HubEffect rh hub c hub'

theorem HubCall.effect (rh : RootHub) (hub : HubData) (c : HubCall) :
    HubEffect rh hub c (c.run rh hub) := by
  cases c with
  | hubIn ep len =>
    have hpid : (HubCall.hubIn ep len).pid = none := rfl
    have hother : ∀ hub' : HubData, hub'.address = hub.address → hub'.newAddress = hub.newAddress →
        hub'.ep0Data = hub.ep0Data → hub'.ep0Len = hub.ep0Len →
        (hub'.state = hub.state ∨ hub'.state = .status) →
        HubEffect rh hub (.hubIn ep len) hub' :=
      fun _ ↦ .other (fun h ↦ Option.some_ne_none _ (h.symm.trans hpid))
        (fun h ↦ Option.some_ne_none _ (h.1.symm.trans hpid)) rfl
    unfold HubCall.run Ertos.hubIn
    dsimp only
    split_ifs
    · exact hother _ rfl rfl rfl rfl (Or.inr rfl)
    · exact hother _ rfl rfl rfl rfl (Or.inr rfl)
    · exact hother _ rfl rfl rfl rfl (Or.inl rfl)
    · exact hother _ rfl rfl rfl rfl (Or.inl rfl)
  | hubOut ep buf =>
    have hsame : ¬(HubCall.hubOut ep buf).Begins → ¬(HubCall.hubOut ep buf).Ends hub →
        (HubCall.hubOut ep buf).request hub = none → HubEffect rh hub (.hubOut ep buf) hub :=
      fun h hends hreq ↦ .other h hends hreq rfl rfl rfl rfl (Or.inl rfl)
    have hnone : ∀ p : Prop, [Decidable p] → (p → False) →
        (if p then some (usbRequest buf) else none) = none := fun _ _ hp ↦ if_neg hp
    unfold HubCall.run Ertos.hubOut
    by_cases hep : ep &&& 0x7F = 0
    · have hpid : (HubCall.hubOut ep buf).pid = some (buf 0 &&& 0x0F) := if_pos hep
      have hbegins : (HubCall.hubOut ep buf).Begins ↔ buf 0 &&& 0x0F = pidSetup := by
        rw [Begins, hpid, Option.some.injEq]
      have hends :
          (HubCall.hubOut ep buf).Ends hub ↔ buf 0 &&& 0x0F = pidIn ∧ hub.state = .status := by
        rw [Ends, hpid, Option.some.injEq]
      dsimp only
      rw [if_pos hep]
      split_ifs with hsetup hdata hstate hin
      · refine .begins (hbegins.mpr hsetup) (hnone _ fun h ↦ ?_)
        rw [hsetup] at h
        exact absurd h.2.1 (by decide)
      · refine .request (fun h ↦ hsetup (hbegins.mp h)) (fun h ↦ ?_) hstate
          (if_pos ⟨hep, hdata, hstate⟩)
        exact absurd ((hends.mp h).2.symm.trans hstate) (by decide)
      · refine hsame (fun h ↦ hsetup (hbegins.mp h)) (fun h ↦ ?_) (hnone _ fun h ↦ hstate h.2.2)
        rw [(hends.mp h).1] at hdata
        exact absurd hdata (by decide)
      · have hreq : (HubCall.hubOut ep buf).request hub = none := hnone _ fun h ↦ hdata h.2.1
        by_cases hstatus : hub.state = .status
        · exact .ends (fun h ↦ hsetup (hbegins.mp h)) (hends.mpr ⟨hin, hstatus⟩) hreq
        · have hidle : hubInToken hub = hub := if_neg hstatus
          rw [hidle]
          exact hsame (fun h ↦ hsetup (hbegins.mp h)) (fun h ↦ hstatus (hends.mp h).2) hreq
      · exact hsame (fun h ↦ hsetup (hbegins.mp h)) (fun h ↦ hin (hends.mp h).1)
          (hnone _ fun h ↦ hdata h.2.1)
    · have hpid : (HubCall.hubOut ep buf).pid = none := if_neg hep
      have hother := hsame (fun h ↦ Option.some_ne_none _ (h.symm.trans hpid))
        (fun h ↦ Option.some_ne_none _ (h.1.symm.trans hpid)) (hnone _ fun h ↦ hep h.1)
      dsimp only
      rw [if_neg hep]
      split_ifs
      · exact hother
      · exact hother

/-! ## Runs -/

/-- The hub, and what it was asked for. -/
structure HubLog where
  hub : HubData
  /-- The request of the transfer that the latest SETUP token began. -/
  transfer : Option UsbRequest
  /-- The latest request. -/
  latest : Option UsbRequest

def HubLog.init : HubLog := ⟨hubInit, none, none⟩

def HubLog.next (rh : RootHub) (s : HubLog) (c : HubCall) : HubLog where
  hub := c.run rh s.hub
  transfer := if c.Begins then none else (c.request s.hub).or s.transfer
  latest := (c.request s.hub).or s.latest

/-- One call of `hub_out` or of `hub_in`. -/
def HubStep (rh : RootHub) (s : HubLog) (c : HubCall) (t : HubLog) : Prop := t = s.next rh c

/-! ## The address -/

/-- The transfer in progress asked for an address. -/
def SetsAddress (s : HubLog) (address : ℕ) : Prop :=
  ∃ req, s.transfer = some req ∧ req.bRequest = usbSetAddress ∧ req.wValue.toNat = address

/-- The address changes at the end of a transfer that asked for it only. -/
def AddressLaw (s : HubLog) (c : HubCall) (t : HubLog) : Prop :=
  t.hub.address ≠ s.hub.address → c.Ends s.hub ∧ SetsAddress s t.hub.address

/-- There is a pending address, other than the hub's own, and the transfer that asked for it was
abandoned. -/
def Abandoned (s : HubLog) : Prop :=
  s.hub.newAddress ≠ 0 ∧ s.hub.newAddress ≠ s.hub.address ∧
    ∀ req, s.transfer = some req → req.bRequest ≠ usbSetAddress

/-- No transfer ends while the address of an abandoned one is pending. -/
def NotAbandoned (s : HubLog) (c : HubCall) : Prop := c.Ends s.hub → ¬Abandoned s

/-- The address that the transfer in progress asked for is pending, or was applied. -/
def AddressInv (s : HubLog) : Prop :=
  ∀ req, s.transfer = some req → req.bRequest = usbSetAddress →
    s.hub.newAddress = 0 ∨ s.hub.newAddress = req.wValue.toNat

section Address

variable {rh : RootHub} {s : HubLog}

theorem hubInToken_of_zero {hub : HubData} (hstate : hub.state = .status) (h : hub.newAddress = 0) :
    hubInToken hub = { hub with state := .idle } := by
  rw [hubInToken, if_pos hstate]
  exact if_neg (not_not.mpr h)

theorem hubInToken_of_ne {hub : HubData} (hstate : hub.state = .status) (h : hub.newAddress ≠ 0) :
    hubInToken hub = { hub with state := .idle, address := hub.newAddress, newAddress := 0 } := by
  rw [hubInToken, if_pos hstate]
  exact if_pos h

/-- Requests do not change the address, and only SET_ADDRESS leaves one. -/
theorem hubHandleRequest_frame (rh : RootHub) (hub : HubData) (req : UsbRequest) :
    (hubHandleRequest rh hub req).address = hub.address ∧
      (hubHandleRequest rh hub req).newAddress =
        if req.bRequest = usbSetAddress then req.wValue.toNat else hub.newAddress := by
  unfold hubHandleRequest
  split_ifs
  · exact ⟨rfl, rfl⟩
  · unfold getDescriptor createStringDesc
    split_ifs <;> exact ⟨rfl, rfl⟩
  · exact ⟨rfl, rfl⟩

theorem AddressInv.next (hs : AddressInv s) (c : HubCall) : AddressInv (s.next rh c) := by
  have heff := c.effect rh s.hub
  unfold AddressInv HubLog.next
  dsimp only
  generalize c.run rh s.hub = hub at heff
  intro req htransfer hset
  cases heff with
  | begins h _ =>
    rw [if_pos h] at htransfer
    exact absurd htransfer.symm (Option.some_ne_none req)
  | @request req' h _ _ hreq =>
    rw [if_neg h, hreq, Option.some_or, Option.some.injEq] at htransfer
    subst htransfer
    rw [(hubHandleRequest_frame rh s.hub _).2, if_pos hset]
    exact Or.inr rfl
  | ends h hends hreq =>
    rw [if_neg h, hreq, Option.none_or] at htransfer
    by_cases hnew : s.hub.newAddress = 0
    · rw [hubInToken_of_zero hends.2 hnew]
      exact Or.inl hnew
    · rw [hubInToken_of_ne hends.2 hnew]
      exact Or.inl rfl
  | other h _ hreq _ hnew =>
    rw [if_neg h, hreq, Option.none_or] at htransfer
    rw [hnew]
    exact hs req htransfer hset

/-- **One call** obeys the law exactly when it does not end a transfer while an abandoned address is
pending. -/
theorem addressLaw_next_iff (hs : AddressInv s) (c : HubCall) :
    AddressLaw s c (s.next rh c) ↔ NotAbandoned s c := by
  have heff := c.effect rh s.hub
  unfold AddressLaw NotAbandoned HubLog.next
  dsimp only
  generalize c.run rh s.hub = hub at heff
  cases heff with
  | begins h _ =>
    have hends : ¬c.Ends s.hub := fun hends ↦
      absurd (Option.some.inj (h.symm.trans hends.1)) (by decide)
    exact iff_of_true (fun hne ↦ absurd rfl hne) fun h ↦ absurd h hends
  | @request req h hends _ hreq =>
    exact iff_of_true (fun hne ↦ absurd (hubHandleRequest_frame rh s.hub req).1 hne)
      fun h ↦ absurd h hends
  | other h hends _ haddress =>
    exact iff_of_true (fun hne ↦ absurd haddress hne) fun h ↦ absurd h hends
  | ends h hends _ =>
    by_cases hnew : s.hub.newAddress = 0
    · rw [hubInToken_of_zero hends.2 hnew]
      exact iff_of_true (fun hne ↦ absurd rfl hne) fun _ hab ↦ hab.1 hnew
    · rw [hubInToken_of_ne hends.2 hnew]
      constructor
      · rintro hlaw - ⟨-, hne, hother⟩
        obtain ⟨-, req, htransfer, hset, -⟩ := hlaw hne
        exact hother req htransfer hset
      · intro hnot hne
        have hset : ∃ req, s.transfer = some req ∧ req.bRequest = usbSetAddress := by
          by_contra hnone
          exact hnot hends ⟨hnew, hne, fun req htransfer hset ↦ hnone ⟨req, htransfer, hset⟩⟩
        obtain ⟨req, htransfer, hset⟩ := hset
        exact ⟨hends, req, htransfer, hset, ((hs req htransfer hset).resolve_left hnew).symm⟩

end Address

/-- **The address changes at the end of the transfers that asked for it, exactly.** Along every
sequence of calls, each change of the address is the one that the transfer in progress asked for, at
its end, if and only if no transfer ends while the address of an abandoned one is pending. -/
theorem hub_address_iff {rh : RootHub} {r : List (HubCall × HubLog)}
    (hrun : IsRun (HubStep rh) .init r) :
    IsRun AddressLaw .init r ↔ Guarded NotAbandoned .init r := by
  have hinit : AddressInv .init := fun req h ↦ absurd h.symm (Option.some_ne_none req)
  refine isRun_iff_guarded (I := AddressInv) ?_ ?_ hinit hrun
  · rintro s c _ hs rfl
    exact hs.next c
  · rintro s c _ hs rfl
    exact addressLaw_next_iff hs c

/-- A pending address was asked for by the transfer in progress, which has had its request. -/
def PendingInv (s : HubLog) : Prop :=
  s.hub.newAddress ≠ 0 → s.hub.state ≠ .setup ∧
    ∃ req, s.transfer = some req ∧ req.bRequest = usbSetAddress

/-- No transfer begins while an address is pending. -/
def NothingPending (s : HubLog) (c : HubCall) : Prop := c.Begins → s.hub.newAddress = 0

theorem PendingInv.next {rh : RootHub} {s : HubLog} {c : HubCall} (hs : PendingInv s)
    (hc : NothingPending s c) : PendingInv (s.next rh c) := by
  have heff := c.effect rh s.hub
  unfold PendingInv HubLog.next
  dsimp only
  generalize c.run rh s.hub = hub at heff
  cases heff with
  | begins h _ => exact fun hnew ↦ absurd (hc h) hnew
  | @request req h _ hstate hreq =>
    intro hnew
    rw [if_neg h, hreq, Option.some_or]
    by_cases hset : req.bRequest = usbSetAddress
    · refine ⟨?_, req, rfl, hset⟩
      rw [hubHandleRequest, if_pos hset]
      exact HubState.noConfusion
    · rw [(hubHandleRequest_frame rh s.hub req).2, if_neg hset] at hnew
      exact absurd hstate (hs hnew).1
  | ends h hends _ =>
    by_cases hnew : s.hub.newAddress = 0
    · rw [hubInToken_of_zero hends.2 hnew]
      exact fun hne ↦ absurd hnew hne
    · rw [hubInToken_of_ne hends.2 hnew]
      exact fun hne ↦ absurd rfl hne
  | other h _ hreq _ hnew _ _ hstate =>
    rw [if_neg h, hreq, Option.none_or, hnew]
    intro hne
    obtain ⟨hsetup, htransfer⟩ := hs hne
    refine ⟨fun heq ↦ ?_, htransfer⟩
    rcases hstate with hsame | hstatus
    · exact hsetup (hsame.symm.trans heq)
    · exact HubState.noConfusion (hstatus.symm.trans heq)

/-- In particular the law holds if no transfer is abandoned with an address pending. -/
theorem hub_address_of_nothingPending {rh : RootHub} {r : List (HubCall × HubLog)}
    (hrun : IsRun (HubStep rh) .init r) (hr : Guarded NothingPending .init r) :
    Guarded NotAbandoned .init r := by
  have hinv : Always PendingInv .init r := by
    refine always_of_guarded ?_ (fun h ↦ absurd rfl h) hrun hr
    rintro s c _ hs hc rfl
    exact hs.next hc
  refine Guarded.imp_of_always (fun s c hs _ _ hab ↦ ?_) hinv hr
  obtain ⟨-, req, htransfer, hset⟩ := hs hab.1
  exact hab.2.2 req htransfer hset

/-- The run of a sequence of calls. -/
def hubRun (rh : RootHub) : HubLog → List HubCall → List (HubCall × HubLog)
  | _, [] => []
  | s, c :: l => (c, s.next rh c) :: hubRun rh (s.next rh c) l

theorem isRun_hubRun (rh : RootHub) (s : HubLog) (l : List HubCall) :
    IsRun (HubStep rh) s (hubRun rh s l) := by
  induction l generalizing s with
  | nil => trivial
  | cons c l ih => exact ⟨rfl, ih _⟩

/-- A packet to the control endpoint. -/
def hubPkt (l : List UInt8) : HubCall := .hubOut 0 fun i ↦ l.getD i 0

/-- A hub whose descriptors are all zeros. -/
def zeroHub : RootHub := ⟨fun _ ↦ 0, fun _ ↦ 0, fun _ ↦ []⟩

/-- A SETUP token, SET_ADDRESS 7, and the IN token. -/
def setAddressCalls : List HubCall := [hubPkt [0x2D], hubPkt [0xC3, 0, 5, 7], hubPkt [0x69]]

theorem hub_address_iff_seven :
    IsRun AddressLaw .init (hubRun zeroHub .init setAddressCalls) ∧
      (last .init (hubRun zeroHub .init setAddressCalls)).hub.address = 7 := by
  refine ⟨(hub_address_iff (isRun_hubRun zeroHub .init setAddressCalls)).mpr ?_, by decide⟩
  exact ⟨fun _ hab ↦ hab.1 rfl, fun _ hab ↦ hab.1 rfl, fun _ hab ↦ hab.2.2 _ rfl rfl, trivial⟩

/-- SET_ADDRESS 7 is abandoned by the next SETUP token, and GET_DESCRIPTOR is served. -/
def abandonedCalls : List HubCall :=
  [hubPkt [0x2D], hubPkt [0xC3, 0, 5, 7], hubPkt [0x2D], hubPkt [0xC3, 0x80, 6, 0, 1, 0, 0, 18],
    .hubIn 0 18, hubPkt [0x69]]

/-- **The end of a descriptor transfer changes the address** to the one that was abandoned. -/
theorem hub_abandoned_address :
    IsRun (HubStep zeroHub) .init (hubRun zeroHub .init abandonedCalls) ∧
    (last .init (hubRun zeroHub .init abandonedCalls)).hub.address = 7 ∧
    ¬IsRun AddressLaw .init (hubRun zeroHub .init abandonedCalls) := by
  refine ⟨isRun_hubRun zeroHub .init abandonedCalls, by decide, ?_⟩
  rintro ⟨-, -, -, -, -, hlaw, -⟩
  obtain ⟨-, req, htransfer, hset, -⟩ := hlaw (by decide)
  obtain rfl := Option.some.inj htransfer
  exact absurd hset (by decide)

end Ertos
