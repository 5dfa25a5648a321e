import Ertos.Dev.Hub

/-!
# Descriptors of the root hub

A GET_DESCRIPTOR request fills the buffer of the control endpoint, and `hub_in` copies what is in
it. The hub should answer with the descriptor that the latest request asked for, as much of it as
was asked for, or with nothing. It does so for the device and the configuration descriptor. A string
descriptor is not cut off, the bound on string indices is off by one, and any other request leaves
the buffer as it is, with the answer to an earlier request in it.
-/

namespace Ertos

open Transition

/-! ## Descriptors -/

/-- A string descriptor. -/
def stringDesc (str : List UInt8) : List UInt8 :=
  UInt8.ofNat (2 + str.length * 2) :: usbDescString.toUInt8 :: str.flatMap fun c ↦ [0, c]

theorem length_stringDesc (str : List UInt8) : (stringDesc str).length = 2 + str.length * 2 := by
  rw [stringDesc, List.length_cons, List.length_cons, List.length_flatMap]
  simp
  omega

/-- The loop appends a zero and a character for each character. -/
theorem bytesOf_putString (d : Bytes) (i : ℕ) (str : List UInt8) :
    bytesOf (putString d i str) (2 + (i + str.length) * 2) =
      bytesOf d (2 + i * 2) ++ str.flatMap fun c ↦ [0, c] := by
  induction str generalizing d i with
  | nil => exact (List.append_nil _).symm
  | cons c l ih =>
    set e := Function.update (Function.update d (2 + i * 2) 0) (2 + (i * 2 + 1)) c with he
    have hzero : e (2 + i * 2) = 0 := by
      rw [he, Function.update_of_ne (by omega), Function.update_self]
    have hchar : e (2 + i * 2 + 1) = c := Function.update_self _ _ _
    have hkeep : ∀ j < 2 + i * 2, e j = d j := by
      intro j hj
      rw [he, Function.update_of_ne (by omega), Function.update_of_ne (by omega)]
    have hstep : bytesOf e (2 + (i + 1) * 2) = bytesOf d (2 + i * 2) ++ [0, c] := by
      rw [show 2 + (i + 1) * 2 = 2 + i * 2 + 2 by omega, bytesOf_add, bytesOf_congr hkeep]
      congr 1
      show [e (2 + i * 2), e (2 + i * 2 + 1)] = _
      rw [hzero, hchar]
    rw [List.length_cons, show i + (l.length + 1) = i + 1 + l.length by omega, putString, ← he, ih,
      hstep, List.append_assoc, List.flatMap_cons]

theorem length_le_of_mem_ohciStr {str : List UInt8} (h : str ∈ ohciStr) : str.length ≤ 13 := by
  have hall : ∀ str ∈ ohciStr, str.length ≤ 13 := by decide
  exact hall str h

namespace UsbRequest

variable (req : UsbRequest)

/-- The request is for a descriptor of this type. -/
def AsksFor (type : UInt16) : Prop := req.bRequest = usbGetDescriptor ∧ req.descType = type

/-- The request is for a descriptor of a type that there is. -/
def Supported : Prop :=
  req.AsksFor usbDescDevice ∨ req.AsksFor usbDescConfiguration ∨ req.AsksFor usbDescString

/-- The descriptor that is asked for, if there is one. -/
def descriptor (rh : RootHub) : List UInt8 :=
  if req.bRequest ≠ usbGetDescriptor then []
  else if req.descType = usbDescDevice then bytesOf rh.deviceDesc sizeofDeviceDesc
  else if req.descType = usbDescConfiguration then
    bytesOf rh.configurationDesc sizeofConfigurationDesc
  else if req.descType = usbDescString then ((ohciStr[req.strIndex]?).map stringDesc).getD []
  else []

/-- As much of it as was asked for. -/
def answer (rh : RootHub) : List UInt8 := (req.descriptor rh).take req.wLength.toNat

/-- The table of strings is not indexed past its end. -/
def InBounds : Prop :=
  req.AsksFor usbDescString → req.strIndex ≤ ohciStrMax → req.strIndex < ohciStr.length

/-- The request is answered faithfully, with this many bytes of an earlier answer in the buffer. -/
structure Answerable (ep0Len : ℕ) : Prop where
  index : req.AsksFor usbDescString → req.strIndex ≠ ohciStr.length
  length : req.AsksFor usbDescString → ∀ str, ohciStr[req.strIndex]? = some str →
    2 + str.length * 2 ≤ req.wLength.toNat
  stale : ¬req.Supported → ep0Len = 0

end UsbRequest

/-- What the hub should answer. -/
def hubAnswer (rh : RootHub) : Option UsbRequest → List UInt8
  | none => []
  | some req => req.answer rh

/-- The hub answers the latest request, and did nothing improper for it. -/
structure Faithful (rh : RootHub) (s : HubLog) : Prop where
  copies : ∀ ep len, ep &&& 0x7F = 0 →
    (hubIn s.hub ep len).2.1 = (hubAnswer rh s.latest).take len.toNat
  inBounds : ∀ req, s.latest = some req → req.InBounds
  fits : s.hub.ep0Len ≤ 64

/-- A request is answerable when it arrives. -/
def RequestAnswerable (s : HubLog) (c : HubCall) : Prop :=
  ∀ req, c.request s.hub = some req → req.Answerable s.hub.ep0Len

section Buffer

variable {rh : RootHub} {hub : HubData} {req : UsbRequest}

theorem length_answer (rh : RootHub) (req : UsbRequest) : (req.answer rh).length ≤ 64 := by
  have hdesc : (req.descriptor rh).length ≤ 64 := by
    unfold UsbRequest.descriptor
    split_ifs
    · exact Nat.zero_le 64
    · rw [length_bytesOf, sizeofDeviceDesc]
      decide
    · rw [length_bytesOf, sizeofConfigurationDesc]
      decide
    · cases h : ohciStr[req.strIndex]? with
      | none => exact Nat.zero_le 64
      | some str =>
        have hle := length_le_of_mem_ohciStr (List.mem_of_getElem? h)
        rw [Option.map_some, Option.getD_some, length_stringDesc]
        omega
    · exact Nat.zero_le 64
  exact (List.length_take_le' _ _).trans hdesc

theorem length_hubAnswer (rh : RootHub) (latest : Option UsbRequest) :
    (hubAnswer rh latest).length ≤ 64 := by
  cases latest with
  | none => exact Nat.zero_le 64
  | some req => exact length_answer rh req

theorem bytesOf_take (d : Bytes) (m n : ℕ) : (bytesOf d n).take m = bytesOf d (min m n) := by
  rw [bytesOf, bytesOf, ← List.map_take, List.take_range]

/-- **What `hub_in` copies** is what is in the buffer. -/
theorem hubIn_copies_iff {l : List UInt8} (hl : l.length ≤ 64) (hfits : hub.ep0Len ≤ 64) :
    (∀ ep len, ep &&& 0x7F = 0 → (hubIn hub ep len).2.1 = l.take len.toNat) ↔
      bytesOf hub.ep0Data hub.ep0Len = l := by
  have hcopied : ∀ ep len : UInt32, ep &&& 0x7F = 0 →
      (hubIn hub ep len).2.1 = (bytesOf hub.ep0Data hub.ep0Len).take len.toNat := by
    intro ep len hep
    rw [bytesOf_take, hubIn, if_pos hep]
    dsimp only
    congr 1
    split_ifs <;> omega
  constructor
  · intro h
    have hall := (hcopied 0 64 rfl).symm.trans (h 0 64 rfl)
    rwa [show (64 : UInt32).toNat = 64 from rfl, List.take_of_length_le hl,
      List.take_of_length_le (by rwa [length_bytesOf])] at hall
  · rintro rfl ep len hep
    exact hcopied ep len hep

theorem bytesOf_copyDesc (hub : HubData) (p : Bytes) (size : ℕ) (wLength : UInt16) :
    bytesOf (copyDesc hub p size wLength).ep0Data (copyDesc hub p size wLength).ep0Len =
      (bytesOf p size).take wLength.toNat := by
  set n := if size < wLength.toNat then size else wLength.toNat with hn
  have hmin : n = min wLength.toNat size := by
    rw [hn]
    split_ifs <;> omega
  have hcopied : ∀ i < n, setBytes hub.ep0Data 0 p n i = p i := by
    intro i hi
    rw [setBytes, if_pos (by omega), Nat.sub_zero]
  rw [bytesOf_take, ← hmin]
  exact bytesOf_congr hcopied

theorem bytesOf_createStringDesc (rh : RootHub) (hub : HubData) {idx : ℕ} {str : List UInt8}
    (h : ohciStr[idx]? = some str) :
    bytesOf (createStringDesc rh hub idx).ep0Data (createStringDesc rh hub idx).ep0Len =
      stringDesc str := by
  have hidx : idx < 5 := (List.getElem?_eq_some_iff.mp h).1
  have hle := length_le_of_mem_ohciStr (List.mem_of_getElem? h)
  have hlen : (UInt8.ofNat (2 + str.length * 2)).toNat = 2 + (0 + str.length) * 2 := by
    rw [UInt8.toNat_ofNat', Nat.zero_add]
    omega
  have hmax : ¬ohciStrMax < idx := by
    rw [ohciStrMax]
    omega
  rw [createStringDesc, if_neg hmax, h, Option.getD_some]
  dsimp only
  rw [hlen, bytesOf_putString]
  rfl

theorem ep0Len_createStringDesc (rh : RootHub) (hub : HubData) {idx : ℕ} (h : ohciStrMax < idx) :
    (createStringDesc rh hub idx).ep0Len = 0 := by
  rw [createStringDesc, if_pos h]

end Buffer

/-! ## Requests -/

section Requests

variable {rh : RootHub} {hub : HubData} {req : UsbRequest}

theorem hubHandleRequest_of_not_supported (rh : RootHub) (hub : HubData) (h : ¬req.Supported) :
    (hubHandleRequest rh hub req).ep0Data = hub.ep0Data ∧
      (hubHandleRequest rh hub req).ep0Len = hub.ep0Len := by
  unfold hubHandleRequest
  split_ifs with hset hget
  · exact ⟨rfl, rfl⟩
  · rw [getDescriptor, if_neg fun htype ↦ h (Or.inl ⟨hget, htype⟩),
      if_neg fun htype ↦ h (Or.inr (Or.inl ⟨hget, htype⟩)),
      if_neg fun htype ↦ h (Or.inr (Or.inr ⟨hget, htype⟩))]
    exact ⟨rfl, rfl⟩
  · exact ⟨rfl, rfl⟩

theorem descriptor_of_not_supported (h : ¬req.Supported) : req.descriptor rh = [] := by
  unfold UsbRequest.descriptor
  split_ifs with hget hdevice hconf hstr
  · rfl
  · exact absurd (Or.inl ⟨not_not.mp hget, hdevice⟩) h
  · exact absurd (Or.inr (Or.inl ⟨not_not.mp hget, hconf⟩)) h
  · exact absurd (Or.inr (Or.inr ⟨not_not.mp hget, hstr⟩)) h
  · rfl

theorem hubHandleRequest_descriptor (h : req.bRequest = usbGetDescriptor) :
    hubHandleRequest rh hub req = getDescriptor rh hub req := by
  rw [hubHandleRequest, h, if_neg (by decide), if_pos rfl]

theorem UsbRequest.AsksFor.unique {type type' : UInt16} (h : req.AsksFor type)
    (h' : req.AsksFor type') : type = type' := h.2.symm.trans h'.2

/-- **A request for a string** is answered if there is such a string, and all of it was asked for,
or if there is none and the index is refused. -/
theorem answers_string_iff (h : req.AsksFor usbDescString) :
    (req.InBounds ∧ bytesOf (hubHandleRequest rh hub req).ep0Data
        (hubHandleRequest rh hub req).ep0Len = req.answer rh) ↔
      req.strIndex ≠ ohciStr.length ∧
        ∀ str, ohciStr[req.strIndex]? = some str → 2 + str.length * 2 ≤ req.wLength.toNat := by
  have hdevice : ¬req.descType = usbDescDevice := by
    rw [h.2]
    decide
  have hconf : ¬req.descType = usbDescConfiguration := by
    rw [h.2]
    decide
  have hhandled : hubHandleRequest rh hub req =
      { createStringDesc rh hub req.strIndex with state := .data } := by
    rw [hubHandleRequest_descriptor h.1, getDescriptor, if_neg hdevice, if_neg hconf, if_pos h.2]
  have hdesc : req.descriptor rh = ((ohciStr[req.strIndex]?).map stringDesc).getD [] := by
    rw [UsbRequest.descriptor, if_neg (not_not.mpr h.1), if_neg hdevice, if_neg hconf, if_pos h.2]
  have hsize : ohciStr.length = 5 := rfl
  have hmax : ohciStrMax = 5 := rfl
  rw [hhandled, UsbRequest.answer, hdesc]
  dsimp only
  cases hstr : ohciStr[req.strIndex]? with
  | some str =>
    have hidx : req.strIndex < ohciStr.length := (List.getElem?_eq_some_iff.mp hstr).1
    have hlen := length_stringDesc str
    rw [bytesOf_createStringDesc rh hub hstr, Option.map_some, Option.getD_some]
    constructor
    · rintro ⟨-, hbytes⟩
      refine ⟨hidx.ne, fun str' heq ↦ ?_⟩
      obtain rfl := Option.some.inj heq
      have hcut := congrArg List.length hbytes
      rw [List.length_take, hlen] at hcut
      omega
    · rintro ⟨-, hle⟩
      refine ⟨fun _ _ ↦ hidx, (List.take_of_length_le ?_).symm⟩
      rw [hlen]
      exact hle str rfl
  | none =>
    have hidx : ohciStr.length ≤ req.strIndex := List.getElem?_eq_none_iff.mp hstr
    rw [Option.map_none, Option.getD_none, List.take_nil]
    constructor
    · rintro ⟨hin, -⟩
      refine ⟨fun heq ↦ ?_, fun str heq ↦ absurd heq.symm (Option.some_ne_none str)⟩
      have hlt := hin h (by omega)
      omega
    · rintro ⟨hne, -⟩
      refine ⟨fun _ hle ↦ by omega, ?_⟩
      rw [ep0Len_createStringDesc rh hub (by omega)]
      rfl

/-- **Which requests are answered.** -/
theorem answers_iff : (req.InBounds ∧ bytesOf (hubHandleRequest rh hub req).ep0Data
      (hubHandleRequest rh hub req).ep0Len = req.answer rh) ↔ req.Answerable hub.ep0Len := by
  by_cases hstr : req.AsksFor usbDescString
  · rw [answers_string_iff hstr]
    exact ⟨fun h ↦ ⟨fun _ ↦ h.1, fun _ ↦ h.2, fun hnot ↦ absurd (Or.inr (Or.inr hstr)) hnot⟩,
      fun h ↦ ⟨h.index hstr, h.length hstr⟩⟩
  · have hin : req.InBounds := fun h _ ↦ absurd h hstr
    by_cases hsup : req.Supported
    · refine iff_of_true ⟨hin, ?_⟩
        ⟨fun h ↦ absurd h hstr, fun h ↦ absurd h hstr, fun h ↦ absurd hsup h⟩
      rw [UsbRequest.answer]
      rcases hsup with h | h | h
      · rw [hubHandleRequest_descriptor h.1, getDescriptor, if_pos h.2, bytesOf_copyDesc,
          UsbRequest.descriptor, if_neg (not_not.mpr h.1), if_pos h.2]
      · have hdevice : ¬req.descType = usbDescDevice := by
          rw [h.2]
          decide
        rw [hubHandleRequest_descriptor h.1, getDescriptor, if_neg hdevice, if_pos h.2,
          bytesOf_copyDesc, UsbRequest.descriptor, if_neg (not_not.mpr h.1), if_neg hdevice,
          if_pos h.2]
      · exact absurd h hstr
    · obtain ⟨hdata, hlen⟩ := hubHandleRequest_of_not_supported rh hub hsup
      rw [hdata, hlen, UsbRequest.answer, descriptor_of_not_supported hsup, List.take_nil]
      constructor
      · rintro ⟨-, hempty⟩
        refine ⟨fun h ↦ absurd h hstr, fun h ↦ absurd h hstr, fun _ ↦ ?_⟩
        have hzero := congrArg List.length hempty
        rwa [length_bytesOf] at hzero
      · intro h
        rw [h.stale hsup]
        exact ⟨hin, rfl⟩

end Requests

/-! ## Runs -/

section Faithful

variable {rh : RootHub} {s : HubLog}

theorem faithful_iff : Faithful rh s ↔ (∀ req, s.latest = some req → req.InBounds) ∧
    bytesOf s.hub.ep0Data s.hub.ep0Len = hubAnswer rh s.latest := by
  have hshort := length_hubAnswer rh s.latest
  constructor
  · intro h
    exact ⟨h.inBounds, (hubIn_copies_iff hshort h.fits).mp h.copies⟩
  · rintro ⟨hin, hbytes⟩
    have hfits : s.hub.ep0Len ≤ 64 := by
      rwa [← hbytes, length_bytesOf] at hshort
    exact ⟨(hubIn_copies_iff hshort hfits).mpr hbytes, hin, hfits⟩

theorem faithful_init : Faithful rh .init :=
  faithful_iff.mpr ⟨fun req h ↦ absurd h.symm (Option.some_ne_none req), rfl⟩

/-- **One call** keeps the hub faithful if and only if its request, if there is one,
is answerable. -/
theorem faithful_next_iff (hs : Faithful rh s) (c : HubCall) :
    Faithful rh (s.next rh c) ↔ RequestAnswerable s c := by
  have heff := c.effect rh s.hub
  have hbytes := (faithful_iff.mp hs).2
  have hin := hs.inBounds
  rw [faithful_iff]
  unfold RequestAnswerable HubLog.next
  dsimp only
  generalize c.run rh s.hub = hub at heff
  -- without a request the buffer stays, and so does what should be in it
  have hsame : c.request s.hub = none → hub.ep0Data = s.hub.ep0Data → hub.ep0Len = s.hub.ep0Len →
      (((∀ req, (c.request s.hub).or s.latest = some req → req.InBounds) ∧
        bytesOf hub.ep0Data hub.ep0Len = hubAnswer rh ((c.request s.hub).or s.latest)) ↔
      ∀ req, c.request s.hub = some req → req.Answerable s.hub.ep0Len) := by
    intro hreq hdata hlen
    rw [hreq, Option.none_or, hdata, hlen]
    exact iff_of_true ⟨hin, hbytes⟩ fun req h ↦ absurd h.symm (Option.some_ne_none req)
  cases heff with
  | begins _ hreq => exact hsame hreq rfl rfl
  | other _ _ hreq _ _ hdata hlen => exact hsame hreq hdata hlen
  | ends _ hends hreq =>
    by_cases hnew : s.hub.newAddress = 0
    · rw [hubInToken_of_zero hends.2 hnew] at hsame ⊢
      exact hsame hreq rfl rfl
    · rw [hubInToken_of_ne hends.2 hnew] at hsame ⊢
      exact hsame hreq rfl rfl
  | @request req _ _ _ hreq =>
    rw [hreq, Option.some_or, hubAnswer]
    constructor
    · rintro ⟨hbound, hanswer⟩ req' heq
      obtain rfl := Option.some.inj heq
      exact answers_iff.mp ⟨hbound req rfl, hanswer⟩
    · intro h
      obtain ⟨hbound, hanswer⟩ := answers_iff.mpr (h req rfl)
      refine ⟨fun req' heq ↦ ?_, hanswer⟩
      obtain rfl := Option.some.inj heq
      exact hbound

end Faithful

/-- **Descriptor requests are answered faithfully, exactly.** Along every sequence of calls, the hub
copies what the latest request asked for, from within its bounds, if and only if every request is
answerable when it arrives. -/
theorem hub_faithful_iff {rh : RootHub} {r : List (HubCall × HubLog)}
    (hrun : IsRun (HubStep rh) .init r) :
    Always (Faithful rh) .init r ↔ Guarded RequestAnswerable .init r := by
  refine always_iff_guarded (I := Faithful rh) (fun _ h ↦ h) ?_ ?_ faithful_init hrun
  · rintro s c _ hs hc rfl
    exact (faithful_next_iff hs c).mpr hc
  · rintro s c _ hs hc rfl h
    exact hc ((faithful_next_iff hs c).mp h)

/-- GET_DESCRIPTOR with this value in a transfer of its own, asking for so many bytes. -/
def getDescriptorCalls (index type wLength : UInt8) : List HubCall :=
  [hubPkt [0x2D], hubPkt [0xC3, 0x80, 6, index, type, 0, 0, wLength]]

theorem hub_faithful_iff_device :
    Always (Faithful zeroHub) .init (hubRun zeroHub .init (getDescriptorCalls 0 1 18)) := by
  refine (hub_faithful_iff (isRun_hubRun zeroHub .init (getDescriptorCalls 0 1 18))).mpr ?_
  have hnone : ∀ {o : Option UsbRequest}, o = none → ∀ req, o = some req → req.Answerable 0 :=
    fun ho req h ↦ absurd (h.symm.trans ho) (Option.some_ne_none req)
  refine ⟨hnone rfl, fun req h ↦ ?_, trivial⟩
  obtain rfl := Option.some.inj h
  have hdevice : (usbRequest fun i ↦ [0xC3, 0x80, 6, 0, 1, 0, 0, 18].getD i 0).AsksFor
      usbDescDevice := ⟨by decide, by decide⟩
  exact ⟨fun h ↦ absurd (hdevice.unique h) (by decide),
    fun h ↦ absurd (hdevice.unique h) (by decide), fun h ↦ absurd (Or.inl hdevice) h⟩

/-- The state after these calls. -/
def hubAfter (calls : List HubCall) : HubLog := last .init (hubRun zeroHub .init calls)

/-- **Three wrong answers.** Of string 1, two bytes were asked for, and 18 are copied; the table of
strings is indexed at 5, behind its end; and after SET_ADDRESS, the device descriptor that an
earlier transfer asked for is copied. -/
theorem hub_answers_wrongly :
    ((hubIn (hubAfter (getDescriptorCalls 1 3 2)).hub 0 64).2.1.length = 18 ∧
      ¬Faithful zeroHub (hubAfter (getDescriptorCalls 1 3 2))) ∧
    ¬Faithful zeroHub (hubAfter (getDescriptorCalls 5 3 64)) ∧
    ((hubIn (hubAfter (getDescriptorCalls 0 1 18 ++ setAddressCalls)).hub 0 64).2.1.length = 18 ∧
      ¬Faithful zeroHub (hubAfter (getDescriptorCalls 0 1 18 ++ setAddressCalls))) := by
  refine ⟨⟨by decide, fun h ↦ ?_⟩, fun h ↦ ?_, by decide, fun h ↦ ?_⟩
  · have hcut := congrArg List.length (h.copies 0 64 rfl)
    exact absurd hcut (by decide)
  · have hlt := h.inBounds _ rfl ⟨by decide, by decide⟩ (by decide)
    exact absurd hlt (by decide)
  · have hstale := congrArg List.length (h.copies 0 64 rfl)
    exact absurd hstale (by decide)

end Ertos
