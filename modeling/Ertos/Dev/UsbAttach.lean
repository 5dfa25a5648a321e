import Ertos.Dev.Hub

/-!
# Attaching a USB device

`usb_attach_device` of `dev/usb.c`, and the functions it calls to set the address of a device and to
read its descriptors. What `malloc` and the host controller return is a parameter, by the place of
the call; each place is passed at most once. The functions are translated to the list of their
effects on memory: allocations, writes through pointers that come from them, and what is freed. The
contents of the packets are left out.

Of the allocations some are required, and the common exit frees what there is; those for the three
strings are optional. The copy of the third string is made if the *first* one was allocated.
-/

namespace Ertos

/-! ## Effects -/

inductive UsbObj
  | token
  | req
  | dev
  | wait
  | manufacturer
  | product
  | serialNumber
  | configurations
  deriving DecidableEq

/-- A device has all but the packets, which are the host controller's when they are queued. -/
def UsbObj.Owned (o : UsbObj) : Prop := o ≠ .token ∧ o ≠ .req

inductive UsbEvent
  | malloc (o : UsbObj) (p : Ptr)
  | write (p : Ptr) (len : ℕ)
  | free (o : UsbObj) (p : Ptr)
  | link (p : Ptr)
  deriving DecidableEq

namespace UsbEvent

/-- The memory allocated for `o`. -/
def allocated (o : UsbObj) : UsbEvent → Option Ptr
  | malloc o' p => if o' = o ∧ p ≠ NULL then some p else none
  | _ => none

/-- The memory freed as `o`. -/
def freed (o : UsbObj) : UsbEvent → Option Ptr
  | free o' p => if o' = o then some p else none
  | _ => none

/-- No write through a null pointer. -/
def Sound : UsbEvent → Prop
  | write p len => 0 < len → p ≠ NULL
  | _ => True

def NoLink : UsbEvent → Prop
  | link _ => False
  | _ => True

end UsbEvent

/-! ## What is returned to the driver -/

/-- What `malloc` and `hcd->out` return to `usb_token`. -/
structure TokenEnv where
  token : Ptr
  out : ℤ

/-- What is returned during a transfer. -/
structure TransferEnv where
  setup : TokenEnv
  req : Ptr
  out : ℤ
  inToken : TokenEnv
  input : ℤ

/-- What is returned while a string is read, and its length. -/
structure StringEnv where
  transfer : TransferEnv
  bLength : UInt8
  string : Ptr

/-- `struct usb_device_desc`, as far as it is read. -/
structure UsbDeviceDesc where
  iManufacturer : UInt8
  iProduct : UInt8
  iSerialNumber : UInt8
  bNumConfigurations : UInt8

/-- What is returned to `usb_attach_device`. -/
structure AttachEnv where
  dev : Ptr
  wait : Ptr
  registerDefault : ℤ
  setAddress : TransferEnv
  registerEp : ℤ
  device : TransferEnv
  desc : UsbDeviceDesc
  manufacturer : StringEnv
  product : StringEnv
  serialNumber : StringEnv
  configurations : Ptr
  configuration : ℕ → TransferEnv

/-! ## Transfers -/

def sizeofTokenPkt : ℕ := 3

def sizeofRequestPkt : ℕ := 11

def usbToken (e : TokenEnv) : ℤ × List UsbEvent :=
  if e.token = NULL then (-1, [.malloc .token NULL])
  else
    let ev := [.malloc .token e.token, .write e.token sizeofTokenPkt]
    if e.out ≠ 0 then (-1, ev ++ [.free .token e.token]) else (0, ev)

def Usb.usbSetAddress (e : TransferEnv) : ℤ × List UsbEvent :=
  let (rc, ev) := usbToken e.setup
  if rc ≠ 0 then (-1, ev)
  else if e.req = NULL then (-1, ev ++ [.malloc .req NULL])
  else
    let ev := ev ++ [.malloc .req e.req, .write e.req sizeofRequestPkt]
    if e.out ≠ 0 then (-1, ev ++ [.free .req e.req])
    else
      let (rc, ev') := usbToken e.inToken
      if rc ≠ 0 then (-1, ev ++ ev') else (0, ev ++ ev')

/-- What `usb_get_desc` and `usb_get_string_desc` have in common. There is no event for a descriptor
that is read to the stack. -/
def usbReadDesc (e : TransferEnv) (desc : Option Ptr) (len : ℕ) : ℤ × List UsbEvent :=
  let (rc, ev) := usbToken e.setup
  if rc ≠ 0 then (-1, ev)
  else if e.req = NULL then (-1, ev ++ [.malloc .req NULL])
  else
    let ev := ev ++ [.malloc .req e.req, .write e.req sizeofRequestPkt]
    if e.out ≠ 0 then (-1, ev)
    else
      let (rc, ev') := usbToken e.inToken
      if rc ≠ 0 then (-1, ev ++ ev')
      else
        let ev := ev ++ ev' ++ desc.toList.map fun p ↦ .write p len
        if e.input ≠ 0 then (-1, ev) else (0, ev)

def usbGetDesc (e : TransferEnv) (desc : Ptr) (len : ℕ) : ℤ × List UsbEvent :=
  usbReadDesc e (some desc) len

def usbGetStringDesc (e : TransferEnv) (len : ℕ) : ℤ × List UsbEvent := usbReadDesc e none len

/-! ## Attaching -/

/-- `struct usb_dev` at an address, as far as it is read here. -/
structure UsbDev where
  addr : Ptr
  wait : Ptr
  configurationDesc : Ptr
  sManufacturer : Ptr
  sProduct : Ptr
  sSerialNumber : Ptr

def sizeofUsbDev : ℕ := 64

/-- `offsetof(struct usb_dev, device_desc)`. -/
def usbDevDesc : ℕ := 24

/-- The size of a FIFO for ten processes. -/
def sizeofWait : ℕ := 56

def sizeofBuf : ℕ := 64

def freeUnlessNull (o : UsbObj) (p : Ptr) : List UsbEvent := if p ≠ NULL then [.free o p] else []

/-- Behind the label `out_err`, for a device. -/
def outErr (dev : UsbDev) : List UsbEvent :=
  freeUnlessNull .wait dev.wait ++ freeUnlessNull .configurations dev.configurationDesc ++
    freeUnlessNull .manufacturer dev.sManufacturer ++ freeUnlessNull .product dev.sProduct ++
    freeUnlessNull .serialNumber dev.sSerialNumber ++ [.free .dev dev.addr]

/-- Reading a string and copying it, if the pointer that is tested is not null. -/
def readString (idx : UInt8) (e : StringEnv) (o : UsbObj) (tested : Ptr) : Ptr × List UsbEvent :=
  if 0 < idx then
    let (rc, ev) := usbGetStringDesc e.transfer sizeofBuf
    if rc = 0 then
      let ev := ev ++ [.malloc o e.string]
      (e.string, if tested ≠ NULL then ev ++ [.write e.string e.bLength.toNat] else ev)
    else (NULL, ev)
  else (NULL, [])

def readManufacturer (e : AttachEnv) : Ptr × List UsbEvent :=
  readString e.desc.iManufacturer e.manufacturer .manufacturer e.manufacturer.string

def readProduct (e : AttachEnv) : Ptr × List UsbEvent :=
  readString e.desc.iProduct e.product .product e.product.string

/-- The pointer tested is that of another string. -/
def readSerialNumber (e : AttachEnv) (sManufacturer : Ptr) : Ptr × List UsbEvent :=
  readString e.desc.iSerialNumber e.serialNumber .serialNumber sManufacturer

/-- The loop that reads `n` configuration descriptors from the `i`-th on. -/
def readConfigurations (e : ℕ → TransferEnv) (p : Ptr) : ℕ → ℕ → ℤ × List UsbEvent
  | 0, _ => (0, [])
  | n + 1, i =>
    let (rc, ev) := usbGetDesc (e i) (p + i * sizeofConfigurationDesc) sizeofConfigurationDesc
    if rc ≠ 0 then (-1, ev)
    else
      let (rc, ev') := readConfigurations e p n (i + 1)
      (rc, ev ++ ev')

/-- The part of `usb_attach_device` behind the device descriptor. -/
def attachDescriptors (e : AttachEnv) (dev : UsbDev) (ev : List UsbEvent) : Bool × List UsbEvent :=
  let (sManufacturer, ev₁) := readManufacturer e
  let (sProduct, ev₂) := readProduct e
  let (sSerialNumber, ev₃) := readSerialNumber e sManufacturer
  let dev := { dev with
    sManufacturer := sManufacturer, sProduct := sProduct, sSerialNumber := sSerialNumber }
  let ev := ev ++ ev₁ ++ ev₂ ++ ev₃
  if e.desc.bNumConfigurations = 0 then (false, ev ++ outErr dev)
  else
    let dev := { dev with configurationDesc := e.configurations }
    let ev := ev ++ [.malloc .configurations e.configurations]
    if e.configurations = NULL then (false, ev ++ outErr dev)
    else
      let (rc, ev') :=
        readConfigurations e.configuration e.configurations e.desc.bNumConfigurations.toNat 0
      let ev := ev ++ ev'
      if rc ≠ 0 then (false, ev ++ outErr dev) else (true, ev ++ [.link dev.addr])

/-- `usb_attach_device`, with whether it has registered the device. -/
def usbAttachDevice (e : AttachEnv) : Bool × List UsbEvent :=
  if e.dev = NULL then (false, [.malloc .dev NULL])
  else
    let dev := ⟨e.dev, e.wait, NULL, NULL, NULL, NULL⟩
    let ev := [.malloc .dev e.dev, .write e.dev sizeofUsbDev, .malloc .wait e.wait]
    if e.wait = NULL then (false, ev ++ outErr dev)
    else
      let ev := ev ++ [.write e.wait sizeofWait]
      if e.registerDefault ≠ 0 then (false, ev ++ outErr dev)
      else
        let (rc, ev') := Usb.usbSetAddress e.setAddress
        let ev := ev ++ ev'
        if rc ≠ 0 then (false, ev ++ outErr dev)
        else if e.registerEp ≠ 0 then (false, ev ++ outErr dev)
        else
          let (rc, ev') := usbGetDesc e.device (e.dev + usbDevDesc) sizeofDeviceDesc
          let ev := ev ++ ev'
          if rc ≠ 0 then (false, ev ++ outErr dev) else attachDescriptors e dev ev

/-! ## The law and its condition -/

/-- No write goes through a null pointer; and if the device is not registered, what was allocated
for it is freed once, and it is not linked. -/
structure AttachLaw (r : Bool × List UsbEvent) : Prop where
  sound : ∀ x ∈ r.2, x.Sound
  freed : r.1 = false → ∀ o : UsbObj, o.Owned →
    r.2.filterMap (UsbEvent.freed o) = r.2.filterMap (UsbEvent.allocated o) ∧
      (r.2.filterMap (UsbEvent.allocated o)).length ≤ 1
  unlinked : r.1 = false → ∀ x ∈ r.2, x.NoLink

def TokenEnv.Ok (e : TokenEnv) : Prop := e.token ≠ NULL ∧ e.out = 0

/-- The packets of a transfer are there and queued. -/
def TransferEnv.Sent (e : TransferEnv) : Prop :=
  e.setup.Ok ∧ e.req ≠ NULL ∧ e.out = 0 ∧ e.inToken.Ok

def TransferEnv.Ok (e : TransferEnv) : Prop := e.Sent ∧ e.input = 0

/-- The device descriptor is read. -/
structure AttachEnv.Described (e : AttachEnv) : Prop where
  dev : e.dev ≠ NULL
  wait : e.wait ≠ NULL
  registerDefault : e.registerDefault = 0
  setAddress : e.setAddress.Sent
  registerEp : e.registerEp = 0
  device : e.device.Ok

/-- The string is read, and there is memory for it. -/
def StringEnv.Kept (idx : UInt8) (e : StringEnv) : Prop :=
  0 < idx ∧ e.transfer.Ok ∧ e.string ≠ NULL

/-- The string is read and not empty, and there is no memory for it. -/
def StringEnv.Refused (idx : UInt8) (e : StringEnv) : Prop :=
  0 < idx ∧ e.transfer.Ok ∧ e.string = NULL ∧ 0 < e.bLength

/-- There is memory for the first string and none for the third. -/
def SerialUnchecked (e : AttachEnv) : Prop :=
  e.Described ∧ e.manufacturer.Kept e.desc.iManufacturer ∧
    e.serialNumber.Refused e.desc.iSerialNumber

/-! ## Lists of events -/

open UsbEvent

/-- The events free nothing, link nothing, and allocate the memory that `f` tells. -/
structure Leaves (f : UsbObj → List Ptr) (ev : List UsbEvent) : Prop where
  allocated : ∀ o : UsbObj, o.Owned → ev.filterMap (allocated o) = f o
  freed : ∀ o : UsbObj, o.Owned → ev.filterMap (freed o) = []
  unlinked : ∀ x ∈ ev, x.NoLink

theorem Leaves.append {f g : UsbObj → List Ptr} {l l' : List UsbEvent} (h : Leaves f l)
    (h' : Leaves g l') : Leaves (fun o ↦ f o ++ g o) (l ++ l') where
  allocated := fun o ho ↦ by rw [List.filterMap_append, h.allocated o ho, h'.allocated o ho]
  freed := fun o ho ↦ by rw [List.filterMap_append, h.freed o ho, h'.freed o ho, List.append_nil]
  unlinked := List.forall_mem_append.mpr ⟨h.unlinked, h'.unlinked⟩

theorem Leaves.congr {f g : UsbObj → List Ptr} {l : List UsbEvent} (h : Leaves f l)
    (hfg : ∀ o, f o = g o) : Leaves g l := funext hfg ▸ h

/-- What a pointer holds. -/
def held (p : Ptr) : List Ptr := if p = NULL then [] else [p]

@[simp] theorem held_null : held NULL = [] := rfl

/-- The memory allocated by a single `malloc` for `o`. -/
def heldAs (o : UsbObj) (p : Ptr) (o' : UsbObj) : List Ptr := if o = o' then held p else []

theorem leaves_malloc (o : UsbObj) (p : Ptr) : Leaves (heldAs o p) [.malloc o p] := by
  refine ⟨fun o' _ ↦ ?_, fun _ _ ↦ rfl, List.forall_mem_singleton.mpr trivial⟩
  by_cases ho : o = o' <;> by_cases hp : p = NULL <;>
    simp [heldAs, held, UsbEvent.allocated, ho, hp]

theorem leaves_write (p : Ptr) (len : ℕ) : Leaves (fun _ ↦ []) [.write p len] :=
  ⟨fun _ _ ↦ rfl, fun _ _ ↦ rfl, List.forall_mem_singleton.mpr trivial⟩

/-- Events that concern packets only, or write to memory that is there. -/
structure Aside (ev : List UsbEvent) : Prop where
  sound : ∀ x ∈ ev, x.Sound
  leaves : Leaves (fun _ ↦ []) ev

theorem aside_nil : Aside [] := ⟨by simp, fun _ _ ↦ rfl, fun _ _ ↦ rfl, by simp⟩

theorem Aside.append {l l' : List UsbEvent} (h : Aside l) (h' : Aside l') : Aside (l ++ l') :=
  ⟨List.forall_mem_append.mpr ⟨h.sound, h'.sound⟩, h.leaves.append h'.leaves⟩

theorem Leaves.aside {f : UsbObj → List Ptr} {l l' : List UsbEvent} (h : Leaves f l)
    (h' : Aside l') : Leaves f (l ++ l') := by
  have happ := h.append h'.leaves
  simp only [List.append_nil] at happ
  exact happ

theorem aside_write {p : Ptr} (hp : p ≠ NULL) (len : ℕ) : Aside [.write p len] :=
  ⟨List.forall_mem_singleton.mpr fun _ ↦ hp, leaves_write p len⟩

theorem aside_malloc {o : UsbObj} (ho : ¬o.Owned) (p : Ptr) : Aside [.malloc o p] := by
  refine ⟨List.forall_mem_singleton.mpr trivial, fun o' ho' ↦ ?_, fun _ _ ↦ rfl,
    List.forall_mem_singleton.mpr trivial⟩
  have hne : o ≠ o' := fun h ↦ ho (h ▸ ho')
  simp [UsbEvent.allocated, hne]

theorem aside_free {o : UsbObj} (ho : ¬o.Owned) (p : Ptr) : Aside [.free o p] := by
  refine ⟨List.forall_mem_singleton.mpr trivial, fun _ _ ↦ rfl, fun o' ho' ↦ ?_,
    List.forall_mem_singleton.mpr trivial⟩
  have hne : o ≠ o' := fun h ↦ ho (h ▸ ho')
  simp [UsbEvent.freed, hne]

theorem not_owned_token : ¬UsbObj.Owned .token := fun h ↦ h.1 rfl

theorem not_owned_req : ¬UsbObj.Owned .req := fun h ↦ h.2 rfl

/-! ## The functions -/

/-- A return code and packets, and what the code means. -/
structure UsbCall (ok : Prop) (r : ℤ × List UsbEvent) : Prop where
  rc : r.1 = 0 ↔ ok
  aside : Aside r.2

theorem usbToken_spec (e : TokenEnv) : UsbCall e.Ok (usbToken e) := by
  unfold usbToken
  by_cases htoken : e.token = NULL
  · rw [if_pos htoken]
    exact ⟨iff_of_false (by simp) fun h ↦ h.1 htoken, aside_malloc not_owned_token _⟩
  · have hev : Aside [.malloc .token e.token, .write e.token sizeofTokenPkt] :=
      (aside_malloc not_owned_token _).append (aside_write htoken _)
    rw [if_neg htoken]
    dsimp only
    split_ifs with hout
    · exact ⟨iff_of_false (by simp) fun h ↦ hout h.2,
        hev.append (aside_free not_owned_token _)⟩
    · exact ⟨iff_of_true rfl ⟨htoken, not_not.mp hout⟩, hev⟩

/-- The beginning of a transfer: the token and the request. -/
theorem aside_request {ev : List UsbEvent} (hev : Aside ev) {p : Ptr} (hp : p ≠ NULL) :
    Aside (ev ++ [.malloc .req p, .write p sizeofRequestPkt]) :=
  hev.append ((aside_malloc not_owned_req p).append (aside_write hp _))

theorem usbSetAddress_spec (e : TransferEnv) : UsbCall e.Sent (Usb.usbSetAddress e) := by
  obtain ⟨⟨rc, ev⟩, hsetup⟩ : ∃ r, usbToken e.setup = r := ⟨_, rfl⟩
  obtain ⟨⟨rc', ev'⟩, hin⟩ : ∃ r, usbToken e.inToken = r := ⟨_, rfl⟩
  have hs := hsetup ▸ usbToken_spec e.setup
  have hi := hin ▸ usbToken_spec e.inToken
  rw [Usb.usbSetAddress, hsetup, hin]
  dsimp only
  split_ifs with hrc hreq hout hrc'
  · exact ⟨iff_of_false (by simp) fun h ↦ hrc (hs.rc.mpr h.1), hs.aside⟩
  · exact ⟨iff_of_false (by simp) fun h ↦ h.2.1 hreq,
      hs.aside.append (aside_malloc not_owned_req _)⟩
  · exact ⟨iff_of_false (by simp) fun h ↦ hout h.2.2.1,
      (aside_request hs.aside hreq).append (aside_free not_owned_req _)⟩
  · exact ⟨iff_of_false (by simp) fun h ↦ hrc' (hi.rc.mpr h.2.2.2),
      (aside_request hs.aside hreq).append hi.aside⟩
  · exact ⟨iff_of_true rfl ⟨hs.rc.mp (not_not.mp hrc), hreq, not_not.mp hout,
      hi.rc.mp (not_not.mp hrc')⟩, (aside_request hs.aside hreq).append hi.aside⟩

theorem usbReadDesc_spec (e : TransferEnv) {desc : Option Ptr} (hdesc : ∀ p ∈ desc, p ≠ NULL)
    (len : ℕ) : UsbCall e.Ok (usbReadDesc e desc len) := by
  obtain ⟨⟨rc, ev⟩, hsetup⟩ : ∃ r, usbToken e.setup = r := ⟨_, rfl⟩
  obtain ⟨⟨rc', ev'⟩, hin⟩ : ∃ r, usbToken e.inToken = r := ⟨_, rfl⟩
  have hs := hsetup ▸ usbToken_spec e.setup
  have hi := hin ▸ usbToken_spec e.inToken
  have hread : Aside (desc.toList.map fun p ↦ .write p len) := by
    cases desc with
    | none => exact aside_nil
    | some p => exact aside_write (hdesc p rfl) len
  rw [usbReadDesc, hsetup, hin]
  dsimp only
  split_ifs with hrc hreq hout hrc' hinput
  · exact ⟨iff_of_false (by simp) fun h ↦ hrc (hs.rc.mpr h.1.1), hs.aside⟩
  · exact ⟨iff_of_false (by simp) fun h ↦ h.1.2.1 hreq,
      hs.aside.append (aside_malloc not_owned_req _)⟩
  · exact ⟨iff_of_false (by simp) fun h ↦ hout h.1.2.2.1, aside_request hs.aside hreq⟩
  · exact ⟨iff_of_false (by simp) fun h ↦ hrc' (hi.rc.mpr h.1.2.2.2),
      (aside_request hs.aside hreq).append hi.aside⟩
  · exact ⟨iff_of_false (by simp) fun h ↦ hinput h.2,
      ((aside_request hs.aside hreq).append hi.aside).append hread⟩
  · exact ⟨iff_of_true rfl ⟨⟨hs.rc.mp (not_not.mp hrc), hreq, not_not.mp hout,
      hi.rc.mp (not_not.mp hrc')⟩, not_not.mp hinput⟩,
      ((aside_request hs.aside hreq).append hi.aside).append hread⟩

theorem aside_readConfigurations (e : ℕ → TransferEnv) {p : Ptr} (hp : p ≠ NULL) (n i : ℕ) :
    Aside (readConfigurations e p n i).2 := by
  induction n generalizing i with
  | zero => exact aside_nil
  | succ n ih =>
    have hdesc : ∀ q ∈ some (p + i * sizeofConfigurationDesc), q ≠ NULL := by
      rintro q hq rfl
      exact hp (Nat.eq_zero_of_add_eq_zero_right (Option.some.inj hq))
    have hread := (usbReadDesc_spec (e i) hdesc sizeofConfigurationDesc).aside
    rw [readConfigurations, usbGetDesc]
    dsimp only
    split_ifs
    · exact hread
    · exact hread.append (ih (i + 1))

/-! ## The strings -/

/-- Reading a string: the pointer is not null if the string is kept, and the copy goes wrong if a
pointer is tested that is not null, and there is no memory. -/
structure StringCall (idx : UInt8) (e : StringEnv) (o : UsbObj) (tested : Ptr)
    (r : Ptr × List UsbEvent) : Prop where
  kept : r.1 ≠ NULL ↔ e.Kept idx
  leaves : Leaves (heldAs o r.1) r.2
  sound : (∀ x ∈ r.2, x.Sound) ↔ ¬(tested ≠ NULL ∧ e.Refused idx)

theorem leaves_unread (o : UsbObj) {ev : List UsbEvent} (h : Aside ev) :
    Leaves (heldAs o NULL) ev := by
  have hnil : heldAs o NULL = fun _ ↦ [] := by
    funext o'
    simp [heldAs]
  exact hnil ▸ h.leaves

theorem stringCall_copy {idx : UInt8} (hidx : 0 < idx) {e : StringEnv} (hok : e.transfer.Ok)
    (o : UsbObj) (tested : Ptr) {ev : List UsbEvent} (hev : Aside ev) :
    StringCall idx e o tested (e.string, if tested ≠ NULL
      then ev ++ [.malloc o e.string] ++ [.write e.string e.bLength.toNat]
      else ev ++ [.malloc o e.string]) := by
  have hmalloc : Leaves (heldAs o e.string) (ev ++ [.malloc o e.string]) := by
    have happ := hev.leaves.append (leaves_malloc o e.string)
    simp only [List.nil_append] at happ
    exact happ
  have hsound : ∀ x ∈ ev ++ [.malloc o e.string], x.Sound :=
    List.forall_mem_append.mpr ⟨hev.sound, List.forall_mem_singleton.mpr trivial⟩
  refine ⟨⟨fun h ↦ ⟨hidx, hok, h⟩, fun h ↦ h.2.2⟩, ?_, ?_⟩
  · dsimp only
    split_ifs
    · have happ := hmalloc.append (leaves_write e.string e.bLength.toNat)
      simp only [List.append_nil] at happ
      exact happ
    · exact hmalloc
  · dsimp only
    split_ifs with htested
    · rw [List.forall_mem_append, List.forall_mem_singleton, and_iff_right hsound]
      constructor
      · rintro hwrite ⟨-, -, -, hnull, hlen⟩
        exact hwrite hlen hnull
      · intro h hlen hnull
        exact h ⟨htested, hidx, hok, hnull, hlen⟩
    · exact iff_of_true hsound fun h ↦ htested h.1

theorem readString_spec (idx : UInt8) (e : StringEnv) (o : UsbObj) (tested : Ptr) :
    StringCall idx e o tested (readString idx e o tested) := by
  unfold readString
  by_cases hidx : 0 < idx
  · obtain ⟨⟨rc, ev⟩, hread⟩ : ∃ r, usbGetStringDesc e.transfer sizeofBuf = r := ⟨_, rfl⟩
    have hspec : UsbCall e.transfer.Ok (rc, ev) := by
      rw [← hread]
      exact usbReadDesc_spec e.transfer (by simp) sizeofBuf
    rw [if_pos hidx, hread]
    dsimp only
    by_cases hrc : rc = 0
    · rw [if_pos hrc]
      exact stringCall_copy hidx (hspec.rc.mp hrc) o tested hspec.aside
    · rw [if_neg hrc]
      have hok : ¬e.transfer.Ok := fun h ↦ hrc (hspec.rc.mpr h)
      exact ⟨iff_of_false (fun h ↦ h rfl) fun h ↦ hok h.2.1, leaves_unread o hspec.aside,
        iff_of_true hspec.aside.sound fun h ↦ hok h.2.2.1⟩
  · rw [if_neg hidx]
    exact ⟨iff_of_false (fun h ↦ h rfl) fun h ↦ hidx h.1, leaves_unread o aside_nil,
      iff_of_true aside_nil.sound fun h ↦ hidx h.2.1⟩

theorem StringCall.sound_own {idx : UInt8} {e : StringEnv} {o : UsbObj}
    {r : Ptr × List UsbEvent} (h : StringCall idx e o e.string r) : ∀ x ∈ r.2, x.Sound :=
  h.sound.mpr fun ⟨hne, _, _, hnull, _⟩ ↦ hne hnull

/-! ## The exits -/

/-- The memory that belongs to a device. -/
def UsbDev.owned (dev : UsbDev) : UsbObj → List Ptr
  | .token => []
  | .req => []
  | .dev => held dev.addr
  | .wait => held dev.wait
  | .manufacturer => held dev.sManufacturer
  | .product => held dev.sProduct
  | .serialNumber => held dev.sSerialNumber
  | .configurations => held dev.configurationDesc

theorem length_held (p : Ptr) : (held p).length ≤ 1 := by
  unfold held
  split_ifs
  · exact Nat.zero_le 1
  · exact le_refl 1

theorem UsbDev.length_owned (dev : UsbDev) (o : UsbObj) : (dev.owned o).length ≤ 1 := by
  cases o with
  | token => exact Nat.zero_le 1
  | req => exact Nat.zero_le 1
  | _ => exact length_held _

theorem freed_freeUnlessNull (o o' : UsbObj) (p : Ptr) :
    (freeUnlessNull o p).filterMap (freed o') = heldAs o p o' := by
  by_cases hp : p = NULL <;> by_cases ho : o = o' <;>
    simp [freeUnlessNull, heldAs, held, UsbEvent.freed, hp, ho]

theorem freed_outErr {dev : UsbDev} (haddr : dev.addr ≠ NULL) (o : UsbObj) :
    (outErr dev).filterMap (freed o) = dev.owned o := by
  have hfree : [UsbEvent.free .dev dev.addr] = freeUnlessNull .dev dev.addr :=
    (if_pos haddr).symm
  rw [outErr, hfree]
  simp only [List.filterMap_append, freed_freeUnlessNull]
  cases o <;> simp [heldAs, UsbDev.owned]

theorem outErr_frees (dev : UsbDev) : ∀ x ∈ outErr dev, ∃ o p, x = .free o p := by
  have hone : ∀ o p, ∀ x ∈ freeUnlessNull o p, ∃ o' p', x = UsbEvent.free o' p' := by
    intro o p x hx
    unfold freeUnlessNull at hx
    split_ifs at hx
    · exact ⟨o, p, List.mem_singleton.mp hx⟩
    · exact absurd hx List.not_mem_nil
  simp only [outErr, List.forall_mem_append, List.forall_mem_singleton]
  exact ⟨⟨⟨⟨⟨hone _ _, hone _ _⟩, hone _ _⟩, hone _ _⟩, hone _ _⟩, _, _, rfl⟩

theorem allocated_outErr (dev : UsbDev) (o : UsbObj) :
    (outErr dev).filterMap (allocated o) = [] := by
  refine List.filterMap_eq_nil_iff.mpr fun x hx ↦ ?_
  obtain ⟨o', p, rfl⟩ := outErr_frees dev x hx
  rfl

theorem attachLaw_outErr {dev : UsbDev} (haddr : dev.addr ≠ NULL) {ev : List UsbEvent}
    (hev : Leaves dev.owned ev) :
    AttachLaw (false, ev ++ outErr dev) ↔ ∀ x ∈ ev, x.Sound := by
  constructor
  · intro h
    exact (List.forall_mem_append.mp h.sound).1
  · intro hsound
    refine ⟨List.forall_mem_append.mpr ⟨hsound, fun x hx ↦ ?_⟩, fun _ o ho ↦ ?_, fun _ ↦
      List.forall_mem_append.mpr ⟨hev.unlinked, fun x hx ↦ ?_⟩⟩
    · obtain ⟨o, p, rfl⟩ := outErr_frees dev x hx
      exact trivial
    · dsimp only
      rw [List.filterMap_append, List.filterMap_append, hev.freed o ho, hev.allocated o ho,
        freed_outErr haddr, allocated_outErr, List.append_nil, List.nil_append]
      exact ⟨rfl, dev.length_owned o⟩
    · obtain ⟨o, p, rfl⟩ := outErr_frees dev x hx
      exact trivial

theorem attachLaw_link (p : Ptr) (ev : List UsbEvent) :
    AttachLaw (true, ev ++ [.link p]) ↔ ∀ x ∈ ev, x.Sound := by
  constructor
  · intro h
    exact (List.forall_mem_append.mp h.sound).1
  · intro hsound
    exact ⟨List.forall_mem_append.mpr ⟨hsound, List.forall_mem_singleton.mpr trivial⟩,
      fun h ↦ absurd h (by simp), fun h ↦ absurd h (by simp)⟩

/-! ## Attaching -/

theorem sound_append {l l' : List UsbEvent} :
    (∀ x ∈ l ++ l', x.Sound) ↔ (∀ x ∈ l, x.Sound) ∧ ∀ x ∈ l', x.Sound := List.forall_mem_append

theorem Aside.sound_append {l l' : List UsbEvent} (h : Aside l') :
    (∀ x ∈ l ++ l', x.Sound) ↔ ∀ x ∈ l, x.Sound := by
  rw [Ertos.sound_append, and_iff_left h.sound]

theorem sound_malloc (o : UsbObj) (p : Ptr) (l : List UsbEvent) :
    (∀ x ∈ l ++ [.malloc o p], x.Sound) ↔ ∀ x ∈ l, x.Sound := by
  rw [sound_append, and_iff_left (List.forall_mem_singleton.mpr trivial)]

/-- **Behind the device descriptor the law holds, but if the first string is kept and the third
refused.** -/
theorem attachLaw_attachDescriptors (e : AttachEnv) {addr wait : Ptr} (haddr : addr ≠ NULL)
    {ev : List UsbEvent} (hev : Leaves (UsbDev.mk addr wait NULL NULL NULL NULL).owned ev)
    (hsound : ∀ x ∈ ev, x.Sound) :
    AttachLaw (attachDescriptors e ⟨addr, wait, NULL, NULL, NULL, NULL⟩ ev) ↔
      ¬(e.manufacturer.Kept e.desc.iManufacturer ∧
        e.serialNumber.Refused e.desc.iSerialNumber) := by
  obtain ⟨⟨m, ev₁⟩, hm⟩ : ∃ r, readManufacturer e = r := ⟨_, rfl⟩
  obtain ⟨⟨p, ev₂⟩, hp⟩ : ∃ r, readProduct e = r := ⟨_, rfl⟩
  obtain ⟨⟨s, ev₃⟩, hs⟩ : ∃ r, readSerialNumber e m = r := ⟨_, rfl⟩
  have hms : StringCall e.desc.iManufacturer e.manufacturer .manufacturer e.manufacturer.string
      (m, ev₁) := by
    rw [← hm]
    exact readString_spec _ _ _ _
  have hps : StringCall e.desc.iProduct e.product .product e.product.string (p, ev₂) := by
    rw [← hp]
    exact readString_spec _ _ _ _
  have hss : StringCall e.desc.iSerialNumber e.serialNumber .serialNumber m (s, ev₃) := by
    rw [← hs]
    exact readString_spec _ _ _ _
  rw [attachDescriptors, hm]
  dsimp only
  rw [hp, hs]
  dsimp only
  -- the events up to the last string
  have hleaves : Leaves (UsbDev.mk addr wait NULL m p s).owned (ev ++ ev₁ ++ ev₂ ++ ev₃) := by
    refine (((hev.append hms.leaves).append hps.leaves).append hss.leaves).congr fun o ↦ ?_
    cases o <;> simp [UsbDev.owned, heldAs]
  have hlaw : (∀ x ∈ ev ++ ev₁ ++ ev₂ ++ ev₃, x.Sound) ↔
      ¬(e.manufacturer.Kept e.desc.iManufacturer ∧
        e.serialNumber.Refused e.desc.iSerialNumber) := by
    rw [sound_append, sound_append, sound_append, and_iff_right
      ⟨⟨hsound, hms.sound_own⟩, hps.sound_own⟩, hss.sound, hms.kept]
  rw [← hlaw]
  by_cases hnum : e.desc.bNumConfigurations = 0
  · rw [if_pos hnum]
    exact attachLaw_outErr haddr hleaves
  · rw [if_neg hnum]
    have hconf : Leaves (UsbDev.mk addr wait e.configurations m p s).owned
        (ev ++ ev₁ ++ ev₂ ++ ev₃ ++ [.malloc .configurations e.configurations]) := by
      refine (hleaves.append (leaves_malloc _ _)).congr fun o ↦ ?_
      cases o <;> simp [UsbDev.owned, heldAs]
    by_cases hnull : e.configurations = NULL
    · rw [if_pos hnull, attachLaw_outErr haddr hconf, sound_malloc]
    · rw [if_neg hnull]
      have hread := aside_readConfigurations e.configuration hnull
        e.desc.bNumConfigurations.toNat 0
      split_ifs
      · rw [attachLaw_outErr haddr (hconf.aside hread), hread.sound_append, sound_malloc]
      · rw [attachLaw_link, hread.sound_append, sound_malloc]

/-- All went well so far. -/
structure Attaching (dev : UsbDev) (ev : List UsbEvent) : Prop where
  leaves : Leaves dev.owned ev
  sound : ∀ x ∈ ev, x.Sound

theorem Attaching.aside {dev : UsbDev} {ev ev' : List UsbEvent} (h : Attaching dev ev)
    (h' : Aside ev') : Attaching dev (ev ++ ev') :=
  ⟨h.leaves.aside h', h'.sound_append.mpr h.sound⟩

theorem Attaching.outErr {dev : UsbDev} {ev : List UsbEvent} (h : Attaching dev ev)
    (haddr : dev.addr ≠ NULL) : AttachLaw (false, ev ++ outErr dev) :=
  (attachLaw_outErr haddr h.leaves).mpr h.sound

theorem attaching_wait {addr : Ptr} (haddr : addr ≠ NULL) (wait : Ptr) :
    Attaching ⟨addr, wait, NULL, NULL, NULL, NULL⟩
      [.malloc .dev addr, .write addr sizeofUsbDev, .malloc .wait wait] := by
  constructor
  · refine (((leaves_malloc .dev addr).append (leaves_write _ _)).append
      (leaves_malloc .wait wait)).congr fun o ↦ ?_
    cases o <;> simp [UsbDev.owned, heldAs]
  · simp [UsbEvent.Sound, haddr]

theorem attachLaw_no_dev : AttachLaw (false, [.malloc .dev NULL]) := by
  refine ⟨List.forall_mem_singleton.mpr trivial, fun _ o _ ↦ ?_, fun _ ↦
    List.forall_mem_singleton.mpr trivial⟩
  simp [UsbEvent.freed, UsbEvent.allocated]

/-- **A device is attached by the law exactly when the strings are not such that the first is kept
and the third refused.** -/
theorem usbAttach_lawful_iff (e : AttachEnv) :
    AttachLaw (usbAttachDevice e) ↔ ¬SerialUnchecked e := by
  unfold usbAttachDevice
  by_cases hdev : e.dev = NULL
  · rw [if_pos hdev]
    exact iff_of_true attachLaw_no_dev fun h ↦ h.1.dev hdev
  rw [if_neg hdev]
  dsimp only
  have hmalloc := attaching_wait hdev e.wait
  by_cases hwait : e.wait = NULL
  · rw [if_pos hwait]
    exact iff_of_true (hmalloc.outErr hdev) fun h ↦ h.1.wait hwait
  rw [if_neg hwait]
  have hfifo := hmalloc.aside (aside_write hwait sizeofWait)
  by_cases hregister : e.registerDefault ≠ 0
  · rw [if_pos hregister]
    exact iff_of_true (hfifo.outErr hdev) fun h ↦ hregister h.1.registerDefault
  rw [if_neg hregister]
  -- the address is set
  obtain ⟨⟨rc, ev⟩, haddr⟩ : ∃ r, Usb.usbSetAddress e.setAddress = r := ⟨_, rfl⟩
  have haddress : UsbCall e.setAddress.Sent (rc, ev) := haddr ▸ usbSetAddress_spec e.setAddress
  rw [haddr]
  dsimp only
  have hset := hfifo.aside haddress.aside
  by_cases hrc : rc ≠ 0
  · rw [if_pos hrc]
    exact iff_of_true (hset.outErr hdev) fun h ↦ hrc (haddress.rc.mpr h.1.setAddress)
  rw [if_neg hrc]
  by_cases hep : e.registerEp ≠ 0
  · rw [if_pos hep]
    exact iff_of_true (hset.outErr hdev) fun h ↦ hep h.1.registerEp
  rw [if_neg hep]
  -- the device descriptor is read
  obtain ⟨⟨rc', ev'⟩, hget⟩ :
    ∃ r, usbGetDesc e.device (e.dev + usbDevDesc) sizeofDeviceDesc = r := ⟨_, rfl⟩
  have hdesc : UsbCall e.device.Ok (rc', ev') := by
    rw [← hget]
    exact usbReadDesc_spec e.device (by simp [usbDevDesc, NULL]) _
  rw [hget]
  dsimp only
  have hread := hset.aside hdesc.aside
  by_cases hrc' : rc' ≠ 0
  · rw [if_pos hrc']
    exact iff_of_true (hread.outErr hdev) fun h ↦ hrc' (hdesc.rc.mpr h.1.device)
  · rw [if_neg hrc']
    have hdescribed : e.Described := ⟨hdev, hwait, not_not.mp hregister,
      haddress.rc.mp (not_not.mp hrc), not_not.mp hep, hdesc.rc.mp (not_not.mp hrc')⟩
    calc AttachLaw (attachDescriptors e ⟨e.dev, e.wait, NULL, NULL, NULL, NULL⟩ _)
        ↔ ¬(e.manufacturer.Kept e.desc.iManufacturer ∧
            e.serialNumber.Refused e.desc.iSerialNumber) :=
          attachLaw_attachDescriptors e hdev hread.leaves hread.sound
      _ ↔ ¬SerialUnchecked e := not_congr (and_iff_right hdescribed).symm

/-- A transfer for which there is memory. -/
def transferSent : TransferEnv := ⟨⟨0x1000, 0⟩, 0x1010, 0, ⟨0x1020, 0⟩, 0⟩

/-- Two strings of eight bytes; there is no memory for the second. -/
def attachEnvSerial : AttachEnv where
  dev := 0x2000
  wait := 0x2100
  registerDefault := 0
  setAddress := transferSent
  registerEp := 0
  device := transferSent
  desc := ⟨1, 0, 2, 1⟩
  manufacturer := ⟨transferSent, 8, 0x2200⟩
  product := ⟨transferSent, 8, NULL⟩
  serialNumber := ⟨transferSent, 8, NULL⟩
  configurations := 0x2300
  configuration := fun _ ↦ transferSent

/-- The serial number is copied to the null pointer. -/
theorem usbAttach_writes_null : ¬AttachLaw (usbAttachDevice attachEnvSerial) := by
  intro h
  have hmem : UsbEvent.write NULL 8 ∈ (usbAttachDevice attachEnvSerial).2 := by decide
  exact h.sound _ hmem (by decide) rfl

end Ertos
