import Ertos.Basis.Sections

/-!
# The memory map

With `ENABLE_MMU` the start-up code of `arch/startup.S` fills the translation table and switches the
memory management unit on, and `_mmu_remap` of `arch/mmu.c` changes a section of it afterwards. Both
give every descriptor to domain 15, for which the unit checks accesses.

The table is in the section of three megabytes, which the start-up code maps to itself. So
`_mmu_remap`, whose store already goes through the unit, finds the table as long as no call of it
takes that section away; and the last call for a section decides what its addresses mean.
-/

namespace Ertos

open Arm

/-! ## `arch/mmu.h` -/

/-- `TTB`. -/
def ttb : UInt32 := 0x00300000
def mmuSection : UInt32 := 0x02
def mmuSectionMask : UInt32 := 0xFFF00000
def ttBit : UInt32 := 0x10
/-- `DOMAIN`: domain 15. -/
def mmuDomain : UInt32 := 0x1e0
def mmuApSrwUna : UInt32 := 0x400
def mmuApSrwUrw : UInt32 := 0xc00

/-- What the start-up code writes to the domain register: domain 15 is a client, the others have no
access. -/
def domains : UInt32 := (1 : UInt32) <<< 30

/-! ## `_mmu_remap` -/

def mmuEntry (phys flags : UInt32) : UInt32 :=
  let flags := flags ||| ttBit
  let flags := flags ||| mmuDomain
  let flags := flags ||| mmuSection
  (phys &&& mmuSectionMask) ||| (flags &&& ~~~mmuSectionMask)

/-- `ttb[idx] = entry` is a store of the system, which the unit translates. -/
def mmuRemap (m : Ram) (virt phys flags : UInt32) : Except Abort Ram :=
  let idx := (virt &&& mmuSectionMask) >>> 20
  storeVia m ttb domains false (word ttb idx.toNat) (mmuEntry phys flags)

/-! ## `_cstartup` -/

/-- The low part of a descriptor, as the start-up code puts it together. -/
def sectionBits (ap : UInt32) : UInt32 := (mmuSection ||| ttBit) ||| (mmuDomain ||| ap)

/-- `str r2, [r1, r3, lsl #2]` for the megabytes of memory. -/
def mapRam (r1 : UInt32) (m : Ram) : Ram :=
  (List.range 32).foldl (fun m r3 ↦
    Function.update m (word r1 r3) (sectionBits mmuApSrwUrw ||| (UInt32.ofNat r3 <<< 20))) m

/-- `stmia r0!, {r2}` for the megabytes of flash memory. -/
def mapFlash (r0 : UInt32) (m : Ram) : Ram :=
  (List.range 16).foldl (fun m r3 ↦
    Function.update m (word r0 r3) (sectionBits mmuApSrwUrw ||| (UInt32.ofNat r3 <<< 20))) m

/-- The part under `ENABLE_MMU`. `TS_7200` is a setting of `config.h`; on that board `r1` is not set
back after the memory is mapped. -/
def cstartupMmu (ts7200 : Bool) (m : Ram) : Ram :=
  let r1 := ttb
  let m := storeMany m r1 (List.replicate 0x1000 0)
  let m := mapRam r1 m
  let r1 := if ts7200 then r1 + ((32 : UInt32) <<< 2) else r1
  let m := if ts7200 then mapFlash (0x600 * 4 + r1) m else m
  let m := Function.update m (r1 + 0x800 * 4) (sectionBits mmuApSrwUrw ||| 0x80000000)
  let m := Function.update m (r1 + 0x808 * 4)
    (sectionBits mmuApSrwUrw ||| 0x80000000 ||| 0x00800000)
  let m := Function.update m (r1 + 0xFFE * 4) (sectionBits mmuApSrwUna)
  Function.update m r1 (sectionBits mmuApSrwUna)

/-! ## The calls of `_mmu_remap` -/

structure Remap where
  virt : UInt32
  phys : UInt32
  flags : UInt32

def remapAll (rs : List Remap) (m : Ram) : Except Abort Ram :=
  rs.foldlM (fun m r ↦ mmuRemap m r.virt r.phys r.flags) m

/-- `ts72xx_init`: the registers of the watchdog. -/
def ts72xxInit : List Remap :=
  [⟨0x23C00000, 0x23C00000, mmuApSrwUna⟩, ⟨0x23800000, 0x23800000, mmuApSrwUna⟩]

/-- `nand_init`: the registers of the flash memory. -/
def nandInit : List Remap :=
  [⟨0x60400000, 0x60400000, mmuApSrwUrw⟩, ⟨0x60000000, 0x60000000, mmuApSrwUrw⟩,
    ⟨0x60800000, 0x60800000, mmuApSrwUrw⟩]

/-- `arch_init`. `CONFIG_NAND` is used on a TS-7250 only. -/
def archInit (nand : Bool) : List Remap :=
  ts72xxInit ++ (if nand then nandInit else []) ++ [⟨0x80930000, 0x80930000, mmuApSrwUrw⟩]

/-! ## `_user_page_fault` and `_system_page_fault` -/

def fsrFaults : List String :=
  ["Unknown", "Alignment", "Unknown", "Unknown", "Unknown", "Translation (section)", "Unknown",
    "Translation (page)", "External Abort (section)", "Domain (section)", "External Abort (page)",
    "Domain (page)", "Unknown", "Permission (section)", "Permission (page)"]

/-- The name that is printed, if the table has one. -/
def faultName (fsr : UInt32) : Option String := fsrFaults[(fsr &&& 0x0F).toNat]?

/-! ## Descriptors -/

theorem describes_sectionBits (u : Bool) :
    Describes domains (sectionBits (if u then mmuApSrwUrw else mmuApSrwUna)) (some ⟨0, u⟩) := by
  cases u <;> exact ⟨by decide, by decide, by decide, by decide⟩

theorem describes_sectionBits_or (u : Bool) (p : UInt32) :
    Describes domains
      ((p &&& mmuSectionMask) ||| sectionBits (if u then mmuApSrwUrw else mmuApSrwUna))
      (some ⟨sectionOf p, u⟩) := by
  have hbits : (sectionBits (if u then mmuApSrwUrw else mmuApSrwUna)).toNat < 2 ^ 20 := by
    cases u <;> decide
  have hnat := toNat_sectionMask_or p hbits
  have hlow : ((p &&& mmuSectionMask) |||
      sectionBits (if u then mmuApSrwUrw else mmuApSrwUna)).toNat % 2 ^ 20 =
        (sectionBits (if u then mmuApSrwUrw else mmuApSrwUna)).toNat % 2 ^ 20 := by
    rw [mmuSectionMask, hnat]
    omega
  have hsection : sectionOf ((p &&& mmuSectionMask) |||
      sectionBits (if u then mmuApSrwUrw else mmuApSrwUna)) = sectionOf p := by
    rw [sectionOf, sectionOf, Fin.mk.injEq, mmuSectionMask, hnat]
    omega
  exact hsection ▸ (describes_sectionBits u).of_low hlow

/-- `flags` is one of the two permissions. -/
def Remap.Valid (r : Remap) : Prop := r.flags = mmuApSrwUna ∨ r.flags = mmuApSrwUrw

instance (r : Remap) : Decidable r.Valid := inferInstanceAs (Decidable (_ ∨ _))

def Remap.target (r : Remap) : Section := ⟨sectionOf r.phys, decide (r.flags = mmuApSrwUrw)⟩

theorem describes_mmuEntry {r : Remap} (hr : r.Valid) :
    Describes domains (mmuEntry r.phys r.flags) (some r.target) := by
  obtain hr | hr := hr
  · rw [Remap.target, hr]
    exact describes_sectionBits_or false r.phys
  · rw [Remap.target, hr]
    exact describes_sectionBits_or true r.phys

theorem idx_eq (virt : UInt32) : ((virt &&& mmuSectionMask) >>> 20).toNat = sectionOf virt := by
  have hmask := toNat_and_sectionMask virt
  rw [toNat_shiftRight_twenty]
  simp only [sectionOf, mmuSectionMask]
  omega

/-! ## Runs of `_mmu_remap` -/

/-- What the calls make of a map. -/
def remapped (f : SectionMap) (rs : List Remap) : SectionMap :=
  rs.foldl (fun f r ↦ Function.update f (sectionOf r.virt) (some r.target)) f

/-- The calls leave the section of the table where it is. -/
def KeepTtb (rs : List Remap) : Prop :=
  ∀ r ∈ rs, sectionOf r.virt = sectionOf ttb → sectionOf r.phys = sectionOf ttb

instance (rs : List Remap) : Decidable (KeepTtb rs) := inferInstanceAs (Decidable (∀ r ∈ rs, _))

section Run

variable {m : Ram} {f : SectionMap}

theorem mmuRemap_shows (h : Shows m ttb domains f) (hself : SelfMapped ttb f) {r : Remap}
    (hr : r.Valid) : ∃ m', mmuRemap m r.virt r.phys r.flags = .ok m' ∧
      Shows m' ttb domains (Function.update f (sectionOf r.virt) (some r.target)) := by
  obtain ⟨m', hm', hshows⟩ := h.remap hself (s := sectionOf r.virt) rfl (describes_mmuEntry hr)
  exact ⟨m', by rw [mmuRemap, idx_eq, hm'], hshows⟩

theorem selfMapped_update (hself : SelfMapped ttb f) {r : Remap}
    (hr : sectionOf r.virt = sectionOf ttb → sectionOf r.phys = sectionOf ttb) :
    SelfMapped ttb (Function.update f (sectionOf r.virt) (some r.target)) := by
  by_cases hsec : sectionOf ttb = sectionOf r.virt
  · exact ⟨r.target, by rw [hsec, Function.update_self], hr hsec.symm⟩
  · obtain ⟨s, hs, hframe⟩ := hself
    exact ⟨s, by rw [Function.update_of_ne hsec, hs], hframe⟩

/-- A run of calls succeeds, and the table means the map they make. -/
theorem remapAll_shows {rs : List Remap} (h : Shows m ttb domains f) (hself : SelfMapped ttb f)
    (hvalid : ∀ r ∈ rs, r.Valid) (hkeep : KeepTtb rs) :
    ∃ m', remapAll rs m = .ok m' ∧ Shows m' ttb domains (remapped f rs) ∧
      SelfMapped ttb (remapped f rs) := by
  induction rs generalizing m f with
  | nil => exact ⟨m, rfl, h, hself⟩
  | cons r rs ih =>
    obtain ⟨m₁, hm₁, hshows⟩ := mmuRemap_shows h hself (hvalid r List.mem_cons_self)
    have hself₁ := selfMapped_update hself (hkeep r List.mem_cons_self)
    obtain ⟨m', hm', hrest⟩ := ih hshows hself₁ (fun q hq ↦ hvalid q (List.mem_cons_of_mem r hq))
      fun q hq ↦ hkeep q (List.mem_cons_of_mem r hq)
    refine ⟨m', ?_, hrest⟩
    rw [remapAll, List.foldlM_cons, hm₁]
    exact hm'

/-- The last call for a section decides. -/
theorem remapped_apply (f : SectionMap) (rs : List Remap) (s : Fin 4096) :
    remapped f rs s = match rs.reverse.find? fun r ↦ sectionOf r.virt = s with
      | some r => some r.target
      | none => f s := by
  induction rs using List.reverseRecOn with
  | nil => rfl
  | append_singleton rs r ih =>
    rw [remapped, List.foldl_concat, List.reverse_concat, List.find?_cons]
    by_cases hs : sectionOf r.virt = s
    · rw [hs, Function.update_self, decide_eq_true rfl]
    · rw [Function.update_of_ne (Ne.symm hs), decide_eq_false hs]
      exact ih

end Run

/-! ## The map of the start-up code -/

/-- On a TS-7250: memory but its first section, the registers, and the exception vectors. -/
def bootMap7250 : SectionMap := fun s ↦
  if (s : ℕ) = 0 ∨ (s : ℕ) = 0xFFE then some ⟨0, false⟩
  else if (s : ℕ) < 32 ∨ (s : ℕ) = 0x800 ∨ (s : ℕ) = 0x808 then some ⟨s, true⟩
  else none

/-- On a TS-7200: all of memory, and the rest 32 sections behind its place. -/
def bootMap7200 : SectionMap := fun s ↦
  if (s : ℕ) = 32 then some ⟨0, false⟩
  else if (s : ℕ) < 32 then some ⟨s, true⟩
  else if 0x620 ≤ (s : ℕ) ∧ (s : ℕ) < 0x630 then some ⟨Fin.ofNat 4096 (s - 0x620), true⟩
  else if (s : ℕ) = 0x820 ∨ (s : ℕ) = 0x828 then some ⟨Fin.ofNat 4096 (s - 32), true⟩
  else none

def bootMap (ts7200 : Bool) : SectionMap := if ts7200 then bootMap7200 else bootMap7250

theorem toNat_shiftLeft_twenty {i : ℕ} (hi : i < 4096) :
    (UInt32.ofNat i <<< 20).toNat = i * 2 ^ 20 := by
  have hshift : (UInt32.ofNat i <<< 20).toNat = (UInt32.ofNat i).toNat * 2 ^ 20 % 2 ^ 32 := by
    rw [UInt32.toNat_shiftLeft]
    exact congrArg (· % 2 ^ 32) (Nat.shiftLeft_eq _ 20)
  rw [hshift, UInt32.toNat_ofNat']
  omega

theorem describes_loop {i : ℕ} (hi : i < 4096) :
    Describes domains (sectionBits mmuApSrwUrw ||| (UInt32.ofNat i <<< 20))
      (some ⟨Fin.ofNat 4096 i, true⟩) := by
  have hnat := toNat_shiftLeft_twenty hi
  have hmask : (UInt32.ofNat i <<< 20) &&& mmuSectionMask = UInt32.ofNat i <<< 20 := by
    rw [← UInt32.toNat_inj, mmuSectionMask, toNat_and_sectionMask, hnat]
    omega
  have hsection : sectionOf (UInt32.ofNat i <<< 20) = Fin.ofNat 4096 i := by
    apply Fin.ext
    simp only [sectionOf, Fin.ofNat]
    omega
  have h := describes_sectionBits_or true (UInt32.ofNat i <<< 20)
  rwa [hmask, hsection, UInt32.or_comm] at h

theorem mapRam_shows (m : Ram) :
    Shows (mapRam ttb (storeMany m ttb (List.replicate 0x1000 0))) ttb domains
      (SectionMap.fill (fun _ ↦ none) 0 32 fun i ↦ ⟨Fin.ofNat 4096 i, true⟩) := by
  have h := (shows_zero m ttb domains).fill (s := 0) (n := 32) (by omega)
    fun i hi ↦ describes_loop (i := i) (by omega)
  simp only [Nat.zero_add] at h
  exact h

theorem some_section_eq {s t : Fin 4096} {u : Bool} (h : (s : ℕ) = t) :
    some (⟨s, u⟩ : Section) = some ⟨t, u⟩ := by rw [Fin.ext h]

theorem cstartupMmu_shows (ts7200 : Bool) (m : Ram) :
    Shows (cstartupMmu ts7200 m) ttb domains (bootMap ts7200) := by
  have hram := mapRam_shows m
  have hio : Describes domains (sectionBits mmuApSrwUrw ||| 0x80000000) (some ⟨0x800, true⟩) :=
    describes_loop (i := 0x800) (by omega)
  have hio' : Describes domains (sectionBits mmuApSrwUrw ||| 0x80000000 ||| 0x00800000)
      (some ⟨0x808, true⟩) :=
    describes_loop (i := 0x808) (by omega)
  have hnull := describes_sectionBits false
  cases ts7200 with
  | false =>
    have h := (((hram.update (s := 0x800) hio).update (s := 0x808) hio').update (s := 0xFFE)
      hnull).update (s := 0) hnull
    have hboot : Shows (cstartupMmu false m) ttb domains _ := h
    refine hboot.congr fun s ↦ ?_
    rw [bootMap, if_neg Bool.false_ne_true]
    simp only [bootMap7250, SectionMap.fill, Function.update_apply, Fin.ext_iff]
    split_ifs
    all_goals first
      | omega
      | exact some_section_eq (by simp [Fin.ofNat]; omega)
      | rfl
  | true =>
    have hflash := hram.fill (s := 0x620) (n := 16) (by omega)
      fun i hi ↦ describes_loop (i := i) (by omega)
    simp only [← word_word] at hflash
    have h := (((hflash.update (s := 0x820) hio).update (s := 0x828) hio').update_behind
      (i := 0x101E) (by omega) (by omega) (sectionBits mmuApSrwUna)).update (s := 32) hnull
    have hboot : Shows (cstartupMmu true m) ttb domains _ := h
    refine hboot.congr fun s ↦ ?_
    rw [bootMap, if_pos rfl]
    simp only [bootMap7200, SectionMap.fill, Function.update_apply, Fin.ext_iff]
    split_ifs
    all_goals first
      | omega
      | exact some_section_eq (by simp [Fin.ofNat]; omega)
      | rfl

theorem sectionOf_ttb : sectionOf ttb = 3 := by decide

theorem selfMapped_boot (ts7200 : Bool) : SelfMapped ttb (bootMap ts7200) := by
  rw [SelfMapped, sectionOf_ttb]
  cases ts7200 <;> exact ⟨⟨3, true⟩, rfl, rfl⟩

/-! ## Translation after any calls -/

section Translation

variable {ts7200 : Bool} {rs : List Remap}

theorem boot_remaps_shows (ts7200 : Bool) (m : Ram) (hvalid : ∀ r ∈ rs, r.Valid)
    (hkeep : KeepTtb rs) :
    ∃ m', remapAll rs (cstartupMmu ts7200 m) = .ok m' ∧
      Shows m' ttb domains (remapped (bootMap ts7200) rs) := by
  obtain ⟨m', hm', hshows, -⟩ :=
    remapAll_shows (cstartupMmu_shows ts7200 m) (selfMapped_boot ts7200) hvalid hkeep
  exact ⟨m', hm', hshows⟩

/-- **The memory map.** After the start-up code every call of `_mmu_remap` finds the table, as long
as none takes away its section. An address then means what the last call for its section says, the
offset in the section kept, and user programs are let in with `MMU_AP_SRW_URW` only; an address
without a call means what the start-up code has mapped. -/
theorem translate_boot_remaps (m : Ram) (hvalid : ∀ r ∈ rs, r.Valid) (hkeep : KeepTtb rs) :
    ∃ m', remapAll rs (cstartupMmu ts7200 m) = .ok m' ∧ ∀ x a,
      translate m' ttb domains x a =
        match rs.reverse.find? fun r ↦ sectionOf r.virt = sectionOf a with
        | some r =>
          if x.user ∧ r.flags = mmuApSrwUna then .error .permission
          else .ok (sectionAddr (sectionOf r.phys) (a.toNat % 2 ^ 20))
        | none => (bootMap ts7200).resolve x a := by
  obtain ⟨m', hm', hshows⟩ := boot_remaps_shows ts7200 m hvalid hkeep
  refine ⟨m', hm', fun x a ↦ ?_⟩
  rw [translate_eq hshows, SectionMap.resolve, remapped_apply]
  cases hfind : rs.reverse.find? fun r ↦ sectionOf r.virt = sectionOf a with
  | none => rfl
  | some r =>
    have hr : r ∈ rs := List.mem_reverse.mp (List.mem_of_find?_eq_some hfind)
    obtain hr | hr := hvalid r hr
    · cases hx : x.user <;> simp [Remap.target, hr, mmuApSrwUna, mmuApSrwUrw]
    · cases hx : x.user <;> simp [Remap.target, hr, mmuApSrwUna, mmuApSrwUrw]

theorem archInit_valid (nand : Bool) : ∀ r ∈ archInit nand, r.Valid := by
  cases nand <;> decide +kernel

theorem archInit_keepTtb (nand : Bool) : KeepTtb (archInit nand) := by
  cases nand <;> decide +kernel

/-- The watchdog is for the system, the flash memory for everybody. -/
theorem translate_boot_remaps_archInit :
    ∃ m', remapAll (archInit true) (cstartupMmu false fun _ ↦ 0) = .ok m' ∧
      translate m' ttb domains ⟨true, true⟩ 0x23C00004 = .error .permission ∧
      translate m' ttb domains ⟨false, true⟩ 0x23C00004 = .ok 0x23C00004 ∧
      translate m' ttb domains ⟨true, false⟩ 0x60800001 = .ok 0x60800001 := by
  obtain ⟨m', hm', h⟩ :=
    translate_boot_remaps (fun _ ↦ 0) (archInit_valid true) (archInit_keepTtb true)
  exact ⟨m', hm', h _ _, h _ _, h _ _⟩

end Translation

/-! ## What user programs reach -/

/-- The sections that a TS-7250 opens to user programs. -/
def userSections (nand : Bool) (s : ℕ) : Prop :=
  (1 ≤ s ∧ s < 32) ∨ s = 0x800 ∨ s = 0x808 ∨ s = 0x809 ∨
    (nand = true ∧ (s = 0x600 ∨ s = 0x604 ∨ s = 0x608))

instance (nand : Bool) (s : ℕ) : Decidable (userSections nand s) :=
  inferInstanceAs (Decidable (_ ∨ _ ∨ _ ∨ _ ∨ _))

/-- The map after `arch_init` on a TS-7250. -/
def archInitMap (nand : Bool) : SectionMap := fun s ↦
  if (s : ℕ) = 0x809 ∨ (nand = true ∧ ((s : ℕ) = 0x600 ∨ (s : ℕ) = 0x604 ∨ (s : ℕ) = 0x608)) then
    some ⟨s, true⟩
  else if (s : ℕ) = 0x238 ∨ (s : ℕ) = 0x23C then some ⟨s, false⟩
  else bootMap7250 s

theorem remapped_archInit (nand : Bool) (s : Fin 4096) :
    remapped (bootMap false) (archInit nand) s = archInitMap nand s := by
  have htargets : (archInit nand).map (fun r ↦ (sectionOf r.virt, r.target)) =
      [(0x23C, ⟨0x23C, false⟩), (0x238, ⟨0x238, false⟩)] ++
        (if nand then [(0x604, ⟨0x604, true⟩), (0x600, ⟨0x600, true⟩), (0x608, ⟨0x608, true⟩)]
          else []) ++ [(0x809, ⟨0x809, true⟩)] := by
    cases nand <;> decide +kernel
  have hfold : remapped (bootMap false) (archInit nand) =
      ((archInit nand).map fun r ↦ (sectionOf r.virt, r.target)).foldl
        (fun (f : SectionMap) q ↦ Function.update f q.1 (some q.2)) bootMap7250 := by
    rw [List.foldl_map]
    rfl
  rw [hfold, htargets]
  cases nand
  all_goals
    simp only [List.cons_append, List.nil_append, List.foldl_cons, List.foldl_nil, if_true,
      if_false, Bool.false_eq_true, Function.update_apply, Fin.ext_iff, archInitMap, false_and,
      true_and, or_false]
    split_ifs
  all_goals first
    | omega
    | exact some_section_eq (Eq.symm (by assumption))
    | rfl

theorem archInitMap_of_user {nand : Bool} {s : Fin 4096} (hs : userSections nand s) :
    archInitMap nand s = some ⟨s, true⟩ := by
  rw [userSections] at hs
  rw [archInitMap, bootMap7250]
  cases nand
  all_goals
    simp only [Bool.false_eq_true, false_and, true_and, or_false] at hs ⊢
    split_ifs
  all_goals first
    | rfl
    | omega

theorem archInitMap_of_not_user {nand : Bool} {s : Fin 4096} {t : Section}
    (hs : ¬ userSections nand s) (ht : archInitMap nand s = some t) : t.user = false := by
  rw [userSections] at hs
  rw [archInitMap, bootMap7250] at ht
  cases nand
  all_goals
    simp only [Bool.false_eq_true, false_and, true_and, or_false] at hs ht
    split_ifs at ht
  all_goals first
    | omega
    | exact (Option.some.inj ht) ▸ rfl

/-- **What user programs reach.** After `arch_init` a user program of a TS-7250 reaches the memory
behind its first megabyte, the table in it too, and the registers of the processor; of the board's
registers it reaches those of the flash memory, if that is configured. Every address it reaches is
its own physical address, and it may write wherever it may read. -/
theorem archInit_user_reach (nand : Bool) (m : Ram) :
    ∃ m', remapAll (archInit nand) (cstartupMmu false m) = .ok m' ∧ ∀ w a p,
      translate m' ttb domains ⟨true, w⟩ a = .ok p ↔
        p = a ∧ userSections nand (a.toNat / 2 ^ 20) := by
  obtain ⟨m', hm', hshows⟩ :=
    boot_remaps_shows false m (archInit_valid nand) (archInit_keepTtb nand)
  refine ⟨m', hm', fun w a p ↦ ?_⟩
  rw [translate_eq hshows, SectionMap.resolve_eq_ok_iff, remapped_archInit]
  constructor
  · rintro ⟨t, ht, huser, rfl⟩
    have hs : userSections nand (sectionOf a) := by
      by_contra hs
      exact Bool.false_ne_true ((archInitMap_of_not_user hs ht).symm.trans (huser rfl))
    obtain rfl := Option.some.inj ((archInitMap_of_user hs).symm.trans ht)
    exact ⟨sectionAddr_self a, hs⟩
  · rintro ⟨rfl, hs⟩
    exact ⟨_, archInitMap_of_user hs, fun _ ↦ rfl, (sectionAddr_self p).symm⟩

/-- **The registers of a TS-7200 are lost.** There the start-up code maps the registers and the
vectors 32 sections behind their place. Whatever is remapped afterwards, an access to a register
that the kernel uses, or to the vectors, aborts, unless its own section is remapped. -/
theorem ts7200_registers_unmapped (m : Ram) {rs : List Remap} (hvalid : ∀ r ∈ rs, r.Valid)
    (hkeep : KeepTtb rs) {a : UInt32}
    (ha : sectionOf a = 0x800 ∨ sectionOf a = 0x808 ∨ sectionOf a = 0xFFE)
    (hrs : ∀ r ∈ rs, sectionOf r.virt ≠ sectionOf a) :
    ∃ m', remapAll rs (cstartupMmu true m) = .ok m' ∧
      ∀ x, translate m' ttb domains x a = .error .translation := by
  obtain ⟨m', hm', hshows⟩ := boot_remaps_shows true m hvalid hkeep
  refine ⟨m', hm', fun x ↦ ?_⟩
  have hnone : rs.reverse.find? (fun r ↦ sectionOf r.virt = sectionOf a) = none := by
    rw [List.find?_eq_none]
    intro r hr
    rw [decide_eq_true_iff]
    exact hrs r (List.mem_reverse.mp hr)
  have hboot : bootMap true (sectionOf a) = none := by
    obtain ha | ha | ha := ha <;> rw [ha] <;> rfl
  rw [translate_eq hshows, SectionMap.resolve, remapped_apply, hnone, hboot]

/-- The first store of `init_interrupts`, to `VIC1IntSelect`. -/
theorem ts7200_registers_unmapped_vic :
    ∃ m', remapAll (archInit false) (cstartupMmu true fun _ ↦ 0) = .ok m' ∧
      ∀ x, translate m' ttb domains x 0x800B000C = .error .translation :=
  ts7200_registers_unmapped _ (archInit_valid false) (archInit_keepTtb false) (.inl (by decide))
    (by decide +kernel)

/-- The codes of an abort in the status register. Behind a descriptor of a second table the unit
reports the codes of pages. -/
def fsrCodes : Abort → List UInt32
  | .translation => [0x05]
  | .domain => [0x09]
  | .permission => [0x0D]
  | .secondLevel => [0x07, 0x0B, 0x0F]

theorem faultName_eq_none_iff (fsr : UInt32) : faultName fsr = none ↔ fsr &&& 0x0F = 0x0F := by
  have hlt : (fsr &&& 0x0F).toNat < 16 := by
    rw [UInt32.toNat_and]
    exact Nat.and_lt_two_pow _ (show (15 : ℕ) < 2 ^ 4 by decide)
  rw [faultName, List.getElem?_eq_none_iff, ← UInt32.toNat_inj]
  show 15 ≤ _ ↔ _ = 15
  omega

theorem faultName_of_fsrCodes {e : Abort} (he : e = .translation ∨ e = .permission) {fsr : UInt32}
    (hfsr : fsr &&& 0x0F ∈ fsrCodes e) :
    faultName fsr =
      some (if e = .translation then "Translation (section)" else "Permission (section)") := by
  obtain rfl | rfl := he
  · rw [faultName, List.mem_singleton.mp hfsr]
    rfl
  · rw [faultName, List.mem_singleton.mp hfsr]
    rfl

/-- **Faults have their names.** The names are one short: the code of a permission fault of a page
is the only one that reads behind them. No access raises it: after the start-up code and any calls
of `_mmu_remap`, the unit refuses an access for its section only, and what is printed then is why it
did. -/
theorem faults_named (ts7200 : Bool) (m : Ram) {rs : List Remap} (hvalid : ∀ r ∈ rs, r.Valid)
    (hkeep : KeepTtb rs) :
    (∀ fsr, faultName fsr = none ↔ fsr &&& 0x0F = 0x0F) ∧
      ∃ m', remapAll rs (cstartupMmu ts7200 m) = .ok m' ∧ ∀ x a e,
        translate m' ttb domains x a = .error e →
          (e = .translation ∨ e = .permission) ∧ ∀ fsr, fsr &&& 0x0F ∈ fsrCodes e →
            fsr &&& 0x0F ≠ 0x0F ∧ faultName fsr =
              some (if e = .translation then "Translation (section)"
                else "Permission (section)") := by
  obtain ⟨m', hm', hshows⟩ := boot_remaps_shows ts7200 m hvalid hkeep
  refine ⟨faultName_eq_none_iff, m', hm', fun x a e he ↦ ?_⟩
  rw [translate_eq hshows] at he
  have hsection := SectionMap.resolve_error he
  refine ⟨hsection, fun fsr hfsr ↦ ?_⟩
  have hname := faultName_of_fsrCodes hsection hfsr
  refine ⟨fun hpage ↦ ?_, hname⟩
  rw [(faultName_eq_none_iff fsr).mpr hpage] at hname
  exact nomatch hname

/-- A user program at a null pointer. -/
theorem faults_named_null :
    ∃ m', remapAll (archInit true) (cstartupMmu false fun _ ↦ 0) = .ok m' ∧
      translate m' ttb domains ⟨true, false⟩ 0 = .error .permission ∧
      faultName 0xFD = some "Permission (section)" := by
  obtain ⟨-, m', hm', h⟩ :=
    faults_named false (fun _ ↦ 0) (archInit_valid true) (archInit_keepTtb true)
  obtain ⟨m'', hm'', hshows⟩ :=
    boot_remaps_shows false (fun _ ↦ 0) (archInit_valid true) (archInit_keepTtb true)
  obtain rfl := Except.ok.inj (hm'.symm.trans hm'')
  have hnull : translate m' ttb domains ⟨true, false⟩ 0 = .error .permission := by
    rw [translate_eq hshows, SectionMap.resolve, remapped_archInit]
    rfl
  exact ⟨m', hm', hnull, ((h _ _ _ hnull).2 0xFD (List.mem_singleton.mpr rfl)).2⟩

end Ertos
