import Ertos.Basis.Erasable
import Ertos.Dev.NandErase

/-!
# The NAND flash as a store

The driver over whole runs: blocks are erased, sectors are written, pages and parts of them are
read, in any order. A sector that is written must be blank. Then the flash is a store of sectors:
each has what was written since its block was erased.
-/

namespace Ertos

open Erasable NandChip NandPort Transition

/-! ## Runs -/

inductive NandOp
  | erase (block : UInt32)
  | writeSector (page : UInt32) (sect : ℕ) (buf : Bytes)
  | readPage (page : UInt32) (buf : Bytes)
  | read (page : UInt32) (col : ℕ) (buf : Bytes) (len : ℕ)

/-- The calls with arguments that the chip has a place for. -/
inductive NandStep {chip : NandChip} (pages : ℕ) (p : NandPort chip) :
    NandOp → NandPort chip → Prop
  | erase {block : UInt32} (hblock : block.toNat * 64 < pages) :
      NandStep pages p (.erase block) (p.nandErase block).2
  | writeSector {page : UInt32} {sect : ℕ} {buf : Bytes} (hpage : page.toNat < pages)
      (hsect : sect < 4) : NandStep pages p (.writeSector page sect buf)
        (p.nandWriteSector page sect buf).2
  | readPage {page : UInt32} {buf : Bytes} (hpage : page.toNat < pages) :
      NandStep pages p (.readPage page buf) (p.nandReadPage page buf).2
  | read {page : UInt32} {col : ℕ} {buf : Bytes} {len : ℕ} (hpage : page.toNat < pages)
      (hlen : col + len ≤ nandRawPageSize) :
      NandStep pages p (.read page col buf len) (p.nandRead page col buf len).2

/-- A sector of a page. -/
abbrev SectorKey := UInt32 × ℕ

def SectorKey.block (k : SectorKey) : ℕ := nandBlock k.1

/-- What a call does to the store. -/
def NandOp.store : NandOp → StoreOp SectorKey ℕ Bytes
  | erase block => .erase block.toNat
  | writeSector page sect buf => .put (page, sect) buf
  | readPage _ _ | read _ _ _ _ => .keep

/-! ## What the flash holds -/

/-- A sector holds what was written to it, or is blank. -/
def SectorIs (cells : Bytes) (sect : ℕ) : Option Bytes → Prop
  | some buf => SectorHolds cells sect buf
  | none => SectorBlank cells sect

/-- What is read of a sector. -/
def sectorBytes (o : Option Bytes) : Bytes := o.getD fun _ ↦ 0xFF

/-- The flash holds the contents of the store. -/
structure NandHolds {chip : NandChip} (pages : ℕ) (p : NandPort chip)
    (m : Contents SectorKey Bytes) : Prop where
  idle : p.Idle
  sector : ∀ page : UInt32, page.toNat < pages → ∀ sect < 4,
    SectorIs (chip.cell p.state page) sect (m (page, sect))

theorem SectorIs.congr {cells cells' : Bytes} {sect : ℕ} {o : Option Bytes}
    (h : SectorIs cells sect o) (hcells : ∀ c, InSector sect c → cells' c = cells c) :
    SectorIs cells' sect o := by
  cases o with
  | some buf => exact SectorHolds.congr h hcells
  | none => exact fun c hc ↦ (hcells c hc).trans (h c hc)

theorem SectorIs.holds {cells : Bytes} {sect : ℕ} {o : Option Bytes} (h : SectorIs cells sect o) :
    SectorHolds cells sect (sectorBytes o) := by
  cases o with
  | some buf => exact h
  | none => exact SectorBlank.holds h

theorem InSector.lt {sect c : ℕ} (h : InSector sect c) (hsect : sect < 4) :
    c < nandRawPageSize := by
  unfold InSector nandPageSize at h
  unfold nandRawPageSize
  omega

section Step

variable {chip : NandChip} {pages : ℕ} {p q : NandPort chip} {m : Contents SectorKey Bytes}

theorem NandHolds.erase (hchip : chip.DataSheet pages) (h : NandHolds pages p m) {block : UInt32}
    (hblock : block.toNat * 64 < pages) :
    NandHolds pages (p.nandErase block).2 (m.apply SectorKey.block (.erase block.toNat)) := by
  have hmul : (block * nandPagesPerBlock).toNat = block.toNat * 64 := by
    have h64 : nandPagesPerBlock.toNat = 64 := rfl
    have hle := hchip.pages_le
    rw [UInt32.toNat_mul, h64]
    exact Nat.mod_eq_of_lt (by omega)
  have hpage : (block * nandPagesPerBlock).toNat < pages := hmul ▸ hblock
  have hready := hchip.ready_erase h.idle.ready hpage
  rw [h.idle.nandErase_eq]
  refine ⟨⟨(ctrl_select h.idle.ctrl_eq).2, hchip.ready_status hready⟩, fun page hlt sect hsect ↦ ?_⟩
  have hcell : ∀ c, InSector sect c →
      chip.cell (chip.status (chip.run p.state (eraseCycles (block * nandPagesPerBlock)))) page c =
        if nandBlock page = block.toNat then 0xFF else chip.cell p.state page c := by
    intro c hc
    rw [hchip.cell_status hready, hchip.cell_erase h.idle.ready hpage hlt (hc.lt hsect)]
    have hdiv : nandBlock (block * nandPagesPerBlock) = block.toNat := by
      rw [nandBlock, hmul, Nat.mul_div_cancel _ (by decide)]
    rw [hdiv]
  by_cases hb : nandBlock page = block.toNat
  · have hnone : m.apply SectorKey.block (.erase block.toNat) (page, sect) = none := if_pos hb
    rw [hnone]
    exact fun c hc ↦ (hcell c hc).trans (if_pos hb)
  · have hkeep : m.apply SectorKey.block (.erase block.toNat) (page, sect) = m (page, sect) :=
      if_neg hb
    rw [hkeep]
    exact (h.sector page hlt sect hsect).congr fun c hc ↦ (hcell c hc).trans (if_neg hb)

theorem NandHolds.writeSector (hchip : chip.DataSheet pages) (h : NandHolds pages p m)
    {page : UInt32} {sect : ℕ} (hpage : page.toNat < pages) (hsect : sect < 4)
    (hblank : m (page, sect) = none) (buf : Bytes) :
    NandHolds pages (p.nandWriteSector page sect buf).2
      (m.apply SectorKey.block (.put (page, sect) buf)) := by
  have hsector := h.sector page hpage sect hsect
  rw [hblank] at hsector
  obtain ⟨hidle, hholds, hrest⟩ :=
    h.idle.nandWriteSector_spec hchip.toDocumented hsect hsector buf
  refine ⟨hidle, fun page' hpage' sect' hsect' ↦ ?_⟩
  by_cases hk : (page', sect') = (page, sect)
  · obtain ⟨rfl, rfl⟩ := Prod.mk.inj hk
    have hput : m.apply SectorKey.block (.put (page', sect') buf) (page', sect') = some buf :=
      Function.update_self _ _ _
    rw [hput]
    exact hholds
  · have hput : m.apply SectorKey.block (.put (page, sect) buf) (page', sect') = m (page', sect') :=
      Function.update_of_ne hk _ _
    rw [hput]
    refine (h.sector page' hpage' sect' hsect').congr fun c hc ↦ ?_
    by_cases hp : page' = page
    · subst hp
      exact hrest c (hc.disjoint hsect' hsect fun heq ↦ hk (heq ▸ rfl))
    · rw [h.idle.nandWriteSector_eq]
      have hready : chip.Ready (chip.run p.state (sectorCycles page sect buf)) :=
        hchip.ready_program h.idle.ready (data_fits hsect buf) (codes_fit hsect buf)
      exact (hchip.cell_status hready).trans (hchip.cell_program_of_ne h.idle.ready hpage hpage' hp
        (data_fits hsect buf) (codes_fit hsect buf))

theorem NandHolds.of_cells (h : NandHolds pages p m) (hidle : q.Idle)
    (hcell : ∀ page c, chip.cell q.state page c = chip.cell p.state page c) :
    NandHolds pages q m :=
  ⟨hidle, fun page hpage sect hsect ↦
    (h.sector page hpage sect hsect).congr fun c _ ↦ hcell page c⟩

theorem NandHolds.step (hchip : chip.DataSheet pages) {o : NandOp} (h : NandHolds pages p m)
    (hfits : m.Fits o.store) (hst : NandStep pages p o q) :
    NandHolds pages q (m.apply SectorKey.block o.store) := by
  cases hst with
  | erase hblock => exact h.erase hchip hblock
  | writeSector hpage hsect => exact h.writeSector hchip hpage hsect hfits _
  | @readPage page buf hpage =>
    have hready : chip.Ready (chip.fetch p.state (loadCycles page) nandRawPageSize) :=
      hchip.ready_load h.idle.ready le_rfl
    have hcell : ∀ page' c,
        chip.cell (chip.fetch p.state (loadCycles page) nandRawPageSize) page' c =
          chip.cell p.state page' c := fun _ _ ↦ hchip.cell_load h.idle.ready le_rfl
    rw [h.idle.port_nandReadPage]
    generalize chip.fetch p.state (loadCycles page) nandRawPageSize = s at *
    exact h.of_cells ⟨(ctrl_select h.idle.ctrl_eq).2, hready⟩ hcell
  | read hpage hlen =>
    rw [h.idle.nandRead_eq]
    refine h.of_cells ⟨(ctrl_select h.idle.ctrl_eq).2, ?_⟩ fun page c ↦ ?_
    · exact hchip.ready_seek h.idle.ready hlen
    · exact hchip.cell_seek h.idle.ready hlen

/-- What a page holds is protected by its codes. -/
theorem NandHolds.coded (h : NandHolds pages p m) {page : UInt32} (hpage : page.toNat < pages) :
    Coded (chip.cell p.state page) :=
  coded_of_sectorHolds fun sect hsect ↦ ⟨_, (h.sector page hpage sect hsect).holds⟩

theorem NandHolds.cell_eq (h : NandHolds pages p m) {page : UInt32} (hpage : page.toNat < pages)
    {c : ℕ} (hc : c < nandPageSize) :
    chip.cell p.state page c = sectorBytes (m (page, c / 512)) (c % 512) := by
  have hsect : c / 512 < 4 := by
    unfold nandPageSize at hc
    omega
  have hdata := (h.sector page hpage _ hsect).holds.data_eq (c % 512) (Nat.mod_lt c (by decide))
  have hcol : c / 512 * 512 + c % 512 = c := Nat.div_add_mod' c 512
  rwa [hcol] at hdata

end Step

/-! ## The theorem -/

/-- **The driver keeps a store.** For every run of `nand_erase`, `nand_write_sector`,
`nand_read_page` and `nand_read` over a chip that is as its data sheet says, in any order and over
all pages, in which sectors are written when they are blank: the flash then holds what the abstract
store does, `nand_read` returns it, and so does `nand_read_page`, even if by then a bit has flipped
in every block and its code. -/
theorem nand_refines_store {chip : NandChip} {pages : ℕ} (hchip : chip.DataSheet pages)
    {p : NandPort chip} {m : Contents SectorKey Bytes} (h : NandHolds pages p m)
    {r : List (NandOp × NandPort chip)} (hrun : IsRun (NandStep pages) p r)
    (hfits : m.FitsAll SectorKey.block (r.map fun x ↦ x.1.store)) :
    let m' := m.after SectorKey.block (r.map fun x ↦ x.1.store)
    NandHolds pages (last p r) m' ∧ ∀ page : UInt32, page.toNat < pages →
      (∀ col buf len, col + len ≤ nandPageSize → ∀ i < len,
        ((last p r).nandRead page col buf len).1 i =
          sectorBytes (m' (page, (col + i) / 512)) ((col + i) % 512)) ∧
      ∀ s, chip.Ready s → FewFlips (chip.cell (last p r).state page) (chip.cell s page) →
        ∀ buf, ∀ c < nandPageSize, (NandPort.nandReadPage ⟨(last p r).ctrl, s⟩ page buf).1.1 c =
          sectorBytes (m' (page, c / 512)) (c % 512) := by
  intro m'
  have hlast : NandHolds pages (last p r) m' :=
    holds_last SectorKey.block (fun _ _ _ _ h hfits hst ↦ h.step hchip hfits hst) h hrun hfits
  refine ⟨hlast, fun page hpage ↦
    ⟨fun col buf len hlen i hi ↦ ?_, fun s hready hflip buf c hc ↦ ?_⟩⟩
  · have hraw : col + len ≤ nandRawPageSize := Nat.le_trans hlen (by decide)
    rw [hlast.idle.nandRead_eq]
    refine (if_pos hi).trans ?_
    rw [hchip.read_seek hlast.idle.ready hraw hi, hlast.cell_eq hpage (by omega)]
  · have hidle : NandPort.Idle ⟨(last p r).ctrl, s⟩ := ⟨hlast.idle.ctrl_eq, hready⟩
    rw [hidle.nandReadPage_spec hchip.toDocumented (hlast.coded hpage) hflip buf hc,
      hlast.cell_eq hpage hc]

/-- A sector is written, its block is erased, and it is written again. -/
def rewrittenRun : List (NandOp × NandPort erasableFlash) :=
  let p := (blankErasable.nandWriteSector 70 1 fun _ ↦ 5).2
  let q := (p.nandErase 1).2
  [(.writeSector 70 1 fun _ ↦ 5, p), (.erase 1, q),
    (.writeSector 70 1 UInt8.ofNat, (q.nandWriteSector 70 1 UInt8.ofNat).2)]

/-- The byte that is read is one in which a bit has flipped. -/
theorem nand_refines_store_rewritten :
    (@NandPort.nandReadPage erasableFlash ⟨(last blankErasable rewrittenRun).ctrl,
      Flash.flip (last blankErasable rewrittenRun).state 521 3⟩ 70 fun _ ↦ 0).1.1 521 = 9 := by
  have hcells : ∀ (page : UInt32) c, erasableFlash.cell blankErasable.state page c = 0xFF := by
    intro page c
    rw [blankErasable, nandReset_eq]
    rfl
  have hblank : NandHolds (2 ^ 16) blankErasable fun _ ↦ none :=
    ⟨idle_nandReset erasableFlash_documented _, fun page _ sect _ c _ ↦ hcells page c⟩
  have hrun : IsRun (NandStep (2 ^ 16)) blankErasable rewrittenRun :=
    ⟨.writeSector (by decide) (by decide), .erase (by decide), .writeSector (by decide) (by decide),
      trivial⟩
  have hfits : Contents.FitsAll SectorKey.block (fun _ ↦ none)
      (rewrittenRun.map fun x ↦ x.1.store) := ⟨rfl, trivial, rfl, trivial⟩
  have hread := (nand_refines_store erasableFlash_dataSheet hblank hrun hfits).2 70 (by decide)
  exact hread.2 _ trivial (fewFlips_flip _ 70 521 3) (fun _ ↦ 0) 521 (by decide)

end Ertos
