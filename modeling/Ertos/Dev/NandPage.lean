import Ertos.Dev.NandFlash

/-!
# Pages of the NAND flash

A page has four sectors of two blocks each, and the codes of the blocks at its end.
`nand_write_sector` finds the place of the codes from the number of the sector, and `nand_read_page`
from the number of the block. A sector that was not written is blank, and so are its codes. Those
are the codes of blank blocks.
-/

namespace Ertos

open LinearCode NandChip NandPort

/-! ## Sectors -/

/-- The columns of a sector. -/
def InSector (sect c : ℕ) : Prop :=
  sect * 512 ≤ c ∧ c < sect * 512 + 512 ∨
    nandPageSize + 40 + sect * 6 ≤ c ∧ c < nandPageSize + 40 + sect * 6 + 6

/-- A sector has its contents and their codes. -/
structure SectorHolds (cells : Bytes) (sect : ℕ) (buf : Bytes) : Prop where
  data_eq : ∀ i < 512, cells (sect * 512 + i) = buf i
  ecc1_eq : eccAt cells (nandPageSize + 40 + sect * 6) = hammingCompute256 buf 0
  ecc2_eq : eccAt cells (nandPageSize + 40 + sect * 6 + 3) = hammingCompute256 buf 256

def SectorBlank (cells : Bytes) (sect : ℕ) : Prop := ∀ c, InSector sect c → cells c = 0xFF

variable {cells cells' : Bytes} {sect : ℕ} {buf : Bytes}

theorem SectorBlank.holds (h : SectorBlank cells sect) : SectorHolds cells sect fun _ ↦ 0xFF where
  data_eq i hi := h _ (Or.inl (by omega))
  ecc1_eq := by
    have hecc : ∀ j < 6, cells (nandPageSize + 40 + sect * 6 + j) = 0xFF :=
      fun j hj ↦ h _ (Or.inr (by omega))
    rw [hammingCompute256_blank]
    exact Ecc.mk.injEq .. ▸ ⟨hecc 0 (by decide), hecc 1 (by decide), hecc 2 (by decide)⟩
  ecc2_eq := by
    have hecc : ∀ j < 6, cells (nandPageSize + 40 + sect * 6 + j) = 0xFF :=
      fun j hj ↦ h _ (Or.inr (by omega))
    rw [hammingCompute256_blank]
    exact Ecc.mk.injEq .. ▸ ⟨hecc 3 (by decide), hecc 4 (by decide), hecc 5 (by decide)⟩

theorem SectorHolds.congr (h : SectorHolds cells sect buf)
    (hcells : ∀ c, InSector sect c → cells' c = cells c) : SectorHolds cells' sect buf where
  data_eq i hi := (hcells _ (Or.inl (by omega))).trans (h.data_eq i hi)
  ecc1_eq := (eccAt_congr fun c hc ↦ hcells c (Or.inr (by omega))).trans h.ecc1_eq
  ecc2_eq := (eccAt_congr fun c hc ↦ hcells c (Or.inr (by omega))).trans h.ecc2_eq

theorem InSector.disjoint {sect' c : ℕ} (h : InSector sect c) (hlt : sect < 4) (hlt' : sect' < 4)
    (hne : sect ≠ sect') : ¬InSector sect' c := by
  unfold InSector nandPageSize at *
  omega

/-! ## Writing -/

theorem getElem?_bytesOf (buf : Bytes) {i n : ℕ} (hi : i < n) :
    (bytesOf buf n)[i]? = some (buf i) := by
  rw [bytesOf, List.getElem?_map, List.getElem?_range hi, Option.map_some]

/-- The codes of the blocks of a sector. -/
def sectorCodes (buf : Bytes) : List UInt8 :=
  (hammingCompute256 buf 0).bytes ++ (hammingCompute256 buf 256).bytes

/-- Programming a sector and its codes. -/
def sectorCycles (page : UInt32) (sect : ℕ) (buf : Bytes) : List Cycle :=
  programCycles page (sect * 512) (bytesOf buf 512) (nandPageSize + 40 + sect * 6) (sectorCodes buf)

section Sector

variable {chip : NandChip} {s : chip.State} {page : UInt32}

theorem length_sectorCodes (buf : Bytes) : (sectorCodes buf).length = 6 := rfl

theorem data_fits (hsect : sect < 4) (buf : Bytes) :
    sect * 512 + (bytesOf buf 512).length ≤ nandRawPageSize := by
  rw [length_bytesOf]
  unfold nandRawPageSize
  omega

theorem codes_fit (hsect : sect < 4) (buf : Bytes) :
    nandPageSize + 40 + sect * 6 + (sectorCodes buf).length ≤ nandRawPageSize := by
  rw [length_sectorCodes]
  unfold nandPageSize nandRawPageSize
  omega

theorem cell_sector_data (hchip : chip.Documented) (hready : chip.Ready s) (hsect : sect < 4)
    (hblank : SectorBlank (chip.cell s page) sect) (buf : Bytes) {i : ℕ} (hi : i < 512) :
    chip.cell (chip.run s (sectorCycles page sect buf)) page (sect * 512 + i) = buf i := by
  have hnone :
      pieceAt (nandPageSize + 40 + sect * 6) (sectorCodes buf) (sect * 512 + i) = none := by
    refine pieceAt_eq_none ?_
    unfold nandPageSize
    omega
  refine hchip.cell_program hready (data_fits hsect buf) (codes_fit hsect buf)
    (hblank _ (Or.inl (by omega))) ?_
  rw [hnone, Option.none_or, pieceAt_add, getElem?_bytesOf buf hi]

theorem cell_sector_code (hchip : chip.Documented) (hready : chip.Ready s) (hsect : sect < 4)
    (hblank : SectorBlank (chip.cell s page) sect) (buf : Bytes) {i : ℕ} (hi : i < 6) :
    chip.cell (chip.run s (sectorCycles page sect buf)) page (nandPageSize + 40 + sect * 6 + i)
      = (sectorCodes buf).getD i 0 := by
  have hget := List.getElem?_eq_getElem (show i < (sectorCodes buf).length from hi)
  refine hchip.cell_program hready (data_fits hsect buf) (codes_fit hsect buf)
    (hblank _ (Or.inr (by omega))) ?_
  rw [pieceAt_add, List.getD_eq_getElem?_getD, hget, Option.some_or, Option.getD_some]

theorem cell_sector_of_not (hchip : chip.Documented) (hready : chip.Ready s) (hsect : sect < 4)
    (buf : Bytes) {c : ℕ} (hc : ¬InSector sect c) :
    chip.cell (chip.run s (sectorCycles page sect buf)) page c = chip.cell s page c := by
  refine hchip.cell_program_of_none hready (data_fits hsect buf) (codes_fit hsect buf)
    (pieceAt_eq_none fun h ↦ hc (Or.inr h)) (pieceAt_eq_none fun h ↦ hc (Or.inl ?_))
  rwa [length_bytesOf] at h

theorem sectorHolds_run (hchip : chip.Documented) (hready : chip.Ready s) (hsect : sect < 4)
    (hblank : SectorBlank (chip.cell s page) sect) (buf : Bytes) :
    SectorHolds (chip.cell (chip.run s (sectorCycles page sect buf)) page) sect buf := by
  have hcode := fun {i} ↦ cell_sector_code hchip hready hsect hblank buf (i := i)
  refine ⟨fun i ↦ cell_sector_data hchip hready hsect hblank buf, ?_, ?_⟩
  · exact Ecc.mk.injEq .. ▸ ⟨hcode (show 0 < 6 by decide), hcode (show 1 < 6 by decide),
      hcode (show 2 < 6 by decide)⟩
  · exact Ecc.mk.injEq .. ▸ ⟨hcode (show 3 < 6 by decide), hcode (show 4 < 6 by decide),
      hcode (show 5 < 6 by decide)⟩

end Sector

variable {chip : NandChip} {p : NandPort chip}

/-- **A sector that is written to a blank place** is there, and nothing else on the page changes. -/
theorem NandPort.Idle.nandWriteSector_spec (hchip : chip.Documented) (h : p.Idle) {page : UInt32}
    (hsect : sect < 4) (hblank : SectorBlank (chip.cell p.state page) sect) (buf : Bytes) :
    (p.nandWriteSector page sect buf).2.Idle ∧
      SectorHolds (chip.cell (p.nandWriteSector page sect buf).2.state page) sect buf ∧
      ∀ c, ¬InSector sect c →
        chip.cell (p.nandWriteSector page sect buf).2.state page c = chip.cell p.state page c := by
  have hready : chip.Ready (chip.run p.state (sectorCycles page sect buf)) :=
    hchip.ready_program h.ready (data_fits hsect buf) (codes_fit hsect buf)
  rw [h.nandWriteSector_eq]
  refine ⟨⟨(ctrl_select h.ctrl_eq).2, hchip.ready_status hready⟩, ?_, fun c hc ↦ ?_⟩
  · exact (sectorHolds_run hchip h.ready hsect hblank buf).congr fun c _ ↦ hchip.cell_status hready
  · exact (hchip.cell_status hready).trans (cell_sector_of_not hchip h.ready hsect buf hc)

/-- Sectors are written in turn. -/
def NandPort.nandWriteSectors (p : NandPort chip) (page : UInt32) :
    List (ℕ × Bytes) → NandPort chip
  | [] => p
  | w :: ws => nandWriteSectors (p.nandWriteSector page w.1 w.2).2 page ws

/-- **Sectors that are written in turn** are all there, and the rest of the page is left alone. -/
theorem NandPort.Idle.nandWriteSectors_spec (hchip : chip.Documented) {page : UInt32}
    {ws : List (ℕ × Bytes)} {p : NandPort chip} (h : p.Idle) (hsect : ∀ w ∈ ws, w.1 < 4)
    (hnodup : (ws.map Prod.fst).Nodup)
    (hblank : ∀ w ∈ ws, SectorBlank (chip.cell p.state page) w.1) :
    (p.nandWriteSectors page ws).Idle ∧
      (∀ w ∈ ws, SectorHolds (chip.cell (p.nandWriteSectors page ws).state page) w.1 w.2) ∧
      ∀ c, (∀ w ∈ ws, ¬InSector w.1 c) →
        chip.cell (p.nandWriteSectors page ws).state page c = chip.cell p.state page c := by
  induction ws generalizing p with
  | nil => exact ⟨h, fun _ hw ↦ absurd hw List.not_mem_nil, fun _ _ ↦ rfl⟩
  | cons w ws ih =>
    rw [List.forall_mem_cons] at hsect hblank
    rw [List.map_cons, List.nodup_cons] at hnodup
    have hother : ∀ w' ∈ ws, ∀ c, InSector w'.1 c → ¬InSector w.1 c := by
      intro w' hw' c hc
      refine hc.disjoint (hsect.2 w' hw') hsect.1 fun heq ↦ hnodup.1 ?_
      exact heq ▸ List.mem_map_of_mem hw'
    obtain ⟨hidle, hholds, hkeep⟩ := h.nandWriteSector_spec hchip hsect.1 hblank.1 w.2
    have hblank' : ∀ w' ∈ ws,
        SectorBlank (chip.cell (p.nandWriteSector page w.1 w.2).2.state page) w'.1 :=
      fun w' hw' c hc ↦ (hkeep c (hother w' hw' c hc)).trans (hblank.2 w' hw' c hc)
    obtain ⟨hidle', hholds', hkeep'⟩ := ih hidle hsect.2 hnodup.2 hblank'
    refine ⟨hidle', ?_, ?_⟩
    · rw [List.forall_mem_cons]
      refine ⟨hholds.congr fun c hc ↦ hkeep' c fun w' hw' hc' ↦ ?_, hholds'⟩
      exact hother w' hw' c hc' hc
    · intro c hc
      rw [List.forall_mem_cons] at hc
      exact (hkeep' c hc.2).trans (hkeep c hc.1)

/-! ## Reading -/

theorem AtMostOneFlip.congr {s : ℕ → Prop} {old new new' : Bytes} (h : AtMostOneFlip s old new)
    (hnew : ∀ i, s i → new' i = new i) : AtMostOneFlip s old new' := by
  rcases h with h | ⟨i, k, hi, h⟩
  · exact Or.inl fun j hj ↦ (hnew j hj).trans (h j hj)
  · exact Or.inr ⟨i, k, hi, fun j hj ↦ (hnew j hj).trans (h j hj)⟩

/-- The bytes of a block and of its code. -/
def InNandGroup (i : ℕ) : ℕ → Prop := InGroup (i * 256) (nandPageSize + 40 + i * 3)

/-- In every block and its code, at most one bit is flipped. -/
def FewFlips (old new : Bytes) : Prop := ∀ i < 8, AtMostOneFlip (InNandGroup i) old new

/-- The codes are those of the blocks. -/
def Coded (cells : Bytes) : Prop :=
  ∀ i < 8, eccAt cells (nandPageSize + 40 + i * 3) = hammingCompute256 cells (i * 256)

/-- **The two layouts agree**: the codes of the sectors are those of the blocks. -/
theorem coded_of_sectorHolds (h : ∀ sect < 4, ∃ buf, SectorHolds cells sect buf) : Coded cells := by
  intro i hi
  obtain ⟨buf, hdata, hecc1, hecc2⟩ := h (i / 2) (by omega)
  rcases Nat.mod_two_eq_zero_or_one i with heven | hodd
  · have hecc : nandPageSize + 40 + i * 3 = nandPageSize + 40 + i / 2 * 6 := by omega
    rw [hecc, hecc1]
    refine hammingCompute256_congr fun j hj ↦ ?_
    have hcol : i * 256 + j = i / 2 * 512 + (0 + j) := by omega
    rw [hcol, hdata (0 + j) (by omega)]
  · have hecc : nandPageSize + 40 + i * 3 = nandPageSize + 40 + i / 2 * 6 + 3 := by omega
    rw [hecc, hecc2]
    refine hammingCompute256_congr fun j hj ↦ ?_
    have hcol : i * 256 + j = i / 2 * 512 + (256 + j) := by omega
    rw [hcol, hdata (256 + j) (by omega)]

/-- **The loop that checks the blocks** puts them right one after the other. -/
theorem nandCheckEcc_spec {old raw : Bytes} (hcode : Coded old) (hflip : FewFlips old raw)
    {n : ℕ} (hn : n ≤ 8) :
    (nandCheckEcc raw n).1 = fun j ↦ if j < n * 256 then old j else raw j := by
  induction n with
  | zero => exact funext fun j ↦ (if_neg (by omega)).symm
  | succ n ih =>
    have hcur := ih (by omega)
    have hsame : ∀ j, InNandGroup n j → (nandCheckEcc raw n).1 j = raw j := by
      intro j hj
      rw [hcur]
      refine if_neg ?_
      unfold InNandGroup InGroup InBlock nandPageSize at hj
      omega
    have hdisj : n * 256 + 256 ≤ nandPageSize + 40 + n * 3 := by
      unfold nandPageSize
      omega
    have hspec := hammingCorrect256_spec hdisj (hcode n (by omega))
      ((hflip n (by omega)).congr hsame)
    refine hspec.trans (funext fun j ↦ ?_)
    by_cases hblock : InBlock (n * 256) j
    · rw [withBlock_of_inBlock hblock]
      exact (if_pos (by have := hblock.2; omega)).symm
    · rw [withBlock_of_not hblock, hcur]
      unfold InBlock at hblock
      dsimp only
      split_ifs
      · rfl
      · omega
      · omega
      · rfl

theorem FewFlips.congr {old new new' : Bytes} (h : FewFlips old new)
    (hnew : ∀ c < nandRawPageSize, new' c = new c) : FewFlips old new' := by
  refine fun i hi ↦ (h i hi).congr fun c hc ↦ hnew c ?_
  unfold InNandGroup InGroup InBlock nandPageSize at hc
  unfold nandRawPageSize
  omega

theorem fewFlips_flipBit (old : Bytes) (c : ℕ) (k : Fin 8) : FewFlips old (flipBit old c k) := by
  intro i _
  by_cases hc : InNandGroup i c
  · exact Or.inr ⟨c, k, hc, fun _ _ ↦ rfl⟩
  · refine Or.inl fun j hj ↦ flipBit_of_ne ?_ k
    rintro rfl
    exact hc hj

theorem fewFlips_flip (s : Flash) (page : UInt32) (c : ℕ) (k : Fin 8) :
    FewFlips (flash.cell s page) (flash.cell (s.flip c k) page) :=
  fewFlips_flipBit (s.cells (flashPage page)) c k

/-- **A page is read right** if there are few flips. -/
theorem NandPort.Idle.nandReadPage_spec (hchip : chip.Documented) (h : p.Idle) {page : UInt32}
    {old : Bytes} (hcode : Coded old) (hflip : FewFlips old (chip.cell p.state page)) (buf : Bytes)
    {j : ℕ} (hj : j < nandPageSize) : (p.nandReadPage page buf).1.1 j = old j := by
  obtain ⟨raw, hraw⟩ : ∃ raw : Bytes, raw = fun i ↦ if i < nandRawPageSize then
      (chip.read (chip.next^[i] (chip.run p.state (loadCycles page))) nandCtrlNce).1 else buf i :=
    ⟨_, rfl⟩
  have hcell : ∀ i < nandRawPageSize, raw i = chip.cell p.state page i := by
    intro i hi
    rw [hraw]
    exact (if_pos hi).trans (hchip.read_load h.ready hi)
  rw [h.nandReadPage_eq, ← hraw, nandCheckEcc_spec hcode (hflip.congr hcell) le_rfl]
  exact if_pos hj

/-! ## Storing and loading -/

/-- **The flash stores sectors**, and a flip in every group of a block and its code does no harm: a
page that was erased reads as what was written, and the other sectors are blank. -/
theorem nand_store_load {chip : NandChip} (hchip : chip.Documented) {p : NandPort chip} (h : p.Idle)
    (page : UInt32) (herased : ∀ c < nandRawPageSize, chip.cell p.state page c = 0xFF)
    {ws : List (ℕ × Bytes)} (hsect : ∀ w ∈ ws, w.1 < 4) (hnodup : (ws.map Prod.fst).Nodup)
    {s : chip.State} (hready : chip.Ready s)
    (hflip : FewFlips (chip.cell (p.nandWriteSectors page ws).state page) (chip.cell s page))
    (buf : Bytes) :
    let read := (NandPort.nandReadPage ⟨(p.nandWriteSectors page ws).ctrl, s⟩ page buf).1.1
    (∀ sect buf, (sect, buf) ∈ ws → ∀ i < 512, read (sect * 512 + i) = buf i) ∧
      ∀ sect < 4, sect ∉ ws.map Prod.fst → ∀ i < 512, read (sect * 512 + i) = 0xFF := by
  have hblank : ∀ sect < 4, SectorBlank (chip.cell p.state page) sect := by
    intro sect hlt c hc
    refine herased c ?_
    unfold InSector nandPageSize at hc
    unfold nandRawPageSize
    omega
  obtain ⟨hidle, hholds, hkeep⟩ :=
    h.nandWriteSectors_spec hchip hsect hnodup fun w hw ↦ hblank w.1 (hsect w hw)
  have hunwritten : ∀ sect < 4, sect ∉ ws.map Prod.fst →
      SectorHolds (chip.cell (p.nandWriteSectors page ws).state page) sect fun _ ↦ 0xFF := by
    refine fun sect hlt hnot ↦ (hblank sect hlt).holds.congr fun c hc ↦ hkeep c fun w hw ↦ ?_
    exact hc.disjoint hlt (hsect w hw) fun heq ↦ hnot (heq ▸ List.mem_map_of_mem hw)
  have hcoded : Coded (chip.cell (p.nandWriteSectors page ws).state page) := by
    refine coded_of_sectorHolds fun sect hlt ↦ ?_
    by_cases hmem : sect ∈ ws.map Prod.fst
    · obtain ⟨w, hw, rfl⟩ := List.mem_map.mp hmem
      exact ⟨w.2, hholds w hw⟩
    · exact ⟨_, hunwritten sect hlt hmem⟩
  have hidle' : NandPort.Idle ⟨(p.nandWriteSectors page ws).ctrl, s⟩ := ⟨hidle.ctrl_eq, hready⟩
  intro read
  have hread : ∀ j < nandPageSize, read j = chip.cell (p.nandWriteSectors page ws).state page j :=
    fun j hj ↦ hidle'.nandReadPage_spec hchip hcoded hflip buf hj
  refine ⟨fun sect data hmem i hi ↦ ?_, fun sect hlt hnot i hi ↦ ?_⟩
  · have hlt : sect < 4 := hsect _ hmem
    have hpage : sect * 512 + i < nandPageSize := by
      unfold nandPageSize
      omega
    rw [hread _ hpage, (hholds _ hmem).data_eq i hi]
  · have hpage : sect * 512 + i < nandPageSize := by
      unfold nandPageSize
      omega
    rw [hread _ hpage, (hunwritten sect hlt hnot).data_eq i hi]

def twoSectors : List (ℕ × Bytes) := [(2, UInt8.ofNat), (0, fun _ ↦ 7)]

/-- Two sectors of a page are written, and a bit of the first one is flipped. -/
def flippedFlash : NandPort flash :=
  let p := blankFlash.nandWriteSectors 5 twoSectors
  ⟨p.ctrl, Flash.flip p.state 3 ⟨5, by decide⟩⟩

theorem nand_store_load_two :
    (flippedFlash.nandReadPage 5 fun _ ↦ 0).1.1 (2 * 512 + 9) = UInt8.ofNat 9 ∧
      (flippedFlash.nandReadPage 5 fun _ ↦ 0).1.1 (0 * 512 + 3) = 7 ∧
      (flippedFlash.nandReadPage 5 fun _ ↦ 0).1.1 (1 * 512 + 0) = 0xFF := by
  have hsect : ∀ w ∈ twoSectors, w.1 < 4 := by simp [twoSectors]
  have hnodup : (twoSectors.map Prod.fst).Nodup := by simp [twoSectors]
  have herased : ∀ c < nandRawPageSize, flash.cell blankFlash.state 5 c = 0xFF := by
    intro c _
    rw [blankFlash, nandReset_eq]
    rfl
  have hidle : blankFlash.Idle := idle_nandReset flash_documented _
  have hread := nand_store_load flash_documented hidle 5 herased hsect hnodup trivial
    (fewFlips_flip _ 5 3 5) fun _ ↦ 0
  have hport : flippedFlash = ⟨(blankFlash.nandWriteSectors 5 twoSectors).ctrl,
    Flash.flip (blankFlash.nandWriteSectors 5 twoSectors).state 3 5⟩ := rfl
  rw [← hport] at hread
  have htwo : (2, UInt8.ofNat) ∈ twoSectors := by simp [twoSectors]
  have hzero : (0, fun _ ↦ 7) ∈ twoSectors := by simp [twoSectors]
  have hone : 1 ∉ twoSectors.map Prod.fst := by simp [twoSectors]
  exact ⟨hread.1 2 _ htwo 9 (by decide), hread.1 0 _ hzero 3 (by decide),
    hread.2 1 (by decide) hone 0 (by decide)⟩

end Ertos
