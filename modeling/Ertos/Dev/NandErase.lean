import Ertos.Dev.NandPage

/-!
# Erasing and reading parts of pages

`nand_erase` and `nand_read` of `dev/nand.c`, the cycles they send to the chip, and what the data
sheet says about these. `nand_erase` sends the number of a page in the block, so of a block number
only as many bits count as leave room for the pages.
-/

namespace Ertos

open NandChip

/-! ## The chip -/

def nandCmdRndRead : UInt8 := 0x05

def nandCmdBlockErase : UInt8 := 0x60

def nandCmdBlockEraseConfirm : UInt8 := 0xD0

def nandCmdRndReadConfirm : UInt8 := 0xE0

def nandPagesPerBlock : UInt32 := 64

/-- The block of a page. -/
def nandBlock (page : UInt32) : ℕ := page.toNat / 64

/-- The bytes that `nand_erase` sends for a page. -/
def nandEraseBytes (block : UInt32) : List UInt8 :=
  [(block &&& 0xFF).toUInt8, (block >>> 8 &&& 0xFF).toUInt8, (block >>> 16 &&& 0xFF).toUInt8]

namespace NandChip

/-- Erasing the block of a page. -/
def eraseCycles (page : UInt32) : List Cycle :=
  [command nandCmdBlockErase] ++ (nandPageBytes page).map address
    ++ [command nandCmdBlockEraseConfirm]

/-- Fetching a page to be read from a column. -/
def seekCycles (page : UInt32) (col : ℕ) : List Cycle :=
  loadCycles page ++ [command nandCmdRndRead] ++ (nandColBytes col).map address
    ++ [command nandCmdRndReadConfirm]

variable (chip : NandChip)

/-- The state after cycles and reading `n` bytes. -/
def fetch (s : chip.State) (cycles : List Cycle) (n : ℕ) : chip.State :=
  chip.next^[n] (chip.run s cycles)

/-- More of the data sheet, of a chip with so many pages. -/
structure DataSheet (pages : ℕ) : Prop extends chip.Documented where
  pages_le : pages ≤ 2 ^ 24
  ready_erase : ∀ {s page}, chip.Ready s → page.toNat < pages →
    chip.Ready (chip.run s (eraseCycles page))
  /-- Erasing makes a block blank, and leaves the others alone. -/
  cell_erase : ∀ {s page page' c}, chip.Ready s → page.toNat < pages → page'.toNat < pages →
    c < nandRawPageSize → chip.cell (chip.run s (eraseCycles page)) page' c =
      if nandBlock page' = nandBlock page then 0xFF else chip.cell s page' c
  /-- Programming leaves other pages alone. -/
  cell_program_of_ne : ∀ {s page page' col l col' l' c}, chip.Ready s → page.toNat < pages →
    page'.toNat < pages → page' ≠ page → col + l.length ≤ nandRawPageSize →
    col' + l'.length ≤ nandRawPageSize →
    chip.cell (chip.run s (programCycles page col l col' l')) page' c = chip.cell s page' c
  ready_load : ∀ {s page n}, chip.Ready s → n ≤ nandRawPageSize →
    chip.Ready (chip.fetch s (loadCycles page) n)
  cell_load : ∀ {s page n page' c}, chip.Ready s → n ≤ nandRawPageSize →
    chip.cell (chip.fetch s (loadCycles page) n) page' c = chip.cell s page' c
  ready_seek : ∀ {s page col n}, chip.Ready s → col + n ≤ nandRawPageSize →
    chip.Ready (chip.fetch s (seekCycles page col) n)
  cell_seek : ∀ {s page col n page' c}, chip.Ready s → col + n ≤ nandRawPageSize →
    chip.cell (chip.fetch s (seekCycles page col) n) page' c = chip.cell s page' c
  /-- The bytes come from the column on. -/
  read_seek : ∀ {s page col n i}, chip.Ready s → col + n ≤ nandRawPageSize → i < n →
    (chip.read (chip.fetch s (seekCycles page col) i) nandCtrlNce).1 = chip.cell s page (col + i)

end NandChip

/-! ## The driver -/

namespace NandPort

variable {chip : NandChip} (p : NandPort chip)

/-- The status, and the port. -/
def nandErase (block : UInt32) : UInt8 × NandPort chip :=
  let block := block * nandPagesPerBlock
  let p := p.nandSelect
  let p := p.nandCmd nandCmdBlockErase
  let p := p.outbAddress (nandEraseBytes block)
  let p := p.nandCmd nandCmdBlockEraseConfirm
  let r := p.nandReadStatus
  (r.1, r.2.nandDeselect)

/-- The buffer, and the port. -/
def nandRead (page : UInt32) (col : ℕ) (buf : Bytes) (len : ℕ) : Bytes × NandPort chip :=
  let p := p.nandSelect
  let p := p.nandLoadPage page
  -- seek to the requested byte
  let p := p.nandCmd nandCmdRndRead
  let p := p.outbAddress (nandColBytes col)
  let p := p.nandCmd nandCmdRndReadConfirm
  let r := p.inbBytes buf len
  (r.1, r.2.nandDeselect)

variable {p}

theorem nandEraseBytes_eq (block : UInt32) : nandEraseBytes block = nandPageBytes block := by
  have hshift : block >>> 16 = block >>> 8 >>> 8 :=
    UInt32.toBitVec_inj.mp (BitVec.shiftRight_add block.toBitVec 8 8)
  rw [nandEraseBytes, nandPageBytes, hshift]

theorem Idle.nandErase_eq (h : p.Idle) (block : UInt32) : (p.nandErase block).2 =
    { ctrl := (p.ctrl ||| nandCtrlNce) &&& ~~~nandCtrlNce
      state := chip.status (chip.run p.state (eraseCycles (block * nandPagesPerBlock))) } := by
  obtain ⟨c, s⟩ := p
  have hc := (ctrl_select h.ctrl_eq).1
  unfold nandErase nandReadStatus nandSelect nandDeselect outbCtrl
  simp only [nandCmd_mk hc, outbAddress_mk hc, inbData_mk hc, nandEraseBytes_eq, eraseCycles,
    run_append, NandChip.status]

theorem Idle.nandRead_eq (h : p.Idle) (page : UInt32) (col : ℕ) (buf : Bytes) (len : ℕ) :
    p.nandRead page col buf len =
      (fun i ↦ if i < len then
        (chip.read (chip.fetch p.state (seekCycles page col) i) nandCtrlNce).1 else buf i,
      { ctrl := (p.ctrl ||| nandCtrlNce) &&& ~~~nandCtrlNce
        state := chip.fetch p.state (seekCycles page col) len }) := by
  obtain ⟨c, s⟩ := p
  have hc := (ctrl_select h.ctrl_eq).1
  unfold nandRead nandLoadPage nandSelect nandDeselect outbCtrl
  simp only [nandCmd_mk hc, outbAddress_mk hc, inbBytes_mk hc, fetch, seekCycles, loadCycles,
    run_append]

theorem Idle.port_nandReadPage (h : p.Idle) (page : UInt32) (buf : Bytes) :
    (p.nandReadPage page buf).2 =
      { ctrl := (p.ctrl ||| nandCtrlNce) &&& ~~~nandCtrlNce
        state := chip.fetch p.state (loadCycles page) nandRawPageSize } := by
  obtain ⟨c, s⟩ := p
  have hc := (ctrl_select h.ctrl_eq).1
  unfold nandReadPage nandLoadPage nandSelect nandDeselect outbCtrl
  simp only [nandCmd_mk hc, outbAddress_mk hc, inbBytes_mk hc, fetch, loadCycles, run_append]

end NandPort

/-! ## A chip -/

namespace Flash

/-- A command of a chip that can also erase. -/
def eraseCommand (s : Flash) (b : UInt8) : Flash :=
  if b = nandCmdBlockErase then { s with cmd := b, addressed := 2 }
  else if b = nandCmdBlockEraseConfirm then
    { s with
      cmd := b
      cells := fun page c ↦ if page / 64 = s.page / 64 then 0xFF else s.cells page c }
  else s.writeCommand b

def eraseWrite (s : Flash) (lines b : UInt8) : Flash :=
  if lines = nandCtrlNce ||| nandCtrlCle then s.eraseCommand b else s.write lines b

end Flash

/-- The flash of the other functions, with blocks that can be erased. -/
abbrev erasableFlash : NandChip where
  State := Flash
  write := Flash.eraseWrite
  read := Flash.read
  cell s page c := s.cells (flashPage page) c
  Ready _ := True

namespace Flash

/-- The cycle is not a command to erase. -/
def Plain (c : Cycle) : Prop :=
  c.1 = nandCtrlNce ||| nandCtrlCle → c.2 ≠ nandCmdBlockErase ∧ c.2 ≠ nandCmdBlockEraseConfirm

theorem plain_map_address (l : List UInt8) : ∀ c ∈ l.map address, Plain c := by
  intro c hc h
  obtain ⟨b, -, rfl⟩ := List.mem_map.mp hc
  exact absurd h (by show ¬nandCtrlNce ||| nandCtrlAle = nandCtrlNce ||| nandCtrlCle; decide)

theorem plain_map_data (l : List UInt8) : ∀ c ∈ l.map data, Plain c := by
  intro c hc h
  obtain ⟨b, -, rfl⟩ := List.mem_map.mp hc
  exact absurd h (by show ¬nandCtrlNce = nandCtrlNce ||| nandCtrlCle; decide)

theorem plain_command {b : UInt8} (h : b ≠ nandCmdBlockErase ∧ b ≠ nandCmdBlockEraseConfirm) :
    ∀ c ∈ [command b], Plain c := by
  rintro c hc -
  rw [List.mem_singleton.mp hc]
  exact h

/-- Without these commands it is the same flash. -/
theorem run_eq {cycles : List Cycle} (h : ∀ c ∈ cycles, Plain c) (s : Flash) :
    erasableFlash.run s cycles = flash.run s cycles := by
  induction cycles generalizing s with
  | nil => rfl
  | cons c cycles ih =>
    rw [List.forall_mem_cons] at h
    have hwrite : s.eraseWrite c.1 c.2 = s.write c.1 c.2 := by
      unfold eraseWrite
      by_cases hc : c.1 = nandCtrlNce ||| nandCtrlCle
      · rw [if_pos hc, eraseCommand, if_neg (h.1 hc).1, if_neg (h.1 hc).2, write, if_pos hc]
      · rw [if_neg hc]
    show erasableFlash.run (s.eraseWrite c.1 c.2) cycles = flash.run (s.write c.1 c.2) cycles
    rw [ih h.2, hwrite]

theorem plain_programCycles (page : UInt32) (col : ℕ) (l : List UInt8) (col' : ℕ)
    (l' : List UInt8) : ∀ c ∈ programCycles page col l col' l', Plain c := by
  unfold programCycles
  simp only [List.forall_mem_append]
  exact ⟨⟨⟨⟨⟨⟨plain_command (by decide), plain_map_address _⟩, plain_map_data _⟩,
    plain_command (by decide)⟩, plain_map_address _⟩, plain_map_data _⟩, plain_command (by decide)⟩

theorem plain_loadCycles (page : UInt32) : ∀ c ∈ loadCycles page, Plain c := by
  unfold loadCycles
  simp only [List.forall_mem_append]
  exact ⟨⟨plain_command (by decide), plain_map_address _⟩, plain_command (by decide)⟩

theorem plain_seekCycles (page : UInt32) (col : ℕ) : ∀ c ∈ seekCycles page col, Plain c := by
  unfold seekCycles
  simp only [List.forall_mem_append]
  exact ⟨⟨⟨plain_loadCycles page, plain_command (by decide)⟩, plain_map_address _⟩,
    plain_command (by decide)⟩

theorem run_erase (s : Flash) (page : UInt32) : erasableFlash.run s (eraseCycles page) =
    { s with
      cmd := nandCmdBlockEraseConfirm
      addressed := 5
      page := flashPage page
      cells := fun page' c ↦
        if page' / 64 = flashPage page / 64 then 0xFF else s.cells page' c } := by
  have herase : s.eraseCommand nandCmdBlockErase =
      { s with cmd := nandCmdBlockErase, addressed := 2 } := if_pos rfl
  have hconfirm : ∀ t : Flash, t.eraseCommand nandCmdBlockEraseConfirm =
      { t with
        cmd := nandCmdBlockEraseConfirm
        cells := fun page c ↦ if page / 64 = t.page / 64 then 0xFF else t.cells page c } :=
    fun t ↦ (if_neg (by decide)).trans (if_pos rfl)
  have hcommand : ∀ (t : Flash) (b : UInt8), erasableFlash.run t [command b] = t.eraseCommand b :=
    fun _ _ ↦ rfl
  unfold eraseCycles
  rw [run_append, run_append, hcommand, hcommand, herase, run_eq (plain_map_address _),
    run_pageBytes _ _ rfl, hconfirm]

theorem run_seek (s : Flash) (page : UInt32) {col : ℕ} (hcol : col < 2 ^ 16) :
    flash.run s (seekCycles page col) =
      { s with
        cmd := nandCmdRndReadConfirm
        addressed := 0
        col := col
        page := flashPage page } := by
  have hread : ∀ t : Flash,
      t.writeCommand nandCmdRndRead = { t with cmd := nandCmdRndRead, addressed := 0 } := by
    intro t
    rw [writeCommand, if_neg (by decide), if_neg (by decide)]
  have hconfirm : ∀ t : Flash, t.writeCommand nandCmdRndReadConfirm =
      { t with cmd := nandCmdRndReadConfirm, addressed := 0 } := by
    intro t
    rw [writeCommand, if_neg (by decide), if_neg (by decide)]
  unfold seekCycles
  rw [run_append, run_append, run_append, run_load, run_command, run_command, hread,
    run_colBytes _ hcol rfl, hconfirm]

theorem fetch_seek (s : Flash) (page : UInt32) {col : ℕ} (hcol : col < 2 ^ 16) (n : ℕ) :
    erasableFlash.fetch s (seekCycles page col) n =
      { s with
        cmd := nandCmdRndReadConfirm
        addressed := 0
        col := col + n
        page := flashPage page } := by
  rw [fetch, run_eq (plain_seekCycles page col), run_seek s page hcol]
  exact iterate_next _ (by show nandCmdRndReadConfirm ≠ _; decide) n

theorem fetch_load (s : Flash) (page : UInt32) (n : ℕ) :
    erasableFlash.fetch s (loadCycles page) n =
      { s with
        cmd := nandCmdReadConfirm
        addressed := 0
        col := 0 + n
        page := flashPage page } := by
  rw [fetch, run_eq (plain_loadCycles page), run_load]
  exact iterate_next _ (by show nandCmdReadConfirm ≠ _; decide) n

theorem status_eq (s : Flash) : erasableFlash.status s = flash.status s := by
  rw [NandChip.status, NandChip.status, run_eq (plain_command (by decide))]
  rfl

end Flash

open Flash in
theorem erasableFlash_documented : erasableFlash.Documented where
  ready_reset _ := trivial
  ready_program _ _ _ := trivial
  cell_program {s page col l col' l'} hready hfits hfits' c b herased hb := by
    rw [run_eq (plain_programCycles page col l col' l')]
    exact flash_documented.cell_program hready hfits hfits' herased hb
  cell_program_of_none {s page col l col' l'} hready hfits hfits' c hnone' hnone := by
    rw [run_eq (plain_programCycles page col l col' l')]
    exact flash_documented.cell_program_of_none hready hfits hfits' hnone' hnone
  ready_status _ := trivial
  cell_status {s page c} hready := by
    rw [status_eq]
    exact flash_documented.cell_status hready
  read_load {s page i} hready hi := by
    rw [run_eq (plain_loadCycles page)]
    exact flash_documented.read_load hready hi

theorem flashPage_of_lt {page : UInt32} (h : page.toNat < 2 ^ 16) : flashPage page = page.toNat :=
  Nat.mod_eq_of_lt (Nat.lt_trans h (by decide))

open Flash in
/-- **The chip is as the data sheet says**, with as many pages as the boards have. -/
theorem erasableFlash_dataSheet : erasableFlash.DataSheet (2 ^ 16) where
  toDocumented := erasableFlash_documented
  pages_le := by decide
  ready_erase _ _ := trivial
  cell_erase {s page page' c} _ hpage hpage' _ := by
    show (erasableFlash.run s (eraseCycles page)).cells (flashPage page') c =
      if nandBlock page' = nandBlock page then 0xFF else s.cells (flashPage page') c
    rw [run_erase, flashPage_of_lt hpage, flashPage_of_lt hpage']
    rfl
  cell_program_of_ne {s page page' col l col' l' c} _ hpage hpage' hne hfits hfits' := by
    unfold nandRawPageSize at hfits hfits'
    show (erasableFlash.run s (programCycles page col l col' l')).cells (flashPage page') c = _
    rw [run_eq (plain_programCycles page col l col' l'), run_program s page (by omega) (by omega),
      Function.update_of_ne]
    rw [flashPage_of_lt hpage, flashPage_of_lt hpage']
    exact fun h ↦ hne (UInt32.toNat_inj.mp h)
  ready_load _ _ := trivial
  cell_load {s page n page' c} _ _ := by
    rw [fetch_load]
  ready_seek _ _ := trivial
  cell_seek {s page col n page' c} _ hlen := by
    unfold nandRawPageSize at hlen
    rw [fetch_seek s page (by omega)]
  read_seek {s page col n i} _ hlen _ := by
    unfold nandRawPageSize at hlen
    rw [fetch_seek s page (by omega)]
    exact congrArg Prod.fst (if_neg (by show nandCmdRndReadConfirm ≠ _; decide))

/-- A flash that is blank, after a reset. -/
def blankErasable : NandPort erasableFlash :=
  NandPort.nandReset ⟨0, ⟨fun _ _ ↦ 0xFF, 0, 0, 0, 0, fun _ ↦ none⟩⟩

end Ertos
