import Ertos.Dev.Nand

/-!
# A NAND flash

A chip that does what the data sheet says. It collects the bytes to be programmed in a register, and
programming can only clear bits.
-/

namespace Ertos

open NandChip

structure Flash where
  cells : ℕ → ℕ → UInt8
  cmd : UInt8
  /-- How many bytes of an address have come. -/
  addressed : ℕ
  col : ℕ
  page : ℕ
  /-- The bytes to be programmed. -/
  register : ℕ → Option UInt8

namespace Flash

def writeCommand (s : Flash) (b : UInt8) : Flash :=
  if b = nandCmdProgramPageConfirm then
    { s with cells := Function.update s.cells s.page fun c ↦
        s.cells s.page c &&& (s.register c).getD 0xFF }
  else if b = nandCmdProgramPage then { s with cmd := b, addressed := 0, register := fun _ ↦ none }
  else { s with cmd := b, addressed := 0 }

def writeAddress (s : Flash) (b : UInt8) : Flash :=
  match s.addressed with
  | 0 => { s with addressed := 1, col := b.toNat }
  | 1 => { s with addressed := 2, col := s.col + 256 * b.toNat }
  | 2 => { s with addressed := 3, page := b.toNat }
  | 3 => { s with addressed := 4, page := s.page + 256 * b.toNat }
  | _ => { s with addressed := 5, page := s.page + 65536 * b.toNat }

def writeData (s : Flash) (b : UInt8) : Flash :=
  { s with register := Function.update s.register s.col (some b), col := s.col + 1 }

def write (s : Flash) (lines b : UInt8) : Flash :=
  if lines = nandCtrlNce ||| nandCtrlCle then s.writeCommand b
  else if lines = nandCtrlNce ||| nandCtrlAle then s.writeAddress b
  else s.writeData b

/-- The status is that of a chip that is ready and not protected. -/
def read (s : Flash) (_ : UInt8) : UInt8 × Flash :=
  if s.cmd = nandCmdReadStatus then (0xC0, s)
  else (s.cells s.page s.col, { s with col := s.col + 1 })

end Flash

/-- The part of a page number that is in an address. -/
def flashPage (page : UInt32) : ℕ := page.toNat % 2 ^ 24

abbrev flash : NandChip where
  State := Flash
  write := Flash.write
  read := Flash.read
  cell s page c := s.cells (flashPage page) c
  Ready _ := True

namespace Flash

variable (s : Flash)

theorem run_command (b : UInt8) : flash.run s [command b] = s.writeCommand b := rfl

theorem toNat_colBytes {col : ℕ} (hcol : col < 2 ^ 16) :
    (UInt8.ofNat (col &&& 0xFF)).toNat + 256 * (UInt8.ofNat (col >>> 8 &&& 0xFF)).toNat = col := by
  have hlow := fun x ↦ Nat.and_two_pow_sub_one_eq_mod x 8
  rw [UInt8.toNat_ofNat', UInt8.toNat_ofNat', hlow, hlow, Nat.shiftRight_eq_div_pow]
  omega

theorem toNat_pageBytes (page : UInt32) :
    (page &&& 0xFF).toUInt8.toNat + 256 * (page >>> 8 &&& 0xFF).toUInt8.toNat
      + 65536 * (page >>> 8 >>> 8 &&& 0xFF).toUInt8.toNat = flashPage page := by
  have hlow := fun x ↦ Nat.and_two_pow_sub_one_eq_mod x 8
  have hbyte : ∀ x : UInt32, (x &&& 0xFF).toUInt8.toNat = x.toNat % 256 := by
    intro x
    rw [UInt32.toNat_toUInt8, UInt32.toNat_and]
    show (x.toNat &&& 2 ^ 8 - 1) % 256 = _
    rw [hlow, Nat.mod_mod]
  have hshift : ∀ x : UInt32, (x >>> 8).toNat = x.toNat / 256 := by
    intro x
    rw [UInt32.toNat_shiftRight]
    exact Nat.shiftRight_eq_div_pow _ _
  simp only [hbyte, hshift]
  unfold flashPage
  omega

theorem run_colBytes {col : ℕ} (hcol : col < 2 ^ 16) (h : s.addressed = 0) :
    flash.run s ((nandColBytes col).map address) = { s with addressed := 2, col := col } := by
  obtain ⟨cells, cmd, addressed, col₀, page, register⟩ := s
  subst h
  exact congrArg (Flash.mk cells cmd 2 · page register) (toNat_colBytes hcol)

theorem run_pageBytes (page : UInt32) (h : s.addressed = 2) :
    flash.run s ((nandPageBytes page).map address) =
      { s with addressed := 5, page := flashPage page } := by
  obtain ⟨cells, cmd, addressed, col, page₀, register⟩ := s
  subst h
  exact congrArg (Flash.mk cells cmd 5 col · register) (toNat_pageBytes page)

theorem run_data (l : List UInt8) : flash.run s (l.map data) =
    { s with
      register := fun c ↦ (pieceAt s.col l c).or (s.register c)
      col := s.col + l.length } := by
  induction l generalizing s with
  | nil =>
    have hnone : ∀ c, pieceAt s.col [] c = none := fun c ↦ pieceAt_eq_none (by simp)
    simp only [hnone, Option.none_or]
    rfl
  | cons b l ih =>
    have hcol : s.col + 1 + l.length = s.col + (b :: l).length := by
      rw [List.length_cons]
      omega
    have hreg : ∀ c, (pieceAt (s.col + 1) l c).or (Function.update s.register s.col (some b) c)
        = (pieceAt s.col (b :: l) c).or (s.register c) := by
      intro c
      by_cases hc : c = s.col
      · have hhead : pieceAt s.col (b :: l) s.col = some b := pieceAt_add s.col (b :: l) 0
        rw [hc, pieceAt_eq_none (by omega), hhead, Function.update_self, Option.none_or,
          Option.some_or]
      · rw [pieceAt_cons_of_ne hc, Function.update_of_ne hc]
    refine (ih (s.writeData b)).trans ?_
    rw [← hcol, ← funext hreg]
    rfl

theorem run_program (page : UInt32) {col col' : ℕ} (hcol : col < 2 ^ 16) (hcol' : col' < 2 ^ 16)
    (l l' : List UInt8) : (flash.run s (programCycles page col l col' l')).cells =
      Function.update s.cells (flashPage page) fun c ↦
        s.cells (flashPage page) c &&& ((pieceAt col' l' c).or (pieceAt col l c)).getD 0xFF := by
  have hprogram : ∀ s : Flash, s.writeCommand nandCmdProgramPage =
      { s with cmd := nandCmdProgramPage, addressed := 0, register := fun _ ↦ none } := by
    intro s
    rw [writeCommand, if_neg (by decide), if_pos rfl]
  have hrandom : ∀ s : Flash, s.writeCommand nandCmdRandomDataInput =
      { s with cmd := nandCmdRandomDataInput, addressed := 0 } := by
    intro s
    rw [writeCommand, if_neg (by decide), if_neg (by decide)]
  unfold programCycles
  rw [run_append, run_append, run_append, run_append, run_append, run_append, List.map_append,
    run_append, run_command, run_command, run_command, hprogram, run_colBytes _ hcol rfl,
    run_pageBytes _ _ rfl, run_data, hrandom, run_colBytes _ hcol' rfl, run_data, writeCommand,
    if_pos rfl]
  dsimp only
  simp only [Option.or_none]

theorem iterate_next (h : s.cmd ≠ nandCmdReadStatus) (i : ℕ) :
    flash.next^[i] s = { s with col := s.col + i } := by
  induction i with
  | zero => rfl
  | succ i ih =>
    rw [Function.iterate_succ_apply', ih]
    exact congrArg Prod.snd (if_neg h)

theorem run_load (page : UInt32) : flash.run s (loadCycles page) =
    { s with cmd := nandCmdReadConfirm, addressed := 0, col := 0, page := flashPage page } := by
  have hread : ∀ s : Flash,
      s.writeCommand nandCmdRead = { s with cmd := nandCmdRead, addressed := 0 } := by
    intro s
    rw [writeCommand, if_neg (by decide), if_neg (by decide)]
  have hconfirm : ∀ s : Flash,
      s.writeCommand nandCmdReadConfirm = { s with cmd := nandCmdReadConfirm, addressed := 0 } := by
    intro s
    rw [writeCommand, if_neg (by decide), if_neg (by decide)]
  have hcol : [0x00, 0x00] = nandColBytes 0 := rfl
  unfold loadCycles
  rw [run_append, run_append, List.map_append, run_append, run_command, run_command, hread, hcol,
    run_colBytes _ (by decide) rfl, run_pageBytes _ _ rfl, hconfirm]

theorem cells_status : (flash.status s).cells = s.cells := by
  have hstatus : s.writeCommand nandCmdReadStatus =
      { s with cmd := nandCmdReadStatus, addressed := 0 } := by
    rw [writeCommand, if_neg (by decide), if_neg (by decide)]
  rw [NandChip.status, run_command, hstatus, next]
  show (read _ _).2.cells = _
  rw [read, if_pos rfl]

end Flash

/-- **The chip is as documented.** -/
theorem flash_documented : flash.Documented where
  ready_reset _ := trivial
  ready_program _ _ _ := trivial
  cell_program {s page col l col' l'} _ hfits hfits' c b herased hb := by
    unfold nandRawPageSize at hfits hfits'
    show (flash.run s (programCycles page col l col' l')).cells (flashPage page) c = b
    have hcell : s.cells (flashPage page) c = -1 := herased
    rw [s.run_program page (by omega) (by omega), Function.update_self, hcell, hb, Option.getD_some,
      UInt8.neg_one_and]
  cell_program_of_none {s page col l col' l'} _ hfits hfits' c hnone' hnone := by
    unfold nandRawPageSize at hfits hfits'
    show (flash.run s (programCycles page col l col' l')).cells (flashPage page) c = _
    rw [s.run_program page (by omega) (by omega), Function.update_self, hnone, hnone',
      Option.or_none, Option.getD_none]
    exact UInt8.and_neg_one
  ready_status _ := trivial
  cell_status {s page c} _ := congrFun (congrFun s.cells_status (flashPage page)) c
  read_load {s page i} _ _ := by
    rw [s.run_load, Flash.iterate_next _ (by show nandCmdReadConfirm ≠ _; decide)]
    show (Flash.read _ _).1 = s.cells (flashPage page) i
    rw [Flash.read, if_neg (by show nandCmdReadConfirm ≠ _; decide), Nat.zero_add]

/-- A bit of every page is flipped. -/
def Flash.flip (s : Flash) (c : ℕ) (k : Fin 8) : Flash :=
  { s with cells := fun page ↦ flipBit (s.cells page) c k }

/-- A flash that is blank, after a reset. -/
def blankFlash : NandPort flash :=
  NandPort.nandReset ⟨0, ⟨fun _ _ ↦ 0xFF, 0, 0, 0, 0, fun _ ↦ none⟩⟩

end Ertos
