import Ertos.Dev.HammingCorrect
import Ertos.Net.PktBytes

/-!
# The driver of the NAND flash

`nand_reset`, `nand_write_sector` and `nand_read_page` of `dev/nand.c`. The driver sets the latch
enables of the chip in a control register and passes bytes through a data register, so the chip sees
cycles: a byte that is a command, a part of an address, or data.

The chip itself is a parameter, and `Documented` is what its data sheet says about the sequences of
cycles that the driver uses. Waiting for the chip is left out.
-/

namespace Ertos

open Bits LinearCode

/-! ## The chip -/

def nandCtrlAle : UInt8 := 1

def nandCtrlCle : UInt8 := 2

def nandCtrlNce : UInt8 := 4

def nandCtrlMask : UInt8 := 0x03

def nandCmdRead : UInt8 := 0x00

def nandCmdProgramPageConfirm : UInt8 := 0x10

def nandCmdReadConfirm : UInt8 := 0x30

def nandCmdReadStatus : UInt8 := 0x70

def nandCmdProgramPage : UInt8 := 0x80

def nandCmdRandomDataInput : UInt8 := 0x85

def nandCmdReset : UInt8 := 0xFF

def nandRawPageSize : ℕ := 2112

def nandPageSize : ℕ := 2048

/-- The lines of the control register that lead to the chip. -/
def nandLines (ctrl : UInt8) : UInt8 := ctrl &&& (nandCtrlNce ||| nandCtrlCle ||| nandCtrlAle)

structure NandChip where
  State : Type
  /-- A byte is written, with the lines as given. -/
  write : State → UInt8 → UInt8 → State
  /-- A byte is read, with the lines as given. -/
  read : State → UInt8 → UInt8 × State
  /-- The byte that is stored in a column of a page. -/
  cell : State → UInt32 → ℕ → UInt8
  /-- The chip waits for a command. -/
  Ready : State → Prop

/-- The bytes of a column in an address. -/
def nandColBytes (col : ℕ) : List UInt8 :=
  [UInt8.ofNat (col &&& 0xFF), UInt8.ofNat (col >>> 8 &&& 0xFF)]

/-- The bytes of a page in an address. -/
def nandPageBytes (page : UInt32) : List UInt8 :=
  [(page &&& 0xFF).toUInt8, (page >>> 8 &&& 0xFF).toUInt8, (page >>> 8 >>> 8 &&& 0xFF).toUInt8]

namespace NandChip

/-- A byte, with the lines. -/
abbrev Cycle := UInt8 × UInt8

def command (b : UInt8) : Cycle := (nandCtrlNce ||| nandCtrlCle, b)

def address (b : UInt8) : Cycle := (nandCtrlNce ||| nandCtrlAle, b)

def data (b : UInt8) : Cycle := (nandCtrlNce, b)

/-- Programming a page with bytes for two places in it. -/
def programCycles (page : UInt32) (col : ℕ) (l : List UInt8) (col' : ℕ) (l' : List UInt8) :
    List Cycle :=
  [command nandCmdProgramPage] ++ (nandColBytes col ++ nandPageBytes page).map address ++ l.map data
    ++ [command nandCmdRandomDataInput] ++ (nandColBytes col').map address ++ l'.map data
    ++ [command nandCmdProgramPageConfirm]

/-- Fetching a page to be read from its first column. -/
def loadCycles (page : UInt32) : List Cycle :=
  [command nandCmdRead] ++ ([0x00, 0x00] ++ nandPageBytes page).map address
    ++ [command nandCmdReadConfirm]

/-- What bytes for the columns from `col` on have for a column. -/
def pieceAt (col : ℕ) (l : List UInt8) (c : ℕ) : Option UInt8 :=
  if col ≤ c then l[c - col]? else none

section Pieces

variable {col c : ℕ} {l : List UInt8}

theorem pieceAt_add (col : ℕ) (l : List UInt8) (i : ℕ) : pieceAt col l (col + i) = l[i]? := by
  rw [pieceAt, if_pos (Nat.le_add_right _ _), Nat.add_sub_cancel_left]

theorem pieceAt_eq_none (h : ¬(col ≤ c ∧ c < col + l.length)) : pieceAt col l c = none := by
  unfold pieceAt
  split_ifs with hle
  · exact List.getElem?_eq_none (by omega)
  · rfl

theorem pieceAt_cons_of_ne (h : c ≠ col) (b : UInt8) :
    pieceAt col (b :: l) c = pieceAt (col + 1) l c := by
  unfold pieceAt
  by_cases hle : col + 1 ≤ c
  · have hsub : c - col = c - (col + 1) + 1 := by omega
    rw [if_pos hle, if_pos (by omega), hsub, List.getElem?_cons_succ]
  · rw [if_neg hle, if_neg (by omega)]

end Pieces

variable (chip : NandChip)

def run (s : chip.State) (cycles : List Cycle) : chip.State :=
  cycles.foldl (fun s c ↦ chip.write s c.1 c.2) s

/-- The state after a byte was read. -/
def next (s : chip.State) : chip.State := (chip.read s nandCtrlNce).2

/-- Reading the status. -/
def status (s : chip.State) : chip.State := chip.next (chip.run s [command nandCmdReadStatus])

/-- The data sheet. -/
structure Documented : Prop where
  ready_reset : ∀ s, chip.Ready (chip.run s [command nandCmdReset])
  ready_program : ∀ {s page col l col' l'}, chip.Ready s → col + l.length ≤ nandRawPageSize →
    col' + l'.length ≤ nandRawPageSize → chip.Ready (chip.run s (programCycles page col l col' l'))
  /-- Programming writes bytes to erased columns. -/
  cell_program : ∀ {s page col l col' l'}, chip.Ready s → col + l.length ≤ nandRawPageSize →
    col' + l'.length ≤ nandRawPageSize → ∀ {c b}, chip.cell s page c = 0xFF →
    (pieceAt col' l' c).or (pieceAt col l c) = some b →
    chip.cell (chip.run s (programCycles page col l col' l')) page c = b
  /-- Other columns of the page are left alone. -/
  cell_program_of_none : ∀ {s page col l col' l'}, chip.Ready s → col + l.length ≤ nandRawPageSize →
    col' + l'.length ≤ nandRawPageSize → ∀ {c}, pieceAt col' l' c = none → pieceAt col l c = none →
    chip.cell (chip.run s (programCycles page col l col' l')) page c = chip.cell s page c
  ready_status : ∀ {s}, chip.Ready s → chip.Ready (chip.status s)
  cell_status : ∀ {s page c}, chip.Ready s → chip.cell (chip.status s) page c = chip.cell s page c
  /-- After a load the bytes of the page come one after the other. -/
  read_load : ∀ {s page i}, chip.Ready s → i < nandRawPageSize →
    (chip.read (chip.next^[i] (chip.run s (loadCycles page))) nandCtrlNce).1 = chip.cell s page i

variable {chip}

theorem run_append (s : chip.State) (l l' : List Cycle) :
    chip.run s (l ++ l') = chip.run (chip.run s l) l' := List.foldl_append

end NandChip

/-! ## The driver -/

/-- The control register and the chip. -/
structure NandPort (chip : NandChip) where
  ctrl : UInt8
  state : chip.State

namespace NandPort

open NandChip

variable {chip : NandChip} (p : NandPort chip)

def outbCtrl (b : UInt8) : NandPort chip := { p with ctrl := b }

def outbData (b : UInt8) : NandPort chip :=
  { p with state := chip.write p.state (nandLines p.ctrl) b }

def inbData : UInt8 × NandPort chip :=
  let r := chip.read p.state (nandLines p.ctrl)
  (r.1, { p with state := r.2 })

/-- The bytes in turn. -/
def outbList (l : List UInt8) : NandPort chip := l.foldl outbData p

def nandSelect : NandPort chip := p.outbCtrl (p.ctrl ||| nandCtrlNce)

def nandDeselect : NandPort chip := p.outbCtrl (p.ctrl &&& ~~~nandCtrlNce)

def nandCmd (cmd : UInt8) : NandPort chip :=
  let p := p.outbCtrl (p.ctrl ||| nandCtrlCle)
  let p := p.outbData cmd
  p.outbCtrl (p.ctrl &&& ~~~nandCtrlCle)

/-- The bytes between setting and clearing the address latch enable. -/
def outbAddress (l : List UInt8) : NandPort chip :=
  let p := p.outbCtrl (p.ctrl ||| nandCtrlAle)
  let p := p.outbList l
  p.outbCtrl (p.ctrl &&& ~~~nandCtrlAle)

def nandReset : NandPort chip :=
  let p := p.outbCtrl (p.ctrl &&& ~~~nandCtrlMask)
  let p := p.nandSelect
  let p := p.nandCmd nandCmdReset
  p.nandDeselect

def nandLoadPage (page : UInt32) : NandPort chip :=
  let p := p.nandCmd nandCmdRead
  let p := p.outbAddress ([0x00, 0x00] ++ nandPageBytes page)
  p.nandCmd nandCmdReadConfirm

/-- The loop that reads `n` bytes into the buffer. -/
def inbBytes (buf : Bytes) (n : ℕ) : Bytes × NandPort chip :=
  loop (fun i r ↦
    let b := r.2.inbData
    (Function.update r.1 i b.1, b.2)) n (buf, p)

/-- The loop that checks the blocks. What is returned for each is printed. -/
def nandCheckEcc (buf : Bytes) (n : ℕ) : Bytes × List UInt8 :=
  loop (fun i r ↦
    let ecc := hammingCompute256 r.1 (i * 256)
    let c := hammingCorrect256 r.1 (i * 256) (eccAt r.1 (nandPageSize + 40 + i * 3)) ecc
    (c.1, r.2 ++ [c.2])) n (buf, [])

/-- The buffer with what is printed, and the port. -/
def nandReadPage (page : UInt32) (buf : Bytes) : (Bytes × List UInt8) × NandPort chip :=
  let p := p.nandSelect
  let p := p.nandLoadPage page
  let r := p.inbBytes buf nandRawPageSize
  let p := r.2.nandDeselect
  (nandCheckEcc r.1 8, p)

def nandReadStatus : UInt8 × NandPort chip := (p.nandCmd nandCmdReadStatus).inbData

def nandRandomDataInput (col : ℕ) : NandPort chip :=
  let p := p.nandCmd nandCmdRandomDataInput
  p.outbAddress (nandColBytes col)

/-- The status, and the port. -/
def nandWriteSector (page : UInt32) (sect : ℕ) (buf : Bytes) : UInt8 × NandPort chip :=
  let ecc1 := hammingCompute256 buf 0
  let ecc2 := hammingCompute256 buf 256
  let p := p.nandSelect
  let p := p.nandCmd nandCmdProgramPage
  let col := sect * 512
  let p := p.outbAddress (nandColBytes col ++ nandPageBytes page)
  let p := p.outbList (bytesOf buf 512)
  let p := p.nandRandomDataInput (nandPageSize + 40 + sect * 6)
  let p := p.outbList (ecc1.bytes ++ ecc2.bytes)
  let p := p.nandCmd nandCmdProgramPageConfirm
  let r := p.nandReadStatus
  (r.1, r.2.nandDeselect)

/-! ## Cycles -/

/-- No latch is enabled, and the chip waits for a command: the port between two calls. -/
structure Idle : Prop where
  ctrl_eq : p.ctrl &&& nandCtrlMask = 0
  ready : chip.Ready p.state

theorem ctrl_latch {c : UInt8} (h : nandLines c = nandCtrlNce) :
    (nandLines (c ||| nandCtrlCle) = nandCtrlNce ||| nandCtrlCle ∧
      (c ||| nandCtrlCle) &&& ~~~nandCtrlCle = c) ∧
    nandLines (c ||| nandCtrlAle) = nandCtrlNce ||| nandCtrlAle ∧
      (c ||| nandCtrlAle) &&& ~~~nandCtrlAle = c := by
  have hlines : ∀ m, nandLines m = m → nandLines (c ||| m) = nandCtrlNce ||| m := by
    intro m hm
    rw [nandLines, or_and]
    exact congrArg₂ (· ||| ·) h hm
  have hclear : ∀ m, nandLines m = m → nandCtrlNce &&& m = 0 → c &&& m = 0 := by
    intro m hm hne
    calc c &&& m = c &&& nandLines m := by rw [hm]
      _ = nandLines c &&& m := by rw [nandLines, nandLines, UInt8.and_assoc, UInt8.and_comm m]
      _ = 0 := by rw [h, hne]
  exact ⟨⟨hlines _ rfl, or_and_not (hclear _ rfl rfl)⟩,
    hlines _ rfl, or_and_not (hclear _ rfl rfl)⟩

theorem ctrl_select {c : UInt8} (h : c &&& nandCtrlMask = 0) :
    nandLines (c ||| nandCtrlNce) = nandCtrlNce ∧
      ((c ||| nandCtrlNce) &&& ~~~nandCtrlNce) &&& nandCtrlMask = 0 := by
  have hall : nandCtrlNce ||| nandCtrlCle ||| nandCtrlAle = nandCtrlMask ||| nandCtrlNce := rfl
  have hrest : ~~~nandCtrlNce &&& nandCtrlMask = nandCtrlMask := rfl
  constructor
  · rw [nandLines, or_and, hall, and_or, h, UInt8.zero_or]
    exact and_or_absorb c nandCtrlNce
  · rw [UInt8.and_assoc, hrest, or_and, h]
    rfl

theorem ctrl_clear (c : UInt8) : (c &&& ~~~nandCtrlMask) &&& nandCtrlMask = 0 := by
  rw [UInt8.and_assoc, UInt8.not_and_self, UInt8.and_zero]

section Selected

variable {c : UInt8} (hc : nandLines c = nandCtrlNce) (s : chip.State)

include hc

theorem nandCmd_mk (cmd : UInt8) : nandCmd ⟨c, s⟩ cmd = ⟨c, chip.run s [command cmd]⟩ := by
  obtain ⟨⟨hlines, hback⟩, _⟩ := ctrl_latch hc
  show NandPort.mk ((c ||| nandCtrlCle) &&& ~~~nandCtrlCle)
    (chip.write s (nandLines (c ||| nandCtrlCle)) cmd) = _
  rw [hback, hlines]
  rfl

omit hc in
theorem outbList_mk (l : List UInt8) :
    outbList ⟨c, s⟩ l = ⟨c, chip.run s (l.map (nandLines c, ·))⟩ := by
  induction l generalizing s with
  | nil => rfl
  | cons b l ih => exact ih _

theorem outbAddress_mk (l : List UInt8) :
    outbAddress ⟨c, s⟩ l = ⟨c, chip.run s (l.map address)⟩ := by
  obtain ⟨_, hlines, hback⟩ := ctrl_latch hc
  have hlist := outbList_mk (c := c ||| nandCtrlAle) s l
  rw [hlines] at hlist
  show outbCtrl (outbList ⟨c ||| nandCtrlAle, s⟩ l)
    ((outbList ⟨c ||| nandCtrlAle, s⟩ l).ctrl &&& ~~~nandCtrlAle) = _
  rw [hlist]
  show NandPort.mk ((c ||| nandCtrlAle) &&& ~~~nandCtrlAle) _ = _
  rw [hback]
  rfl

theorem outbList_data (l : List UInt8) : outbList ⟨c, s⟩ l = ⟨c, chip.run s (l.map data)⟩ := by
  rw [outbList_mk, hc]
  rfl

theorem inbData_mk :
    inbData ⟨c, s⟩ = ((chip.read s nandCtrlNce).1, (⟨c, chip.next s⟩ : NandPort chip)) := by
  rw [inbData, hc]
  rfl

theorem inbBytes_mk (buf : Bytes) (n : ℕ) : inbBytes ⟨c, s⟩ buf n =
    (fun i ↦ if i < n then (chip.read (chip.next^[i] s) nandCtrlNce).1 else buf i,
      (⟨c, chip.next^[n] s⟩ : NandPort chip)) := by
  unfold inbBytes
  induction n with
  | zero => rfl
  | succ n ih =>
    rw [loop, ih]
    dsimp only
    rw [inbData_mk hc, Function.iterate_succ_apply']
    refine Prod.ext (funext fun i ↦ ?_) rfl
    dsimp only
    rcases Nat.lt_trichotomy i n with hlt | rfl | hgt
    · rw [Function.update_of_ne (by omega), if_pos hlt, if_pos (by omega)]
    · rw [Function.update_self, if_pos (by omega)]
    · rw [Function.update_of_ne (by omega), if_neg (by omega), if_neg (by omega)]

end Selected

variable {p}

theorem nandReset_eq : p.nandReset =
    { ctrl := ((p.ctrl &&& ~~~nandCtrlMask) ||| nandCtrlNce) &&& ~~~nandCtrlNce
      state := chip.run p.state [command nandCmdReset] } := by
  have hlines := (ctrl_select (ctrl_clear p.ctrl)).1
  exact congrArg nandDeselect (nandCmd_mk hlines p.state nandCmdReset)

theorem idle_nandReset (hchip : chip.Documented) (p : NandPort chip) : p.nandReset.Idle := by
  rw [nandReset_eq]
  exact ⟨(ctrl_select (ctrl_clear p.ctrl)).2, hchip.ready_reset p.state⟩

/-- **Writing a sector** programs its bytes and its codes, and reads the status. -/
theorem Idle.nandWriteSector_eq (h : p.Idle) (page : UInt32) (sect : ℕ) (buf : Bytes) :
    (p.nandWriteSector page sect buf).2 =
      { ctrl := (p.ctrl ||| nandCtrlNce) &&& ~~~nandCtrlNce
        state := chip.status (chip.run p.state (programCycles page (sect * 512) (bytesOf buf 512)
          (nandPageSize + 40 + sect * 6)
          ((hammingCompute256 buf 0).bytes ++ (hammingCompute256 buf 256).bytes))) } := by
  obtain ⟨c, s⟩ := p
  have hc := (ctrl_select h.ctrl_eq).1
  unfold nandWriteSector nandRandomDataInput nandReadStatus nandSelect nandDeselect outbCtrl
  simp only [nandCmd_mk hc, outbAddress_mk hc, outbList_data hc, inbData_mk hc, programCycles,
    run_append, NandChip.status]

theorem Idle.nandReadPage_eq (h : p.Idle) (page : UInt32) (buf : Bytes) :
    (p.nandReadPage page buf).1 = nandCheckEcc
      (fun i ↦ if i < nandRawPageSize then
        (chip.read (chip.next^[i] (chip.run p.state (loadCycles page))) nandCtrlNce).1
      else buf i) 8 := by
  obtain ⟨c, s⟩ := p
  have hc := (ctrl_select h.ctrl_eq).1
  unfold nandReadPage nandLoadPage nandSelect outbCtrl
  simp only [nandCmd_mk hc, outbAddress_mk hc, inbBytes_mk hc, loadCycles, run_append]

end NandPort

end Ertos
