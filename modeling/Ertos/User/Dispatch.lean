import Ertos.Dev.GetsEdit
import Ertos.Dev.Hub
import Ertos.User.Console

/-!
# The console

`console_task` of `user/console.c` reads a line with `gets`, breaks it up into words, and
`handle_command` looks the first word up in `commands` with `strcmp`. This file puts the three
together: what the console does with everything that is typed at it, line after line.

Not all of it gets into a line. At boot and after `exit` a ticker shows until a key is pressed, and
the characters that are then in the FIFO are lost; and two of the commands ask for characters
themselves.

Of a round nothing is left to the next one but the input and `ticker_done`. `c` in `gets` and `buf`
are variables on the stack that are not initialised, and a command may do anything to the output; so
the theorem is about arbitrary ones in every round.
-/

namespace Ertos

open ConsRead Words ConsoleTask

/-! ## Commands -/

inductive CommandFunc
  | cmdHelp
  | cmdAlarm
  | cmdArp
  | cmdDumpmem
  | cmdExit
  | cmdHmm
  | cmdIfconfig
  | cmdKstat
  | cmdNand
  | cmdNetstat
  | cmdPs
  | cmdReset
  | cmdSpi
  | cmdUsb
deriving DecidableEq

/-- The command calls `getchar`, once a screen or before it erases a block. -/
def CommandFunc.asks : CommandFunc → Bool
  | .cmdHmm => true
  | .cmdNand => true
  | _ => false

structure Command where
  name : CString
  func : CommandFunc

/-- `CONFIG_NET`, `CONFIG_NAND`, `CONFIG_SPI` and `CONFIG_USB`. -/
structure Config where
  net : Bool
  nand : Bool
  spi : Bool
  usb : Bool

/-- The table, without the descriptions and the entry that ends it. -/
def commands (cfg : Config) : List Command :=
  [⟨⟨strBytes "?", ne_zero_of_all rfl⟩, .cmdHelp⟩,
    ⟨⟨strBytes "alarm", ne_zero_of_all rfl⟩, .cmdAlarm⟩] ++
  (if cfg.net then [⟨⟨strBytes "arp", ne_zero_of_all rfl⟩, .cmdArp⟩] else []) ++
  [⟨⟨strBytes "dumpmem", ne_zero_of_all rfl⟩, .cmdDumpmem⟩,
    ⟨⟨strBytes "exit", ne_zero_of_all rfl⟩, .cmdExit⟩,
    ⟨⟨strBytes "help", ne_zero_of_all rfl⟩, .cmdHelp⟩] ++
  (if cfg.spi then [⟨⟨strBytes "hmm", ne_zero_of_all rfl⟩, .cmdHmm⟩] else []) ++
  (if cfg.net then [⟨⟨strBytes "ifconfig", ne_zero_of_all rfl⟩, .cmdIfconfig⟩] else []) ++
  [⟨⟨strBytes "kstat", ne_zero_of_all rfl⟩, .cmdKstat⟩] ++
  (if cfg.nand then [⟨⟨strBytes "nand", ne_zero_of_all rfl⟩, .cmdNand⟩] else []) ++
  (if cfg.net then [⟨⟨strBytes "netstat", ne_zero_of_all rfl⟩, .cmdNetstat⟩] else []) ++
  [⟨⟨strBytes "ps", ne_zero_of_all rfl⟩, .cmdPs⟩,
    ⟨⟨strBytes "reset", ne_zero_of_all rfl⟩, .cmdReset⟩] ++
  (if cfg.spi then [⟨⟨strBytes "spi", ne_zero_of_all rfl⟩, .cmdSpi⟩] else []) ++
  (if cfg.usb then [⟨⟨strBytes "usb", ne_zero_of_all rfl⟩, .cmdUsb⟩] else [])

/-- The loop of `handle_command`, unless `strcmp` reads behind a string. -/
def findCommand : List Command → CString → Option (Option Command)
  | [], _ => some none
  | cmd :: cmds, argv0 =>
    (strcmp cmd.name argv0).bind fun r ↦
      if r = 0 then some (some cmd) else findCommand cmds argv0

/-- What a round of `console_task` does with a line. -/
inductive ConsoleEvent
  /-- `puts("error reading string")`. -/
  | errorReading
  /-- An empty string is ignored. -/
  | emptyString
  /-- There is no argument. -/
  | noArgument
  /-- A command is called, with the strings in `argv`. -/
  | called (func : CommandFunc) (argv : List (List UInt8))
  /-- `printf("unknown command: %s\r\n", argv[0])`. -/
  | unknown (argv0 : List UInt8)
  /-- A pointer is stored behind `argv`: what follows is not known. -/
  | overrun

def handleCommand (cmds : List Command) (argv : List CString) : Option ConsoleEvent :=
  argv.head?.bind fun argv0 ↦ (findCommand cmds argv0).map fun
    | some cmd => .called cmd.func (argv.map CString.chars)
    | none => .unknown argv0.chars

/-- The string at a pointer, of less than `n` characters. -/
def cstringAt : ℕ → Bytes → ℕ → Option CString
  | 0, _, _ => none
  | n + 1, buf, p =>
    if h : buf p = 0 then some ⟨[], List.forall_mem_nil _⟩
    else (cstringAt n buf (p + 1)).map fun s ↦
      ⟨buf p :: s.chars, List.forall_mem_cons.mpr ⟨h, s.ne_zero⟩⟩

/-! ## Input that is in no line -/

/-- `sizeof(buf)` in `cmd_ticker`. -/
def tickerBufSize : ℕ := 128

/-- A read of up to `n` characters. -/
def dropBytes : ℕ → List ConsRead → List ConsRead
  | n + 1, .byte _ :: input => dropBytes n input
  | _, input => input

/-- `cmd_ticker`, by the input it leaves. It goes on until a read returns characters: the first that
comes, and of the `behind` ones that are behind it in the FIFO those that have room in `buf`. -/
def cmdTicker (behind : ℕ) : List ConsRead → Option (List ConsRead)
  | [] => none
  | .byte _ :: input => some (dropBytes (min behind (tickerBufSize - 1)) input)
  | _ :: input => cmdTicker behind input

/-- `getchar`, by the input it leaves. -/
def getchar : List ConsRead → Option (List ConsRead)
  | [] => none
  | .empty :: input => getchar input
  | _ :: input => some input

/-- Calls of `getchar`. -/
def getchars : ℕ → List ConsRead → Option (List ConsRead)
  | 0, input => some input
  | n + 1, input => (getchar input).bind (getchars n)

namespace ConsoleEvent

/-- What is left when the command returns, which calls `getchar` `n` times. -/
def leaves (n : ℕ) (input : List ConsRead) : ConsoleEvent → Option (List ConsRead)
  | .called func _ => if func.asks then getchars n input else some input
  | _ => some input

/-- `ticker_done` after the round. -/
def tickerDone : ConsoleEvent → Bool
  | .called .cmdExit _ => false
  | _ => true

/-- There is a next round. `reset` does not return, and other commands need not. -/
def goesOn (returns : Bool) : ConsoleEvent → Bool
  | .overrun => false
  | .called func _ => returns && func ≠ .cmdReset
  | _ => true

end ConsoleEvent

/-! ## The loop of the console -/

/-- `sizeof(buf)`. -/
def consoleBufSize : ℕ := 128

/-- What a round finds: the characters behind the one that stops the ticker, `c` in `gets`, the
stream, `buf`, and what the command does. -/
structure Frame where
  behind : ℕ
  c : UInt8
  io : StdioLog
  buf : Bytes
  /-- How often the command calls `getchar`, if it does. -/
  asks : ℕ
  /-- The command returns. -/
  returns : Bool

/-- A line, and the input behind it. Without a whole line the console goes on reading. -/
def consoleLine (cmds : List Command) (f : Frame) (input : List ConsRead) :
    Option (ConsoleEvent × List ConsRead) :=
  let rest := unread f.c f.io f.buf consoleBufSize input
  match gets f.c f.io f.buf consoleBufSize input with
  | .reading _ => none
  | .null _ => some (.errorReading, rest)
  | .line g =>
    if g.buf 0 = 0 then some (.emptyString, rest)
    else (arguments (consoleBufSize + 1) g.buf).bind fun
      | .overrun => some (.overrun, rest)
      | .stored t =>
        if t.argv.length = 0 then some (.noArgument, rest)
        else ((t.argv.mapM (cstringAt consoleBufSize t.buf)).bind (handleCommand cmds)).map
          fun e ↦ (e, rest)

/-- A round, and the input it leaves. -/
def consoleRound (cmds : List Command) (tickerDone : Bool) (f : Frame) (input : List ConsRead) :
    Option (ConsoleEvent × List ConsRead) :=
  (if tickerDone then some input else cmdTicker f.behind input).bind fun typed ↦
    (consoleLine cmds f typed).bind fun r ↦
      (r.1.leaves f.asks r.2).map fun rest ↦ (r.1, rest)

/-- The rounds of a run, up to the one that overruns `argv` or calls a command for good. The run
starts with `ticker_done` zero. -/
def consoleTask (cmds : List Command) :
    Bool → List Frame → List ConsRead → Option (List ConsoleEvent × List ConsRead)
  | _, [], input => some ([], input)
  | tickerDone, f :: fs, input => (consoleRound cmds tickerDone f input).bind fun r ↦
    if r.1.goesOn f.returns then
      (consoleTask cmds r.1.tickerDone fs r.2).map fun t ↦ (r.1 :: t.1, t.2)
    else some ([r.1], r.2)

/-! ## Lines -/

/-- `getchar` returns. -/
def ConsRead.isAnswer : ConsRead → Bool
  | .empty => false
  | _ => true

/-- What is typed during a round: characters that stop the ticker, keys and then a line end or an
error, and answers to the command. -/
structure Typed where
  frame : Frame
  polls : List ConsRead
  burst : List UInt8
  keys : List ConsRead
  ending : ConsRead
  answers : List ConsRead

namespace Typed

def input (l : Typed) : List ConsRead := l.keys ++ [l.ending]

/-- The line that is read ends at the first NUL that was typed. -/
def line (l : Typed) : List UInt8 := (edited l.keys).takeWhile fun c ↦ c ≠ 0

/-- The lines for which `gets` keeps to its buffer and `argv` holds the words. -/
structure Fits (l : Typed) : Prop where
  polls : ∀ r ∈ l.polls, r.isByte = false
  /-- The ticker reads what is there, up to the size of its buffer. -/
  burst : l.burst.length = min l.frame.behind (tickerBufSize - 1) + 1
  isKey : ∀ r ∈ l.keys, r.Key
  ending : l.ending = .error ∨ ∃ c, l.ending = .byte c ∧ LineEnd c
  room : l.keys.countP isStored < consoleBufSize
  /-- `gets` does not end at once on what is in `c`. -/
  starts : LineEnd l.frame.c → l.input.head? ≠ some .empty
  few : (wordsBy isspace l.line).length ≤ maxArgs
  answers : l.answers.countP isAnswer = l.frame.asks
  /-- What comes after the last answer is for the next round. -/
  answered : l.answers.getLast? ≠ some .empty

/-- What the console is to do with a line. -/
def outcome (cmds : List Command) (l : Typed) : ConsoleEvent :=
  match l.ending with
  | .byte _ =>
    match wordsBy isspace l.line with
    | [] => if l.line = [] then .emptyString else .noArgument
    | w :: ws =>
      match cmds.find? fun cmd ↦ cmd.name.chars = w with
      | some cmd => .called cmd.func (w :: ws)
      | none => .unknown w
  | _ => .errorReading

/-- The answers, if the command asks for any. -/
def asked (cmds : List Command) (l : Typed) : List ConsRead :=
  match l.outcome cmds with
  | .called func _ => if func.asks then l.answers else []
  | _ => []

/-- What is read in the round. -/
def reads (cmds : List Command) (tickerDone : Bool) (l : Typed) : List ConsRead :=
  (if tickerDone then [] else l.polls ++ l.burst.map .byte) ++ l.input ++ l.asked cmds

end Typed

/-- The lines up to the first with a command that does not return. -/
def untilGone (cmds : List Command) : List Typed → List Typed
  | [] => []
  | l :: ls => l :: if (l.outcome cmds).goesOn l.frame.returns then untilGone cmds ls else []

/-- What is read in a run. -/
def sessionInput (cmds : List Command) : Bool → List Typed → List ConsRead
  | _, [] => []
  | tickerDone, l :: ls =>
    l.reads cmds tickerDone ++ sessionInput cmds (l.outcome cmds).tickerDone ls

/-! ## The table -/

/-- `strcmp` finds out whether strings are equal, if they are not both empty. -/
theorem strcmp_eq_zero_iff {a b : CString} (hne : a.chars ≠ [] ∨ b.chars ≠ []) :
    ∃ r, strcmp a b = some r ∧ (r = 0 ↔ a.chars = b.chars) := by
  refine ⟨_, strcmp_eq hne, ?_⟩
  by_cases hfirst : b.chars < a.chars ∨ Extends a.chars b.chars
  · have hdiff : a.chars ≠ b.chars := by
      intro heq
      obtain hlt | hext := hfirst
      · exact List.lt_irrefl _ (heq ▸ hlt)
      · exact hext.2.2 heq
    rw [if_pos hfirst]
    exact iff_of_false one_ne_zero hdiff
  · rw [if_neg hfirst]
    by_cases heq : a.chars = b.chars
    · rw [if_pos heq]
      exact iff_of_true rfl heq
    · rw [if_neg heq]
      exact iff_of_false (by decide) heq

theorem findCommand_eq (cmds : List Command) {argv0 : CString} (hne : argv0.chars ≠ []) :
    findCommand cmds argv0 = some (cmds.find? fun cmd ↦ cmd.name.chars = argv0.chars) := by
  induction cmds with
  | nil => rfl
  | cons cmd cmds ih =>
    obtain ⟨r, hr, hzero⟩ := strcmp_eq_zero_iff (a := cmd.name) (.inr hne)
    rw [findCommand, hr, Option.bind_some, List.find?_cons]
    by_cases heq : cmd.name.chars = argv0.chars
    · rw [if_pos (hzero.mpr heq), decide_eq_true heq]
    · rw [if_neg (mt hzero.mp heq), decide_eq_false heq]
      exact ih

/-! ## Strings in the buffer -/

section Buffer

variable {buf : Bytes} {p n : ℕ} {l : List UInt8}

theorem cstringAt_eq (hat : StringAt buf p l) (hl : ∀ c ∈ l, c ≠ 0) (hn : l.length < n) :
    cstringAt n buf p = some ⟨l, hl⟩ := by
  induction l generalizing p n with
  | nil =>
    obtain ⟨n, rfl⟩ := Nat.exists_eq_add_one_of_ne_zero (Nat.ne_zero_of_lt hn)
    have hzero : buf p = 0 := hat
    rw [cstringAt, dif_pos hzero]
  | cons c l ih =>
    obtain ⟨n, rfl⟩ := Nat.exists_eq_add_one_of_ne_zero (Nat.ne_zero_of_lt hn)
    obtain ⟨rfl, htail⟩ := hat
    rw [List.forall_mem_cons] at hl
    rw [cstringAt, dif_neg hl.1, ih htail hl.2 (Nat.lt_of_succ_lt_succ hn)]
    rfl

theorem stringAt_takeWhile (hl : ∀ i : ℕ, (h : i < l.length) → buf (p + i) = l[i])
    (hnul : buf (p + l.length) = 0) : StringAt buf p (l.takeWhile fun c ↦ c ≠ 0) := by
  induction l generalizing p with
  | nil => exact hnul
  | cons c l ih =>
    have hhead : buf p = c := hl 0 (Nat.succ_pos _)
    rw [List.takeWhile_cons]
    by_cases hc : c = 0
    · rw [if_neg (by simp [hc])]
      exact hhead.trans hc
    · rw [if_pos (by simp [hc])]
      refine ⟨hhead, ih (fun i hi ↦ ?_) ?_⟩
      · have htail := hl (i + 1) (Nat.succ_lt_succ hi)
        rwa [Nat.add_left_comm, Nat.add_comm] at htail
      · rwa [List.length_cons, Nat.add_left_comm, Nat.add_comm] at hnul

theorem stringAt_of_bytesOf (hl : bytesOf buf l.length = l) (hnul : buf l.length = 0) :
    StringAt buf 0 (l.takeWhile fun c ↦ c ≠ 0) := by
  refine stringAt_takeWhile (fun i hi ↦ ?_) (by rwa [Nat.zero_add])
  rw [Nat.zero_add, List.getElem_of_eq hl.symm hi]
  simp only [bytesOf, List.getElem_map, List.getElem_range]

theorem mapM_cstringAt {ptrs : List ℕ} {ws : List (List UInt8)}
    (h : List.Forall₂ (StringAt buf) ptrs ws) (hws : ∀ w ∈ ws, (∀ c ∈ w, c ≠ 0) ∧ w.length < n) :
    ∃ argv, ptrs.mapM (cstringAt n buf) = some argv ∧ argv.map CString.chars = ws := by
  induction h with
  | nil => exact ⟨[], rfl, rfl⟩
  | cons hat hrest ih =>
    rw [List.forall_mem_cons] at hws
    obtain ⟨argv, hargv, hmap⟩ := ih hws.2
    refine ⟨⟨_, hws.1.1⟩ :: argv, ?_, by rw [List.map_cons, hmap]⟩
    rw [List.mapM_cons, cstringAt_eq hat hws.1.1 hws.1.2, hargv]
    rfl

end Buffer

/-! ## The ticker and the questions -/

section Ticker

variable {rest : List ConsRead}

theorem dropBytes_map (l : List UInt8) : dropBytes l.length (l.map .byte ++ rest) = rest := by
  induction l with
  | nil =>
    rw [List.map_nil, List.nil_append, List.length_nil]
    cases rest with
    | nil => rfl
    | cons r rest => cases r <;> rfl
  | cons c l ih => exact ih

theorem cmdTicker_append {polls : List ConsRead} {burst : List UInt8} {behind : ℕ}
    (hpolls : ∀ r ∈ polls, r.isByte = false)
    (hburst : burst.length = min behind (tickerBufSize - 1) + 1) :
    cmdTicker behind (polls ++ burst.map .byte ++ rest) = some rest := by
  induction polls with
  | nil =>
    obtain ⟨c, l, rfl⟩ := List.exists_cons_of_length_eq_add_one hburst
    have hl : l.length = min behind (tickerBufSize - 1) := Nat.succ.inj hburst
    show some (dropBytes (min behind (tickerBufSize - 1)) (l.map .byte ++ rest)) = some rest
    rw [← hl, dropBytes_map]
  | cons r polls ih =>
    rw [List.forall_mem_cons] at hpolls
    cases r with
    | byte c => exact absurd hpolls.1 Bool.true_eq_false.mp
    | error => exact ih hpolls.2
    | empty => exact ih hpolls.2

theorem getchars_append {answers : List ConsRead} {n : ℕ}
    (hcount : answers.countP ConsRead.isAnswer = n) (hlast : answers.getLast? ≠ some .empty) :
    getchars n (answers ++ rest) = some rest := by
  induction answers generalizing n with
  | nil =>
    rw [← hcount]
    rfl
  | cons r answers ih =>
    have hrest : answers.getLast? ≠ some .empty := by
      cases answers with
      | nil => nofun
      | cons q answers => rwa [List.getLast?_cons_cons] at hlast
    cases r with
    | empty =>
      -- a poll is not the last, so that there is an answer behind it
      have hne : answers ≠ [] := by
        rintro rfl
        exact hlast rfl
      have hanswer : (answers.getLast hne).isAnswer = true := by
        rw [List.getLast?_eq_some_getLast hne] at hrest
        cases h : answers.getLast hne with
        | empty => exact absurd (congrArg some h) hrest
        | _ => rfl
      have hpos : 0 < answers.countP ConsRead.isAnswer :=
        List.countP_pos_iff.mpr ⟨_, List.getLast_mem hne, hanswer⟩
      have hcount' : answers.countP ConsRead.isAnswer = n := hcount
      obtain ⟨n, rfl⟩ := Nat.exists_eq_add_one_of_ne_zero (hcount' ▸ hpos.ne')
      exact ih hcount' hrest
    | _ =>
      rw [List.countP_cons_of_pos rfl] at hcount
      subst hcount
      exact ih rfl hrest

end Ticker

/-! ## The line that is read -/

/-- Only an ordinary character makes the line longer. -/
theorem length_edit_le {r : ConsRead} (hr : r.Key) (line : List UInt8) :
    (edit line r).length ≤ line.length + if r.isStored then 1 else 0 := by
  cases r with
  | error => exact hr.elim
  | empty => exact Nat.le_add_right _ _
  | byte c =>
    rw [edit, editKey]
    by_cases hbackspace : c = backspace
    · rw [if_pos hbackspace, List.length_dropLast]
      omega
    by_cases hctrlU : c = ctrlU
    · rw [if_neg hbackspace, if_pos hctrlU]
      exact Nat.zero_le _
    · have hstored : (ConsRead.byte c).isStored = true :=
        decide_eq_true ⟨hr, fun h ↦ h.elim hbackspace hctrlU⟩
      rw [if_neg hbackspace, if_neg hctrlU, if_pos hstored, List.length_append]
      exact le_rfl

theorem length_edited_le {keys : List ConsRead} (hkeys : ∀ r ∈ keys, r.Key) (line : List UInt8) :
    (keys.foldl edit line).length ≤ line.length + keys.countP isStored := by
  induction keys generalizing line with
  | nil => exact le_rfl
  | cons r keys ih =>
    rw [List.forall_mem_cons] at hkeys
    have hone := length_edit_le hkeys.1 line
    have hrest := ih hkeys.2 (edit line r)
    rw [List.foldl_cons, List.countP_cons]
    omega

namespace Typed

variable {l : Typed}

/-- The loop of `gets` takes the keys, whatever is in `c`. -/
theorem Fits.exists_takes (h : l.Fits) (io : StdioLog) (buf : Bytes) :
    ∃ t : Gets, t.line = edited l.keys ∧ ∀ rest,
      getsFrom (l.input ++ rest) ⟨0, consoleBufSize, l.frame.c, buf, io, []⟩ =
          getsFrom (l.ending :: rest) t ∧
        unreadFrom (l.input ++ rest) ⟨0, consoleBufSize, l.frame.c, buf, io, []⟩ =
          unreadFrom (l.ending :: rest) t := by
  have hroom : (l.keys.countP isStored : ℤ) < consoleBufSize := by exact_mod_cast h.room
  have hkeys := h.isKey
  have happend (rest : List ConsRead) : l.input ++ rest = l.keys ++ l.ending :: rest := by
    rw [input, List.append_assoc]
    rfl
  simp only [happend]
  by_cases hc : LineEnd l.frame.c
  · have hstarts := h.starts hc
    rw [input] at hstarts
    cases hl : l.keys with
    | nil => exact ⟨_, rfl, fun rest ↦ ⟨rfl, rfl⟩⟩
    | cons r keys =>
      rw [hl] at hstarts hkeys hroom
      cases r with
      | error => exact (hkeys .error List.mem_cons_self).elim
      | empty => exact absurd rfl hstarts
      | byte b =>
        -- the first round overwrites `c`
        have hzero : ¬LineEnd 0 := by decide
        obtain ⟨t, hline, hrun⟩ :=
          exists_takes_of_lt (g := ⟨0, consoleBufSize, 0, buf, io, []⟩) hkeys hzero hroom
        exact ⟨t, hline, fun rest ↦ hrun (l.ending :: rest)⟩
  · obtain ⟨t, hline, hrun⟩ :=
      exists_takes_of_lt (g := ⟨0, consoleBufSize, l.frame.c, buf, io, []⟩) hkeys hc hroom
    exact ⟨t, hline, fun rest ↦ hrun (l.ending :: rest)⟩

theorem line_ne_zero (l : Typed) : ∀ c ∈ l.line, c ≠ 0 := fun _ hc ↦ by
  simpa using List.mem_takeWhile_imp hc

theorem Fits.length_line_lt (h : l.Fits) : l.line.length < consoleBufSize := by
  have htake : l.line.length ≤ (edited l.keys).length := (List.takeWhile_sublist _).length_le
  have hedited := length_edited_le h.isKey []
  have hroom := h.room
  rw [List.length_nil, Nat.zero_add] at hedited
  exact lt_of_le_of_lt htake (lt_of_le_of_lt hedited hroom)

theorem Fits.dispatch (h : l.Fits) (cmds : List Command) {buf : Bytes} {c : UInt8}
    (hat : StringAt buf 0 l.line) (hne : l.line ≠ []) (hc : l.ending = .byte c) :
    ∃ t, arguments (consoleBufSize + 1) buf = some (.stored t) ∧
      (if t.argv.length = 0 then some .noArgument
        else (t.argv.mapM (cstringAt consoleBufSize t.buf)).bind (handleCommand cmds)) =
        some (l.outcome cmds) := by
  have hlength := h.length_line_lt
  obtain ⟨t, argv, hends, hargv, hwords, -, -⟩ :=
    exists_breakUp_stored (t := ⟨buf, 0, []⟩) hat l.line_ne_zero (by simpa using h.few)
  have hstored : arguments (consoleBufSize + 1) buf = some (.stored t) :=
    hends _ (Nat.succ_lt_succ hlength)
  rw [List.nil_append] at hargv
  refine ⟨t, hstored, ?_⟩
  rw [hargv, hwords.length_eq, outcome, hc]
  cases hws : wordsBy isspace l.line with
  | nil =>
    simp only [hne, if_false]
    rfl
  | cons w ws =>
    rw [if_neg (by simp)]
    have hmem (v : List UInt8) (hv : v ∈ w :: ws) :
        (∀ c ∈ v, c ≠ 0) ∧ v.length < consoleBufSize := by
      have hpart := isInfix_of_mem_wordsBy (hws ▸ hv)
      exact ⟨fun c hc ↦ l.line_ne_zero c (hpart.subset hc), hpart.length_le.trans_lt hlength⟩
    obtain ⟨strs, hstrs, hmap⟩ := mapM_cstringAt (hws ▸ hwords) hmem
    obtain ⟨a, as, rfl⟩ : ∃ a as, strs = a :: as := by
      cases strs with
      | nil => exact absurd hmap.symm (List.cons_ne_nil _ _)
      | cons a as => exact ⟨a, as, rfl⟩
    have ha : a.chars = w := (List.cons.inj hmap).1
    have hne : a.chars ≠ [] := ha ▸ ne_nil_of_mem_wordsBy (hws ▸ List.mem_cons_self)
    have hfind := findCommand_eq cmds hne
    rw [hstrs, Option.bind_some, handleCommand, List.head?_cons, Option.bind_some, hfind,
      Option.map_some, hmap, ha]

theorem Fits.consoleLine (h : l.Fits) (cmds : List Command) (rest : List ConsRead) :
    consoleLine cmds l.frame (l.input ++ rest) = some (l.outcome cmds, rest) := by
  obtain ⟨t, hline, hrun⟩ := h.exists_takes (l.frame.io.next .stdioBufDisable) l.frame.buf
  obtain ⟨hgets, hunread⟩ := hrun rest
  rw [Ertos.consoleLine, gets, unread, hgets, hunread]
  obtain hend | ⟨c, hend, hc⟩ := h.ending
  · rw [hend, outcome, hend]
    rfl
  · obtain ⟨hlineEnd, hrest⟩ := getsFrom_lineEnd hc rest t
    rw [hend, hlineEnd, hrest]
    have hs : (edited l.keys).length = t.s := by rw [← hline, Gets.line, length_bytesOf]
    have hat : StringAt ((({ t with c := c } : Gets).store 0).restore).buf 0 l.line := by
      refine stringAt_of_bytesOf ?_ ?_
      · rw [hs]
        exact (bytesOf_update t.buf t.s 0).trans hline
      · rw [hs]
        exact Function.update_self _ _ _
    by_cases hnil : l.line = []
    · have hzero : (({ t with c := c } : Gets).store 0).restore.buf 0 = 0 := by
        rw [hat.head, hnil]
        rfl
      rw [outcome, hend, hnil]
      exact if_pos hzero
    · have hfirst : (({ t with c := c } : Gets).store 0).restore.buf 0 ≠ 0 := by
        obtain ⟨d, m, hcons⟩ := List.exists_cons_of_ne_nil hnil
        rw [hat.head, hcons]
        exact l.line_ne_zero d (hcons ▸ List.mem_cons_self)
      obtain ⟨t', hstored, hcall⟩ := h.dispatch cmds hat hnil hend
      simp only [hfirst, if_false, hstored, Option.bind_some]
      split_ifs at hcall ⊢ with hargc
      · rw [Option.some.inj hcall]
      · rw [hcall, Option.map_some]

end Typed

/-! ## The theorem -/

namespace Typed

variable {l : Typed}

theorem Fits.leaves (h : l.Fits) (cmds : List Command) (rest : List ConsRead) :
    (l.outcome cmds).leaves l.frame.asks (l.asked cmds ++ rest) = some rest := by
  rw [asked]
  cases l.outcome cmds with
  | called func argv =>
    by_cases hasks : func.asks = true
    · simp only [ConsoleEvent.leaves, hasks, if_true]
      exact getchars_append h.answers h.answered
    · simp only [ConsoleEvent.leaves, hasks, Bool.false_eq_true, if_false, List.nil_append]
  | _ => rfl

theorem Fits.round (h : l.Fits) (cmds : List Command) (tickerDone : Bool) (rest : List ConsRead) :
    consoleRound cmds tickerDone l.frame (l.reads cmds tickerDone ++ rest) =
      some (l.outcome cmds, rest) := by
  have hticker (typed : List ConsRead) : (if tickerDone then
      some ((if tickerDone then [] else l.polls ++ l.burst.map .byte) ++ typed) else
      cmdTicker l.frame.behind ((if tickerDone then [] else l.polls ++ l.burst.map .byte) ++
        typed)) = some typed := by
    cases tickerDone with
    | true => rfl
    | false => exact cmdTicker_append h.polls h.burst
  rw [consoleRound, reads, List.append_assoc, List.append_assoc, hticker, Option.bind_some,
    h.consoleLine, Option.bind_some, h.leaves]
  rfl

end Typed

/-- **The console, from the keys to the commands.** Whatever is typed, line after line, polls
without a character and read errors in between, each line calls the command whose name is its first
word as it was edited, with all of its words as arguments, and no other; a first word that is not
exactly a name is reported; an empty or blank line is ignored; and a read error is reported. For
this the lines are short enough for the two buffers. What stops the ticker, at boot and after
`exit`, is in no line, nor is what a command asks for. A command that does not return is the
last. -/
theorem console_dispatches (cmds : List Command) {ls : List Typed} (h : ∀ l ∈ ls, l.Fits)
    (tickerDone : Bool) (rest : List ConsRead) :
    consoleTask cmds tickerDone (ls.map Typed.frame)
        (sessionInput cmds tickerDone (untilGone cmds ls) ++ rest) =
      some ((untilGone cmds ls).map (Typed.outcome cmds), rest) := by
  induction ls generalizing tickerDone with
  | nil => rfl
  | cons l ls ih =>
    rw [List.forall_mem_cons] at h
    rw [untilGone, sessionInput, List.append_assoc, List.map_cons, consoleTask, h.1.round,
      Option.bind_some]
    by_cases hgoes : (l.outcome cmds).goesOn l.frame.returns = true
    · simp only [hgoes, if_true]
      rw [ih h.2, Option.map_some, List.map_cons]
    · simp only [hgoes, Bool.false_eq_true, if_false]
      rfl

/-- `ab` at the ticker, `exit`, `c` at the ticker, and `pz`, a backspace, and `s x`. -/
theorem console_dispatches_exit : consoleTask (commands ⟨false, false, false, false⟩) false
    [⟨1, 0, .init, fun _ ↦ 0, 0, true⟩, ⟨0, 13, .init, fun _ ↦ 0, 0, true⟩]
    [.empty, .byte 97, .byte 98, .byte 101, .byte 120, .byte 105, .byte 116, .byte carriageReturn,
      .byte 99, .byte 112, .empty, .byte 122, .byte backspace, .byte 115, .byte 32, .byte 120,
      .byte carriageReturn] =
    some ([.called .cmdExit [[101, 120, 105, 116]], .called .cmdPs [[112, 115], [120]]], []) := by
  have hfits : ∀ l ∈ [(⟨⟨1, 0, .init, fun _ ↦ 0, 0, true⟩, [.empty], [97, 98],
      [.byte 101, .byte 120, .byte 105, .byte 116], .byte carriageReturn, []⟩ : Typed),
      ⟨⟨0, 13, .init, fun _ ↦ 0, 0, true⟩, [], [99],
        [.byte 112, .empty, .byte 122, .byte backspace, .byte 115, .byte 32, .byte 120],
        .byte carriageReturn, []⟩], l.Fits :=
    List.forall_mem_cons.mpr
      ⟨{ polls := List.forall_mem_singleton.mpr rfl
         burst := rfl
         isKey := by decide
         ending := .inr ⟨_, rfl, .inl rfl⟩
         room := by decide
         starts := fun h ↦ absurd h (by decide)
         few := by decide
         answers := rfl
         answered := nofun },
       List.forall_mem_singleton.mpr
        { polls := List.forall_mem_nil _
          burst := rfl
          isKey := by decide
          ending := .inr ⟨_, rfl, .inl rfl⟩
          room := by decide
          starts := fun _ ↦ nofun
          few := by decide
          answers := rfl
          answered := nofun }⟩
  exact console_dispatches (commands ⟨false, false, false, false⟩) hfits false []

end Ertos
