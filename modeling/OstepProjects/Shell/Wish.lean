/-
  OstepProjects/Shell/Wish.lean
  =============================
  **The shell `wish3.c`: from a line to the programs it starts.**

  A line is cut at `&` into segments and a segment at `>` into pieces; the piece in
  front is the command and the one behind the file its output goes to.  Commands that
  are found are collected in tables of 100 slots, and when the line is done each of
  them is started in a child.

  The model follows the loops of `main` on the bytes of the strings, which end at their
  first zero byte.  Five kinds of strings are built in heap blocks without a terminator:
  they are read on into whatever stands there, which is a parameter (`Memory`).  Blocks
  fresh from the system are zero; `malloc` also hands out blocks that were freed before.
  A step that writes outside a table ends with `overrun`, since nothing is known of the
  program then.  The operating system is a parameter (`Os`), and descriptors do not run
  out.
-/
import Mathlib.Logic.Function.Basic
import OstepProjects.Lib.Bytes
import OstepProjects.Lib.Descriptors

namespace OstepProjects.Shell

open OstepProjects.Bytes OstepProjects.Descriptors

def MAX_COMMAND : Nat := 10

def MAX_PARAMETER : Nat := 6

/-- The system calls, on whatever they depend on and change; `openFile` creates or
    truncates a file, and says whether it succeeds. -/
structure Os (W : Type) where
  access : W → List UInt8 → Bool
  openFile : W → List UInt8 → W × Bool
  chdir : W → List UInt8 → W × Bool
  access_empty : ∀ w, access w [] = false
  open_keeps : ∀ w path file, access w path = true → access (openFile w file).1 path = true

inductive OpenFile
  | inherited (fd : Nat)
  | file (name : List UInt8)
deriving DecidableEq

/-- A command that has been found; `segment` is the number of the segment it was
    written in, which the program does not record. -/
structure Command where
  final_command : List UInt8
  parameter : List (List UInt8)
  segment : Nat
deriving DecidableEq

/-- The shell process.  `command_path` holds `command_pathnum` directories and `commands`
    what the first `command_count` slots of `final_command_list` and `parameter_list` hold. -/
structure Wish (W : Type) where
  world : W
  fds : Table OpenFile
  command_path : List (List UInt8)
  commands : List Command
  label_list : Nat → Bool
  file_list : Nat → Option (List UInt8)
  errors : Nat

inductive Stop
  | exit
  | overrun
deriving DecidableEq

/-- What stands in memory behind the strings without a terminator, while one line is
    worked off: behind the copy of the line that is cut at `&`, behind the two copies of
    segment `k` (the newline in `command_part_new` replaces the terminator), behind its
    command, and behind the name of its file.  A list without a zero byte has one behind it. -/
structure Memory where
  fix_str_origin : List UInt8
  command_part_new : Nat → List UInt8
  fix_command_part : Nat → List UInt8
  final_str : Nat → List UInt8
  final_file_str : (k count_file : Nat) → List UInt8

/-- There is a zero byte directly behind every string. -/
structure Memory.Zeroed (mem : Memory) : Prop where
  fix_str_origin : cstr mem.fix_str_origin = []
  command_part_new : ∀ k, cstr (mem.command_part_new k) = []
  fix_command_part : ∀ k, cstr (mem.fix_command_part k) = []
  final_str : ∀ k, cstr (mem.final_str k) = []
  final_file_str : ∀ k count_file, cstr (mem.final_file_str k count_file) = []

/-- Memory fresh from the system. -/
def Memory.fresh : Memory := ⟨[], fun _ => [], fun _ => [], fun _ => [], fun _ _ => []⟩

theorem Memory.zeroed_fresh : Memory.fresh.Zeroed :=
  ⟨rfl, fun _ => rfl, fun _ => rfl, fun _ => rfl, fun _ _ => rfl⟩

variable {W : Type}

/-- The shell when it is started. -/
def start (w : W) : Wish W where
  world := w
  fds := [some (.inherited 0), some (.inherited 1), some (.inherited 2)]
  command_path := [ascii "/bin/"]
  commands := []
  label_list := fun _ => false
  file_list := fun _ => none
  errors := 0

/-- Write `error_message`. -/
def Wish.report (sh : Wish W) : Wish W := { sh with errors := sh.errors + 1 }

/-! ### Strings -/

/-- `strsep`: the field up to the next delimiter, and what is behind it. -/
def strsep (delim : UInt8 → Bool) (s : List UInt8) : List UInt8 × Option (List UInt8) :=
  (s.takeWhile fun c => !delim c,
    match s.dropWhile fun c => !delim c with
    | [] => none
    | _ :: rest => some rest)

/-- The loop of `input_fix`. -/
def fixLoop (symbol_his : Bool) : List UInt8 → List UInt8
  | [] => []
  | c :: input =>
    let symbol_flag := decide (c ≠ 32)
    if symbol_flag = false ∧ symbol_his = false then fixLoop symbol_his input
    else c :: fixLoop symbol_flag input

/-- With fewer than two bytes the test reads in front of the block, where the
    allocator keeps its size: a zero byte. -/
def inputFix (input : List UInt8) : List UInt8 :=
  let fix_input := fixLoop false input
  let fix_index := fix_input.length
  if 2 ≤ fix_index ∧ fix_input[fix_index - 2]? = some 32 then
    fix_input.take (fix_index - 2) ++ [10]
  else fix_input

/-- The fields that `strsep` gives until it returns NULL, with a slash behind each
    directory.  For an empty field the byte in front is the delimiter overwritten. -/
def pathZx (token : List UInt8) : Except Stop (List (List UInt8)) :=
  if token = [] then .ok []
  else
    let command_path := (token.splitOn 32).map fun token_part =>
      if token_part.getLast? = some 47 then token_part else token_part ++ [47]
    if command_path.length ≤ MAX_COMMAND then .ok command_path else .error .overrun

variable (os : Os W) (mem : Memory)

/-! ### Commands -/

/-- The search of `exec_zx`; `final_command` has 200 bytes. -/
def findCommand (w : W) (command : List UInt8) : List (List UInt8) → Except Stop (List UInt8)
  | [] => .ok []
  | dir :: command_path =>
    if (dir ++ command).length < 200 then
      if os.access w (dir ++ command) then .ok (dir ++ command)
      else findCommand w command command_path
    else .error .overrun

def execZx (w : W) (command para : List UInt8) (command_path : List (List UInt8)) :
    Except Stop (List UInt8 × List (List UInt8)) := do
  let final_command ← findCommand os w command command_path
  let parameter := command :: if para = [] then [] else para.splitOn 32
  if parameter.length ≤ MAX_PARAMETER then return (final_command, parameter)
  else throw .overrun

/-- The command in `temp`, and whether the loop over the pieces is left at it. -/
def command (segment : Nat) (temp : List UInt8) (sh : Wish W) : Except Stop (Bool × Wish W) :=
  let blank : UInt8 → Bool := fun c => c == 32 || c == 10
  let newline : UInt8 → Bool := fun c => c == 10
  let (token, rest) := strsep blank temp
  let final_str := rest.getD []
  if token = ascii "exit" then
    if final_str = [] then .error .exit else .ok (true, sh.report)
  else if token = ascii "cd" then
    let (world, done) := os.chdir sh.world (strsep blank final_str).1
    let sh := { sh with world }
    .ok (false, if done then sh else sh.report)
  else if token = ascii "path" then do
    let command_path ← pathZx (strsep newline final_str).1
    return (false, { sh with command_path })
  else do
    let (final_command, parameter) ←
      execZx os sh.world token (strsep newline final_str).1 sh.command_path
    if os.access sh.world final_command then
      if sh.commands.length < 100 then
        return (false, { sh with
          commands := sh.commands ++ [⟨final_command, parameter, segment⟩] })
      else throw .overrun
    else return (false, sh.report)

/-! ### Pieces of a segment -/

structure Locals where
  redirect : Nat
  redirect_label : Bool
  count_file : Nat
  temp : List UInt8

/-- The command is run at the piece where `redirect` is 0. -/
def runCommand (segment : Nat) (l : Locals) (sh : Wish W) : Except Stop (Bool × Wish W) :=
  if l.redirect = 0 then command os segment l.temp sh else .ok (false, sh)

/-- One nonempty piece, and whether the loop is left at it.  The newline in `final_str`
    replaces its terminator, and `temp` is a copy of the string that is found there. -/
def piece (segment : Nat) (redi_char : List UInt8) (l : Locals) (sh : Wish W) :
    Except Stop (Bool × Locals × Wish W) :=
  if l.count_file = 0 then do
    let l := { l with temp := cstr (redi_char ++ [10] ++ mem.final_str segment) }
    let (leave, sh) ← runCommand os segment l sh
    if leave then return (true, l, sh)
    else return (false, { l with redirect := 0, count_file := l.count_file + 1 }, sh)
  else
    let final_file_str := cstr (inputFix redi_char ++ mem.final_file_str segment l.count_file)
    let sh :=
      if sh.label_list sh.commands.length then
        { sh with
          file_list := Function.update sh.file_list sh.commands.length (some final_file_str) }
      else sh
    if (final_file_str.findIdx? (· == 32)).any fun temp_mr => 0 < temp_mr then .ok (true, l, sh)
    else do
      let (world, opened) := os.openFile sh.world final_file_str
      let (fds, sfd, fd) := redirect sh.fds 1 (if opened then some (.file final_file_str) else none)
      let (leave, sh) ← runCommand os segment l { sh with world, fds }
      -- left with descriptor 1 still redirected
      if leave then return (true, l, sh)
      else
        return (false, { l with redirect := 0, count_file := l.count_file + 1 },
          { sh with fds := restore sh.fds 1 sfd fd })

def pieces (segment : Nat) : List (List UInt8) → Locals → Wish W → Except Stop (Locals × Wish W)
  | [], l, sh => .ok (l, sh)
  | redi_char :: rest, l, sh =>
    if 1 < l.redirect then .ok ({ l with redirect := 0, redirect_label := false }, sh.report)
    else if redi_char = [] ∨ redi_char = [32] then pieces segment rest l sh
    else do
      let (leave, l, sh) ← piece os mem segment redi_char l sh
      if leave then return (l, sh) else pieces segment rest l sh

/-! ### Segments of a line -/

/-- One `command_part`. -/
def segment (k : Nat) (command_part : List UInt8) (sh : Wish W) : Except Stop (Wish W) :=
  if command_part = [] ∨ command_part = [32] then .ok sh
  else
    let command_part_new := cstr (command_part ++ [10] ++ mem.command_part_new k)
    let fix_command_part := cstr (inputFix command_part_new ++ mem.fix_command_part k)
    let redirect := fix_command_part.count 62
    if 0 < redirect ∧ ¬ sh.commands.length < 100 then .error .overrun
    else do
      let sh :=
        if 0 < redirect then
          { sh with label_list := Function.update sh.label_list sh.commands.length true }
        else sh
      let (l, sh) ← pieces os mem k ([] :: fix_command_part.splitOnP fun c => c == 62 || c == 10)
        ⟨redirect, decide (0 < redirect), 0, []⟩ sh
      return if l.redirect_label ∧ l.count_file = 1 then sh.report else sh

def segments : Nat → List (List UInt8) → Wish W → Except Stop (Wish W)
  | _, [], sh => .ok sh
  | k, command_part :: rest, sh => do
    let sh ← segment os mem k command_part sh
    segments (k + 1) rest sh

/-! ### Children -/

structure Child where
  program : List UInt8
  argv : List (List UInt8)
  stdout : Option OpenFile
  segment : Nat
deriving DecidableEq

/-- The child of slot `i`, which opens its file in world `w`.  `execv` reads
    `parameter` up to a NULL slot. -/
def child (w : W) (sh : Wish W) (i : Nat) (c : Command) : Except Stop Child :=
  let opened : Option OpenFile := do
    -- `open(NULL)` fails
    let file ← sh.file_list i
    if (os.openFile w file).2 then some (.file file) else none
  let fds := if sh.label_list i then (redirect sh.fds 1 opened).1 else sh.fds
  if c.parameter.length < MAX_PARAMETER then
    .ok ⟨c.final_command, c.parameter, lookup fds 1, c.segment⟩
  else .error .overrun

/-- The loop that forks, from slot `i` on; `after j` is the world in which child `j`
    opens its file. -/
def launch (after : Nat → W) (sh : Wish W) : Nat → List Command → Except Stop (List Child)
  | _, [] => .ok []
  | i, c :: commands => do
    let first ← child os (after i) sh i c
    let others ← launch after sh (i + 1) commands
    return first :: others

/-- One line of input, up to its first zero byte: the shell afterwards, and the children
    it has started. -/
def line (after : Nat → W) (str : List UInt8) (sh : Wish W) :
    Except Stop (Wish W × List Child) := do
  let fix_str_origin := cstr (inputFix (cstr str) ++ mem.fix_str_origin)
  let sh ← segment os mem 0 [] sh
  let sh ← segments os mem 0 (fix_str_origin.splitOnP fun c => c == 38 || c == 10) sh
  let children ← launch os after sh 0 sh.commands
  return ({ sh with commands := [], label_list := fun _ => false, file_list := fun _ => none },
    children)

/-! ### A machine -/

/-- A machine whose world is the list of its files. -/
def disk : Os (List (List UInt8)) where
  access files path := path ≠ [] && files.contains path
  openFile files file := if file = [] then (files, false) else (file :: files, true)
  chdir files _ := (files, true)
  access_empty _ := rfl
  open_keeps files path file h := by
    by_cases hfile : file = []
    · rw [if_pos hfile]
      exact h
    · rw [if_neg hfile]
      simp only [Bool.and_eq_true, List.contains_eq_mem, List.mem_cons, decide_eq_true_eq] at h ⊢
      exact ⟨h.1, Or.inr h.2⟩

def bin : List (List UInt8) := [ascii "/bin/echo", ascii "/bin/ls"]

end OstepProjects.Shell
