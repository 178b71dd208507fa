/-
  OstepProjects/Shell/SearchPath.lean
  ===================================
  **The search path over whole sessions.**

  A session is made of `path` lines and of single commands, without `&` and `>`.  What
  it should do needs only the directories of the latest `path` line: `firstProgram` is
  the first file of that name in them.  As long as the strings of the lines end where
  they should, the shell does exactly this (`search_path_honoured_iff`): between two lines,
  its table of directories holds those of the latest `path` line, each with a slash at
  its end, and nothing else.  What `malloc` leaves behind a string becomes part of the
  line, and then the session can end or a program be started twice.
-/
import OstepProjects.Shell.Redirection

namespace OstepProjects.Shell

open OstepProjects.Bytes OstepProjects.Words

variable {W : Type}

/-! ### Sessions -/

/-- What is typed, by its words. -/
inductive Input
  | path (dirs : List (List UInt8))
  | command (name : List UInt8) (args : List (List UInt8))

def Input.words : Input → List (List UInt8)
  | .path dirs => ascii "path" :: dirs
  | .command name args => name :: args

def Input.Allowed : Input → Prop
  | .path dirs => dirs.length ≤ MAX_COMMAND
  | .command name args => name ≠ ascii "exit" ∧ name ≠ ascii "cd" ∧ name ≠ ascii "path" ∧
      args.length ≤ 4

instance : ∀ input : Input, Decidable input.Allowed
  | .path _ => inferInstanceAs (Decidable (_ ≤ _))
  | .command _ _ => inferInstanceAs (Decidable (_ ≠ _ ∧ _ ≠ _ ∧ _ ≠ _ ∧ _ ≤ _))

/-- A line, with any number of spaces between its words. -/
structure TypedLine where
  text : List UInt8
  input : Input
  plain : ∀ c ∈ text, c ≠ 10 ∧ c ≠ 38 ∧ c ≠ 62 ∧ c ≠ 0
  words_text : Words.words 32 text = input.words
  allowed : input.Allowed

/-- What can be seen of a line: the programs it starts and the errors it reports. -/
structure Outcome where
  programs : List (List UInt8)
  errors : Nat
deriving DecidableEq

variable (os : Os W)

/-- The lines in turn, from line `i` on. -/
def runLines (mem : Nat → Memory) (after : Nat → W) :
    Nat → List (List UInt8) → Wish W → Except Stop (Wish W × List Outcome)
  | _, [], sh => .ok (sh, [])
  | i, str :: lines, sh => do
    let (sh', children) ← line os (mem i) after str sh
    let (last, outcomes) ← runLines mem after (i + 1) lines sh'
    return (last, ⟨children.map Child.program, sh'.errors - sh.errors⟩ :: outcomes)

/-! ### What a session should do -/

/-- A directory as it stands in front of a name. -/
def withSlash (dir : List UInt8) : List UInt8 :=
  if dir.getLast? = some 47 then dir else dir ++ [47]

/-- The first file of this name in the directories. -/
def firstProgram (w : W) (dirs : List (List UInt8)) (name : List UInt8) : Option (List UInt8) :=
  (dirs.map fun dir => withSlash dir ++ name).find? (os.access w)

def commandOutcome (w : W) (dirs : List (List UInt8)) (name : List UInt8) : Outcome :=
  match firstProgram os w dirs name with
  | some program => ⟨[program], 0⟩
  | none => ⟨[], 1⟩

/-- The outcomes of the lines, with `dirs` from the latest `path` line. -/
def expectedOutcomes (w : W) : List (List UInt8) → List Input → List Outcome
  | _, [] => []
  | _, .path dirs :: inputs => ⟨[], 0⟩ :: expectedOutcomes w dirs inputs
  | dirs, .command name _ :: inputs =>
    commandOutcome os w dirs name :: expectedOutcomes w dirs inputs

/-- The paths that can be tried are shorter than 200 bytes. -/
def ShortPaths : List (List UInt8) → List Input → Prop
  | _, [] => True
  | _, .path dirs :: inputs => ShortPaths dirs inputs
  | dirs, .command name _ :: inputs =>
    (∀ dir ∈ dirs, (withSlash dir ++ name).length < 200) ∧ ShortPaths dirs inputs

/-! ### The built-in command `path` -/

theorem fields_false (args : List (List UInt8)) : fields args false = args := by
  unfold fields
  by_cases hnil : args = []
  · rw [if_pos hnil, hnil]
  · rw [if_neg hnil, if_neg Bool.false_ne_true, List.append_nil]

/-- **The table holds the words of the line.** -/
theorem pathZx_words {dirs : List (List UInt8)} (hdirs : ∀ dir ∈ dirs, IsWord 32 dir)
    (hlen : dirs.length ≤ MAX_COMMAND) :
    pathZx (argString dirs false) = .ok (dirs.map withSlash) := by
  have hfields := fields_argString hdirs false
  rw [fields_false] at hfields
  unfold pathZx
  by_cases hempty : argString dirs false = []
  · rw [if_pos hempty] at hfields
    rw [if_pos hempty, ← hfields]
    rfl
  · rw [if_neg hempty] at hfields
    rw [if_neg hempty]
    dsimp only
    rw [hfields, if_pos (by rw [List.length_map]; exact hlen)]
    rfl

theorem command_path (k : Nat) {dirs : List (List UInt8)}
    (hdirs : ∀ dir ∈ dirs, IsWord 32 dir ∧ 10 ∉ dir) (hlen : dirs.length ≤ MAX_COMMAND)
    (sh : Wish W) :
    command os k (unwords 32 (ascii "path" :: dirs) ++ [10]) sh =
      .ok (false, { sh with command_path := dirs.map withSlash }) := by
  have hword : (ascii "path" ≠ [] ∧ 32 ∉ ascii "path") ∧ 10 ∉ ascii "path" := by decide +kernel
  obtain ⟨rest, hstrsep, hpara⟩ := strsep_command hword (fun dir hdir => (hdirs dir hdir).2) false
  simp only [Bool.false_eq_true, if_false, List.append_nil] at hstrsep
  rw [command, hstrsep]
  simp only [Option.getD_some, hpara, pathZx_words (fun dir hdir => (hdirs dir hdir).1) hlen,
    ok_bind]
  rfl

/-! ### The search -/

theorem findCommand_eq {w : W} {name : List UInt8} {command_path : List (List UInt8)}
    (hshort : ∀ dir ∈ command_path, (dir ++ name).length < 200) :
    findCommand os w name command_path =
      .ok (((command_path.map fun dir => dir ++ name).find? (os.access w)).getD []) := by
  induction command_path with
  | nil => rfl
  | cons dir command_path ih =>
    rw [findCommand, if_pos (hshort dir (by simp)), List.map_cons, List.find?_cons]
    cases os.access w (dir ++ name) with
    | true => rfl
    | false =>
      rw [if_neg Bool.false_ne_true]
      exact ih fun dir hdir => hshort dir (by simp [hdir])

/-! ### A line -/

/-- The tables at the end of a line. -/
def Wish.clear (sh : Wish W) : Wish W :=
  { sh with
    commands := []
    label_list := fun _ => false
    file_list := fun _ => none }

/-- A line without `&` and `>` is its command. -/
theorem line_plain {mem : Memory} (hmem : mem.Zeroed) {text : List UInt8}
    (hplain : ∀ c ∈ text, c ≠ 10 ∧ c ≠ 38 ∧ c ≠ 62 ∧ c ≠ 0)
    (hwords : Words.words 32 text ≠ []) {after : Nat → W} {sh sh₁ : Wish W} {leave : Bool}
    {children : List Child}
    (hcommand : command os 0 (unwords 32 (Words.words 32 text) ++ [10]) sh = .ok (leave, sh₁))
    (hlaunch : launch os after sh₁ 0 sh₁.commands = .ok children) :
    line os mem after (text ++ [10]) sh = .ok (sh₁.clear, children) := by
  have h10 : 10 ∉ text := fun h => (hplain 10 h).1 rfl
  have h38 : 38 ∉ text := fun h => (hplain 38 h).2.1 rfl
  have h62 : 62 ∉ text := fun h => (hplain 62 h).2.2.1 rfl
  have h0 : 0 ∉ text := fun h => (hplain 0 h).2.2.2 rfl
  rw [line_eq os hmem h10 h0, List.splitOn_eq_singleton h38, writtenSegments, writtenSegment,
    if_neg hwords, List.splitOn_eq_singleton h62]
  simp only [writtenSegments, hcommand, ok_bind, pure_bind, hlaunch]
  rfl

theorem launch_singleton {c : Command} (hlen : c.parameter.length < MAX_PARAMETER)
    (after : Nat → W) (sh : Wish W) :
    ∃ made, launch os after sh 0 [c] = .ok [made] ∧ made.program = c.final_command := by
  rw [launch, child, if_pos hlen]
  exact ⟨_, rfl, rfl⟩

/-- The shell between two lines of a session. -/
structure Wish.Between (sh : Wish W) (w : W) (dirs : List (List UInt8)) : Prop where
  world : sh.world = w
  command_path : sh.command_path = dirs.map withSlash
  commands : sh.commands = []

variable {os} {w : W} {dirs : List (List UInt8)} {sh : Wish W} {mem : Memory}

theorem TypedLine.word (l : TypedLine) {v : List UInt8} (hv : v ∈ l.input.words) :
    IsWord 32 v ∧ 10 ∉ v := by
  rw [← l.words_text] at hv
  exact ⟨isWord_of_mem_words hv, fun h => (l.plain 10 (mem_of_mem_words hv h)).1 rfl⟩

theorem line_path (os : Os W) (hmem : mem.Zeroed) {l : TypedLine} {dirs' : List (List UInt8)}
    (hl : l.input = .path dirs') (hsh : sh.Between w dirs) (after : Nat → W) :
    ∃ sh', line os mem after (l.text ++ [10]) sh = .ok (sh', []) ∧ sh'.Between w dirs' ∧
      sh'.errors = sh.errors := by
  have hwords : Words.words 32 l.text = ascii "path" :: dirs' := by rw [l.words_text, hl]; rfl
  have hlen : dirs'.length ≤ MAX_COMMAND := by
    have hallowed := l.allowed
    rw [hl] at hallowed
    exact hallowed
  have hdirs : ∀ dir ∈ dirs', IsWord 32 dir ∧ 10 ∉ dir := by
    intro dir hdir
    apply l.word
    rw [← l.words_text, hwords]
    exact List.mem_cons_of_mem _ hdir
  have hcommand := command_path os 0 hdirs hlen sh
  rw [← hwords] at hcommand
  refine ⟨_, line_plain os hmem l.plain ?_ hcommand ?_, ⟨hsh.world, rfl, rfl⟩, rfl⟩
  · rw [hwords]
    exact List.cons_ne_nil _ _
  · dsimp only
    rw [hsh.commands]
    rfl

/-- A command is started from the first directory that has it, or is an error. -/
theorem line_command (hmem : mem.Zeroed) {l : TypedLine} {name : List UInt8} {args : List (List UInt8)}
    (hl : l.input = .command name args) (hsh : sh.Between w dirs)
    (hshort : ∀ dir ∈ dirs, (withSlash dir ++ name).length < 200) (after : Nat → W) :
    ∃ sh' children, line os mem after (l.text ++ [10]) sh = .ok (sh', children) ∧
      sh'.Between w dirs ∧
      (⟨children.map Child.program, sh'.errors - sh.errors⟩ : Outcome) =
        commandOutcome os w dirs name := by
  have hwords : Words.words 32 l.text = name :: args := by rw [l.words_text, hl]; rfl
  obtain ⟨hexit, hcd, hpath, hargs⟩ : name ≠ ascii "exit" ∧ name ≠ ascii "cd" ∧
      name ≠ ascii "path" ∧ args.length ≤ 4 := by
    have hallowed := l.allowed
    rw [hl] at hallowed
    exact hallowed
  have hword : ∀ v ∈ name :: args, IsWord 32 v ∧ 10 ∉ v := by
    intro v hv
    apply l.word
    rw [← l.words_text, hwords]
    exact hv
  have hfind : findCommand os sh.world name sh.command_path =
      .ok ((firstProgram os w dirs name).getD []) := by
    rw [hsh.world, hsh.command_path, findCommand_eq os]
    · rw [List.map_map]
      rfl
    · simpa using hshort
  have hargs' : ∀ v ∈ args, IsWord 32 v ∧ 10 ∉ v :=
    fun v hv => hword v (List.mem_cons_of_mem _ hv)
  have hcommand := command_words os 0 false (hword name List.mem_cons_self) hargs' hexit hcd hpath
    sh
  have hlen : (name :: args).length ≤ MAX_PARAMETER := by
    rw [List.length_cons]
    exact Nat.succ_le_succ (Nat.le_succ_of_le hargs)
  rw [hfind, fields_false, ok_bind, if_pos hlen, hsh.world] at hcommand
  simp only [Bool.false_eq_true, if_false, List.append_nil] at hcommand
  rw [← hwords] at hcommand
  have hne : Words.words 32 l.text ≠ [] := by
    rw [hwords]
    exact List.cons_ne_nil _ _
  unfold commandOutcome
  cases hfirst : firstProgram os w dirs name with
  | none =>
    rw [hfirst, Option.getD_none, if_neg (by simp [os.access_empty])] at hcommand
    refine ⟨_, [], line_plain os hmem l.plain hne hcommand ?_,
      ⟨hsh.world, hsh.command_path, rfl⟩, ?_⟩
    · change launch os after sh.report 0 sh.commands = .ok []
      rw [hsh.commands]
      rfl
    · simp [Wish.report, Wish.clear]
  | some program =>
    have haccess : os.access w program = true := List.find?_some hfirst
    rw [hfirst, Option.getD_some, if_pos haccess, if_pos (by simp [hsh.commands]),
      hsh.commands] at hcommand
    have hroom : (name :: args).length < MAX_PARAMETER := Nat.succ_le_succ (Nat.succ_le_succ hargs)
    obtain ⟨made, hlaunch, hprogram⟩ := launch_singleton os (c := ⟨program, name :: args, 0⟩) hroom
      after { sh with world := w, commands := [] ++ [⟨program, name :: args, 0⟩] }
    refine ⟨_, [made], line_plain os hmem l.plain hne hcommand ?_,
      ⟨rfl, hsh.command_path, rfl⟩, ?_⟩
    · rw [hwords]
      exact hlaunch
    · simp [Wish.clear, hprogram]

/-! ### The session -/

theorem runLines_between {mem : Nat → Memory} (hmem : ∀ i, (mem i).Zeroed) (after : Nat → W)
    {lines : List TypedLine} (i : Nat) (hsh : sh.Between w dirs)
    (hshort : ShortPaths dirs (lines.map TypedLine.input)) :
    ∃ last, runLines os mem after i (lines.map fun l => l.text ++ [10]) sh =
      .ok (last, expectedOutcomes os w dirs (lines.map TypedLine.input)) := by
  induction lines generalizing i sh dirs with
  | nil => exact ⟨sh, rfl⟩
  | cons l lines ih =>
    rw [List.map_cons] at hshort ⊢
    rw [List.map_cons]
    cases hl : l.input with
    | path dirs' =>
      rw [hl] at hshort
      obtain ⟨sh₁, hline, hsh₁, herrors⟩ := line_path os (hmem i) hl hsh after
      obtain ⟨last, hrest⟩ := ih (i + 1) hsh₁ hshort
      refine ⟨last, ?_⟩
      rw [runLines, hline, ok_bind]
      dsimp only
      rw [hrest, ok_bind, expectedOutcomes, herrors, Nat.sub_self]
      rfl
    | command name args =>
      rw [hl] at hshort
      obtain ⟨sh₁, children, hline, hsh₁, houtcome⟩ :=
        line_command (hmem i) hl hsh hshort.1 after
      obtain ⟨last, hrest⟩ := ih (i + 1) hsh₁ hshort.2
      refine ⟨last, ?_⟩
      rw [runLines, hline, ok_bind]
      dsimp only
      rw [hrest, ok_bind, expectedOutcomes, houtcome]
      rfl

/-- The session runs to its end, and every command is started from the first directory of
    the latest `path` line that has it (of `/bin` before there is one), or is one error
    where no directory has it. -/
def PathHonoured (os : Os W) (mem : Nat → Memory) (w : W) (after : Nat → W)
    (lines : List TypedLine) : Prop :=
  ∃ last, runLines os mem after 0 (lines.map fun l => l.text ++ [10]) (start w) =
    .ok (last, expectedOutcomes os w [ascii "/bin"] (lines.map TypedLine.input))

/-- **When the search path is honoured.**  In every session of `path` lines and single
    commands, with any set of existing files, the latest `path` line decides which program
    is started, whatever the blocks of `malloc` hold, if and only if they are known to come
    fresh from the system, or no line is typed at all. -/
theorem search_path_honoured_iff (os : Os W) (w : W) (after : Nat → W) (lines : List TypedLine)
    (hshort : ShortPaths [ascii "/bin"] (lines.map TypedLine.input)) (fresh : Prop) :
    (∀ mem : Nat → Memory, (fresh → ∀ i, (mem i).Zeroed) → PathHonoured os mem w after lines) ↔
      (lines ≠ [] → fresh) := by
  have hstart : (start w).Between w [ascii "/bin"] := ⟨rfl, rfl, rfl⟩
  constructor
  · intro h hne
    by_contra hnot
    obtain ⟨last, hrun⟩ := h (fun _ => Memory.exits) fun hfresh => absurd hfresh hnot
    obtain ⟨l, rest, rfl⟩ := List.exists_cons_of_ne_nil hne
    obtain ⟨_, hline, _⟩ := of_bind_eq_ok hrun
    exact line_exits os (fun h0 => (l.plain 0 h0).2.2.2 rfl) after (start w) _ hline
  · intro hfresh mem hmem
    by_cases hnil : lines = []
    · subst hnil
      exact ⟨start w, rfl⟩
    · exact runLines_between (hmem (hfresh hnil)) after 0 hstart hshort

/-- The lines `ls`, `path /usr  /bin/`, ` echo hi`, `path` and `ls`. -/
def fiveLines : List TypedLine :=
  [⟨ascii "ls", .command (ascii "ls") [],
      by decide +kernel, by decide +kernel, by decide +kernel⟩,
    ⟨ascii "path /usr  /bin/", .path [ascii "/usr", ascii "/bin/"],
      by decide +kernel, by decide +kernel, by decide +kernel⟩,
    ⟨ascii " echo hi", .command (ascii "echo") [ascii "hi"],
      by decide +kernel, by decide +kernel, by decide +kernel⟩,
    ⟨ascii "path", .path [],
      by decide +kernel, by decide +kernel, by decide +kernel⟩,
    ⟨ascii "ls", .command (ascii "ls") [],
      by decide +kernel, by decide +kernel, by decide +kernel⟩]

theorem search_path_fiveLines :
    ShortPaths [ascii "/bin"] (fiveLines.map TypedLine.input) ∧
    ∃ last, runLines disk (fun _ => Memory.fresh) (fun _ => bin) 0 [ascii "ls\n",
        ascii "path /usr  /bin/\n", ascii " echo hi\n", ascii "path\n", ascii "ls\n"]
        (start bin) =
      .ok (last, [⟨[ascii "/bin/ls"], 0⟩, ⟨[], 0⟩, ⟨[ascii "/bin/echo"], 0⟩, ⟨[], 0⟩,
        ⟨[], 1⟩]) := by
  have hshort : ShortPaths [ascii "/bin"] (fiveLines.map TypedLine.input) :=
    ⟨by decide, by decide, by simp, trivial⟩
  refine ⟨hshort, ?_⟩
  exact (search_path_honoured_iff disk bin (fun _ => bin) fiveLines hshort True).mpr
    (fun _ => trivial) (fun _ => Memory.fresh) fun _ _ => Memory.zeroed_fresh

/-- Two bytes of the pointer that `free` has written into a block stand behind the first
    copy of every segment. -/
def Memory.freed : Memory := { Memory.fresh with command_part_new := fun _ => [85, 5] }

/-- **The line `ls` starts `ls` twice.**  The bytes behind the newline are taken for the name
    of a file, and the command is found once more for it. -/
theorem search_path_ls_twice :
    (runLines disk (fun _ => Memory.freed) (fun _ => bin) 0 [ascii "ls\n"]
      (start bin)).toOption.map Prod.snd = some [⟨[ascii "/bin/ls", ascii "/bin/ls"], 0⟩] ∧
    ¬ ∀ (mem : Nat → Memory) (lines : List TypedLine),
      ShortPaths [ascii "/bin"] (lines.map TypedLine.input) →
      PathHonoured disk mem bin (fun _ => bin) lines := by
  have hrun : (runLines disk (fun _ => Memory.freed) (fun _ => bin) 0 [ascii "ls\n"]
      (start bin)).toOption.map Prod.snd = some [⟨[ascii "/bin/ls", ascii "/bin/ls"], 0⟩] := by
    decide +kernel
  refine ⟨hrun, fun h => ?_⟩
  obtain ⟨last, hline⟩ := h (fun _ => Memory.freed) (fiveLines.take 1) ⟨by decide, trivial⟩
  change runLines disk _ _ 0 [ascii "ls\n"] (start bin) = _ at hline
  rw [hline] at hrun
  have houtcomes : expectedOutcomes disk bin [ascii "/bin"]
      ((fiveLines.take 1).map TypedLine.input) = _ := Option.some.inj hrun
  exact absurd houtcomes (by decide +kernel)

end OstepProjects.Shell
