/-
  OstepProjects/Shell/Acceptance.lean
  ===================================
  **Which segments are launched and which are an error.**

  A segment is well formed if it is a command with its arguments, alone or with one
  `>` and one word behind it.  `launches` adds that the command exists, and a line should
  start these segments and report one error for each of the others.  In fresh memory it
  does (`segments_accepted_iff`) unless a segment is a `>` with nothing around it, which is
  no error; or two words behind the `>`, the second of one letter, are taken for a file;
  or one of the tables of `main` is too small.
-/
import OstepProjects.Shell.OpenDescriptors

namespace OstepProjects.Shell

open OstepProjects.Bytes OstepProjects.Descriptors OstepProjects.Words

variable {W : Type}

/-! ### Forms of segments -/

/-- The words of the pieces between the `>` of a segment. -/
def pieceWords (v : List UInt8) : List (List (List UInt8)) := (v.splitOn 62).map (Words.words 32)

inductive Form
  /-- `command args` -/
  | plain
  /-- `command args > file` -/
  | file
  /-- `command args > file x` -/
  | letter
  /-- `>` -/
  | lone
  | other
deriving DecidableEq

def form (v : List UInt8) : Form :=
  match pieceWords v with
  | [_ :: _] => .plain
  | [_ :: _, [_]] => .file
  | [_ :: _, [_, [_]]] => .letter
  | [[], []] => .lone
  | _ => .other

def wellFormed (v : List UInt8) : Bool := form v = .plain || form v = .file

/-- The command is searched for. -/
def looksUp (v : List UInt8) : Bool := wellFormed v || form v = .letter

def commandOf (v : List UInt8) : List UInt8 :=
  match pieceWords v with
  | (token :: _) :: _ => token
  | _ => []

/-- Four arguments and a space in front of `>`. -/
def crowded (v : List UInt8) : Bool :=
  match v.splitOn 62 with
  | [front, _] => (Words.words 32 front).length = 5 && front.getLast? = some 32
  | _ => false

/-- No built-in name, and at most four arguments. -/
structure Ordinary (v : List UInt8) : Prop where
  nonblank : Words.words 32 v ≠ []
  external : ∀ token args, (pieceWords v).head? = some (token :: args) →
    token ≠ ascii "exit" ∧ token ≠ ascii "cd" ∧ token ≠ ascii "path" ∧ args.length ≤ 4

instance (v : List UInt8) : Decidable (Ordinary v) :=
  decidable_of_iff
    (Words.words 32 v ≠ [] ∧ ∀ ws ∈ (pieceWords v).head?, ∀ token ∈ ws.head?,
      token ≠ ascii "exit" ∧ token ≠ ascii "cd" ∧ token ≠ ascii "path" ∧ ws.tail.length ≤ 4) <| by
    constructor
    · rintro ⟨hnonblank, hexternal⟩
      exact ⟨hnonblank, fun token args hhead => hexternal _ hhead token rfl⟩
    · rintro ⟨hnonblank, hexternal⟩
      refine ⟨hnonblank, fun ws hws token htoken => ?_⟩
      obtain ⟨args, rfl⟩ := List.head?_eq_some_iff.mp htoken
      exact hexternal token args hws

variable (os : Os W)

/-- The world when the shell has opened the file of a segment. -/
def opens (w : W) (v : List UInt8) : W :=
  match recorded v with
  | some file => if accepted file then (os.openFile w file).1 else w
  | none => w

/-! ### What a line should do -/

def launches (command_path : List (List UInt8)) (w : W) (v : List UInt8) : Bool :=
  wellFormed v && decide (CommandExists os (opens os w v) (commandOf v) command_path)

/-- Segment by segment, whether it should be launched. -/
def verdicts (command_path : List (List UInt8)) : W → List (List UInt8) → List Bool
  | _, [] => []
  | w, v :: vs => launches os command_path w v :: verdicts command_path (opens os w v) vs

/-- The numbers of the segments that should be launched. -/
def accepts : Nat → List Bool → List Nat
  | _, [] => []
  | k, verdict :: rest => if verdict then k :: accepts (k + 1) rest else accepts (k + 1) rest

/-- The errors that a segment should report. -/
def errorsOf (verdict : Bool) : Nat := if verdict then 0 else 1

/-- How many errors each segment of a line reports. -/
def segmentReports (mem : Memory) : Nat → List (List UInt8) → Wish W → Except Stop (List Nat)
  | _, [], _ => .ok []
  | k, command_part :: rest, sh => do
    let sh' ← segment os mem k command_part sh
    let reports ← segmentReports mem (k + 1) rest sh'
    return (sh'.errors - sh.errors) :: reports

/-- The line comes to its end and has launched the right segments, and each of the others
    has reported one error (the empty field behind the newline reports none). -/
def AcceptsWellFormed (mem : Memory) (after : Nat → W) (sh : Wish W) (text : List UInt8) : Prop :=
  (∃ sh' children, line os mem after (text ++ [10]) sh = .ok (sh', children) ∧
    children.map Child.segment =
      accepts 0 (verdicts os sh.command_path sh.world (text.splitOn 38))) ∧
  segmentReports os mem 0 (lineSegments mem (text ++ [10])) sh =
    .ok ((verdicts os sh.command_path sh.world (text.splitOn 38)).map errorsOf ++ [0])

/-! ### When it does -/

/-- A segment that is treated as it should be, when `n` are launched already. -/
def Safe (command_path : List (List UInt8)) (n : Nat) (w : W) (v : List UInt8) : Prop :=
  form v ≠ .lone ∧ (62 ∈ v → n < 100) ∧
    (looksUp v = true → Fits os (opens os w v) (commandOf v) command_path ∧
      (CommandExists os (opens os w v) (commandOf v) command_path →
        n < 100 ∧ form v ≠ .letter))

instance (command_path : List (List UInt8)) (n : Nat) (w : W) (v : List UInt8) :
    Decidable (Safe os command_path n w v) :=
  inferInstanceAs (Decidable (_ ∧ _ ∧ _))

/-- A launched segment leaves room for the NULL behind its arguments. -/
def Uncrowded (command_path : List (List UInt8)) (w : W) (v : List UInt8) : Prop :=
  launches os command_path w v = true → crowded v = false

instance (command_path : List (List UInt8)) (w : W) (v : List UInt8) :
    Decidable (Uncrowded os command_path w v) :=
  inferInstanceAs (Decidable (_ = true → _))

/-- The property holds of every segment, in the world and with the number of launched
    segments that the ones in front of it leave. -/
def Along (command_path : List (List UInt8)) (P : Nat → W → List UInt8 → Prop) :
    Nat → W → List (List UInt8) → Prop
  | _, _, [] => True
  | n, w, v :: vs => P n w v ∧
      Along command_path P (if launches os command_path w v then n + 1 else n) (opens os w v) vs

def decideAlong (command_path : List (List UInt8)) (P : Nat → W → List UInt8 → Prop)
    [∀ n w v, Decidable (P n w v)] :
    ∀ (n : Nat) (w : W) (vs : List (List UInt8)), Decidable (Along os command_path P n w vs)
  | _, _, [] => inferInstanceAs (Decidable True)
  | n, w, v :: vs =>
    have := decideAlong command_path P (if launches os command_path w v then n + 1 else n)
      (opens os w v) vs
    inferInstanceAs (Decidable (P n w v ∧ _))

instance (command_path : List (List UInt8)) (P : Nat → W → List UInt8 → Prop)
    [∀ n w v, Decidable (P n w v)] (n : Nat) (w : W) (vs : List (List UInt8)) :
    Decidable (Along os command_path P n w vs) := decideAlong os command_path P n w vs

/-! ### Commands -/

section Commands

variable {os} {k : Nat} {token : List UInt8} {args : List (List UInt8)} {spaced : Bool}

theorem findCommand_missing {w : W} {name : List UInt8} {command_path : List (List UInt8)}
    (hfits : Fits os w name command_path) (hmissing : ¬ CommandExists os w name command_path) :
    findCommand os w name command_path = .ok [] := by
  induction command_path with
  | nil => rfl
  | cons dir command_path ih =>
    obtain ⟨hlen, hrest⟩ := hfits
    have haccess : ¬ os.access w (dir ++ name) = true := by
      intro ha
      exact hmissing ⟨dir, by simp, ha⟩
    rw [findCommand, if_pos hlen, if_neg haccess]
    apply ih (hrest.resolve_left haccess)
    rintro ⟨dir', hdir', ha⟩
    exact hmissing ⟨dir', by simp [hdir'], ha⟩

theorem length_fields_le (token : List UInt8) (spaced : Bool) (hlen : args.length ≤ 4) :
    (token :: fields args spaced).length ≤ MAX_PARAMETER := by
  unfold fields MAX_PARAMETER
  split_ifs
  · simp
  · simp
    omega
  · simp
    omega

theorem length_fields_lt (hlen : args.length ≤ 4) :
    (token :: fields args spaced).length < MAX_PARAMETER ↔ ¬ (args.length = 4 ∧ spaced = true) := by
  unfold fields MAX_PARAMETER
  by_cases hnil : args = []
  · simp [hnil]
  · rw [if_neg hnil]
    cases spaced with
    | false => simp; omega
    | true => simp; omega

/-- A command that comes from the words in front of `>` or of a whole segment. -/
structure IsCommand (token : List UInt8) (args : List (List UInt8)) : Prop where
  words : ∀ v ∈ token :: args, IsWord 32 v ∧ 10 ∉ v
  external : token ≠ ascii "exit" ∧ token ≠ ascii "cd" ∧ token ≠ ascii "path"
  args_le : args.length ≤ 4

/-- The text that `exec_zx` is given. -/
def commandText (token : List UInt8) (args : List (List UInt8)) (spaced : Bool) : List UInt8 :=
  unwords 32 (token :: args) ++ (if spaced then [32] else []) ++ [10]

theorem command_run (h : IsCommand token args) (sh : Wish W) :
    command os k (commandText token args spaced) sh =
      (findCommand os sh.world token sh.command_path >>= fun final_command =>
        if os.access sh.world final_command then
          if sh.commands.length < 100 then
            return (false, { sh with
              commands := sh.commands ++ [⟨final_command, token :: fields args spaced, k⟩] })
          else throw .overrun
        else return (false, sh.report)) := by
  have hargs : ∀ v ∈ args, IsWord 32 v ∧ 10 ∉ v :=
    fun v hv => h.words v (List.mem_cons_of_mem _ hv)
  rw [commandText, command_words os k spaced (h.words token List.mem_cons_self) hargs h.external.1
    h.external.2.1 h.external.2.2 sh]
  simp only [if_pos (length_fields_le token spaced h.args_le)]

/-- What a command adds to the shell. -/
structure Found (k : Nat) (token : List UInt8) (args : List (List UInt8)) (spaced : Bool)
    (exists_ : Prop) [Decidable exists_] (sh sh' : Wish W) : Prop where
  world : sh'.world = sh.world
  command_path : sh'.command_path = sh.command_path
  errors : sh'.errors = sh.errors + if exists_ then 0 else 1
  commands : ∃ new : List Command, sh'.commands = sh.commands ++ new ∧
    new.map Command.segment = (if exists_ then [k] else []) ∧
    ∀ c ∈ new, c.parameter = token :: fields args spaced

theorem command_found (k : Nat) (spaced : Bool) (h : IsCommand token args) {sh : Wish W}
    (hfits : Fits os sh.world token sh.command_path)
    (hroom : CommandExists os sh.world token sh.command_path → sh.commands.length < 100) :
    ∃ sh', command os k (commandText token args spaced) sh = .ok (false, sh') ∧
      Found k token args spaced (CommandExists os sh.world token sh.command_path) sh sh' := by
  rw [command_run h]
  by_cases hexists : CommandExists os sh.world token sh.command_path
  · obtain ⟨p, hfind, haccess⟩ := findCommand_of_fits os hexists hfits
    rw [hfind, ok_bind, if_pos haccess, if_pos (hroom hexists)]
    refine ⟨_, rfl, rfl, rfl, by simp [hexists], ?_⟩
    exact ⟨[⟨p, token :: fields args spaced, k⟩], rfl, by simp [hexists], by simp⟩
  · rw [findCommand_missing hfits hexists, ok_bind, if_neg (by simp [os.access_empty])]
    refine ⟨_, rfl, rfl, rfl, by simp [hexists, Wish.report], ?_⟩
    exact ⟨[], (List.append_nil _).symm, by simp [hexists], by simp⟩

theorem command_overruns (h : IsCommand token args) {sh : Wish W}
    (hover : ¬ (Fits os sh.world token sh.command_path ∧
      (CommandExists os sh.world token sh.command_path → sh.commands.length < 100))) :
    command os k (commandText token args spaced) sh = .error .overrun := by
  rw [command_run h]
  by_cases hfits : Fits os sh.world token sh.command_path
  · obtain ⟨hexists, hroom⟩ : CommandExists os sh.world token sh.command_path ∧
        ¬ sh.commands.length < 100 := by
      simpa [hfits] using hover
    obtain ⟨p, hfind, haccess⟩ := findCommand_of_fits os hexists hfits
    rw [hfind, ok_bind, if_pos haccess, if_neg hroom]
    rfl
  · rw [findCommand_of_not_fits os hfits]
    rfl

end Commands

/-! ### A segment -/

/-- What a segment adds to the shell if it is treated as it should be. -/
structure Answers (k : Nat) (v : List UInt8) (launched : Bool) (sh sh' : Wish W) : Prop where
  world : sh'.world = opens os sh.world v
  command_path : sh'.command_path = sh.command_path
  errors : sh'.errors = sh.errors + errorsOf launched
  commands : ∃ new : List Command, sh'.commands = sh.commands ++ new ∧
    new.map Command.segment = (if launched then [k] else []) ∧
    ((∀ c ∈ new, c.parameter.length < MAX_PARAMETER) ↔ (launched = true → crowded v = false))

/-- A safe segment is treated as it should be.  Another one stops the shell, or is an error
    that is not reported. -/
structure Treats (k : Nat) (v : List UInt8) (sh : Wish W) : Prop where
  safe : Safe os sh.command_path sh.commands.length sh.world v →
    ∃ sh', writtenSegment os k v sh = .ok sh' ∧
      Answers os k v (launches os sh.command_path sh.world v) sh sh'
  not_safe : ¬ Safe os sh.command_path sh.commands.length sh.world v →
    ∀ sh', writtenSegment os k v sh = .ok sh' →
      sh'.errors = sh.errors ∧ launches os sh.command_path sh.world v = false

section Segment

variable {os} {k : Nat} {v : List UInt8} {sh : Wish W}

theorem parameters_lt {launched : Prop} [Decidable launched] {new : List Command}
    {parameter : List (List UInt8)}
    (hsegment : new.map Command.segment = if launched then [k] else [])
    (hparameter : ∀ c ∈ new, c.parameter = parameter) :
    (∀ c ∈ new, c.parameter.length < MAX_PARAMETER) ↔
      (launched → parameter.length < MAX_PARAMETER) := by
  by_cases hlaunched : launched
  · rw [if_pos hlaunched] at hsegment
    obtain ⟨c, hc, _⟩ := List.map_eq_singleton_iff.mp hsegment
    subst hc
    have hone := hparameter c (List.mem_singleton_self c)
    simp [hlaunched, hone]
  · rw [if_neg hlaunched] at hsegment
    rw [List.map_eq_nil_iff.mp hsegment]
    simp [hlaunched]

/-- A segment that is refused for what stands around its `>`. -/
theorem treats_other (sh₁ : Wish W) (h62 : 62 ∈ v) (hform : form v = .other)
    (hopens : opens os sh.world v = sh.world)
    (hrun : writtenSegment os k v sh =
      if ¬ sh.commands.length < 100 then .error .overrun else .ok sh₁)
    (hworld : sh₁.world = sh.world) (hpath : sh₁.command_path = sh.command_path)
    (hcommands : sh₁.commands = sh.commands) (herrors : sh₁.errors = sh.errors + 1) :
    Treats os k v sh := by
  have hlaunches : launches os sh.command_path sh.world v = false := by
    simp [launches, wellFormed, hform]
  constructor
  · rintro ⟨_, hroom, _⟩
    rw [hrun, if_neg (not_not_intro (hroom h62)), hlaunches]
    refine ⟨sh₁, rfl, hworld.trans hopens.symm, hpath, herrors, [], ?_, rfl, by simp⟩
    rw [hcommands, List.append_nil]
  · intro hfails sh' h
    rw [hrun] at h
    split_ifs at h with hroom
    exfalso
    apply hfails
    refine ⟨by simp [hform], fun _ => hroom, ?_⟩
    simp [looksUp, wellFormed, hform]

/-- A lone `>` reports nothing. -/
theorem treats_lone (hform : form v = .lone)
    (hrun : writtenSegment os k v sh =
      if ¬ sh.commands.length < 100 then .error .overrun else .ok sh.label) :
    Treats os k v sh := by
  have hlaunches : launches os sh.command_path sh.world v = false := by
    simp [launches, wellFormed, hform]
  constructor
  · rintro ⟨hlone, _⟩
    exact absurd hform hlone
  · intro _ sh' h
    rw [hrun] at h
    split_ifs at h
    cases h
    exact ⟨rfl, hlaunches⟩

theorem looksUp_iff : looksUp v = true ↔ form v = .plain ∨ form v = .file ∨ form v = .letter := by
  simp [looksUp, wellFormed, or_assoc]

theorem wellFormed_iff (hlooks : looksUp v = true) : wellFormed v = true ↔ form v ≠ .letter := by
  rcases looksUp_iff.mp hlooks with h | h | h <;> simp [wellFormed, h]

/-- The segment runs its command in state `sh₁`, followed by `finish`. -/
structure RunsCommand (os : Os W) (k : Nat) (v : List UInt8) (sh : Wish W) (token : List UInt8)
    (args : List (List UInt8)) (spaced : Bool) (sh₁ : Wish W)
    (finish : Bool → Wish W → Wish W) : Prop where
  isCommand : IsCommand token args
  looksUp : looksUp v = true
  commandOf : commandOf v = token
  room : 62 ∈ v → sh.commands.length < 100
  crowded : crowded v = true ↔ args.length = 4 ∧ spaced = true
  start : ({ sh with world := opens os sh.world v } : Wish W).SameCommands sh₁
  errors : sh₁.errors = sh.errors
  keeps : ∀ t : Wish W, t.SameCommands (finish false t) ∧ (finish false t).errors = t.errors
  run : writtenSegment os k v sh =
    (command os k (commandText token args spaced) sh₁ >>= fun (leave, t) => return finish leave t)

section Runs

variable {token : List UInt8} {args : List (List UInt8)} {spaced : Bool} {sh₁ : Wish W}
  {finish : Bool → Wish W → Wish W}

theorem RunsCommand.launches_iff (h : RunsCommand os k v sh token args spaced sh₁ finish) :
    launches os sh.command_path sh.world v = true ↔
      form v ≠ .letter ∧ CommandExists os sh₁.world token sh₁.command_path := by
  obtain ⟨hworld, hpath, _⟩ := h.start
  rw [launches, Bool.and_eq_true, wellFormed_iff h.looksUp, decide_eq_true_iff, h.commandOf, hworld,
    hpath]

theorem RunsCommand.safe_iff (h : RunsCommand os k v sh token args spaced sh₁ finish) :
    Safe os sh.command_path sh.commands.length sh.world v ↔
      Fits os sh₁.world token sh₁.command_path ∧
        (CommandExists os sh₁.world token sh₁.command_path →
          sh₁.commands.length < 100 ∧ form v ≠ .letter) := by
  obtain ⟨hworld, hpath, hcommands⟩ := h.start
  have hlone : form v ≠ .lone := by
    rcases looksUp_iff.mp h.looksUp with h | h | h <;> simp [h]
  rw [hworld, hpath, hcommands, ← h.commandOf]
  constructor
  · rintro ⟨_, _, hsafe⟩
    exact hsafe h.looksUp
  · intro hsafe
    exact ⟨hlone, h.room, fun _ => hsafe⟩

theorem RunsCommand.answers (h : RunsCommand os k v sh token args spaced sh₁ finish)
    (hsafe : Safe os sh.command_path sh.commands.length sh.world v) :
    ∃ sh', writtenSegment os k v sh = .ok sh' ∧
      Answers os k v (launches os sh.command_path sh.world v) sh sh' := by
  obtain ⟨hworld, hpath, hcommands⟩ := h.start
  dsimp only at hworld hpath hcommands
  obtain ⟨hfits, hfound⟩ := h.safe_iff.mp hsafe
  obtain ⟨t, hok, ht⟩ :=
    command_found k spaced h.isCommand hfits fun hexists => (hfound hexists).1
  obtain ⟨⟨hworld', hpath', hcommands'⟩, herrors'⟩ := h.keeps t
  have hsame : launches os sh.command_path sh.world v =
      decide (CommandExists os sh₁.world token sh₁.command_path) := by
    rw [Bool.eq_iff_iff, h.launches_iff, decide_eq_true_iff]
    exact and_iff_right_of_imp fun hexists => (hfound hexists).2
  rw [h.run, hok, hsame]
  obtain ⟨new, hnew, hsegment, hparameter⟩ := ht.commands
  refine ⟨finish false t, rfl, ?_, ?_, ?_, new, ?_, ?_, ?_⟩
  · rw [hworld', ht.world, hworld]
  · rw [hpath', ht.command_path, hpath]
  · rw [herrors', ht.errors, h.errors]
    simp [errorsOf]
  · rw [hcommands', hnew, hcommands]
  · simpa using hsegment
  · rw [parameters_lt hsegment hparameter, length_fields_lt h.isCommand.args_le, ← h.crowded]
    simp

/-- Where the shell does not stop, the second word behind `>` is one letter, and the
    command exists. -/
theorem RunsCommand.silent (h : RunsCommand os k v sh token args spaced sh₁ finish)
    (hfails : ¬ Safe os sh.command_path sh.commands.length sh.world v) {sh' : Wish W}
    (hok : writtenSegment os k v sh = .ok sh') :
    sh'.errors = sh.errors ∧ launches os sh.command_path sh.world v = false := by
  by_cases hover : Fits os sh₁.world token sh₁.command_path ∧
      (CommandExists os sh₁.world token sh₁.command_path → sh₁.commands.length < 100)
  · obtain ⟨hexists, hletter⟩ : CommandExists os sh₁.world token sh₁.command_path ∧
        form v = .letter := by
      rw [h.safe_iff] at hfails
      by_contra hnone
      apply hfails
      refine ⟨hover.1, fun hexists => ⟨hover.2 hexists, fun hletter => hnone ⟨hexists, hletter⟩⟩⟩
    obtain ⟨t, hcommand, ht⟩ := command_found k spaced h.isCommand hover.1 hover.2
    have hnot : launches os sh.command_path sh.world v = false := by
      rw [Bool.eq_false_iff]
      intro hlaunch
      exact (h.launches_iff.mp hlaunch).1 hletter
    rw [h.run, hcommand] at hok
    cases hok
    have hzero : t.errors = sh₁.errors := by simpa [hexists] using ht.errors
    exact ⟨(h.keeps t).2.trans (hzero.trans h.errors), hnot⟩
  · rw [h.run, command_overruns h.isCommand hover] at hok
    cases hok

theorem RunsCommand.treats (h : RunsCommand os k v sh token args spaced sh₁ finish) :
    Treats os k v sh :=
  ⟨h.answers, fun hfails _ => h.silent hfails⟩

end Runs

/-- A segment without `>`. -/
theorem treats_plain {token : List UInt8} {args : List (List UInt8)}
    (hsplit : v.splitOn 62 = [v]) (hwords : Words.words 32 v = token :: args)
    (hcommand : IsCommand token args) : Treats os k v sh := by
  have hpieces : pieceWords v = [token :: args] := by rw [pieceWords, hsplit, ← hwords]; rfl
  have h62 : 62 ∉ v := by
    rw [mem_iff_splitOn, hsplit]
    exact lt_irrefl 1
  have hopens : opens os sh.world v = sh.world := by
    simp [opens, recorded, hsplit]
  have hrun : writtenSegment os k v sh =
      (command os k (commandText token args false) sh >>= fun (_, t) => return t) := by
    rw [writtenSegment, if_neg (by simp [hwords]), hsplit, hwords, commandText]
    simp
  have hcommand : RunsCommand os k v sh token args false sh fun _ t => t := {
    isCommand := hcommand
    looksUp := by simp [looksUp, wellFormed, form, hpieces]
    commandOf := by rw [commandOf, hpieces]
    room := fun h => absurd h h62
    crowded := by simp [crowded, hsplit]
    start := ⟨hopens.symm, rfl, rfl⟩
    errors := rfl
    keeps := fun t => ⟨⟨rfl, rfl, rfl⟩, rfl⟩
    run := hrun }
  exact hcommand.treats

theorem squeeze_front {front token : List UInt8} {args : List (List UInt8)}
    (hwords : Words.words 32 front = token :: args) :
    squeeze 32 false front ++ [10] =
      commandText token args (decide (front.getLast? = some 32)) := by
  rw [squeeze_false, hwords, trail, hwords, commandText]
  by_cases hlast : front.getLast? = some 32
  · simp [hlast]
  · simp [hlast]

/-- A command and a file that is opened. -/
theorem redirected_run (os : Os W) (k : Nat) (sh : Wish W) {front token file : List UInt8}
    {args : List (List UInt8)}
    (hwords : Words.words 32 front = token :: args) (haccepted : accepted file = true) :
    ∃ (sh₁ : Wish W) (back : Bool → Wish W → Wish W),
      ({ sh with world := (os.openFile sh.world file).1 } : Wish W).SameCommands sh₁ ∧
      sh₁.errors = sh.errors ∧
      (∀ t : Wish W, t.SameCommands (back false t) ∧ (back false t).errors = t.errors) ∧
      redirected os k front file sh =
        (command os k (commandText token args (decide (front.getLast? = some 32))) sh₁ >>=
          fun (leave, t) => return back leave t) := by
  have hspace : (file.findIdx? (· == 32)).any (fun i => decide (0 < i)) = false := by
    simpa [accepted] using haccepted
  let opened := os.openFile sh.world file
  let moved := redirect sh.fds 1 (if opened.2 then some (.file file) else none)
  refine ⟨{ sh.label.file file with
      world := opened.1
      fds := moved.1 },
    fun leave t =>
      if leave then t.report else { t with fds := restore t.fds 1 moved.2.1 moved.2.2 },
    ⟨rfl, rfl, rfl⟩, rfl, fun t => ⟨⟨rfl, rfl, rfl⟩, rfl⟩, ?_⟩
  rw [redirected, hspace, if_neg Bool.false_ne_true, squeeze_front hwords]

theorem treats_redirected {front back token file : List UInt8} {args files : List (List UInt8)}
    (hsplit : v.splitOn 62 = [front, back]) (hfront : Words.words 32 front = token :: args)
    (hback : Words.words 32 back = file :: files)
    (hfiles : files = [] ∨ ∃ c, files = [[c]]) (hcommand : IsCommand token args) :
    Treats os k v sh := by
  have hpieces : pieceWords v = [token :: args, file :: files] := by
    rw [pieceWords, hsplit, ← hfront, ← hback]
    rfl
  have haccepted := (accepted_operand (isWord_of_words_eq hback)).mpr hfiles
  have hrecorded : recorded v = some (operand (file :: files)) := by
    simp [recorded, hsplit, hfront, hback]
  have h62 : 62 ∈ v := mem_of_recorded hrecorded
  have hnonblank : Words.words 32 v ≠ [] := by
    intro h
    have hall := forall_eq_of_words_eq_nil h 62 h62
    cases hall
  have hopens : opens os sh.world v = (os.openFile sh.world (operand (file :: files))).1 := by
    simp [opens, hrecorded, haccepted]
  by_cases hroom : sh.commands.length < 100
  · obtain ⟨sh₁, finish, hstart, herrors, hfinish, hredirected⟩ :=
      redirected_run os k sh hfront haccepted
    rw [← hopens] at hstart
    have hlooks : looksUp v = true := by
      rcases hfiles with rfl | ⟨c, rfl⟩
      · simp [looksUp, wellFormed, form, hpieces]
      · simp [looksUp, wellFormed, form, hpieces]
    have hrun : writtenSegment os k v sh = redirected os k front (operand (file :: files)) sh := by
      rw [writtenSegment, if_neg hnonblank, hsplit]
      simp only [hroom, not_true_eq_false, if_false, hfront, hback, reduceCtorEq, and_self, or_self]
    apply RunsCommand.treats
    exact {
      isCommand := hcommand
      looksUp := hlooks
      commandOf := by rw [commandOf, hpieces]
      room := fun _ => hroom
      crowded := by simp [crowded, hsplit, hfront]
      start := hstart
      errors := herrors
      keeps := hfinish
      run := hrun.trans hredirected }
  · have herror : writtenSegment os k v sh = .error .overrun := by
      rw [writtenSegment, if_neg hnonblank, hsplit]
      simp only [hroom, not_false_eq_true, if_true]
    constructor
    · intro h
      exact absurd (h.2.1 h62) hroom
    · intro _ sh' hok
      rw [herror] at hok
      cases hok

theorem Ordinary.isCommand (hord : Ordinary v) (h10 : 10 ∉ v) {token : List UInt8}
    {args : List (List UInt8)} (hhead : (pieceWords v).head? = some (token :: args)) :
    IsCommand token args := by
  obtain ⟨hexit, hcd, hpath, hargs⟩ := hord.external token args hhead
  refine ⟨?_, ⟨hexit, hcd, hpath⟩, hargs⟩
  obtain ⟨u, hu, hwords⟩ := List.mem_map.mp (List.mem_of_head? hhead)
  intro w hw
  rw [← hwords] at hw
  refine ⟨isWord_of_mem_words hw, ?_⟩
  intro hmem
  exact h10 (mem_of_mem_piece hu (mem_of_mem_words hw hmem))

/-- A segment with one `>`. -/
theorem treats_pair {front back : List UInt8} (hsplit : v.splitOn 62 = [front, back])
    (hord : Ordinary v) (h10 : 10 ∉ v) : Treats os k v sh := by
  have hpieces : pieceWords v = [Words.words 32 front, Words.words 32 back] := by
    rw [pieceWords, hsplit]
    rfl
  have h62 : 62 ∈ v := by
    rw [mem_iff_splitOn, hsplit]
    exact Nat.one_lt_two
  have hrun : writtenSegment os k v sh =
      if ¬ sh.commands.length < 100 then .error .overrun
      else if Words.words 32 front = [] ∧ Words.words 32 back = [] then .ok sh.label
      else if Words.words 32 front = [] ∨ Words.words 32 back = [] then .ok sh.label.report
      else redirected os k front (operand (Words.words 32 back)) sh := by
    rw [writtenSegment, if_neg hord.nonblank, hsplit]
  rcases hfront : Words.words 32 front with _ | ⟨token, args⟩ <;>
    rcases hback : Words.words 32 back with _ | ⟨file, files⟩ <;>
    rw [hfront, hback] at hpieces hrun
  · apply treats_lone
    · rw [form, hpieces]
    · rw [hrun]
      simp
  · refine treats_other sh.label.report h62 ?_ ?_ ?_ rfl rfl rfl rfl
    · rw [form, hpieces]
    · simp [opens, recorded, hsplit, hfront]
    · rw [hrun]
      simp
  · refine treats_other sh.label.report h62 ?_ ?_ ?_ rfl rfl rfl rfl
    · rw [form, hpieces]
    · simp [opens, recorded, hsplit, hfront, hback]
    · rw [hrun]
      simp
  · by_cases hfiles : files = [] ∨ ∃ c, files = [[c]]
    · exact treats_redirected hsplit hfront hback hfiles (hord.isCommand h10 (by rw [hpieces]; rfl))
    · have hrefused : accepted (operand (file :: files)) = false := by
        rw [Bool.eq_false_iff]
        exact fun h => hfiles ((accepted_operand (isWord_of_words_eq hback)).mp h)
      refine treats_other (sh.label.file (operand (file :: files))).report h62 ?_ ?_ ?_
        rfl rfl rfl rfl
      · rcases files with _ | ⟨x, _ | ⟨y, files⟩⟩
        · exact absurd (Or.inl rfl) hfiles
        · rcases x with _ | ⟨c, _ | ⟨d, x⟩⟩
          · rw [form, hpieces]
          · exact absurd (Or.inr ⟨c, rfl⟩) hfiles
          · rw [form, hpieces]
        · rcases x with _ | ⟨c, _ | ⟨d, x⟩⟩ <;> rw [form, hpieces]
      · simp [opens, recorded, hsplit, hfront, hback, hrefused]
      · have hspace : ((operand (file :: files)).findIdx? (· == 32)).any
            (fun i => decide (0 < i)) = true := by
          simpa [accepted] using hrefused
        rw [hrun, redirected, hspace]
        simp

/-- **What main does with a segment.** -/
theorem writtenSegment_treats (hord : Ordinary v) (h10 : 10 ∉ v) : Treats os k v sh := by
  rcases hsplit : v.splitOn 62 with _ | ⟨front, _ | ⟨back, _ | ⟨more, pieces⟩⟩⟩
  · exact absurd hsplit (List.splitOn_ne_nil 62 v)
  · have h62 : 62 ∉ v := by
      rw [mem_iff_splitOn, hsplit]
      exact lt_irrefl 1
    have hself := List.splitOn_eq_singleton h62
    obtain ⟨token, args, hwords⟩ := List.exists_cons_of_ne_nil hord.nonblank
    apply treats_plain hself hwords
    apply hord.isCommand h10
    rw [pieceWords, hself, List.map_singleton, hwords]
    rfl
  · exact treats_pair hsplit hord h10
  · have h62 : 62 ∈ v := by
      rw [mem_iff_splitOn, hsplit]
      simp
    refine treats_other sh.label.report h62 ?_ ?_ ?_ rfl rfl rfl rfl
    · simp [form, pieceWords, hsplit]
    · simp [opens, recorded, hsplit]
    · rw [writtenSegment, if_neg hord.nonblank, hsplit]

end Segment

/-! ### A line -/

/-- `segmentReports` on the segments as they are written. -/
def writtenReports : Nat → List (List UInt8) → Wish W → Except Stop (List Nat)
  | _, [], _ => .ok []
  | k, v :: vs, sh => do
    let sh' ← writtenSegment os k v sh
    let reports ← writtenReports (k + 1) vs sh'
    return (sh'.errors - sh.errors) :: reports

theorem segmentReports_eq {mem : Memory} (hmem : mem.Zeroed) {parts vs : List (List UInt8)}
    (hwords : parts.map (Words.words 32) = vs.map (Words.words 32))
    (hblank : ∀ part ∈ parts, Words.words 32 part = [] → part = [] ∨ part = [32])
    (h10 : ∀ v ∈ vs, 10 ∉ v) (hparts : ∀ part ∈ parts, 0 ∉ part) (h0 : ∀ v ∈ vs, 0 ∉ v)
    (k : Nat) (sh : Wish W) :
    segmentReports os mem k (parts ++ [[]]) sh =
      (writtenReports os k vs sh >>= fun reports => pure (reports ++ [0])) := by
  induction parts generalizing vs k sh with
  | nil =>
    obtain rfl : vs = [] := List.map_eq_nil_iff.mp hwords.symm
    rw [List.nil_append, segmentReports, segment_nil, ok_bind, Nat.sub_self]
    rfl
  | cons part parts ih =>
    obtain ⟨v, vs', rfl, hv, hvs⟩ := List.map_eq_cons_iff.mp hwords.symm
    have hsegment := segment_eq os hmem hv.symm (hblank part (by simp)) (h10 v (by simp))
      (hparts part (by simp)) (h0 v (by simp)) (k := k) sh
    rw [List.cons_append, segmentReports, writtenReports, hsegment]
    cases writtenSegment os k v sh with
    | error e => rfl
    | ok sh' =>
      rw [ok_bind, ok_bind, ih hvs.symm (fun p hp => hblank p (by simp [hp]))
        (fun u hu => h10 u (by simp [hu])) (fun p hp => hparts p (by simp [hp]))
        (fun u hu => h0 u (by simp [hu]))]
      cases writtenReports os (k + 1) vs' sh' <;> rfl

/-- All segments of a line are treated as they should be. -/
structure AllAnswered (k : Nat) (vs : List (List UInt8)) (sh sh' : Wish W) : Prop where
  reports : writtenReports os k vs sh =
    .ok ((verdicts os sh.command_path sh.world vs).map errorsOf)
  commands : ∃ new : List Command, sh'.commands = sh.commands ++ new ∧
    new.map Command.segment = accepts k (verdicts os sh.command_path sh.world vs) ∧
    ((∀ c ∈ new, c.parameter.length < MAX_PARAMETER) ↔
      Along os sh.command_path (fun _ => Uncrowded os sh.command_path) sh.commands.length
        sh.world vs)

section Line

variable {os}

theorem Answers.length {k : Nat} {v : List UInt8} {launched : Bool} {sh sh' : Wish W}
    (h : Answers os k v launched sh sh') :
    sh'.commands.length = if launched then sh.commands.length + 1 else sh.commands.length := by
  obtain ⟨new, hnew, hsegment, _⟩ := h.commands
  have hlen := congrArg List.length hsegment
  rw [List.length_map] at hlen
  rw [hnew, List.length_append, hlen]
  cases launched <;> rfl

theorem writtenSegments_answered {vs : List (List UInt8)}
    (hvs : ∀ v ∈ vs, Ordinary v ∧ 10 ∉ v) (k : Nat) {sh : Wish W}
    (h : Along os sh.command_path (Safe os sh.command_path) sh.commands.length sh.world vs) :
    ∃ sh', writtenSegments os k vs sh = .ok sh' ∧ AllAnswered os k vs sh sh' := by
  induction vs generalizing k sh with
  | nil => exact ⟨sh, rfl, rfl, [], (List.append_nil _).symm, rfl, by simp [Along]⟩
  | cons v vs ih =>
    obtain ⟨hsafe, hrest⟩ := h
    obtain ⟨hord, h10⟩ := hvs v (by simp)
    obtain ⟨sh₁, hok, hanswers⟩ := (writtenSegment_treats (k := k) hord h10).safe hsafe
    rw [← hanswers.length, ← hanswers.world, ← hanswers.command_path] at hrest
    obtain ⟨sh', hrun, hreports, new', hnew', hsegment', hparameter'⟩ :=
      ih (fun u hu => hvs u (by simp [hu])) (k + 1) hrest
    obtain ⟨new, hnew, hsegment, hparameter⟩ := hanswers.commands
    refine ⟨sh', ?_, ?_, new ++ new', ?_, ?_, ?_⟩
    · rw [writtenSegments, hok]
      exact hrun
    · rw [writtenReports, hok, ok_bind, hreports, ok_bind, hanswers.errors,
        Nat.add_sub_cancel_left, verdicts, List.map_cons, hanswers.world, hanswers.command_path]
      rfl
    · rw [hnew', hnew, List.append_assoc]
    · rw [List.map_append, hsegment, hsegment', verdicts, accepts, hanswers.world,
        hanswers.command_path]
      cases launches os sh.command_path sh.world v <;> rfl
    · rw [List.forall_mem_append, hparameter, hparameter', hanswers.length, hanswers.world,
        hanswers.command_path]
      rfl

/-- A segment that is not safe shows in the reports. -/
theorem safe_of_reports {vs : List (List UInt8)} (hvs : ∀ v ∈ vs, Ordinary v ∧ 10 ∉ v) {k : Nat}
    {sh : Wish W} (h : writtenReports os k vs sh =
      .ok ((verdicts os sh.command_path sh.world vs).map errorsOf)) :
    Along os sh.command_path (Safe os sh.command_path) sh.commands.length sh.world vs := by
  induction vs generalizing k sh with
  | nil => trivial
  | cons v vs ih =>
    obtain ⟨sh₁, hok, h⟩ := of_bind_eq_ok h
    obtain ⟨reports, hrest, h⟩ := of_bind_eq_ok h
    obtain ⟨hhead, rfl⟩ := List.cons.inj (Except.ok.inj h)
    obtain ⟨hord, h10⟩ := hvs v (by simp)
    have htreats : Treats os k v sh := writtenSegment_treats hord h10
    by_cases hsafe : Safe os sh.command_path sh.commands.length sh.world v
    · obtain ⟨sh₂, hok₂, hanswers⟩ := htreats.safe hsafe
      obtain rfl : sh₁ = sh₂ := Except.ok.inj (hok.symm.trans hok₂)
      rw [← hanswers.world, ← hanswers.command_path] at hrest
      have htail := ih (fun u hu => hvs u (by simp [hu])) hrest
      refine ⟨hsafe, ?_⟩
      rw [← hanswers.length, ← hanswers.world, ← hanswers.command_path]
      exact htail
    · obtain ⟨herrors, hlaunches⟩ := htreats.not_safe hsafe sh₁ hok
      rw [herrors, Nat.sub_self, hlaunches] at hhead
      cases hhead

theorem launch_ok_iff (after : Nat → W) (sh : Wish W) (i : Nat) (commands : List Command) :
    (∃ children, launch os after sh i commands = .ok children) ↔
      ∀ c ∈ commands, c.parameter.length < MAX_PARAMETER := by
  have hargv := launch_argv os after sh i commands (commands.map Command.parameter)
  constructor
  · rintro ⟨children, hlaunch⟩
    exact ((launch_argv os after sh i commands _).mp ⟨children, hlaunch, rfl⟩).1
  · intro hall
    obtain ⟨children, hlaunch, _⟩ := hargv.mpr ⟨hall, rfl⟩
    exact ⟨children, hlaunch⟩

end Line

theorem acceptsWellFormed_of_zeroed {mem : Memory} (hmem : mem.Zeroed) (after : Nat → W)
    {sh : Wish W} (hempty : sh.commands = []) {text : List UInt8} (h10 : 10 ∉ text) (h0 : 0 ∉ text)
    (hord : ∀ v ∈ text.splitOn 38, Ordinary v) :
    AcceptsWellFormed os mem after sh text ↔
      Along os sh.command_path (Safe os sh.command_path) 0 sh.world (text.splitOn 38) ∧
      Along os sh.command_path (fun _ => Uncrowded os sh.command_path) 0 sh.world
        (text.splitOn 38) := by
  have hvs : ∀ v ∈ text.splitOn 38, Ordinary v ∧ 10 ∉ v := by
    intro v hv
    exact ⟨hord v hv, fun h => h10 (mem_of_mem_piece hv h)⟩
  have hzero : sh.commands.length = 0 := by rw [hempty]; rfl
  obtain ⟨parts, hparts, hwords, hblank, hsub⟩ := parts_newline h10
  have hreports : segmentReports os mem 0 (lineSegments mem (text ++ [10])) sh =
      (writtenReports os 0 (text.splitOn 38) sh >>= fun reports => pure (reports ++ [0])) := by
    rw [lineSegments_eq hmem, cstr_eq_self (zero_not_mem_newline h0), hparts]
    exact segmentReports_eq os hmem hwords hblank (fun v hv => (hvs v hv).2)
      (fun part hpart h => h0 (hsub part hpart 0 h)) (fun v hv h => h0 (mem_of_mem_piece hv h)) 0 sh
  unfold AcceptsWellFormed
  rw [hreports, line_eq os hmem h10 h0]
  constructor
  · rintro ⟨⟨sh', children, hline, _⟩, hok⟩
    obtain ⟨reports, hwritten, hok⟩ := of_bind_eq_ok hok
    obtain rfl := List.append_cancel_right (Except.ok.inj hok)
    have hsafe := safe_of_reports hvs hwritten
    obtain ⟨sh₁, hrun, _, new, hnew, _, hparameter⟩ := writtenSegments_answered hvs 0 hsafe
    rw [hzero] at hsafe hparameter
    refine ⟨hsafe, hparameter.mp ?_⟩
    rw [hrun, ok_bind] at hline
    obtain ⟨children', hlaunch, _⟩ := of_bind_eq_ok hline
    rw [hempty, List.nil_append] at hnew
    rw [hnew] at hlaunch
    exact (launch_ok_iff after sh₁ 0 new).mp ⟨children', hlaunch⟩
  · rintro ⟨hsafe, huncrowded⟩
    rw [← hzero] at hsafe
    obtain ⟨sh₁, hrun, hwritten, new, hnew, hsegment, hparameter⟩ :=
      writtenSegments_answered hvs 0 hsafe
    rw [hzero] at hparameter
    rw [hempty, List.nil_append] at hnew
    obtain ⟨children, hlaunch⟩ := (launch_ok_iff after sh₁ 0 new).mpr (hparameter.mpr huncrowded)
    have hchildren : children.map Child.segment =
        accepts 0 (verdicts os sh.command_path sh.world (text.splitOn 38)) := by
      rw [(launch_children hlaunch).1, hsegment]
    rw [hwritten, hrun, ok_bind, ok_bind, hnew, hlaunch]
    exact ⟨⟨_, children, rfl, hchildren⟩, rfl⟩

/-- **Which segments are launched.**  A line of segments without built-in names and with at
    most four arguments launches exactly the well-formed segments whose command exists
    and reports exactly one error for each of the others, whatever the blocks of `malloc`
    hold, if and only if they are known to come fresh from the system, none of the segments
    is a `>` without words around it, none names an existing command and two words behind
    its `>` of which the second is one letter, and none overruns a table. -/
theorem segments_accepted_iff (os : Os W) (after : Nat → W) {sh : Wish W}
    (hempty : sh.commands = []) {text : List UInt8} (h10 : 10 ∉ text) (h0 : 0 ∉ text)
    (hord : ∀ v ∈ text.splitOn 38, Ordinary v) (fresh : Prop) :
    (∀ mem : Memory, (fresh → mem.Zeroed) → AcceptsWellFormed os mem after sh text) ↔
      fresh ∧
      Along os sh.command_path (Safe os sh.command_path) 0 sh.world (text.splitOn 38) ∧
      Along os sh.command_path (fun _ => Uncrowded os sh.command_path) 0 sh.world
        (text.splitOn 38) := by
  apply forall_memory_iff
  · intro mem hmem
    exact acceptsWellFormed_of_zeroed os hmem after hempty h10 h0 hord
  · refine ⟨Memory.exits, ?_⟩
    rintro ⟨⟨sh', children, hline, _⟩, _⟩
    exact line_exits os h0 after sh _ hline

theorem segments_accepted_fourSegments :
    AcceptsWellFormed disk Memory.fresh (fun _ => bin) (start bin)
      (ascii "ls > out & nosuch & > out & ls") :=
  (segments_accepted_iff disk (fun _ => bin) rfl (by decide) (by decide) (by decide +kernel)
    True).mpr ⟨trivial, by decide +kernel, by decide +kernel⟩ Memory.fresh fun _ =>
      Memory.zeroed_fresh

example : verdicts disk (start bin).command_path bin
    ((ascii "ls > out & nosuch & > out & ls").splitOn 38) = [true, false, false, true] := by
  decide +kernel

/-- **Two files, and no file at all, without an error**, in fresh memory too. -/
theorem two_files_accepted :
    (∀ text ∈ [ascii "ls > out x", ascii " > "],
      10 ∉ text ∧ 0 ∉ text ∧ ∀ v ∈ text.splitOn 38, Ordinary v) ∧
    ∀ text ∈ [ascii "ls > out x", ascii " > "],
      ¬ AcceptsWellFormed disk Memory.fresh (fun _ => bin) (start bin) text := by
  have hreports : ∀ text ∈ [ascii "ls > out x", ascii " > "],
      (segmentReports disk Memory.fresh 0 (lineSegments Memory.fresh (text ++ [10]))
        (start bin)).toOption = some [0, 0] := by
    decide +kernel
  have hverdicts : ∀ text ∈ [ascii "ls > out x", ascii " > "],
      (verdicts disk (start bin).command_path bin (text.splitOn 38)).map errorsOf = [1] := by
    decide +kernel
  refine ⟨by decide +kernel, ?_⟩
  rintro text htext ⟨_, h⟩
  have hshown := hreports text htext
  have hwanted := hverdicts text htext
  rw [h] at hshown
  change some (List.map errorsOf _ ++ [0]) = _ at hshown
  rw [show (start bin).world = bin from rfl, hwanted] at hshown
  cases hshown

end OstepProjects.Shell
