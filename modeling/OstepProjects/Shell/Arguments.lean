/-
  OstepProjects/Shell/Arguments.lean
  ==================================
  **The words that a program is started with.**

  A `SegmentText` is a segment as a user types it: a command, at most four arguments
  and possibly a file, with any number of spaces around them.  The argument vector of
  its program is made of its words, except that a space in front of `>` leaves an
  empty word behind the arguments.  So a line passes every program its own words
  exactly when no segment has arguments, a file and such a space (`argv_iff`).
-/
import OstepProjects.Shell.Segments

namespace OstepProjects.Shell

open OstepProjects.Bytes OstepProjects.Descriptors OstepProjects.Words

variable {W : Type}

/-! ### A command by its words -/

theorem strsep_append {delim : UInt8 → Bool} {w : List UInt8} {d : UInt8}
    (hw : ∀ c ∈ w, delim c = false) (hd : delim d = true) (rest : List UInt8) :
    strsep delim (w ++ d :: rest) = (w, some rest) := by
  have htake : (w ++ d :: rest).takeWhile (fun c => !delim c) = w := by
    rw [List.takeWhile_append_of_pos (by simpa using hw), List.takeWhile_cons]
    simp [hd]
  have hdrop : (w ++ d :: rest).dropWhile (fun c => !delim c) = d :: rest := by
    rw [List.dropWhile_append_of_pos (by simpa using hw), List.dropWhile_cons]
    simp [hd]
  rw [strsep, htake, hdrop]

/-- The fields behind the command; a space at the end makes an empty one. -/
def fields (args : List (List UInt8)) (spaced : Bool) : List (List UInt8) :=
  if args = [] then [] else args ++ if spaced then [[]] else []

/-- The string that `exec_zx` splits into these fields. -/
def argString (args : List (List UInt8)) (spaced : Bool) : List UInt8 :=
  if args = [] then [] else unwords 32 args ++ if spaced then [32] else []

theorem fields_argString {args : List (List UInt8)} (hargs : ∀ w ∈ args, IsWord 32 w)
    (spaced : Bool) :
    (if argString args spaced = [] then [] else (argString args spaced).splitOn 32) =
      fields args spaced := by
  unfold argString fields
  by_cases hnil : args = []
  · simp [hnil]
  · have hne : unwords 32 args ≠ [] := by
      intro h
      have hwords := words_unwords hargs
      rw [h] at hwords
      exact hnil hwords.symm
    have hsplit : (unwords 32 args).splitOn 32 = args :=
      List.splitOn_intercalate 32 (fun w hw => (hargs w hw).2) hnil
    rw [if_neg hnil, if_neg hnil, if_neg (by simp [hne])]
    cases spaced with
    | false => simp [hsplit]
    | true =>
      have hlast : (unwords 32 args ++ [32]).splitOn 32 = args ++ [[]] := by
        rw [List.splitOn_append_cons_self, hsplit, List.splitOn_nil]
      simp [hlast]

/-- The command is cut off at its first space or at the newline. -/
theorem exists_rest {w : List UInt8} {args : List (List UInt8)}
    (hargs : ∀ v ∈ args, 10 ∉ v) (spaced : Bool) :
    ∃ (c : UInt8) (rest : List UInt8), (c == 32 || c == 10) = true ∧
      unwords 32 (w :: args) ++ (if spaced then [32] else []) ++ [10] = w ++ c :: rest ∧
      (strsep (fun c => c == 10) rest).1 = argString args spaced := by
  by_cases hnil : args = []
  · subst hnil
    cases spaced with
    | false => exact ⟨10, [], rfl, by simp, rfl⟩
    | true => exact ⟨32, [10], rfl, by simp, rfl⟩
  · refine ⟨32, unwords 32 args ++ (if spaced then [32] else []) ++ [10], rfl, ?_, ?_⟩
    · rw [unwords_cons w hnil]
      simp
    · have hnewline : ∀ c ∈ argString args spaced, (c == 10) = false := by
        intro c hc
        rw [argString, if_neg hnil] at hc
        have hcases : c ∈ unwords 32 args ∨ c = 32 := by
          cases spaced with
          | false => exact Or.inl (by simpa using hc)
          | true => simpa using hc
        rcases hcases with hmem | rfl
        · rcases eq_or_mem_of_mem_unwords hmem with rfl | ⟨v, hv, hcv⟩
          · rfl
          · have hne : c ≠ 10 := fun h => hargs v hv (h ▸ hcv)
            simpa using hne
        · rfl
      rw [argString, if_neg hnil] at hnewline ⊢
      rw [strsep_append hnewline rfl]

/-- The two `strsep` calls give the command and the string behind it. -/
theorem strsep_command {w : List UInt8} {args : List (List UInt8)} (hw : IsWord 32 w ∧ 10 ∉ w)
    (hargs : ∀ v ∈ args, 10 ∉ v) (spaced : Bool) :
    ∃ rest, strsep (fun c => c == 32 || c == 10)
        (unwords 32 (w :: args) ++ (if spaced then [32] else []) ++ [10]) = (w, some rest) ∧
      (strsep (fun c => c == 10) rest).1 = argString args spaced := by
  obtain ⟨c, rest, hc, htemp, hpara⟩ := exists_rest (w := w) hargs spaced
  have htoken : ∀ d ∈ w, (d == 32 || d == 10) = false := by
    intro d hd
    have h32 : d ≠ 32 := fun h => hw.1.2 (h ▸ hd)
    have h10 : d ≠ 10 := fun h => hw.2 (h ▸ hd)
    simp [h32, h10]
  exact ⟨rest, by rw [htemp, strsep_append htoken hc], hpara⟩

variable (os : Os W)

/-- **A command that is not built in**, by its words. -/
theorem command_words (k : Nat) {w : List UInt8} {args : List (List UInt8)} (spaced : Bool)
    (hw : IsWord 32 w ∧ 10 ∉ w) (hargs : ∀ v ∈ args, IsWord 32 v ∧ 10 ∉ v)
    (hexit : w ≠ ascii "exit") (hcd : w ≠ ascii "cd") (hpath : w ≠ ascii "path") (sh : Wish W) :
    command os k (unwords 32 (w :: args) ++ (if spaced then [32] else []) ++ [10]) sh =
      (findCommand os sh.world w sh.command_path >>= fun final_command =>
        if (w :: fields args spaced).length ≤ MAX_PARAMETER then
          if os.access sh.world final_command then
            if sh.commands.length < 100 then
              return (false, { sh with
                commands := sh.commands ++ [⟨final_command, w :: fields args spaced, k⟩] })
            else throw .overrun
          else return (false, sh.report)
        else throw .overrun) := by
  obtain ⟨rest, hstrsep, hpara⟩ := strsep_command hw (fun v hv => (hargs v hv).2) spaced
  have hfields := fields_argString (fun v hv => (hargs v hv).1) spaced
  rw [command, hstrsep]
  simp only [Option.getD_some, if_neg hexit, if_neg hcd, if_neg hpath, hpara, execZx, hfields,
    bind_assoc]
  congr 1
  funext final_command
  by_cases hlen : (w :: fields args spaced).length ≤ MAX_PARAMETER
  · rw [if_pos hlen, if_pos hlen, pure_bind]
  · rw [if_neg hlen, if_neg hlen]
    rfl

/-- The command exists in a directory of the search path. -/
def CommandExists (w : W) (command : List UInt8) (command_path : List (List UInt8)) : Prop :=
  ∃ dir ∈ command_path, os.access w (dir ++ command) = true

instance (w : W) (command : List UInt8) (command_path : List (List UInt8)) :
    Decidable (CommandExists os w command command_path) :=
  inferInstanceAs (Decidable (∃ dir ∈ command_path, os.access w (dir ++ command) = true))

/-- No directory that `exec_zx` tries is too long. -/
def Fits (w : W) (command : List UInt8) : List (List UInt8) → Prop
  | [] => True
  | dir :: command_path =>
    (dir ++ command).length < 200 ∧
      (os.access w (dir ++ command) = true ∨ Fits w command command_path)

def decideFits (w : W) (command : List UInt8) :
    ∀ command_path, Decidable (Fits os w command command_path)
  | [] => inferInstanceAs (Decidable True)
  | dir :: command_path =>
    have := decideFits w command command_path
    inferInstanceAs (Decidable ((dir ++ command).length < 200 ∧ (_ ∨ _)))

instance (w : W) (command : List UInt8) (command_path : List (List UInt8)) :
    Decidable (Fits os w command command_path) := decideFits os w command command_path

theorem findCommand_of_fits {w : W} {command : List UInt8} {command_path : List (List UInt8)}
    (hexists : CommandExists os w command command_path)
    (h : Fits os w command command_path) :
    ∃ final_command, findCommand os w command command_path = .ok final_command ∧
      os.access w final_command = true := by
  induction command_path with
  | nil =>
    obtain ⟨dir, hdir, _⟩ := hexists
    cases hdir
  | cons dir command_path ih =>
    obtain ⟨hlen, hrest⟩ := h
    rw [findCommand, if_pos hlen]
    by_cases haccess : os.access w (dir ++ command) = true
    · rw [if_pos haccess]
      exact ⟨_, rfl, haccess⟩
    · rw [if_neg haccess]
      obtain ⟨dir', hdir', haccess'⟩ := hexists
      rcases List.mem_cons.mp hdir' with rfl | hdir'
      · exact absurd haccess' haccess
      · exact ih ⟨dir', hdir', haccess'⟩ (hrest.resolve_left haccess)

theorem findCommand_of_not_fits {w : W} {command : List UInt8}
    {command_path : List (List UInt8)} (h : ¬ Fits os w command command_path) :
    findCommand os w command command_path = .error .overrun := by
  induction command_path with
  | nil => exact absurd trivial h
  | cons dir command_path ih =>
    rw [findCommand]
    by_cases hlen : (dir ++ command).length < 200
    · have haccess : ¬ os.access w (dir ++ command) = true := fun ha => h ⟨hlen, Or.inl ha⟩
      rw [if_pos hlen, if_neg haccess]
      exact ih fun hrest => h ⟨hlen, Or.inr hrest⟩
    · rw [if_neg hlen]

/-! ### Segments as they are typed -/

/-- A word of a command line. -/
structure Word where
  bytes : List UInt8
  ne_nil : bytes ≠ []
  plain : ∀ c ∈ bytes, c ≠ 32 ∧ c ≠ 10 ∧ c ≠ 38 ∧ c ≠ 62 ∧ c ≠ 0

/-- What is typed behind `>`. -/
structure Target where
  gap : Nat
  file : Word
  behind : Nat
  two_le : 2 ≤ file.bytes.length

/-- Every argument comes with the number of spaces in front of it, less one. -/
structure SegmentText where
  lead : Nat
  command : Word
  args : List (Nat × Word)
  behind : Nat
  target : Option Target
  args_le : args.length ≤ 4

def spaces (n : Nat) : List UInt8 := List.replicate n 32

def argsText (args : List (Nat × Word)) : List UInt8 :=
  args.flatMap fun a => 32 :: (spaces a.1 ++ a.2.bytes)

namespace SegmentText

def front (s : SegmentText) : List UInt8 :=
  spaces s.lead ++ (s.command.bytes ++ argsText s.args) ++ spaces s.behind

def text (s : SegmentText) : List UInt8 :=
  s.front ++ s.target.elim [] fun t => 62 :: (spaces t.gap ++ t.file.bytes ++ spaces t.behind)

/-- The argument vector that is expected. -/
def argv (s : SegmentText) : List (List UInt8) :=
  s.command.bytes :: s.args.map fun a => a.2.bytes

/-- A space between the arguments and `>`. -/
def SpacedRedirect (s : SegmentText) : Prop :=
  s.target.isSome ∧ s.args ≠ [] ∧ 0 < s.behind

instance (s : SegmentText) : Decidable s.SpacedRedirect :=
  inferInstanceAs (Decidable (s.target.isSome ∧ s.args ≠ [] ∧ 0 < s.behind))

/-- What follows once the shell itself has opened the file. -/
def opened (s : SegmentText) (w : W) : W :=
  match s.target with
  | none => w
  | some t => (os.openFile w t.file.bytes).1

end SegmentText

/-- The line made of these segments. -/
def commandLine (segs : List SegmentText) : List UInt8 :=
  [38].intercalate (segs.map SegmentText.text) ++ [10]

/-- No path that is tried for the line is too long. -/
def FitsLine (command_path : List (List UInt8)) : W → List SegmentText → Prop
  | _, [] => True
  | w, s :: segs => Fits os (s.opened os w) s.command.bytes command_path ∧
      FitsLine command_path (s.opened os w) segs

def decideFitsLine (command_path : List (List UInt8)) :
    ∀ (w : W) (segs : List SegmentText), Decidable (FitsLine os command_path w segs)
  | _, [] => inferInstanceAs (Decidable True)
  | w, s :: segs =>
    have := decideFitsLine command_path (s.opened os w) segs
    inferInstanceAs (Decidable (Fits os (s.opened os w) s.command.bytes command_path ∧ _))

instance (command_path : List (List UInt8)) (w : W) (segs : List SegmentText) :
    Decidable (FitsLine os command_path w segs) := decideFitsLine os command_path w segs

/-! ### The words of a segment -/

theorem Word.isWord (w : Word) : IsWord 32 w.bytes :=
  ⟨w.ne_nil, fun h => (w.plain 32 h).1 rfl⟩

theorem spaces_succ (n : Nat) : spaces (n + 1) = spaces n ++ [32] := List.replicate_succ'

theorem words_spaces_append (n : Nat) (s : List UInt8) :
    Words.words 32 (spaces n ++ s) = Words.words 32 s := by
  induction n with
  | zero => rfl
  | succ n ih =>
    rw [spaces, List.replicate_succ, List.cons_append, words_blank]
    exact ih

theorem words_append_spaces (n : Nat) (s : List UInt8) :
    Words.words 32 (s ++ spaces n) = Words.words 32 s := by
  induction n with
  | zero => exact congrArg _ (List.append_nil s)
  | succ n ih => rw [spaces_succ, ← List.append_assoc, words_concat_blank, ih]

theorem words_argsText (w : Word) (args : List (Nat × Word)) :
    Words.words 32 (w.bytes ++ argsText args) = w.bytes :: args.map fun a => a.2.bytes := by
  induction args generalizing w with
  | nil =>
    rw [argsText, List.flatMap_nil, List.append_nil]
    exact w.isWord.words
  | cons a args ih =>
    have htext : argsText (a :: args) = 32 :: (spaces a.1 ++ (a.2.bytes ++ argsText args)) := by
      simp [argsText]
    rw [htext, words_append_blank, w.isWord.words, words_spaces_append, ih a.2]
    rfl

theorem getLast?_argsText (w : Word) (args : List (Nat × Word)) :
    (w.bytes ++ argsText args).getLast? ≠ some 32 := by
  have hword : ∀ v : Word, v.bytes.getLast? ≠ some 32 :=
    fun v h => v.isWord.2 (List.mem_of_getLast? h)
  induction args using List.reverseRecOn with
  | nil =>
    rw [argsText, List.flatMap_nil, List.append_nil]
    exact hword w
  | append_singleton args a _ =>
    have htext : w.bytes ++ argsText (args ++ [a]) =
        (w.bytes ++ argsText args ++ 32 :: spaces a.1) ++ a.2.bytes := by
      simp [argsText]
    rw [htext, List.getLast?_append_of_ne_nil _ a.2.ne_nil]
    exact hword a.2

namespace SegmentText

theorem words_front (s : SegmentText) : Words.words 32 s.front = s.argv := by
  rw [front, words_append_spaces, words_spaces_append, words_argsText]
  rfl

theorem squeeze_front (s : SegmentText) :
    squeeze 32 false s.front =
      unwords 32 s.argv ++ if 0 < s.behind then [32] else [] := by
  have hne : s.argv ≠ [] := by simp [argv]
  rw [squeeze_false, words_front, trail, words_front]
  congr 1
  by_cases hbehind : 0 < s.behind
  · have hlast : s.front.getLast? = some 32 := by
      obtain ⟨m, hm⟩ := Nat.exists_eq_succ_of_ne_zero hbehind.ne'
      rw [front, hm, spaces_succ, ← List.append_assoc, List.getLast?_concat]
    rw [if_pos ⟨hne, hlast⟩, if_pos hbehind]
  · have hlast : s.front.getLast? ≠ some 32 := by
      have hzero : spaces s.behind = [] := by rw [Nat.eq_zero_of_not_pos hbehind]; rfl
      have hnil : s.command.bytes ++ argsText s.args ≠ [] := by
        simp [s.command.ne_nil]
      rw [front, hzero, List.append_nil, List.getLast?_append_of_ne_nil _ hnil]
      exact getLast?_argsText s.command s.args
    rw [if_neg fun h => hlast h.2, if_neg hbehind]

/-- The argument vector that the program gets. -/
def passed (s : SegmentText) : List (List UInt8) :=
  s.command.bytes ::
    fields (s.args.map fun a => a.2.bytes) (s.target.isSome && decide (0 < s.behind))

theorem passed_eq_argv_iff (s : SegmentText) : s.passed = s.argv ↔ ¬ s.SpacedRedirect := by
  unfold passed argv SpacedRedirect fields
  cases s.target.isSome <;> cases hargs : s.args <;> by_cases hbehind : 0 < s.behind <;>
    simp [hbehind]

theorem length_passed_le (s : SegmentText) : s.passed.length ≤ MAX_PARAMETER := by
  have hargs := s.args_le
  unfold passed fields MAX_PARAMETER
  split_ifs <;> simp <;> omega

theorem plain_of_mem_front {s : SegmentText} {c : UInt8} (h : c ∈ s.front) :
    c ≠ 10 ∧ c ≠ 38 ∧ c ≠ 62 ∧ c ≠ 0 := by
  have hword : ∀ w : Word, c ∈ w.bytes → c ≠ 10 ∧ c ≠ 38 ∧ c ≠ 62 ∧ c ≠ 0 :=
    fun w hc => (w.plain c hc).2
  have hspace : ∀ n, c ∈ spaces n → c ≠ 10 ∧ c ≠ 38 ∧ c ≠ 62 ∧ c ≠ 0 := by
    intro n hc
    rw [(List.mem_replicate.mp hc).2]
    decide
  simp only [front, argsText, List.mem_append, List.mem_flatMap, List.mem_cons] at h
  rcases h with (h | h | ⟨a, _, rfl | h | h⟩) | h
  · exact hspace _ h
  · exact hword _ h
  · decide
  · exact hspace _ h
  · exact hword _ h
  · exact hspace _ h

theorem plain_of_mem_text {s : SegmentText} {c : UInt8} (h : c ∈ s.text) :
    c ≠ 10 ∧ c ≠ 38 ∧ c ≠ 0 := by
  have hfront : c ∈ s.front → c ≠ 10 ∧ c ≠ 38 ∧ c ≠ 0 := by
    intro h
    obtain ⟨h10, h38, _, h0⟩ := plain_of_mem_front h
    exact ⟨h10, h38, h0⟩
  have hspace : ∀ n, c ∈ spaces n → c ≠ 10 ∧ c ≠ 38 ∧ c ≠ 0 := by
    intro n hc
    rw [(List.mem_replicate.mp hc).2]
    decide
  rw [text] at h
  cases htarget : s.target with
  | none => exact hfront (by simpa [htarget] using h)
  | some t =>
    simp only [htarget, Option.elim_some, List.mem_append, List.mem_cons] at h
    rcases h with h | rfl | (h | h) | h
    · exact hfront h
    · decide
    · exact hspace _ h
    · obtain ⟨_, h10, h38, _, h0⟩ := t.file.plain c h
      exact ⟨h10, h38, h0⟩
    · exact hspace _ h

theorem front_not_mem (s : SegmentText) : 62 ∉ s.front :=
  fun h => (plain_of_mem_front h).2.2.1 rfl

end SegmentText

/-- A single word names a file as it is. -/
theorem operand_singleton {w : List UInt8} (h : IsWord 32 w) : operand [w] = w := by
  have hloop : fixLoop false w = w := by
    have hsqueeze := squeeze_unwords_words (b := (32 : UInt8)) w
    rw [h.words, unwords_singleton] at hsqueeze
    rw [fixLoop_eq, hsqueeze]
  rw [operand, unwords_singleton, inputFix, hloop]
  apply if_neg
  intro hspace
  apply h.2
  exact List.mem_of_getElem? hspace.2

theorem findIdx?_file (t : Target) : t.file.bytes.findIdx? (· == 32) = none := by
  rw [List.findIdx?_eq_none_iff]
  intro c hc
  have hne := (t.file.plain c hc).1
  simpa using hne

/-! ### Running a line -/

section Run

theorem command_external (k : Nat) {w : List UInt8} {args : List (List UInt8)} (spaced : Bool)
    (hw : IsWord 32 w ∧ 10 ∉ w) (hargs : ∀ v ∈ args, IsWord 32 v ∧ 10 ∉ v)
    (hexit : w ≠ ascii "exit") (hcd : w ≠ ascii "cd") (hpath : w ≠ ascii "path") {sh : Wish W}
    (hexists : CommandExists os sh.world w sh.command_path)
    (hlen : (w :: fields args spaced).length ≤ MAX_PARAMETER) (hroom : sh.commands.length < 100)
    (hfits : Fits os sh.world w sh.command_path) :
    ∃ p, command os k (unwords 32 (w :: args) ++ (if spaced then [32] else []) ++ [10]) sh =
      .ok (false, { sh with commands := sh.commands ++ [⟨p, w :: fields args spaced, k⟩] }) := by
  obtain ⟨p, hfind, haccess⟩ := findCommand_of_fits os hexists hfits
  refine ⟨p, ?_⟩
  rw [command_words os k spaced hw hargs hexit hcd hpath sh, hfind]
  change (if _ then _ else _) = _
  rw [if_pos hlen, if_pos haccess, if_pos hroom]
  rfl

/-- The name is not built in. -/
def SegmentText.External (s : SegmentText) : Prop :=
  s.command.bytes ≠ ascii "exit" ∧ s.command.bytes ≠ ascii "cd" ∧ s.command.bytes ≠ ascii "path"

instance (s : SegmentText) : Decidable s.External :=
  inferInstanceAs (Decidable (_ ≠ _ ∧ _ ≠ _ ∧ _ ≠ _))

/-- What the search for a command and the commands found depend on. -/
def Wish.SameCommands (sh t : Wish W) : Prop :=
  t.world = sh.world ∧ t.command_path = sh.command_path ∧ t.commands = sh.commands

/-- **A segment comes down to its command**, run in state `sh₁` and followed by `back`. -/
theorem writtenSegment_text (k : Nat) (s : SegmentText) {sh : Wish W}
    (hroom : sh.commands.length < 100) :
    ∃ (sh₁ : Wish W) (back : Bool → Wish W → Wish W),
      ({ sh with world := s.opened os sh.world } : Wish W).SameCommands sh₁ ∧
      (∀ t : Wish W, t.SameCommands (back false t)) ∧
      writtenSegment os k s.text sh =
        (command os k (unwords 32 s.argv ++
          (if (s.target.isSome && decide (0 < s.behind)) = true then [32] else []) ++ [10]) sh₁ >>=
          fun (leave, t) => return back leave t) := by
  have hne : s.argv ≠ [] := by simp [SegmentText.argv]
  cases htarget : s.target with
  | none =>
    have htext : s.text = s.front := by simp [SegmentText.text, htarget]
    refine ⟨sh, fun _ t => t, ⟨?_, rfl, rfl⟩, fun t => ⟨rfl, rfl, rfl⟩, ?_⟩
    · simp [SegmentText.opened, htarget]
    · rw [writtenSegment, htext, s.words_front, if_neg hne,
        List.splitOn_eq_singleton s.front_not_mem]
      simp
  | some t =>
    have htext : s.text = s.front ++ 62 :: (spaces t.gap ++ t.file.bytes ++ spaces t.behind) := by
      simp [SegmentText.text, htarget]
    have hback : 62 ∉ spaces t.gap ++ t.file.bytes ++ spaces t.behind := by
      intro h
      simp only [List.mem_append] at h
      rcases h with (h | h) | h
      · cases (List.mem_replicate.mp h).2
      · exact (t.file.plain 62 h).2.2.2.1 rfl
      · cases (List.mem_replicate.mp h).2
    have hwords : Words.words 32 (spaces t.gap ++ t.file.bytes ++ spaces t.behind) =
        [t.file.bytes] := by
      rw [words_append_spaces, words_spaces_append, t.file.isWord.words]
    have hsome : Words.words 32 s.text ≠ [] := by
      intro h
      have hall := forall_eq_of_words_eq_nil h 62 (by rw [htext]; simp)
      cases hall
    have hsplit : s.text.splitOn 62 =
        [s.front, spaces t.gap ++ t.file.bytes ++ spaces t.behind] := by
      rw [htext, List.splitOn_append_cons_self_of_not_mem s.front_not_mem,
        List.splitOn_eq_singleton hback]
    let opened := os.openFile sh.world t.file.bytes
    let moved := redirect sh.fds 1 (if opened.2 then some (.file t.file.bytes) else none)
    refine ⟨{ sh.label.file t.file.bytes with world := opened.1, fds := moved.1 },
      fun leave t =>
        if leave then t.report else { t with fds := restore t.fds 1 moved.2.1 moved.2.2 },
      ⟨?_, rfl, rfl⟩, fun t => ⟨rfl, rfl, rfl⟩, ?_⟩
    · simp only [SegmentText.opened, htarget]
      rfl
    · rw [writtenSegment, if_neg hsome, hsplit]
      simp only [s.words_front, hwords, hne, false_and, false_or, List.cons_ne_self, if_false,
        not_not_intro hroom]
      rw [redirected, operand_singleton t.file.isWord, findIdx?_file, s.squeeze_front]
      simp only [Option.any_none, Bool.false_eq_true, if_false, Option.isSome_some, Bool.true_and,
        decide_eq_true_eq]
      rfl

theorem Word.plain_argument (w : Word) : IsWord 32 w.bytes ∧ 10 ∉ w.bytes :=
  ⟨w.isWord, fun h => (w.plain 10 h).2.1 rfl⟩

theorem SegmentText.plain_args (s : SegmentText) :
    ∀ v ∈ s.args.map (fun a => a.2.bytes), IsWord 32 v ∧ 10 ∉ v := by
  intro v hv
  obtain ⟨a, _, rfl⟩ := List.mem_map.mp hv
  exact a.2.plain_argument

theorem CommandExists.opened {w : W} {command : List UInt8} {command_path : List (List UInt8)}
    (h : CommandExists os w command command_path) (s : SegmentText) :
    CommandExists os (s.opened os w) command command_path := by
  obtain ⟨dir, hdir, haccess⟩ := h
  refine ⟨dir, hdir, ?_⟩
  unfold SegmentText.opened
  cases s.target with
  | none => exact haccess
  | some t => exact os.open_keeps _ _ _ haccess

theorem writtenSegment_ok (k : Nat) {s : SegmentText} (hexternal : s.External) {sh : Wish W}
    (hroom : sh.commands.length < 100)
    (hexists : CommandExists os sh.world s.command.bytes sh.command_path)
    (hfits : Fits os (s.opened os sh.world) s.command.bytes sh.command_path) :
    ∃ p sh', writtenSegment os k s.text sh = .ok sh' ∧ sh'.world = s.opened os sh.world ∧
      sh'.command_path = sh.command_path ∧ sh'.commands = sh.commands ++ [⟨p, s.passed, k⟩] := by
  obtain ⟨sh₁, back, ⟨hworld, hpath, hcommands⟩, hback, hseg⟩ :=
    writtenSegment_text os k s hroom
  have hexists₁ : CommandExists os sh₁.world s.command.bytes sh₁.command_path := by
    rw [hworld, hpath]
    exact hexists.opened os s
  have hfits₁ : Fits os sh₁.world s.command.bytes sh₁.command_path := by
    rw [hworld, hpath]
    exact hfits
  have hroom₁ : sh₁.commands.length < 100 := by
    rw [hcommands]
    exact hroom
  obtain ⟨p, hrun⟩ := command_external os k (s.target.isSome && decide (0 < s.behind))
    s.command.plain_argument s.plain_args hexternal.1 hexternal.2.1 hexternal.2.2 hexists₁
    s.length_passed_le hroom₁ hfits₁
  rw [SegmentText.argv, hrun] at hseg
  obtain ⟨hworld', hpath', hcommands'⟩ :=
    hback { sh₁ with commands := sh₁.commands ++ [⟨p, s.passed, k⟩] }
  exact ⟨p, _, hseg, hworld'.trans hworld, hpath'.trans hpath,
    hcommands'.trans (congrArg (· ++ [⟨p, s.passed, k⟩]) hcommands)⟩

theorem writtenSegment_overrun (k : Nat) {s : SegmentText} (hexternal : s.External) {sh : Wish W}
    (hroom : sh.commands.length < 100)
    (hfits : ¬ Fits os (s.opened os sh.world) s.command.bytes sh.command_path) :
    writtenSegment os k s.text sh = .error .overrun := by
  obtain ⟨sh₁, back, ⟨hworld, hpath, _⟩, _, hseg⟩ := writtenSegment_text os k s hroom
  have hfits₁ : ¬ Fits os sh₁.world s.command.bytes sh₁.command_path := by
    rw [hworld, hpath]
    exact hfits
  rw [hseg, SegmentText.argv, command_words os k _ s.command.plain_argument s.plain_args
    hexternal.1 hexternal.2.1 hexternal.2.2, findCommand_of_not_fits os hfits₁]
  rfl

/-- The first segment of a line, and what the others find. -/
theorem writtenSegment_cons (k : Nat) {s : SegmentText} {segs : List SegmentText}
    (hexternal : s.External) {sh : Wish W} (hroom : sh.commands.length + (s :: segs).length ≤ 100)
    (hexists : ∀ t ∈ s :: segs, CommandExists os sh.world t.command.bytes sh.command_path)
    (hfits : Fits os (s.opened os sh.world) s.command.bytes sh.command_path) :
    ∃ p sh', writtenSegment os k s.text sh = .ok sh' ∧ sh'.world = s.opened os sh.world ∧
      sh'.command_path = sh.command_path ∧ sh'.commands = sh.commands ++ [⟨p, s.passed, k⟩] ∧
      sh'.commands.length + segs.length ≤ 100 ∧
      ∀ t ∈ segs, CommandExists os sh'.world t.command.bytes sh'.command_path := by
  rw [List.length_cons] at hroom
  obtain ⟨p, sh', hrun, hworld, hpath, hcommands⟩ :=
    writtenSegment_ok os k hexternal (by omega) (hexists s (by simp)) hfits
  refine ⟨p, sh', hrun, hworld, hpath, hcommands, ?_, ?_⟩
  · rw [hcommands, List.length_append, List.length_singleton]
    omega
  · intro t ht
    rw [hworld, hpath]
    exact (hexists t (by simp [ht])).opened os s

/-- All commands of the line are found while nothing is overrun. -/
theorem writtenSegments_ok (k : Nat) {segs : List SegmentText}
    (hexternal : ∀ s ∈ segs, s.External) {sh : Wish W}
    (hroom : sh.commands.length + segs.length ≤ 100)
    (hexists : ∀ s ∈ segs, CommandExists os sh.world s.command.bytes sh.command_path)
    (hfits : FitsLine os sh.command_path sh.world segs) :
    ∃ sh', writtenSegments os k (segs.map SegmentText.text) sh = .ok sh' ∧
      sh'.commands.map Command.parameter =
        sh.commands.map Command.parameter ++ segs.map SegmentText.passed := by
  induction segs generalizing k sh with
  | nil => exact ⟨sh, rfl, by simp⟩
  | cons s segs ih =>
    obtain ⟨hfits, hrest⟩ := hfits
    obtain ⟨p, sh₁, hrun, hworld, hpath, hcommands, hroom₁, hexists₁⟩ :=
      writtenSegment_cons os k (hexternal s (by simp)) hroom hexists hfits
    rw [← hworld, ← hpath] at hrest
    obtain ⟨sh', hrun', hparameter⟩ := ih (k + 1) (fun t ht => hexternal t (by simp [ht])) hroom₁
      hexists₁ hrest
    refine ⟨sh', ?_, ?_⟩
    · rw [List.map_cons, writtenSegments, hrun]
      exact hrun'
    · rw [hparameter, hcommands]
      simp

theorem writtenSegments_overrun (k : Nat) {segs : List SegmentText}
    (hexternal : ∀ s ∈ segs, s.External) {sh : Wish W}
    (hroom : sh.commands.length + segs.length ≤ 100)
    (hexists : ∀ s ∈ segs, CommandExists os sh.world s.command.bytes sh.command_path)
    (hfits : ¬ FitsLine os sh.command_path sh.world segs) :
    writtenSegments os k (segs.map SegmentText.text) sh = .error .overrun := by
  induction segs generalizing k sh with
  | nil => exact absurd trivial hfits
  | cons s segs ih =>
    rw [List.map_cons, writtenSegments]
    by_cases hfirst : Fits os (s.opened os sh.world) s.command.bytes sh.command_path
    · obtain ⟨p, sh₁, hrun, hworld, hpath, _, hroom₁, hexists₁⟩ :=
        writtenSegment_cons os k (hexternal s (by simp)) hroom hexists hfirst
      have hrest : ¬ FitsLine os sh₁.command_path sh₁.world segs := by
        rw [hworld, hpath]
        intro h
        exact hfits ⟨hfirst, h⟩
      rw [hrun]
      exact ih (k + 1) (fun t ht => hexternal t (by simp [ht])) hroom₁ hexists₁ hrest
    · rw [List.length_cons] at hroom
      rw [writtenSegment_overrun os k (hexternal s (by simp)) (by omega) hfirst]
      rfl

end Run

/-- The children are started with the parameters recorded for them, if each of these
    ends in a NULL slot. -/
theorem launch_argv (after : Nat → W) (sh : Wish W) (i : Nat) (commands : List Command)
    (vs : List (List (List UInt8))) :
    (∃ children, launch os after sh i commands = .ok children ∧ children.map Child.argv = vs) ↔
      (∀ c ∈ commands, c.parameter.length < MAX_PARAMETER) ∧
        commands.map Command.parameter = vs := by
  induction commands generalizing i vs with
  | nil =>
    simp only [launch, Except.ok.injEq, exists_eq_left', List.map_nil]
    simp
  | cons c commands ih =>
    rw [launch, child]
    by_cases hlen : c.parameter.length < MAX_PARAMETER
    · rw [if_pos hlen]
      constructor
      · rintro ⟨children, hrun, rfl⟩
        cases hlaunch : launch os after sh (i + 1) commands with
        | error e =>
          rw [hlaunch] at hrun
          cases hrun
        | ok others =>
          rw [hlaunch] at hrun
          obtain rfl := Except.ok.inj hrun
          obtain ⟨hall, hmap⟩ := (ih (i + 1) _).mp ⟨others, hlaunch, rfl⟩
          refine ⟨?_, by rw [List.map_cons, List.map_cons, hmap]⟩
          intro d hd
          rcases List.mem_cons.mp hd with rfl | hd
          · exact hlen
          · exact hall d hd
      · rintro ⟨hall, rfl⟩
        obtain ⟨others, hlaunch, hmap⟩ :=
          (ih (i + 1) _).mpr ⟨fun d hd => hall d (by simp [hd]), rfl⟩
        rw [hlaunch]
        exact ⟨_, rfl, by rw [List.map_cons, List.map_cons, hmap]⟩
    · rw [if_neg hlen]
      constructor
      · rintro ⟨children, hrun, _⟩
        cases hrun
      · rintro ⟨hall, _⟩
        exact absurd (hall c (by simp)) hlen

/-- What holds of the children of a line is said about `launch`. -/
theorem line_children {mem : Memory} (hmem : mem.Zeroed) {text : List UInt8} (h10 : 10 ∉ text)
    (h0 : 0 ∉ text) (after : Nat → W) {sh sh₁ : Wish W}
    (hrun : writtenSegments os 0 (text.splitOn 38) sh = .ok sh₁) (P : List Child → Prop) :
    (∃ sh' children, line os mem after (text ++ [10]) sh = .ok (sh', children) ∧ P children) ↔
      ∃ children, launch os after sh₁ 0 sh₁.commands = .ok children ∧ P children := by
  rw [line_eq os hmem h10 h0, hrun, ok_bind]
  constructor
  · rintro ⟨sh', children, hline, hP⟩
    obtain ⟨others, hlaunch, hdone⟩ := of_bind_eq_ok hline
    cases hdone
    exact ⟨children, hlaunch, hP⟩
  · rintro ⟨children, hlaunch, hP⟩
    rw [hlaunch]
    exact ⟨_, children, rfl, hP⟩

/-- The line is cut into the segments it is made of. -/
theorem splitOn_intercalate_text {segs : List SegmentText} (hne : segs ≠ []) :
    10 ∉ [38].intercalate (segs.map SegmentText.text) ∧
    0 ∉ [38].intercalate (segs.map SegmentText.text) ∧
    ([38].intercalate (segs.map SegmentText.text)).splitOn 38 = segs.map SegmentText.text := by
  have hplain : ∀ c ∈ [38].intercalate (segs.map SegmentText.text), c ≠ 10 ∧ c ≠ 0 := by
    intro c h
    rcases eq_or_mem_of_mem_unwords h with rfl | ⟨l, hl, hc⟩
    · decide
    · obtain ⟨s, _, rfl⟩ := List.mem_map.mp hl
      obtain ⟨h10, _, h0⟩ := SegmentText.plain_of_mem_text hc
      exact ⟨h10, h0⟩
  refine ⟨fun h => (hplain 10 h).1 rfl, fun h => (hplain 0 h).2 rfl, ?_⟩
  apply List.splitOn_intercalate 38
  · intro l hl h
    obtain ⟨s, _, rfl⟩ := List.mem_map.mp hl
    exact (SegmentText.plain_of_mem_text h).2.1 rfl
  · simpa using hne

theorem passed_eq_argv_all {segs : List SegmentText} :
    segs.map SegmentText.passed = segs.map SegmentText.argv ↔ ∀ s ∈ segs, ¬ s.SpacedRedirect := by
  rw [List.map_inj_left]
  apply forall₂_congr
  intro s _
  exact s.passed_eq_argv_iff

/-- Every program of the line made of `segs` is started with the words of its segment. -/
def OwnWords (mem : Memory) (after : Nat → W) (sh : Wish W) (segs : List SegmentText) : Prop :=
  ∃ sh' children, line os mem after (commandLine segs) sh = .ok (sh', children) ∧
    children.map Child.argv = segs.map SegmentText.argv

theorem ownWords_of_zeroed {mem : Memory} (hmem : mem.Zeroed) (after : Nat → W) {sh : Wish W}
    (hempty : sh.commands = []) {segs : List SegmentText}
    (hsegs : 1 ≤ segs.length ∧ segs.length ≤ 100) (hexternal : ∀ s ∈ segs, s.External)
    (hexists : ∀ s ∈ segs, CommandExists os sh.world s.command.bytes sh.command_path) :
    OwnWords os mem after sh segs ↔
      (∀ s ∈ segs, ¬ s.SpacedRedirect) ∧ FitsLine os sh.command_path sh.world segs := by
  obtain ⟨h10, h0, hsplit⟩ := splitOn_intercalate_text (List.ne_nil_of_length_pos hsegs.1)
  have hroom : sh.commands.length + segs.length ≤ 100 := by
    rw [hempty, List.length_nil]
    omega
  unfold OwnWords
  by_cases hfits : FitsLine os sh.command_path sh.world segs
  · obtain ⟨sh₁, hrun, hparameter⟩ := writtenSegments_ok os 0 hexternal hroom hexists hfits
    rw [hempty, List.map_nil, List.nil_append] at hparameter
    rw [← hsplit] at hrun
    rw [commandLine, line_children os hmem h10 h0 after hrun, launch_argv, hparameter,
      passed_eq_argv_all]
    constructor
    · rintro ⟨_, hspaced⟩
      exact ⟨hspaced, hfits⟩
    · rintro ⟨hspaced, _⟩
      refine ⟨?_, hspaced⟩
      intro c hc
      have hmem : c.parameter ∈ segs.map SegmentText.argv := by
        rw [← passed_eq_argv_all.mpr hspaced, ← hparameter]
        exact List.mem_map_of_mem hc
      obtain ⟨s, _, hs⟩ := List.mem_map.mp hmem
      have hargs := s.args_le
      rw [← hs, SegmentText.argv, MAX_PARAMETER, List.length_cons, List.length_map]
      omega
  · have hrun := writtenSegments_overrun os 0 hexternal hroom hexists hfits
    rw [commandLine, line_eq os hmem h10 h0, hsplit, hrun]
    constructor
    · rintro ⟨sh', children, hline, _⟩
      cases hline
    · rintro ⟨_, h⟩
      exact absurd h hfits

def echo : Word := ⟨ascii "echo", by decide, by decide +kernel⟩

def ls : Word := ⟨ascii "ls", by decide, by decide +kernel⟩

def hi : Word := ⟨ascii "hi", by decide, by decide +kernel⟩

/-- The segments of `echo hi>hi & ls  hi hi `. -/
def twoSegments : List SegmentText :=
  [⟨0, echo, [(0, hi)], 0, some ⟨0, hi, 1, by decide⟩, by decide⟩,
    ⟨1, ls, [(1, hi), (0, hi)], 1, none, by decide⟩]

/-- The segment `echo hi > hi`. -/
def spacedSegment : SegmentText :=
  ⟨0, echo, [(0, hi)], 1, some ⟨1, hi, 0, by decide⟩, by decide⟩

end OstepProjects.Shell
