/-
  OstepProjects/Shell/OpenDescriptors.lean
  ========================================
  **The descriptors that the shell itself holds.**

  A segment with a command and a file is redirected in the shell: the copy of
  descriptor 1 that `dup` makes is given back to `dup2`, and never closed.  So a line
  keeps the descriptors as they are exactly when none of its segments comes that far
  (`descriptors_kept_iff`).  The last line of the input may lack its newline; a line is
  therefore any string here, and the strings made of it end at a zero byte.
-/
import OstepProjects.Shell.Redirection

namespace OstepProjects.Shell

open OstepProjects.Bytes OstepProjects.Descriptors OstepProjects.Words

variable {W : Type}

/-! ### Any line -/

/-- The segments as `main` cuts them. -/
def lineSegments (mem : Memory) (str : List UInt8) : List (List UInt8) :=
  (cstr (inputFix (cstr str) ++ mem.fix_str_origin)).splitOnP fun c => c == 38 || c == 10

theorem lineSegments_eq {mem : Memory} (hmem : mem.Zeroed) (str : List UInt8) :
    lineSegments mem str = (inputFix (cstr str)).splitOnP fun c => c == 38 || c == 10 := by
  rw [lineSegments, cstr_behind (zero_not_mem_inputFix (zero_not_mem_cstr str)) hmem.fix_str_origin]

theorem noDouble_inputFix (s : List UInt8) : NoDouble 32 (inputFix s) := by
  have hfix : NoDouble 32 (fixLoop false s) := by
    rw [fixLoop_eq]
    exact (noDouble_squeeze false s).1
  unfold inputFix
  dsimp only
  split_ifs
  · refine List.isChain_append.mpr ⟨hfix.take _, List.isChain_singleton _, ?_⟩
    rintro c _ d hd ⟨_, rfl⟩
    cases hd
  · exact hfix

variable (os : Os W) {mem : Memory}

theorem segments_written (hmem : mem.Zeroed) {parts : List (List UInt8)}
    (hblank : ∀ v ∈ parts, Words.words 32 v = [] → v = [] ∨ v = [32])
    (h10 : ∀ v ∈ parts, 10 ∉ v) (h0 : ∀ v ∈ parts, 0 ∉ v) (k : Nat) (sh : Wish W) :
    segments os mem k parts sh = writtenSegments os k parts sh := by
  induction parts generalizing k sh with
  | nil => rfl
  | cons v parts ih =>
    rw [segments, writtenSegments, segment_eq os hmem rfl (hblank v (by simp)) (h10 v (by simp))
      (h0 v (by simp)) (h0 v (by simp))]
    congr 1
    funext sh'
    exact ih (fun u hu => hblank u (by simp [hu])) (fun u hu => h10 u (by simp [hu]))
      (fun u hu => h0 u (by simp [hu])) (k + 1) sh'

/-- **Any line is the sequence of its segments**, whether a newline ends it or not. -/
theorem line_segments (hmem : mem.Zeroed) (after : Nat → W) (str : List UInt8) (sh : Wish W) :
    line os mem after str sh = do
      let sh ← writtenSegments os 0 (lineSegments mem str) sh
      let children ← launch os after sh 0 sh.commands
      return ({ sh with
        commands := [], label_list := fun _ => false, file_list := fun _ => none }, children) := by
  rw [line, segment_nil]
  change (segments os mem 0 (lineSegments mem str) sh >>= _) = _
  have hfields := lineSegments_eq hmem str
  rw [segments_written os hmem]
  · intro v hv
    rw [hfields] at hv
    exact (noDouble_inputFix (cstr str)).piece hv
  · intro v hv h10
    have hfalse := not_sep_of_mem_splitOnP hv 10 h10
    cases hfalse
  · intro v hv h0
    exact zero_not_mem_cstr _ ((sublist_of_mem_splitOnP hv).subset h0)

/-! ### Segments -/

/-- No space is found in the name, behind its first character. -/
def accepted (file : List UInt8) : Bool := !(file.findIdx? (· == 32)).any fun i => 0 < i

/-- The segment comes to `dup`. -/
def redirects (v : List UInt8) : Bool := (recorded v).any accepted

theorem accepted_of_not_mem {file : List UInt8} (h : 32 ∉ file) : accepted file = true := by
  have hnone : file.findIdx? (· == 32) = none := by
    rw [List.findIdx?_eq_none_iff]
    intro c hc
    have hne : c ≠ 32 := fun heq => h (heq ▸ hc)
    simpa using hne
  rw [accepted, hnone]
  rfl

theorem not_accepted {w rest : List UInt8} (hw : IsWord 32 w) :
    accepted (w ++ 32 :: rest) = false := by
  have hidx : (w ++ 32 :: rest).findIdx? (· == 32) = some w.length := by
    rw [List.findIdx?_append, List.findIdx?_eq_none_iff.mpr]
    · simp [List.findIdx?_cons]
    · intro c hc
      have hne : c ≠ 32 := fun heq => hw.2 (heq ▸ hc)
      simpa using hne
  have hpos := List.length_pos_of_ne_nil hw.1
  rw [accepted, hidx]
  simpa using hpos

/-- A space that more than one letter follows stays in the name. -/
theorem not_accepted_inputFix {w rest : List UInt8} (hw : IsWord 32 w) (hrest : 2 ≤ rest.length)
    (hfixed : fixLoop false (w ++ 32 :: rest) = w ++ 32 :: rest) :
    accepted (inputFix (w ++ 32 :: rest)) = false := by
  unfold inputFix
  dsimp only
  rw [hfixed]
  split_ifs
  · have hlen : (w ++ 32 :: rest).length - 2 = w.length + (rest.length - 2 + 1) := by
      simp only [List.length_append, List.length_cons]
      omega
    rw [hlen, List.take_length_add_append, List.take_succ_cons, List.append_assoc,
      List.cons_append]
    exact not_accepted hw
  · exact not_accepted hw

/-- **Which names pass.**  A single word does, and two words do if the second is one letter:
    `input_fix` then puts a newline over the space in front of it. -/
theorem accepted_operand {file : List UInt8} {files : List (List UInt8)}
    (h : ∀ w ∈ file :: files, IsWord 32 w) :
    accepted (operand (file :: files)) = true ↔ files = [] ∨ ∃ c, files = [[c]] := by
  have hfile := h file (by simp)
  have hloop : fixLoop false (unwords 32 (file :: files)) = unwords 32 (file :: files) := by
    have hsqueeze := squeeze_unwords_words (b := (32 : UInt8)) (unwords 32 (file :: files))
    rwa [words_unwords h, ← fixLoop_eq] at hsqueeze
  rcases files with _ | ⟨x, _ | ⟨y, files⟩⟩
  · rw [operand_singleton hfile]
    exact iff_of_true (accepted_of_not_mem hfile.2) (Or.inl rfl)
  · have hx := h x (by simp)
    rw [unwords_cons file (by simp), unwords_singleton] at hloop
    rw [operand, unwords_cons file (by simp), unwords_singleton]
    by_cases hlen : 2 ≤ x.length
    · rw [not_accepted_inputFix hfile hlen hloop]
      refine iff_of_false Bool.false_ne_true ?_
      rintro (hnil | ⟨c, hc⟩)
      · cases hnil
      · rw [List.cons.inj hc |>.1] at hlen
        simp at hlen
    · obtain ⟨c, rfl⟩ : ∃ c, x = [c] := by
        have hpos := List.length_pos_of_ne_nil hx.1
        exact List.length_eq_one_iff.mp (by omega)
      have hfix : inputFix (file ++ [32, c]) = file ++ [10] := by
        simp [inputFix, hloop]
      rw [hfix]
      refine iff_of_true (accepted_of_not_mem ?_) (Or.inr ⟨c, rfl⟩)
      simpa using hfile.2
  · have hx := List.length_pos_of_ne_nil (h x (by simp)).1
    rw [unwords_cons file (by simp)] at hloop
    rw [operand, unwords_cons file (by simp), not_accepted_inputFix hfile _ hloop]
    · refine iff_of_false Bool.false_ne_true ?_
      rintro (hnil | ⟨c, hc⟩)
      · cases hnil
      · cases hc
    · rw [unwords_cons x (by simp)]
      simp only [List.length_append, List.length_cons]
      omega

/-- A segment comes to `dup` if it has words in front of its only `>`, and behind it one
    word, or two of which the second is one letter. -/
theorem redirects_iff {v : List UInt8} : redirects v = true ↔
    ∃ token args file files, (v.splitOn 62).map (Words.words 32) = [token :: args, file :: files] ∧
      (files = [] ∨ ∃ c, files = [[c]]) := by
  unfold redirects recorded
  split
  next token args file files hmap =>
    have hwords : ∀ w ∈ file :: files, IsWord 32 w := by
      have hmem : file :: files ∈ (v.splitOn 62).map (Words.words 32) := by simp [hmap]
      obtain ⟨u, _, hu⟩ := List.mem_map.mp hmem
      exact isWord_of_words_eq hu
    rw [Option.any_some, accepted_operand hwords]
    constructor
    · intro h
      exact ⟨token, args, file, files, hmap, h⟩
    · rintro ⟨token', args', file', files', heq, h⟩
      rw [hmap] at heq
      cases heq
      exact h
  next hnone =>
    refine iff_of_false Bool.false_ne_true ?_
    rintro ⟨token, args, file, files, heq, _⟩
    exact hnone _ _ _ _ heq

theorem redirected_fds {k : Nat} {front file : List UInt8} {sh sh' : Wish W} {g : OpenFile}
    (hfd : lookup sh.fds 1 = some g) (h : redirected os k front file sh = .ok sh') :
    if accepted file then Leaks sh.fds sh'.fds else sh'.fds = sh.fds := by
  rw [redirected] at h
  unfold accepted
  by_cases hspace : (file.findIdx? (· == 32)).any (fun i => decide (0 < i)) = true
  · rw [if_pos hspace] at h
    cases h
    simp [hspace, Wish.report, Wish.file, Wish.label]
  · rw [if_neg hspace] at h
    obtain ⟨⟨leave, sh₁⟩, hrun, h⟩ := of_bind_eq_ok h
    obtain ⟨hfds, _⟩ := command_frame os hrun
    rw [if_pos (by simp [hspace])]
    cases h
    cases leave with
    | true =>
      have hsame : sh₁.report.fds = sh₁.fds := rfl
      rw [if_pos rfl, hsame, hfds]
      exact leaks_redirect hfd _
    | false =>
      rw [if_neg Bool.false_ne_true]
      dsimp only
      rw [hfds]
      exact leaks_restore hfd _

/-- **What a segment does to the descriptors.** -/
theorem writtenSegment_fds {k : Nat} {v : List UInt8} {sh sh' : Wish W} {g : OpenFile}
    (hfd : lookup sh.fds 1 = some g) (h : writtenSegment os k v sh = .ok sh') :
    if redirects v then Leaks sh.fds sh'.fds else sh'.fds = sh.fds := by
  have hquiet : recorded v = none → redirects v = false := fun hnone => by
    rw [redirects, hnone]
    rfl
  rcases writtenSegment_cases os k v with ⟨h62, run⟩ | ⟨h62, temp, run⟩ |
    ⟨h62, hrecorded, lone, run⟩ |
    ⟨front, token, file, args, _, _, _, hrecorded, _, run⟩ <;> rw [run] at h
  · cases h
    rw [hquiet (recorded_of_not_mem h62), if_neg Bool.false_ne_true]
  · obtain ⟨⟨leave, sh₁⟩, hrun, h⟩ := of_bind_eq_ok h
    cases h
    rw [hquiet (recorded_of_not_mem h62), if_neg Bool.false_ne_true]
    exact (command_frame os hrun).1
  · split at h
    · cases h
      rw [hquiet hrecorded, if_neg Bool.false_ne_true]
      cases lone with
      | true => rfl
      | false => rfl
    · cases h
  · split at h
    · rw [redirects, hrecorded]
      exact redirected_fds os hfd h
    · cases h

/-- **What the segments of a line do to the descriptors.** -/
theorem writtenSegments_fds {k : Nat} {vs : List (List UInt8)} {sh sh' : Wish W}
    (hfd : (lookup sh.fds 1).isSome) (h : writtenSegments os k vs sh = .ok sh') :
    if vs.any redirects then Leaks sh.fds sh'.fds else sh'.fds = sh.fds := by
  induction vs generalizing k sh with
  | nil =>
    cases h
    rfl
  | cons v vs ih =>
    obtain ⟨sh₁, hseg, hrest⟩ := of_bind_eq_ok h
    obtain ⟨g, hg⟩ := Option.isSome_iff_exists.mp hfd
    have hfirst := writtenSegment_fds os hg hseg
    rw [List.any_cons]
    cases hredirects : redirects v with
    | true =>
      rw [hredirects, if_pos rfl] at hfirst
      rw [Bool.true_or, if_pos rfl]
      have hothers := ih (hfirst.kept 1 hfd) hrest
      split_ifs at hothers
      · exact hfirst.trans hothers
      · rw [hothers]
        exact hfirst
    | false =>
      rw [hredirects, if_neg Bool.false_ne_true] at hfirst
      rw [Bool.false_or, ← hfirst]
      rw [← hfirst] at hfd
      exact ih hfd hrest

/-- The two tables have the same open file behind descriptor 1 and the same descriptors open. -/
def SameOpen (t t' : Table OpenFile) : Prop :=
  lookup t' 1 = lookup t 1 ∧ ∀ fd, (lookup t' fd).isSome = (lookup t fd).isSome

theorem not_sameOpen_of_leaks {t t' : Table OpenFile} (h : Leaks t t') : ¬ SameOpen t t' := by
  rintro ⟨_, hsame⟩
  obtain ⟨fd, hnone, hsome⟩ := h.gained
  rw [hsame fd, hnone] at hsome
  cases hsome

/-- What a line does to the descriptors. -/
theorem line_fds (hmem : mem.Zeroed) {after : Nat → W} {str : List UInt8} {sh sh' : Wish W}
    {children : List Child} (hfd : (lookup sh.fds 1).isSome)
    (h : line os mem after str sh = .ok (sh', children)) :
    if (lineSegments mem str).any redirects then Leaks sh.fds sh'.fds else sh'.fds = sh.fds := by
  rw [line_segments os hmem] at h
  obtain ⟨sh₁, hrun, h⟩ := of_bind_eq_ok h
  obtain ⟨_, _, h⟩ := of_bind_eq_ok h
  have hfds := writtenSegments_fds os hfd hrun
  cases h
  exact hfds

/-! ### Runs -/

/-- A line that has come to its end: its text, what was left in memory behind its strings,
    and the shell behind it. -/
structure Turn (W : Type) where
  mem : Memory
  str : List UInt8
  shell : Wish W

/-- A run: the lines that come to their end. -/
inductive Run (os : Os W) : Wish W → List (Turn W) → Prop
  | nil {sh : Wish W} : Run os sh []
  | cons {sh sh' : Wish W} {mem : Memory} {after : Nat → W} {str : List UInt8}
      {children : List Child} {rest : List (Turn W)} :
      line os mem after str sh = .ok (sh', children) → Run os sh' rest →
      Run os sh (⟨mem, str, sh'⟩ :: rest)

/-- Every line leaves the descriptors as it has found them. -/
def KeptByEveryLine : Table OpenFile → List (Turn W) → Prop
  | _, [] => True
  | t, turn :: rest => SameOpen t turn.shell.fds ∧ KeptByEveryLine turn.shell.fds rest

theorem keptByEveryLine_iff {sh : Wish W} {run : List (Turn W)}
    (hfd : (lookup sh.fds 1).isSome) (h : Run os sh run) (hmem : ∀ turn ∈ run, turn.mem.Zeroed) :
    KeptByEveryLine sh.fds run ↔
      ∀ turn ∈ run, ∀ v ∈ lineSegments turn.mem turn.str, redirects v = false := by
  induction h with
  | nil => simp [KeptByEveryLine]
  | cons hline hrest ih =>
    rename_i sh sh' mem after str children rest
    obtain ⟨hzeroed, hmem⟩ := List.forall_mem_cons.mp hmem
    have hfds := line_fds os hzeroed hfd hline
    have hnone : (∀ v ∈ lineSegments mem str, redirects v = false) ↔
        (lineSegments mem str).any redirects = false := by simp
    rw [KeptByEveryLine, List.forall_mem_cons, hnone]
    cases hredirects : (lineSegments mem str).any redirects with
    | true =>
      rw [hredirects, if_pos rfl] at hfds
      exact iff_of_false (fun h => not_sameOpen_of_leaks hfds h.1)
        (fun h => Bool.false_ne_true h.1.symm)
    | false =>
      rw [hredirects, if_neg Bool.false_ne_true] at hfds
      rw [← hfds] at hfd
      have hsame : SameOpen sh.fds sh.fds := ⟨rfl, fun _ => rfl⟩
      dsimp only
      rw [ih hfd hmem, hfds]
      exact and_congr_left fun _ => iff_of_true hsame rfl

/-- **The shell's own descriptors.**  In every run in which the strings of the lines end
    where they should, every line leaves the descriptors of the shell as it has found them
    if and only if no segment comes to `dup`: none has one `>` between words and a file
    name that passes the test for spaces. -/
theorem descriptors_kept_iff (os : Os W) (w : W) {run : List (Turn W)}
    (h : Run os (start w) run) (hmem : ∀ turn ∈ run, turn.mem.Zeroed) :
    KeptByEveryLine (start w).fds run ↔
      ∀ turn ∈ run, ∀ v ∈ lineSegments turn.mem turn.str, redirects v = false :=
  keptByEveryLine_iff os rfl h hmem

/-- A line without redirection, and two whose redirection is an error. -/
def quietLines : List (List UInt8) :=
  [ascii "ls & nosuch\n", ascii "ls > out err\n", ascii "> out\n"]

/-- The lines one after the other, from a state of the shell, in fresh memory. -/
def runOf (os : Os W) (after : Nat → W) : List (List UInt8) → Wish W → List (Turn W)
  | [], _ => []
  | str :: lines, sh =>
    match line os Memory.fresh after str sh with
    | .error _ => []
    | .ok (sh', _) => ⟨Memory.fresh, str, sh'⟩ :: runOf os after lines sh'

theorem run_runOf (after : Nat → W) (lines : List (List UInt8)) (sh : Wish W) :
    Run os sh (runOf os after lines sh) := by
  induction lines generalizing sh with
  | nil => exact .nil
  | cons str lines ih =>
    rw [runOf]
    split
    · exact .nil
    next sh' children hline => exact .cons hline (ih sh')

theorem mem_runOf (after : Nat → W) (lines : List (List UInt8)) (sh : Wish W) :
    ∀ turn ∈ runOf os after lines sh, turn.mem = Memory.fresh := by
  induction lines generalizing sh with
  | nil => exact fun _ h => absurd h List.not_mem_nil
  | cons str lines ih =>
    rw [runOf]
    split
    · exact fun _ h => absurd h List.not_mem_nil
    · exact List.forall_mem_cons.mpr ⟨rfl, ih _⟩

theorem descriptors_kept_quietLines :
    (runOf disk (fun _ => bin) quietLines (start bin)).map Turn.str = quietLines ∧
    KeptByEveryLine (start bin).fds (runOf disk (fun _ => bin) quietLines (start bin)) := by
  have hlines : (runOf disk (fun _ => bin) quietLines (start bin)).map Turn.str = quietLines := by
    decide +kernel
  have hfresh := mem_runOf disk (fun _ => bin) quietLines (start bin)
  have hmem : ∀ turn ∈ runOf disk (fun _ => bin) quietLines (start bin), turn.mem.Zeroed := by
    intro turn hturn
    rw [hfresh turn hturn]
    exact Memory.zeroed_fresh
  refine ⟨hlines, (descriptors_kept_iff disk bin (run_runOf disk _ _ _) hmem).mpr ?_⟩
  intro turn hturn
  have hquiet : ∀ str ∈ quietLines, ∀ v ∈ lineSegments Memory.fresh str, redirects v = false := by
    decide +kernel
  have hstr : turn.str ∈ quietLines := by
    rw [← hlines]
    exact List.mem_map_of_mem hturn
  rw [hfresh turn hturn]
  exact hquiet turn.str hstr

/-- **The copy of descriptor 1 that `ls > out` makes stays open**, in fresh memory too. -/
theorem ls_out_leaks : ¬ ∀ run : List (Turn (List (List UInt8))),
    Run disk (start bin) run → KeptByEveryLine (start bin).fds run := by
  intro hall
  have hkept := hall _ (run_runOf disk (fun _ => bin) [ascii "ls > out\n"] (start bin))
  have hfds : (runOf disk (fun _ => bin) [ascii "ls > out\n"] (start bin)).map
      (fun turn => turn.shell.fds) =
      [[some (.inherited 0), some (.inherited 1), some (.inherited 2), some (.inherited 1),
        none]] := by
    decide +kernel
  obtain ⟨turn, rest, hrun, hopen, _⟩ := List.map_eq_cons_iff.mp hfds
  rw [hrun] at hkept
  have hthree := hkept.1.2 3
  rw [hopen] at hthree
  cases hthree

end OstepProjects.Shell
