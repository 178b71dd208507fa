/-
  OstepProjects/Utilities/Wgrep.lean
  ==================================
  **`wgrep`: the lines that contain a word.**

  `wgrep` reads its input with `getline` and prints a line if `strstr` finds the word in it.
  It prints the line as a string, so a line with a NUL byte loses its newline and runs into
  the next one.  On inputs without NUL bytes the output is again lines, and a pipeline of
  `wgrep`s prints the lines that contain all of its words (`pipeline_eq`): neither the order
  of the words nor their repetition matters.
-/
import OstepProjects.Lib.Bytes
import OstepProjects.Zip.Wzip

namespace OstepProjects.Utilities

open OstepProjects.Bytes OstepProjects.Zip

/-! ### The program -/

/-- The `while` loop of `wgrep` with at most `calls` calls of `getline`. -/
def grepLoop (search_word : List UInt8) : Nat → List UInt8 → List UInt8
  | 0, _ => []
  | calls + 1, fp =>
    match getline fp with
    | none => []
    | some (str, fp) =>
      (if strstr (cstr str) search_word then cstr str else []) ++ grepLoop search_word calls fp

/-- What `wgrep(path, search_word, status)` prints of the stream that it reads. -/
def wgrepStream (search_word fp : List UInt8) : List UInt8 := grepLoop search_word fp.length fp

/-- The `for` over the files. -/
def wgrepFiles (search_word : List UInt8) : List Operand → Exit
  | [] => ⟨[], 0⟩
  | none :: _ => ⟨ascii "wgrep: cannot open file\n", 1⟩
  | some fp :: files =>
    let rest := wgrepFiles search_word files
    { rest with stdout := wgrepStream search_word fp ++ rest.stdout }

/-- `main`: `argv` is the search word and the files behind it. -/
def wgrep (stdin : List UInt8) : Option (List UInt8 × List Operand) → Exit
  | none => ⟨ascii "wgrep: searchterm [file ...]\n", 1⟩
  | some (search_word, []) => ⟨wgrepStream search_word stdin, 0⟩
  | some (search_word, files) => wgrepFiles search_word files

/-! ### Lines -/

/-- All lines of a stream, each with its newline. -/
def getlines : List UInt8 → List (List UInt8)
  | [] => []
  | c :: stream =>
    if c = 10 then [10] :: getlines stream
    else
      match getlines stream with
      | [] => [[c]]
      | line :: rest => (c :: line) :: rest

/-- Lines with their newlines; the last one may do without. -/
inductive IsLines : List (List UInt8) → Prop
  | nil : IsLines []
  | last {line : List UInt8} (hne : line ≠ []) (hline : 10 ∉ line) : IsLines [line]
  | line {body : List UInt8} {rest : List (List UInt8)} (hbody : 10 ∉ body) (hrest : IsLines rest) :
    IsLines ((body ++ [10]) :: rest)

theorem getlines_of_getline {stream line rest : List UInt8}
    (h : getline stream = some (line, rest)) : getlines stream = line :: getlines rest := by
  induction stream generalizing line rest with
  | nil => cases h
  | cons c stream ih =>
    rw [getline] at h
    rw [getlines]
    by_cases hc : c = 10
    · rw [if_pos hc] at h ⊢
      obtain ⟨rfl, rfl⟩ := Prod.mk.inj (Option.some.inj h)
      rw [hc]
    · rw [if_neg hc] at h ⊢
      rcases hget : getline stream with _ | ⟨line', rest'⟩
      · rw [hget] at h
        obtain ⟨rfl, rfl⟩ := Prod.mk.inj (Option.some.inj h)
        have hnil : stream = [] := by
          by_contra hne
          obtain ⟨_, _, hsome, _⟩ := getline_spec hne
          rw [hget] at hsome
          cases hsome
        rw [hnil]
        rfl
      · rw [hget] at h
        obtain ⟨rfl, rfl⟩ := Prod.mk.inj (Option.some.inj h)
        rw [ih hget]

theorem isLines_getlines (stream : List UInt8) : IsLines (getlines stream) := by
  induction stream with
  | nil => exact .nil
  | cons c stream ih =>
    rw [getlines]
    by_cases hc : c = 10
    · rw [if_pos hc]
      exact @IsLines.line [] _ List.not_mem_nil ih
    · rw [if_neg hc]
      generalize getlines stream = ls at ih
      cases ih with
      | nil => exact .last (List.cons_ne_nil c []) fun h => hc (List.mem_singleton.mp h).symm
      | last hne hline =>
        refine .last (List.cons_ne_nil c _) fun h => ?_
        exact (List.mem_cons.mp h).elim (fun heq => hc heq.symm) hline
      | line hbody hrest =>
        refine @IsLines.line (c :: _) _ (fun h => ?_) hrest
        exact (List.mem_cons.mp h).elim (fun heq => hc heq.symm) hbody

theorem getlines_append_line {body : List UInt8} (hbody : 10 ∉ body) (stream : List UInt8) :
    getlines (body ++ [10] ++ stream) = (body ++ [10]) :: getlines stream := by
  induction body with
  | nil => exact if_pos rfl
  | cons c body ih =>
    obtain ⟨hc, hbody⟩ := not_or.mp (List.mem_cons.not.mp hbody)
    rw [List.cons_append, List.cons_append, getlines, if_neg (Ne.symm hc), ih hbody]

theorem getlines_last {line : List UInt8} (hne : line ≠ []) (hline : 10 ∉ line) :
    getlines line = [line] := by
  induction line with
  | nil => exact absurd rfl hne
  | cons c line ih =>
    obtain ⟨hc, hline⟩ := not_or.mp (List.mem_cons.not.mp hline)
    rw [getlines, if_neg (Ne.symm hc)]
    by_cases hnil : line = []
    · rw [hnil, getlines]
    · rw [ih hnil hline]

/-- Lines that are printed one after the other are read back as they were. -/
theorem IsLines.getlines_flatten {lines : List (List UInt8)} (h : IsLines lines) :
    getlines lines.flatten = lines := by
  induction h with
  | nil => rfl
  | last hne hline => rw [List.flatten_singleton, getlines_last hne hline]
  | line hbody _ ih => rw [List.flatten_cons, getlines_append_line hbody, ih]

theorem IsLines.filter {lines : List (List UInt8)} (h : IsLines lines) (p : List UInt8 → Bool) :
    IsLines (lines.filter p) := by
  induction h with
  | nil => exact .nil
  | @last line hne hline =>
    by_cases hp : p line = true
    · rw [List.filter_cons_of_pos hp]
      exact .last hne hline
    · rw [List.filter_cons_of_neg hp]
      exact .nil
  | @line body rest hbody _ ih =>
    by_cases hp : p (body ++ [10]) = true
    · rw [List.filter_cons_of_pos hp]
      exact .line hbody ih
    · rw [List.filter_cons_of_neg hp]
      exact ih

theorem flatten_getlines (stream : List UInt8) : (getlines stream).flatten = stream := by
  induction stream with
  | nil => rfl
  | cons c stream ih =>
    rw [getlines]
    by_cases hc : c = 10
    · rw [if_pos hc, List.flatten_cons, ih, hc]
      rfl
    · rw [if_neg hc]
      rcases hlines : getlines stream with _ | ⟨line, rest⟩
      · rw [hlines] at ih
        rw [← ih]
        rfl
      · rw [hlines] at ih
        rw [← ih]
        rfl

/-- A stream that ends with a newline is read to its end before what stands behind it. -/
theorem getlines_append {front : List UInt8} (hend : front = [] ∨ front.getLast? = some 10)
    (back : List UInt8) : getlines (front ++ back) = getlines front ++ getlines back := by
  induction front with
  | nil => rfl
  | cons c front ih =>
    have hlast := hend.resolve_left (List.cons_ne_nil c front)
    rw [List.cons_append, getlines, getlines]
    by_cases hnil : front = []
    · subst hnil
      have hc : c = 10 := Option.some.inj hlast
      rw [if_pos hc, if_pos hc]
      rfl
    · have hlast' : front.getLast? = some 10 := by
        obtain ⟨d, front, rfl⟩ := List.exists_cons_of_ne_nil hnil
        rw [List.getLast?_cons_cons] at hlast
        exact hlast
      rw [ih (Or.inr hlast')]
      by_cases hc : c = 10
      · rw [if_pos hc, if_pos hc, List.cons_append]
      · rw [if_neg hc, if_neg hc]
        rcases hlines : getlines front with _ | ⟨line, rest⟩
        · have hflat := flatten_getlines front
          rw [hlines] at hflat
          exact absurd hflat.symm hnil
        · rfl

theorem notMem_of_mem_getlines {stream line : List UInt8} (hnul : 0 ∉ stream)
    (hline : line ∈ getlines stream) : 0 ∉ line := by
  intro hmem
  apply hnul
  rw [← flatten_getlines stream]
  exact List.mem_flatten.mpr ⟨line, hline, hmem⟩

/-! ### What is printed -/

/-- The loop prints the lines with the word, each up to a NUL byte. -/
theorem grepLoop_eq (search_word : List UInt8) {calls : Nat} {fp : List UInt8}
    (hcalls : fp.length ≤ calls) : grepLoop search_word calls fp =
      (((getlines fp).filter fun str => strstr (cstr str) search_word).map cstr).flatten := by
  induction calls generalizing fp with
  | zero =>
    obtain rfl := List.length_eq_zero_iff.mp (Nat.le_zero.mp hcalls)
    rfl
  | succ calls ih =>
    by_cases hfp : fp = []
    · rw [hfp]
      rfl
    · obtain ⟨line, rest, hget, heq, hne, _⟩ := getline_spec hfp
      have hrest : rest.length ≤ calls := by
        have hlength := congrArg List.length heq
        have hpos := List.length_pos_iff.mpr hne
        rw [List.length_append] at hlength
        omega
      rw [grepLoop, hget, getlines_of_getline hget]
      dsimp only
      rw [ih hrest, List.filter_cons]
      by_cases hword : strstr (cstr line) search_word = true
      · rw [if_pos hword, if_pos hword]
        rfl
      · rw [if_neg hword, if_neg hword]
        rfl

theorem wgrepStream_append (search_word : List UInt8) {front : List UInt8}
    (hend : front = [] ∨ front.getLast? = some 10) (back : List UInt8) :
    wgrepStream search_word (front ++ back) =
      wgrepStream search_word front ++ wgrepStream search_word back := by
  unfold wgrepStream
  rw [grepLoop_eq search_word (Nat.le_refl _), grepLoop_eq search_word (Nat.le_refl _),
    grepLoop_eq search_word (Nat.le_refl _), getlines_append hend, List.filter_append,
    List.map_append, List.flatten_append]

theorem wgrepFiles_some (search_word : List UInt8) (files : List (List UInt8)) :
    wgrepFiles search_word (files.map some) = ⟨files.flatMap (wgrepStream search_word), 0⟩ := by
  induction files with
  | nil => rfl
  | cons f files ih =>
    rw [List.map_cons, wgrepFiles, ih]
    rfl

/-- Without NUL bytes the lines are printed whole. -/
theorem wgrepStream_eq (search_word : List UInt8) {fp : List UInt8} (hnul : 0 ∉ fp) :
    wgrepStream search_word fp =
      ((getlines fp).filter fun str => strstr str search_word).flatten := by
  have hself : ∀ str ∈ getlines fp, cstr str = str :=
    fun str hstr => cstr_eq_self (notMem_of_mem_getlines hnul hstr)
  have hfilter : ((getlines fp).filter fun str => strstr (cstr str) search_word) =
      (getlines fp).filter fun str => strstr str search_word := by
    apply List.filter_congr
    intro str hstr
    rw [hself str hstr]
  have hmap : ((getlines fp).filter fun str => strstr str search_word).map cstr =
      (getlines fp).filter fun str => strstr str search_word := by
    refine (List.map_congr_left fun str hstr => ?_).trans (List.map_id _)
    exact hself str (List.mem_filter.mp hstr).1
  rw [wgrepStream, grepLoop_eq search_word (Nat.le_refl _), hfilter, hmap]

/-! ### Pipelines -/

/-- `wgrep` with each of the words, each reading what the one before it prints. -/
def pipeline (stdin : List UInt8) : List (List UInt8) → List UInt8
  | [] => stdin
  | search_word :: search_words =>
    pipeline (wgrep stdin (some (search_word, []))).stdout search_words

theorem pipeline_filter {lines : List (List UInt8)} (hlines : IsLines lines)
    (hnul : ∀ line ∈ lines, 0 ∉ line) (search_words : List (List UInt8)) :
    pipeline lines.flatten search_words =
      (lines.filter fun line => search_words.all (strstr line)).flatten := by
  induction search_words generalizing lines with
  | nil =>
    have hall : (lines.filter fun line => ([] : List (List UInt8)).all (strstr line)) = lines :=
      List.filter_eq_self.mpr fun _ _ => rfl
    rw [hall]
    rfl
  | cons search_word search_words ih =>
    have hflat : 0 ∉ lines.flatten := by
      intro hmem
      obtain ⟨line, hline, hzero⟩ := List.mem_flatten.mp hmem
      exact hnul line hline hzero
    have hfirst : (wgrep lines.flatten (some (search_word, []))).stdout =
        (lines.filter fun str => strstr str search_word).flatten := by
      rw [wgrep, wgrepStream_eq search_word hflat, hlines.getlines_flatten]
    rw [pipeline, hfirst, ih (hlines.filter _) fun line hline =>
      hnul line (List.mem_filter.mp hline).1, List.filter_filter]
    congr 1
    apply List.filter_congr
    intro line _
    rw [List.all_cons, Bool.and_comm]

/-- **A pipeline of `wgrep`s.**  On an input without NUL bytes it prints the lines that contain
    all words, in their order, and nothing else; so only the set of the words matters. -/
theorem pipeline_eq (stdin : List UInt8) (hnul : 0 ∉ stdin) (search_words : List (List UInt8)) :
    pipeline stdin search_words =
        ((getlines stdin).filter fun line => search_words.all (strstr line)).flatten ∧
      ∀ others : List (List UInt8), (∀ w, w ∈ others ↔ w ∈ search_words) →
        pipeline stdin others = pipeline stdin search_words := by
  have hlines : ∀ words : List (List UInt8), pipeline stdin words =
      ((getlines stdin).filter fun line => words.all (strstr line)).flatten := by
    intro words
    have hpipe := pipeline_filter (isLines_getlines stdin)
      (fun line hline => notMem_of_mem_getlines hnul hline) words
    rw [flatten_getlines] at hpipe
    exact hpipe
  refine ⟨hlines search_words, fun others hsame => ?_⟩
  rw [hlines others, hlines search_words]
  congr 1
  apply List.filter_congr
  intro line _
  rw [Bool.eq_iff_iff, List.all_eq_true, List.all_eq_true]
  exact forall_congr' fun w => imp_congr_left (hsame w)

theorem pipeline_eq_twoWords :
    pipeline (ascii "cat\ndog\ncat and dog\n") [ascii "cat", ascii "dog"] =
      ascii "cat and dog\n" := by
  have hpipe := (pipeline_eq (ascii "cat\ndog\ncat and dog\n") (by decide)
    [ascii "cat", ascii "dog"]).1
  exact hpipe.trans (by decide)

end OstepProjects.Utilities
