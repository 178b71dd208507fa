/-
  OstepProjects/Reverse/Reverse.lean
  ==================================
  **`reverse` of `initial-reverse/reverse.c`.**

  The file is read into one block of memory, line by line with `getline` and
  `strcat`; a loop then runs from the end of the block to its beginning and prints a
  line whenever it meets the newline in front of it.  The size of the block goes
  through an `int`, and what happens outside of the block is undefined.

  `printBack_eq` is the loop: with a line not yet printed behind its index, it prints
  what is left in reverse order of lines.  `reverse_spec` says that the whole
  function does so on every file that an `int` can measure, and
  `reversesLines_iff` that it does so on no other.
-/
import OstepProjects.Lib.Bytes
import OstepProjects.Lib.Lines

namespace OstepProjects.Reverse

open OstepProjects.Bytes

/-- How `reverse` ends when it does not return: it exits with status 1 and a message, or
    it reaches behavior that C does not define. -/
inductive Stop where
  | exits (message : List UInt8)
  | undefined
deriving DecidableEq, Repr

def orStop {β : Type} (stop : Stop) : Option β → Except Stop β
  | none => .error stop
  | some b => .ok b

@[simp] theorem orStop_some_bind {β γ : Type} (stop : Stop) (b : β) (f : β → Except Stop γ) :
    (orStop stop (some b) >>= f) = f b := rfl

@[simp] theorem orStop_none_bind {β γ : Type} (stop : Stop) (f : β → Except Stop γ) :
    (orStop stop none >>= f) = .error stop := rfl

/-- The conversion of an `int` to `size_t`. -/
def toSize (n : Int32) : Nat := (n.toInt % 2 ^ 64).toNat

/-- `malloc(size)` and `memset(str, 0, size)`: no block is larger than `PTRDIFF_MAX`. -/
def malloc (size : Nat) : Option (List UInt8) :=
  if size < 2 ^ 63 then some (List.replicate size 0) else none

/-- `strcat(str, line)`, when the result and its terminator fit into the block. -/
def strcat (str line : List UInt8) : Option (List UInt8) :=
  let s := cstr str ++ cstr line
  if s.length < str.length then some (s ++ 0 :: str.drop (s.length + 1)) else none

/-- `while((read = getline(&line, &len, fp)) != -1) strcat(str, line);` with at most
    `calls` calls. -/
def readLines : Nat → List UInt8 → List UInt8 → Option (List UInt8)
  | 0, _, str => some str
  | calls + 1, fp, str =>
    match getline fp with
    | none => some str
    | some (line, fp) => (strcat str line).bind (readLines calls fp)

/-- `str[i]`, when it lies in the block. -/
def byteAt (str : List UInt8) (i : Int32) : Option UInt8 :=
  if 0 ≤ i.toInt then str[i.toInt.toNat]? else none

/-- `for(int j = from; j < line_count; j++) fprintf(fout, "%c", str[i+j]);` -/
def printLine (str : List UInt8) (i first line_count : Nat) : Option (List UInt8) :=
  (List.range' first (line_count - first)).mapM fun j => str[i + j]?

/-- The loop `for(...; i >= 0; i--)`, entered with `i + 1` equal to its first argument. -/
def printBack (str : List UInt8) : Nat → Nat → Option (List UInt8)
  | 0, _ => some []
  | i + 1, line_count => do
    let c ← str[i]?
    let line ← if c = 10 then (printLine str i 1 (line_count + 1)).map (· ++ [10]) else some []
    let line_count := if c = 10 then 0 else line_count + 1
    let first ← if i = 0 then printLine str i 0 line_count else some []
    let rest ← printBack str i line_count
    return line ++ first ++ rest

/-- The two loops behind the test `if(str[filesize-1] != '\n')`. -/
def printAll (str : List UInt8) (filesize : Int32) : Option (List UInt8) := do
  let last ← byteAt str (filesize - 1)
  if last ≠ 10 then
    printBack str filesize.toInt.toNat 0
  else
    return (← printBack str (filesize - 1).toInt.toNat 0) ++ [10]

/-- What `reverse(input, output, 1, out_sta)` writes; `fp` is the file that
    `fopen(input, "r")` opens, `none` when it opens none. -/
def reverse (input : List UInt8) (fp : Option (List UInt8)) : Except Stop (List UInt8) := do
  let content ← orStop (.exits (ascii "reverse: cannot open file '" ++ input ++ ascii "'\n")) fp
  let filesize := Int32.ofNat content.length
  let str ← orStop (.exits (ascii "malloc failed\n")) (malloc (toSize (filesize + 1)))
  let str ← orStop .undefined (readLines content.length content str)
  orStop .undefined (printAll str filesize)

/-! ### The loops -/

theorem printLine_eq {front line back : List UInt8} {i first line_count : Nat}
    (hfront : front.length = i + first) (hline : line.length = line_count - first) :
    printLine (front ++ line ++ back) i first line_count = some line := by
  rw [printLine, ← hline]
  clear hline
  induction line generalizing front first with
  | nil => rfl
  | cons c line ih =>
    have hrest : (List.range' (first + 1) line.length).mapM
        (fun j => (front ++ [c] ++ line ++ back)[i + j]?) = some line :=
      ih (by simp [hfront, Nat.add_assoc])
    have hbyte : (front ++ c :: line ++ back)[i + first]? = some c := by
      rw [← hfront, List.append_assoc, List.getElem?_append_right (Nat.le_refl _), Nat.sub_self]
      rfl
    have hassoc : front ++ [c] ++ line ++ back = front ++ c :: line ++ back := by simp
    rw [hassoc] at hrest
    rw [List.length_cons, List.range'_succ, List.mapM_cons, hbyte, hrest]
    rfl

/-- `cur` is the part of a line that the loop has passed and not printed. -/
theorem printBack_eq (pre : List UInt8) {cur : List UInt8} (rest : List UInt8) (hcur : 10 ∉ cur) :
    printBack (pre ++ cur ++ rest) pre.length cur.length =
      some (if pre = [] then [] else Lines.linesBack 10 (pre ++ cur)) := by
  induction pre using List.reverseRecOn generalizing cur rest with
  | nil => rfl
  | append_singleton p c ih =>
    have hassoc : p ++ [c] ++ cur ++ rest = p ++ (c :: cur) ++ rest := by simp
    have hbyte : (p ++ (c :: cur) ++ rest)[p.length]? = some c := by simp
    have hne : p ++ [c] ≠ [] := by simp
    rw [hassoc, List.length_append, List.length_singleton, printBack, hbyte, if_neg hne]
    by_cases hc : c = 10
    · -- the newline in front of `cur`: the line is printed and a new one begins
      subst hc
      have hline : printLine (p ++ (10 :: cur) ++ rest) p.length 1 (cur.length + 1) = some cur := by
        rw [← hassoc]
        exact printLine_eq (by simp) (by simp)
      have hfirst : printLine (p ++ (10 :: cur) ++ rest) p.length 0 0 = some [] := rfl
      have hrest : printBack (p ++ [] ++ ((10 :: cur) ++ rest)) p.length 0 =
          some (if p = [] then [] else Lines.linesBack 10 (p ++ [])) :=
        ih ((10 :: cur) ++ rest) List.not_mem_nil
      rw [List.append_nil, ← List.append_assoc] at hrest
      have hback : Lines.linesBack 10 (p ++ [10] ++ cur) = cur ++ 10 :: Lines.linesBack 10 p := by
        rw [← Lines.linesBack_append 10 hcur]
        simp
      by_cases hp : p = []
      · subst hp
        simp_all
      · simp_all
    · have hfirst : p = [] →
          printLine (p ++ (c :: cur) ++ rest) p.length 0 (cur.length + 1) = some (c :: cur) := by
        rintro rfl
        exact printLine_eq rfl rfl
      have hcur' : 10 ∉ c :: cur := by
        rw [List.mem_cons, not_or]
        exact ⟨fun h => hc h.symm, hcur⟩
      have hrest := ih rest hcur'
      rw [List.length_cons] at hrest
      by_cases hp : p = []
      · subst hp
        simp_all [Lines.linesBack_of_notMem]
      · simp_all

/-! ### Reading the file -/

theorem strcat_fits (str : List UInt8) {line : List UInt8} (hline : 0 ∉ line)
    (hfits : (cstr str).length + line.length < str.length) :
    ∃ str', strcat str line = some str' ∧ cstr str' = cstr str ++ line ∧
      str'.length = str.length := by
  rw [strcat, cstr_eq_self hline, List.length_append, if_pos hfits]
  refine ⟨_, rfl, ?_, ?_⟩
  · rw [cstr_append_nul, cstr_eq_self]
    rw [List.mem_append, not_or]
    exact ⟨fun h => by simpa using List.mem_takeWhile_imp h, hline⟩
  · simp only [List.length_append, List.length_cons, List.length_drop]
    omega

theorem strcat_overflows {str line : List UInt8} (hline : 0 ∉ line)
    (hlong : str.length ≤ (cstr str).length + line.length) : strcat str line = none := by
  rw [strcat, cstr_eq_self hline, List.length_append, if_neg (Nat.not_lt.mpr hlong)]

/-- A file that fits is in the block behind what was there. -/
theorem readLines_fits {calls : Nat} {fp : List UInt8} (str : List UInt8) (hnul : 0 ∉ fp)
    (hcalls : fp.length ≤ calls) (hfits : (cstr str).length + fp.length < str.length) :
    ∃ str', readLines calls fp str = some str' ∧ cstr str' = cstr str ++ fp := by
  induction calls generalizing fp str with
  | zero =>
    obtain rfl := List.length_eq_zero_iff.mp (Nat.le_zero.mp hcalls)
    exact ⟨str, rfl, (List.append_nil _).symm⟩
  | succ calls ih =>
    by_cases hfp : fp = []
    · subst hfp
      exact ⟨str, rfl, (List.append_nil _).symm⟩
    · obtain ⟨line, rest, hget, rfl, hline, _⟩ := getline_spec hfp
      rw [List.mem_append, not_or] at hnul
      rw [List.length_append] at hcalls hfits
      have hpos := List.length_pos_iff.mpr hline
      obtain ⟨str₁, hstrcat, hcstr, hlength⟩ := strcat_fits str hnul.1 (by omega)
      have hcstr_length := congrArg List.length hcstr
      rw [List.length_append] at hcstr_length
      obtain ⟨str', hread, hcstr'⟩ := ih str₁ hnul.2 (by omega) (by omega)
      refine ⟨str', ?_, ?_⟩
      · rw [readLines, hget]
        simp only [hstrcat, Option.bind_some, hread]
      · rw [hcstr', hcstr, List.append_assoc]

/-- A file that does not fit is written past the end of the block. -/
theorem readLines_overflows {calls : Nat} {fp : List UInt8} (str : List UInt8) (hnul : 0 ∉ fp)
    (hfp : fp ≠ []) (hcalls : fp.length ≤ calls)
    (hlong : str.length ≤ (cstr str).length + fp.length) :
    readLines calls fp str = none := by
  induction calls generalizing fp str with
  | zero => exact absurd (List.length_eq_zero_iff.mp (Nat.le_zero.mp hcalls)) hfp
  | succ calls ih =>
    obtain ⟨line, rest, hget, rfl, hline, _⟩ := getline_spec hfp
    rw [List.mem_append, not_or] at hnul
    rw [List.length_append] at hcalls hlong
    have hpos := List.length_pos_iff.mpr hline
    rw [readLines, hget]
    rcases Nat.lt_or_ge ((cstr str).length + line.length) str.length with hfits | hover
    · obtain ⟨str₁, hstrcat, hcstr, hlength⟩ := strcat_fits str hnul.1 hfits
      have hcstr_length := congrArg List.length hcstr
      rw [List.length_append] at hcstr_length
      have hrest : rest ≠ [] := by
        rintro rfl
        rw [List.length_nil] at hlong
        omega
      simp only [hstrcat, Option.bind_some]
      exact ih str₁ hnul.2 hrest (by omega) (by omega)
    · simp only [strcat_overflows hnul.1 hover, Option.bind_none]

/-! ### The whole function -/

/-- The loop over the bytes in front of `rest`, with no line begun. -/
theorem printBack_zero (pre rest : List UInt8) :
    printBack (pre ++ rest) pre.length 0 = some (Lines.linesBack 10 pre) := by
  have hback : printBack (pre ++ [] ++ rest) pre.length 0 =
      some (if pre = [] then [] else Lines.linesBack 10 (pre ++ [])) :=
    printBack_eq pre rest List.not_mem_nil
  rw [List.append_nil] at hback
  rw [hback]
  by_cases hpre : pre = []
  · rw [if_pos hpre, hpre, Lines.linesBack_nil]
  · rw [if_neg hpre]

theorem printAll_eq {content : List UInt8} {filesize : Int32} (rest : List UInt8)
    (hne : content ≠ []) (hfilesize : filesize.toInt = content.length)
    (hindex : (filesize - 1).toInt = content.length - 1) :
    printAll (content ++ rest) filesize = some (Lines.reverseLines 10 content) := by
  obtain ⟨init, c, rfl⟩ := (List.eq_nil_or_concat' content).resolve_left hne
  have hlength : ((init ++ [c]).length : Int) - 1 = init.length := by simp
  rw [hlength] at hindex
  have hbyte : byteAt (init ++ [c] ++ rest) (filesize - 1) = some c := by
    rw [byteAt, hindex, if_pos (Int.natCast_nonneg _)]
    simp
  rw [printAll, hbyte, hindex, hfilesize, Int.toNat_natCast, Int.toNat_natCast, printBack_zero,
    List.append_assoc, printBack_zero]
  by_cases hc : c = 10
  · subst hc
    rw [Lines.reverseLines_concat]
    rfl
  · have hlast : (init ++ [c]).getLast? ≠ some 10 := by simpa using hc
    rw [Lines.reverseLines_of_getLast? 10 hlast]
    simp [hc]

/-- On a file whose size and terminator an `int` can count. -/
theorem reverse_spec (input : List UInt8) {content : List UInt8} (hne : content ≠ [])
    (hnul : 0 ∉ content) (hsize : content.length + 1 < 2 ^ 31) :
    reverse input (some content) = .ok (Lines.reverseLines 10 content) := by
  have hpos := List.length_pos_iff.mpr hne
  have hfilesize : (Int32.ofNat content.length).toInt = content.length :=
    Int32.toInt_ofNat_of_lt (Nat.lt_of_succ_lt hsize)
  have hindex : (Int32.ofNat content.length - 1).toInt = content.length - 1 := by
    rw [Int32.toInt_sub, hfilesize, Int32.toInt_one, Int.bmod_def]
    split <;> omega
  have hblock : toSize (Int32.ofNat content.length + 1) = content.length + 1 := by
    rw [toSize, Int32.toInt_add, hfilesize, Int32.toInt_one, Int.bmod_def]
    split <;> omega
  have hmalloc : malloc (content.length + 1) = some (List.replicate (content.length + 1) 0) := by
    rw [malloc, if_pos (by omega)]
  have hempty : cstr (List.replicate (content.length + 1) 0) = [] := rfl
  obtain ⟨str, hread, hcstr⟩ := readLines_fits (List.replicate (content.length + 1) 0)
    hnul (Nat.le_refl _) (by simp [hempty])
  rw [hempty, List.nil_append] at hcstr
  obtain ⟨rest, hrest⟩ : content <+: str := hcstr ▸ List.takeWhile_prefix _
  simp only [reverse, orStop_some_bind, hblock, hmalloc, hread]
  rw [← hrest, printAll_eq rest hne hfilesize hindex, orStop]

/-- A longer file does not get into the block: there is none, or it is too small. -/
theorem reverse_of_long (input : List UInt8) {content : List UInt8} (hne : content ≠ [])
    (hnul : 0 ∉ content) (hsize : 2 ^ 31 ≤ content.length + 1) (out : List UInt8) :
    reverse input (some content) ≠ .ok out := by
  have hblock : toSize (Int32.ofNat content.length + 1) < 2 ^ 63 →
      toSize (Int32.ofNat content.length + 1) ≤ content.length := by
    intro hlt
    rw [toSize, Int32.toInt_add, Int32.toInt_ofNat', Int32.size, Int32.toInt_one,
      Int.bmod_add_bmod, Int.bmod_def] at hlt ⊢
    split at hlt <;> omega
  simp only [reverse, orStop_some_bind]
  rcases hmalloc : malloc (toSize (Int32.ofNat content.length + 1)) with _ | str
  · simp only [orStop_none_bind, ne_eq, reduceCtorEq, not_false_eq_true]
  · rw [malloc, Option.ite_none_right_eq_some, Option.some.injEq] at hmalloc
    obtain ⟨hlt, rfl⟩ := hmalloc
    have hoverflows := readLines_overflows (List.replicate _ 0) hnul hne
      (Nat.le_refl _) (by rw [List.length_replicate]; exact Nat.le_add_left_of_le (hblock hlt))
    simp only [orStop_some_bind, hoverflows, orStop_none_bind, ne_eq, reduceCtorEq,
      not_false_eq_true]

/-- What is asked of `reverse` on a file: the lines in reverse order, and on a file that
    ends with a newline the file again when it is applied to its own output. -/
def ReversesLines (content : List UInt8) : Prop :=
  ∀ input, reverse input (some content) = .ok (Lines.reverseLines 10 content) ∧
    (content.getLast? = some 10 →
      reverse input (some (Lines.reverseLines 10 content)) = .ok content)

/-- `reverse` reverses the files below two gigabytes and no others. -/
theorem reversesLines_iff {content : List UInt8} (hne : content ≠ []) (hnul : 0 ∉ content) :
    ReversesLines content ↔ content.length + 1 < 2 ^ 31 := by
  constructor
  · intro h
    by_contra hsize
    exact reverse_of_long [] hne hnul (Nat.not_lt.mp hsize) _ (h []).1
  · intro hsize input
    refine ⟨reverse_spec input hne hnul hsize, fun hlast => ?_⟩
    have hperm := Lines.reverseLines_perm 10 content
    have hback := reverse_spec input (fun h => hne (List.nil_perm.mp (h ▸ hperm)))
      (fun h => hnul (hperm.mem_iff.mp h)) (hperm.length_eq ▸ hsize)
    rw [hback, Lines.reverseLines_reverseLines 10 hlast]

theorem reversesLines_hello : ReversesLines (ascii "hello\nthis\n\nis a file\n") :=
  (reversesLines_iff (by decide) (by decide)).mpr (by decide)

/-- A file of two gigabytes without a newline. -/
theorem not_reversesLines_long : ¬ ReversesLines (List.replicate (2 ^ 31) 97) := by
  intro h
  have hlength : (List.replicate (2 ^ 31) (97 : UInt8)).length = 2 ^ 31 := List.length_replicate
  have hne : List.replicate (2 ^ 31) (97 : UInt8) ≠ [] := by
    rw [← List.length_pos_iff, hlength]
    omega
  have hnul : 0 ∉ List.replicate (2 ^ 31) (97 : UInt8) := by
    intro hmem
    exact absurd (List.eq_of_mem_replicate hmem) (by decide)
  exact reverse_of_long [] hne hnul (by rw [hlength]; omega) _ (h []).1

end OstepProjects.Reverse
