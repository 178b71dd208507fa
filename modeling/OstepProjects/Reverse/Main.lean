/-
  OstepProjects/Reverse/Main.lean
  ===============================
  **`main` of `initial-reverse/reverse.c` with two operands.**

  `main` compares its operands from their ends.  It calls `reverse` for every pair of
  bytes that differ and goes on with the count of the bytes that were equal, so a
  mismatch is not the end of the comparison.

  What a call of `reverse` does to the files is a parameter: it returns with other
  files, or it does not return.  `mainTwo_decides_iff` says for which operands `main`
  decides before it touches a file: `scan_suffix` is the comparison without a mismatch,
  and after a call that returned there is always another one or the error
  (`scan_calls`).
-/
import OstepProjects.Reverse.Reverse

namespace OstepProjects.Reverse

open OstepProjects.Bytes

variable {W : Type} (call : W → Option W) (input output : List UInt8)

/-- How a run of `main` ends: it exits with status 1 and a message, it returns, a call of
    `reverse` does not return, or it reads outside of an operand. -/
inductive Ending where
  | exits (message : List UInt8)
  | returned
  | insideReverse
  | outside
deriving DecidableEq, Repr

abbrev mustDiffer : Ending := .exits (ascii "reverse: input and output file must differ\n")

/-- The files while `main` runs and how often it has called `reverse(argv[1], argv[2], 1, 1)`. -/
structure Progress (W : Type) where
  files : W
  calls : Nat
deriving DecidableEq, Repr

structure Finish (W : Type) extends Progress W where
  ending : Ending
deriving DecidableEq, Repr

/-- One call and, when it returns, what follows it. -/
def callReverse (s : Progress W) (next : Progress W → Finish W) : Finish W :=
  match call s.files with
  | none => ⟨{ s with calls := s.calls + 1 }, .insideReverse⟩
  | some files => next ⟨files, s.calls + 1⟩

theorem callReverse_none {s : Progress W} {next : Progress W → Finish W}
    (h : call s.files = none) :
    callReverse call s next = ⟨{ s with calls := s.calls + 1 }, .insideReverse⟩ := by
  rw [callReverse, h]

theorem callReverse_some {s : Progress W} {next : Progress W → Finish W} {files : W}
    (h : call s.files = some files) : callReverse call s next = next ⟨files, s.calls + 1⟩ := by
  rw [callReverse, h]

/-- `for(int i = in_len - 1; i >= 0; i--)` up to the last `'/'`. -/
def fileLen (arg : List UInt8) : Nat := (arg.reverse.takeWhile (· ≠ 47)).length

/-- The loop over `argv[2]`, entered with `j + 1` equal to its first argument, and the
    call behind it.  `argv[1][in_len-1-count]` lies in front of an empty `argv[1]`. -/
def scan : Nat → Nat → Progress W → Finish W
  | 0, _, s => callReverse call s fun s => ⟨s, .returned⟩
  | j + 1, count, s =>
    if input.length < 1 + count then ⟨s, .outside⟩
    else if input[input.length - 1 - count]? = output[j]? then
      if count + 1 = input.length then ⟨s, mustDiffer⟩ else scan j (count + 1) s
    else callReverse call s (scan j count)

/-- The branch `if(argc == 3)` of `main`. -/
def mainTwo (files : W) : Finish W :=
  if output.length < fileLen input then
    callReverse call ⟨files, 0⟩ (scan call input output output.length 0)
  else scan call input output output.length 0 ⟨files, 0⟩

/-- The part of a path behind its last `'/'`. -/
def lastComponent (arg : List UInt8) : List UInt8 := (arg.reverse.takeWhile (· ≠ 47)).reverse

/-- `main` ends with the error and has not called `reverse`, or it calls `reverse` once;
    the error is what equal operands get and operands with different last components do
    not get. -/
structure Decides (r : Finish W) : Prop where
  decided : r.ending = mustDiffer ∧ r.calls = 0 ∨
    (r.ending = .returned ∨ r.ending = .insideReverse) ∧ r.calls = 1
  same : input = output → r.ending = mustDiffer
  differ : lastComponent input ≠ lastComponent output → r.ending ≠ mustDiffer

/-! ### The comparison -/

/-- Every way to the end of the loop but the error leads through a call. -/
theorem scan_calls (j count : Nat) (s : Progress W) :
    s.calls ≤ (scan call input output j count s).calls ∧
      ((scan call input output j count s).ending = .returned ∨
        (scan call input output j count s).ending = .insideReverse →
        s.calls < (scan call input output j count s).calls) := by
  induction j generalizing count s with
  | zero =>
    rw [scan]
    rcases hcall : call s.files with _ | files
    · simp [callReverse_none call hcall]
    · simp [callReverse_some call hcall]
  | succ j ih =>
    rw [scan]
    split_ifs with hindex heq hlast
    · simp
    · simp
    · exact ih (count + 1) s
    · rcases hcall : call s.files with _ | files
      · simp [callReverse_none call hcall]
      · have hrest := ih count ⟨files, s.calls + 1⟩
        rw [callReverse_some call hcall]
        exact ⟨Nat.le_of_succ_le hrest.1, fun _ => hrest.1⟩

/-- After a call that returned `main` decides nothing. -/
theorem not_decides_of_calls {j count : Nat} {s : Progress W} (hcalls : 0 < s.calls) :
    ¬ Decides input output (scan call input output j count s) := by
  intro h
  have hscan := scan_calls call input output j count s
  rcases h.decided with ⟨_, hzero⟩ | ⟨hending, hone⟩
  · omega
  · have hless := hscan.2 hending
    omega

theorem concat_suffix_concat {a b : UInt8} {s t : List UInt8} :
    s ++ [a] <:+ t ++ [b] ↔ s <:+ t ∧ a = b := by
  have hlength : [a].length = [b].length := rfl
  rw [List.suffix_append_inj_of_length_eq hlength, List.singleton_inj]

/-- The comparison from two bytes on behind which both operands are equal: it ends with
    the error, it ends with the last call, or it comes to a mismatch. -/
theorem scan_suffix {p o m : List UInt8} (hp : p ≠ []) (s : Progress W) :
    (p <:+ o → scan call (p ++ m) (o ++ m) o.length m.length s = ⟨s, mustDiffer⟩) ∧
    (¬ p <:+ o → o <:+ p → scan call (p ++ m) (o ++ m) o.length m.length s =
      callReverse call s fun s => ⟨s, .returned⟩) ∧
    (¬ p <:+ o → ¬ o <:+ p → ∃ j count, scan call (p ++ m) (o ++ m) o.length m.length s =
      callReverse call s (scan call (p ++ m) (o ++ m) j count)) := by
  induction o using List.reverseRecOn generalizing p m with
  | nil =>
    refine ⟨fun h => absurd (List.suffix_nil.mp h) hp, fun _ _ => rfl, fun _ h => ?_⟩
    exact absurd List.nil_suffix h
  | append_singleton o b ih =>
    obtain ⟨p, a, rfl⟩ := (List.eq_nil_or_concat' p).resolve_left hp
    have hinput : (p ++ [a] ++ m)[(p ++ [a] ++ m).length - 1 - m.length]? = some a := by
      have hindex : (p ++ [a] ++ m).length - 1 - m.length = p.length := by simp
      rw [hindex]
      simp
    have houtput : (o ++ [b] ++ m)[o.length]? = some b := by simp
    have hinside : ¬ (p ++ [a] ++ m).length < 1 + m.length := by simp; omega
    rw [List.length_append, List.length_singleton, scan, if_neg hinside, hinput, houtput]
    rw [concat_suffix_concat, concat_suffix_concat]
    by_cases hab : a = b
    · subst hab
      rw [if_pos rfl, List.append_assoc, List.append_assoc, List.singleton_append]
      by_cases hnil : p = []
      · subst hnil
        rw [if_pos (by simp)]
        exact ⟨fun _ => rfl, fun h => absurd ⟨List.nil_suffix, rfl⟩ h,
          fun h => absurd ⟨List.nil_suffix, rfl⟩ h⟩
      · have hlength : m.length + 1 ≠ (p ++ a :: m).length := by
          have hpos := List.length_pos_iff.mpr hnil
          rw [List.length_append, List.length_cons]
          omega
        have hrest := ih (m := a :: m) hnil
        rw [if_neg hlength]
        simpa using hrest
    · rw [if_neg (by simpa using hab)]
      exact ⟨fun h => absurd h.2 hab, fun _ h => absurd h.2.symm hab, fun _ _ => ⟨_, _, rfl⟩⟩

/-! ### When `main` decides -/

theorem fileLen_le (arg : List UInt8) : fileLen arg ≤ arg.length := by
  have hle := (List.takeWhile_prefix (fun c => decide (c ≠ 47)) (l := arg.reverse)).length_le
  rwa [List.length_reverse] at hle

variable {input output}

theorem decides_of_called {r : Finish W} (hsuffix : ¬ input <:+ output)
    (hending : r.ending = .returned ∨ r.ending = .insideReverse) (hcalls : r.calls = 1) :
    Decides input output r where
  decided := Or.inr ⟨hending, hcalls⟩
  same h := absurd (h ▸ List.suffix_refl input) hsuffix
  differ _ h := by simp [h] at hending

/-- `main` decides before a call behind which the comparison goes on only when the call does
    not return. -/
theorem decides_callReverse_scan_iff (hsuffix : ¬ input <:+ output) (files : W) (j count : Nat) :
    Decides input output (callReverse call ⟨files, 0⟩ (scan call input output j count)) ↔
      call files = none := by
  rcases hcall : call files with _ | files'
  · rw [callReverse_none call hcall]
    exact iff_of_true (decides_of_called hsuffix (Or.inr rfl) rfl) rfl
  · rw [callReverse_some call hcall]
    exact iff_of_false (not_decides_of_calls call input output Nat.one_pos) (by simp)

/-- The call behind the loop alone. -/
theorem decides_last (hsuffix : ¬ input <:+ output) (files : W) :
    Decides input output (callReverse call ⟨files, 0⟩ fun s => ⟨s, .returned⟩) := by
  rcases hcall : call files with _ | files'
  · rw [callReverse_none call hcall]
    exact decides_of_called hsuffix (Or.inr rfl) rfl
  · rw [callReverse_some call hcall]
    exact decides_of_called hsuffix (Or.inl rfl) rfl

/-- With an empty input name `main` reads in front of it, or calls `reverse` although the
    names are equal. -/
theorem not_decides_empty (output : List UInt8) (files : W) :
    ¬ Decides [] output (mainTwo call [] output files) := by
  intro h
  rcases output with _ | ⟨b, output⟩
  · have hsame := h.same rfl
    have hrun : mainTwo call [] [] files =
        callReverse call ⟨files, 0⟩ fun s => ⟨s, .returned⟩ := rfl
    rw [hrun] at hsame
    rcases hcall : call files with _ | files'
    · rw [callReverse_none call hcall] at hsame
      simp at hsame
    · rw [callReverse_some call hcall] at hsame
      simp at hsame
  · have hrun : mainTwo call [] (b :: output) files = ⟨⟨files, 0⟩, .outside⟩ := rfl
    rw [hrun] at h
    simpa using h.decided

/-- `main` decides before it touches a file on exactly these operands. -/
theorem mainTwo_decides_iff (files : W) :
    Decides input output (mainTwo call input output files) ↔
      input ≠ [] ∧
      (input <:+ output ∧ lastComponent input = lastComponent output ∨
        ¬ input <:+ output ∧
          (call files = none ∨ output <:+ input ∧ fileLen input ≤ output.length)) := by
  by_cases hinput : input = []
  · subst hinput
    exact iff_of_false (not_decides_empty call output files) (fun h => h.1 rfl)
  have hscan := scan_suffix call hinput (o := output) (m := []) ⟨files, 0⟩
  rw [List.append_nil, List.append_nil, List.length_nil] at hscan
  by_cases hsuffix : input <:+ output
  · have hlength : ¬ output.length < fileLen input := by
      have hle := hsuffix.length_le
      have hfile := fileLen_le input
      omega
    rw [mainTwo, if_neg hlength, hscan.1 hsuffix]
    constructor
    · intro h
      refine ⟨hinput, Or.inl ⟨hsuffix, ?_⟩⟩
      by_contra hdiffer
      exact h.differ hdiffer rfl
    · rintro ⟨_, ⟨_, hlast⟩ | ⟨hnot, _⟩⟩
      · exact ⟨Or.inl ⟨rfl, rfl⟩, fun _ => rfl, fun hdiffer => absurd hlast hdiffer⟩
      · exact absurd hsuffix hnot
  · have hiff : ∀ P : Prop, (input ≠ [] ∧ (input <:+ output ∧ lastComponent input =
        lastComponent output ∨ ¬ input <:+ output ∧ P)) ↔ P := by
      intro P
      simp [hinput, hsuffix]
    rw [hiff, mainTwo]
    by_cases hlength : output.length < fileLen input
    · rw [if_pos hlength, decides_callReverse_scan_iff call hsuffix]
      simp [Nat.not_le.mpr hlength]
    · rw [if_neg hlength]
      by_cases hback : output <:+ input
      · rw [hscan.2.1 hsuffix hback]
        exact iff_of_true (decides_last call hsuffix files) (Or.inr ⟨hback, Nat.not_lt.mp hlength⟩)
      · obtain ⟨j, count, hmismatch⟩ := hscan.2.2 hsuffix hback
        rw [hmismatch, decides_callReverse_scan_iff call hsuffix]
        simp [hback]

/-- `reverse` with an input and an output that are different files. -/
def onFiles (input : List UInt8) (files : List UInt8 × List UInt8) :
    Option (List UInt8 × List UInt8) :=
  (reverse input (some files.1)).toOption.map fun out => (files.1, out)

/-- The names differ in a byte, so `reverse` is called for it, and once more. -/
theorem not_decides_twoNames :
    ¬ Decides (ascii "tests/6.in") (ascii "tests-out/6.other")
      (mainTwo (onFiles (ascii "tests/6.in")) (ascii "tests/6.in") (ascii "tests-out/6.other")
        (ascii "hello\nthis\n", [])) := by
  intro h
  have hcalls : (mainTwo (onFiles (ascii "tests/6.in")) (ascii "tests/6.in")
      (ascii "tests-out/6.other") (ascii "hello\nthis\n", [])).calls = 18 := by
    decide +kernel
  rcases h.decided with ⟨_, hzero⟩ | ⟨_, hone⟩
  · rw [hcalls] at hzero
    exact absurd hzero (by decide)
  · rw [hcalls] at hone
    exact absurd hone (by decide)

end OstepProjects.Reverse
