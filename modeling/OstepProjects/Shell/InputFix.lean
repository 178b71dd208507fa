/-
  OstepProjects/Shell/InputFix.lean
  =================================
  **Which strings `input_fix` normalises.**

  The loop of `input_fix` leaves the words of its string with single spaces between
  them, and one more at the end if the string has any there.  The byte at
  `fix_index - 2` is then taken for the one in front of the newline.

  `main` calls the function for three kinds of strings.  Lines and segments end in a
  newline, and only a blank one is too short for the test.  The last line of a file and
  the name of a file end without one: there the test looks at the last byte but one,
  and drops a last word of one letter.
-/
import OstepProjects.Shell.Segments

namespace OstepProjects.Shell

open OstepProjects.Words

/-- The newline at the end of a line or of a segment. -/
def ending (newline : Bool) : List UInt8 := if newline then [10] else []

/-- How many bytes `strncpy` takes from `fix_input`. -/
def copied (fix_input : List UInt8) : Nat :=
  let fix_index := fix_input.length
  if 2 ≤ fix_index ∧ fix_input[fix_index - 2]? = some 32 then fix_index - 2 else fix_index

/-- The indices at which `input_fix` reads: `strlen` and the loop on `input`, the test and
    `strncpy` on `fix_input`. -/
def inputFixReads (input : List UInt8) : List Int :=
  let fix_input := fixLoop false input
  let fix_index := fix_input.length
  (List.range (input.length + 1)).map Int.ofNat ++
    ((fix_index : Int) - 2) :: (List.range (copied fix_input)).map Int.ofNat

/-- What `input_fix` is for, on a string of one of the three kinds. -/
structure Normalises (s : List UInt8) (newline : Bool) : Prop where
  written : inputFix (s ++ ending newline) = unwords 32 (Words.words 32 s) ++ ending newline
  reads : ∀ i ∈ inputFixReads (s ++ ending newline), 0 ≤ i ∧ i ≤ (s ++ ending newline).length
  again : inputFix (inputFix (s ++ ending newline)) = inputFix (s ++ ending newline)

/-- A line that is not blank, or a string whose last two bytes are no spaces. -/
def Regular (s : List UInt8) : Bool → Prop
  | true => ∃ c ∈ s, c ≠ 32
  | false => ∃ t c d, s = t ++ [c, d] ∧ c ≠ 32 ∧ d ≠ 32

/-! ### The test at the end -/

theorem inputFix_of_fixLoop {input t : List UInt8} {c d : UInt8}
    (h : fixLoop false input = t ++ [c, d]) :
    inputFix input = if c = 32 then t ++ [10] else t ++ [c, d] := by
  have hlen : (t ++ [c, d]).length - 2 = t.length := by simp
  have hget : (t ++ [c, d])[t.length]? = some c := by simp
  simp only [inputFix, h, hlen, hget, List.take_left]
  by_cases hc : c = 32
  · rw [if_pos hc, if_pos ⟨by simp, by rw [hc]⟩]
  · rw [if_neg hc, if_neg fun hand => hc (Option.some.inj hand.2)]

/-- The only index in doubt is that of the test. -/
theorem reads_iff (input : List UInt8) :
    (∀ i ∈ inputFixReads input, 0 ≤ i ∧ i ≤ input.length) ↔
      2 ≤ (fixLoop false input).length := by
  have hle : (fixLoop false input).length ≤ input.length := by
    rw [fixLoop_eq]
    exact (squeeze_sublist false input).length_le
  have hcopied : copied (fixLoop false input) ≤ (fixLoop false input).length := by
    unfold copied
    dsimp only
    split_ifs <;> omega
  constructor
  · intro h
    have htest := h _ (List.mem_append_right _ List.mem_cons_self)
    omega
  · intro h i hi
    rcases List.mem_append.mp hi with hi | hi
    · obtain ⟨k, hk, rfl⟩ := List.mem_map.mp hi
      have hlt := List.mem_range.mp hk
      exact ⟨Int.natCast_nonneg k, Int.ofNat_le.mpr (by omega)⟩
    · rcases List.mem_cons.mp hi with rfl | hi
      · omega
      · obtain ⟨k, hk, rfl⟩ := List.mem_map.mp hi
        have hlt := List.mem_range.mp hk
        exact ⟨Int.natCast_nonneg k, Int.ofNat_le.mpr (by omega)⟩

/-! ### Strings with a newline -/

theorem normalises_newline (s : List UInt8) : Normalises s true ↔ Regular s true := by
  have hending : ending true = [10] := rfl
  have hreads : 2 ≤ (fixLoop false (s ++ [10])).length ↔ ∃ c ∈ s, c ≠ 32 := by
    have hnil := (squeeze_eq_nil_iff (b := (32 : UInt8)) (s := s)).not
    push Not at hnil
    rw [← hnil, ← List.length_pos_iff, fixLoop_eq, squeeze_concat (by decide),
      List.length_append, List.length_singleton]
    omega
  constructor
  · rintro ⟨-, hin, -⟩
    rw [hending] at hin
    exact hreads.mp ((reads_iff _).mp hin)
  · intro hblank
    refine ⟨?_, ?_, ?_⟩ <;> rw [hending]
    · exact inputFix_newline s
    · exact (reads_iff _).mpr (hreads.mpr hblank)
    · rw [inputFix_newline, inputFix_newline, words_unwords_words]

/-! ### Strings without a newline -/

/-- The last two bytes that the loop leaves are those of the string, if they are no spaces. -/
theorem regular_of_fixLoop {s t : List UInt8} {c d : UInt8} (h : fixLoop false s = t ++ [c, d])
    (hc : c ≠ 32) (hd : d ≠ 32) : Regular s false := by
  have hlast : ∀ {s t : List UInt8} {c : UInt8}, squeeze 32 false s = t ++ [c] →
      ∃ s', s = s' ++ [c] := by
    intro s t c hs
    have hget := getLast?_squeeze (b := (32 : UInt8)) (s := s) (by rw [hs]; simp)
    rw [hs, List.getLast?_concat] at hget
    exact List.getLast?_eq_some_iff.mp hget.symm
  rw [fixLoop_eq, List.append_cons] at h
  obtain ⟨s', rfl⟩ := hlast h
  rw [squeeze_concat hd] at h
  obtain ⟨s'', rfl⟩ := hlast (List.append_cancel_right h)
  exact ⟨s'', c, d, by simp, hc, hd⟩

theorem regular_of_normalises {s : List UInt8} (h : Normalises s false) : Regular s false := by
  obtain ⟨hwritten, hreads, -⟩ := h
  simp only [ending, Bool.false_eq_true, if_false, List.append_nil] at hwritten hreads
  rw [reads_iff] at hreads
  obtain ⟨t, c, d, htwo⟩ : ∃ t c d, fixLoop false s = t ++ [c, d] := by
    obtain ⟨q, d, hq⟩ := List.eq_nil_or_concat (fixLoop false s) |>.resolve_left fun hnil => by
      simp [hnil] at hreads
    obtain ⟨t, c, ht⟩ := List.eq_nil_or_concat q |>.resolve_left fun hnil => by
      simp [hq, hnil] at hreads
    exact ⟨t, c, d, by simp [hq, ht]⟩
  rw [inputFix_of_fixLoop htwo] at hwritten
  have hsqueeze := squeeze_false (b := (32 : UInt8)) s
  rw [← fixLoop_eq, htwo, ← hwritten] at hsqueeze
  by_cases hc : c = 32
  · -- a word is lost, and a newline written
    rw [if_pos hc, List.append_assoc, List.append_cancel_left_eq] at hsqueeze
    have hbyte : c = 10 := (List.cons.inj hsqueeze).1
    rw [hc] at hbyte
    cases hbyte
  · rw [if_neg hc] at hwritten
    refine regular_of_fixLoop htwo hc fun hd => ?_
    -- a space is left at the end
    refine getLast?_unwords_words (b := (32 : UInt8)) s ?_
    rw [← hwritten, hd]
    simp

theorem normalises_of_regular {s : List UInt8} (h : Regular s false) : Normalises s false := by
  obtain ⟨t, c, d, rfl, hc, hd⟩ := h
  have htwo : fixLoop false (t ++ [c, d]) = squeeze 32 false t ++ [c, d] := by
    rw [fixLoop_eq, List.append_cons, squeeze_concat hd, squeeze_concat hc]
    simp
  have htrail : trail 32 (t ++ [c, d]) = [] := by
    refine if_neg fun hlast => ?_
    simp [hd] at hlast
  have hsqueeze := squeeze_false (b := (32 : UInt8)) (t ++ [c, d])
  rw [htrail, List.append_nil] at hsqueeze
  have hwritten : inputFix (t ++ [c, d]) = unwords 32 (Words.words 32 (t ++ [c, d])) := by
    rw [inputFix_of_fixLoop htwo, if_neg hc, ← htwo, fixLoop_eq, hsqueeze]
  constructor <;> simp only [ending, Bool.false_eq_true, if_false, List.append_nil]
  · exact hwritten
  · rw [reads_iff, htwo]
    simp
  · have hagain := inputFix_of_squeeze hsqueeze fun _ => isWord_of_mem_words
    rw [← hwritten] at hagain
    exact hagain.symm

/-- **`input_fix` normalises** the lines and segments that are not blank, and of the strings
    without a newline those that end in two bytes other than spaces. -/
theorem input_fix_normalises_iff (s : List UInt8) (newline : Bool) :
    Normalises s newline ↔ Regular s newline := by
  cases newline with
  | true => exact normalises_newline s
  | false => exact ⟨regular_of_normalises, normalises_of_regular⟩

/-- The line `ls a` at the end of a file, without a newline. -/
theorem not_normalises_lastLine :
    ¬ ∀ (s : List UInt8) (newline : Bool), 0 ∉ s → 10 ∉ s → Normalises s newline := by
  intro h
  have hwritten := (h [108, 115, 32, 97] false (by decide) (by decide)).written
  revert hwritten
  decide

end OstepProjects.Shell
