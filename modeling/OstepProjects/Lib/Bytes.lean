/-
  OstepProjects/Lib/Bytes.lean
  ============================
  **Byte strings as C programs handle them.**

  An array of bytes holds the string up to its first zero byte (`cstr`); `strstr`
  finds a substring, `getline` reads up to a newline, and `words` are the pieces
  between separators that are not empty, as `scanf` reads them with `%s`.
-/
import Mathlib.Data.List.Basic
import Mathlib.Data.List.TakeWhile
import Mathlib.Data.UInt

namespace OstepProjects.Bytes

/-- The bytes of an ASCII text. -/
def ascii (text : String) : List UInt8 := text.toList.map fun c => UInt8.ofNat c.toNat

/-- The string in an array. -/
def cstr (array : List UInt8) : List UInt8 := array.takeWhile fun b => b != 0

theorem cstr_append_nul (s array : List UInt8) : cstr (s ++ 0 :: array) = cstr s := by
  induction s with
  | nil => rfl
  | cons b s ih =>
    simp only [cstr, List.cons_append, List.takeWhile_cons] at ih ⊢
    rw [ih]

theorem cstr_eq_self {s : List UInt8} (h : 0 ∉ s) : cstr s = s := by
  rw [cstr, List.takeWhile_eq_self_iff]
  intro c hc
  simp only [bne_iff_ne]
  rintro rfl
  exact h hc

theorem zero_not_mem_cstr (array : List UInt8) : 0 ∉ cstr array := by
  intro h
  have hne := List.mem_takeWhile_imp h
  exact absurd hne (by decide)

/-- A string without a terminator goes on in what stands behind it. -/
theorem cstr_append {s : List UInt8} (h : 0 ∉ s) (array : List UInt8) :
    cstr (s ++ array) = s ++ cstr array := by
  apply List.takeWhile_append_of_pos
  intro c hc
  simp only [bne_iff_ne]
  rintro rfl
  exact h hc

/-- The next line of a stream with its newline, and what is left; `none` at its end. -/
def getline : List UInt8 → Option (List UInt8 × List UInt8)
  | [] => none
  | c :: stream =>
    if c = 10 then some ([c], stream)
    else
      match getline stream with
      | none => some ([c], [])
      | some (line, rest) => some (c :: line, rest)

/-- A line ends with a newline, unless it is the last. -/
theorem getline_spec {stream : List UInt8} (h : stream ≠ []) :
    ∃ line rest, getline stream = some (line, rest) ∧ stream = line ++ rest ∧ line ≠ [] ∧
      (rest = [] ∨ ∃ body, line = body ++ [10]) := by
  induction stream with
  | nil => exact absurd rfl h
  | cons c stream ih =>
    by_cases hc : c = 10
    · refine ⟨[c], stream, ?_, rfl, List.cons_ne_nil c [], Or.inr ⟨[], by rw [hc]; rfl⟩⟩
      rw [getline, if_pos hc]
    · by_cases hstream : stream = []
      · subst hstream
        refine ⟨[c], [], ?_, rfl, List.cons_ne_nil c [], Or.inl rfl⟩
        rw [getline, if_neg hc, getline]
      · obtain ⟨line, rest, hget, heq, _, hend⟩ := ih hstream
        refine ⟨c :: line, rest, ?_, ?_, List.cons_ne_nil c line, ?_⟩
        · rw [getline, if_neg hc, hget]
        · rw [heq, List.cons_append]
        · rcases hend with hrest | ⟨body, hbody⟩
          · exact Or.inl hrest
          · exact Or.inr ⟨c :: body, by rw [hbody, List.cons_append]⟩

/-- `needle` occurs in `haystack`. -/
def strstr (haystack needle : List UInt8) : Bool :=
  haystack.tails.any fun s => needle.isPrefixOf s

def isspace (b : UInt8) : Bool := b == 32 || (9 ≤ b && b ≤ 13)

def tolower (b : UInt8) : UInt8 := if 65 ≤ b ∧ b ≤ 90 then b + 32 else b

/-- The pieces between separators that are not empty. -/
def words (sep : UInt8 → Bool) (s : List UInt8) : List (List UInt8) :=
  (s.splitOnP sep).filter fun w => !w.isEmpty

/-- What stands before the first separator is the first word. -/
theorem words_append_cons {sep : UInt8 → Bool} {w : List UInt8} {c : UInt8} (hne : w ≠ [])
    (hw : ∀ b ∈ w, sep b = false) (hc : sep c = true) (s : List UInt8) :
    words sep (w ++ c :: s) = w :: words sep s := by
  rw [words, List.splitOnP_append_cons_of_forall_mem hw c hc, List.filter_cons_of_pos, words]
  simpa using hne

theorem sublist_of_mem_splitOnP {p : UInt8 → Bool} {s w : List UInt8} (h : w ∈ s.splitOnP p) :
    w.Sublist s := by
  induction s generalizing w with
  | nil => simp_all
  | cons b s ih =>
    rw [List.splitOnP_cons_eq_if_modifyHead] at h
    split at h
    · rcases List.mem_cons.mp h with rfl | h
      · exact List.nil_sublist _
      · exact (ih h).cons b
    · obtain ⟨v, vs, hsplit⟩ := List.exists_cons_of_ne_nil (List.splitOnP_ne_nil p s)
      rw [hsplit, List.modifyHead_cons] at h
      rcases List.mem_cons.mp h with rfl | h
      · exact (ih (by simp [hsplit])).cons_cons b
      · exact (ih (by simp [hsplit, h])).cons b

theorem length_le_of_mem_words {sep : UInt8 → Bool} {s w : List UInt8} (h : w ∈ words sep s) :
    w.length ≤ s.length :=
  (sublist_of_mem_splitOnP (List.mem_filter.mp h).1).length_le

theorem length_cstr_le (array : List UInt8) : (cstr array).length ≤ array.length :=
  (List.takeWhile_prefix _).length_le

example : words isspace (ascii " GET  /\r\n") = [ascii "GET", ascii "/"] := by decide +kernel

end OstepProjects.Bytes
