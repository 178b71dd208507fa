/-
  OstepProjects/Lib/Lines.lean
  ============================
  **A stream cut at a separator.**

  A reader that stops after a separator or when its buffer is full takes a `piece`
  of a stream; `pieces` are what it takes call after call.  They are the stream
  itself, cut (`flatten_pieces`).

  `reverseLines` writes the lines between the separators last line first.  It keeps
  a separator at the end where it is, and it is its own inverse on the streams that
  end with one (`reverseLines_reverseLines`).
-/
import Mathlib.Data.List.Basic
import Mathlib.Data.List.TakeWhile
import OstepProjects.Lib.Words

namespace OstepProjects.Lines

variable {α : Type*} [DecidableEq α] (sep : α)

/-! ### Pieces of bounded length -/

/-- The next piece of a stream: up to and with the next separator, at most `room`
    items. -/
def piece : Nat → List α → List α
  | 0, _ => []
  | _ + 1, [] => []
  | room + 1, c :: s => if c = sep then [c] else c :: piece room s

@[simp] theorem piece_nil (room : Nat) : piece sep room ([] : List α) = [] := by
  rcases room with _ | room <;> rfl

theorem piece_prefix (room : Nat) (s : List α) : piece sep room s <+: s := by
  fun_induction piece sep room s with
  | case1 s => exact List.nil_prefix
  | case2 => exact List.nil_prefix
  | case3 room s => exact ⟨s, rfl⟩
  | case4 room c s hc ih => exact (List.prefix_cons_inj c).mpr ih

theorem piece_append_drop (room : Nat) (s : List α) :
    piece sep room s ++ s.drop (piece sep room s).length = s := by
  rw [← List.prefix_iff_eq_append]
  exact piece_prefix sep room s

theorem length_piece_le (room : Nat) (s : List α) : (piece sep room s).length ≤ room := by
  fun_induction piece sep room s with
  | case1 s => exact Nat.le_refl 0
  | case2 room => exact Nat.zero_le _
  | case3 room s => exact Nat.le_add_left 1 room
  | case4 room c s hc ih => exact Nat.succ_le_succ ih

theorem piece_ne_nil {room : Nat} {s : List α} (hroom : 0 < room) (hs : s ≠ []) :
    piece sep room s ≠ [] := by
  obtain ⟨c, s, rfl⟩ := List.exists_cons_of_ne_nil hs
  obtain ⟨room, rfl⟩ := Nat.exists_eq_succ_of_ne_zero (Nat.pos_iff_ne_zero.mp hroom)
  rw [piece]
  split
  · exact List.cons_ne_nil c []
  · exact List.cons_ne_nil c _

/-- A piece that ends before the separator and before the room does is the rest of
    the stream. -/
theorem piece_eq_self {room : Nat} {s : List α} (hsep : sep ∉ piece sep room s)
    (hlength : (piece sep room s).length < room) : piece sep room s = s := by
  fun_induction piece sep room s with
  | case1 s => exact absurd hlength (Nat.lt_irrefl 0)
  | case2 room => rfl
  | case3 room s => exact absurd (List.mem_singleton_self sep) hsep
  | case4 room c s hc ih =>
    rw [ih (fun h => hsep (List.mem_cons_of_mem c h)) (Nat.lt_of_succ_lt_succ hlength)]

/-- The separator stands nowhere in a piece but at its end. -/
theorem sep_notMem_dropLast_piece (room : Nat) (s : List α) :
    sep ∉ (piece sep room s).dropLast := by
  fun_induction piece sep room s with
  | case1 s => exact List.not_mem_nil
  | case2 room => exact List.not_mem_nil
  | case3 room s => exact List.not_mem_nil
  | case4 room c s hc ih =>
    by_cases hnil : piece sep room s = []
    · rw [hnil]
      exact List.not_mem_nil
    · rw [List.dropLast_cons_of_ne_nil hnil, List.mem_cons, not_or]
      exact ⟨fun h => hc h.symm, ih⟩

/-- The pieces of a stream that at most `calls` calls take. -/
def piecesIn (room : Nat) : Nat → List α → List (List α)
  | 0, _ => []
  | calls + 1, s =>
    if s = [] then []
    else piece sep room s :: piecesIn room calls (s.drop (piece sep room s).length)

@[simp] theorem piecesIn_nil (room calls : Nat) :
    piecesIn sep room calls ([] : List α) = [] := by
  rcases calls with _ | calls
  · rfl
  · rw [piecesIn, if_pos rfl]

theorem mem_piecesIn_succ {room calls : Nat} {s p : List α} :
    p ∈ piecesIn sep room (calls + 1) s ↔
      s ≠ [] ∧ p = piece sep room s ∨
        p ∈ piecesIn sep room calls (s.drop (piece sep room s).length) := by
  by_cases hs : s = []
  · simp [hs]
  · simp [piecesIn, hs]

theorem flatten_piecesIn_succ (room calls : Nat) (s : List α) :
    (piecesIn sep room (calls + 1) s).flatten =
      piece sep room s ++
        (piecesIn sep room calls (s.drop (piece sep room s).length)).flatten := by
  by_cases hs : s = []
  · simp [hs]
  · simp [piecesIn, hs]

/-- All pieces of a stream. -/
def pieces (room : Nat) (s : List α) : List (List α) := piecesIn sep room s.length s

@[simp] theorem pieces_nil (room : Nat) : pieces sep room ([] : List α) = [] := rfl

theorem length_drop_piece_lt {room : Nat} {s : List α} (hroom : 0 < room) (hs : s ≠ []) :
    (s.drop (piece sep room s).length).length < s.length := by
  have hpiece := List.length_pos_iff.mpr (piece_ne_nil sep hroom hs)
  have hlength := List.length_pos_iff.mpr hs
  rw [List.length_drop]
  omega

/-- As many calls as there are items take the whole stream. -/
theorem piecesIn_of_length_le {room : Nat} (hroom : 0 < room) {calls calls' : Nat} {s : List α}
    (hcalls : s.length ≤ calls) (hcalls' : s.length ≤ calls') :
    piecesIn sep room calls s = piecesIn sep room calls' s := by
  induction calls generalizing calls' s with
  | zero =>
    obtain rfl := List.length_eq_zero_iff.mp (Nat.le_zero.mp hcalls)
    rw [piecesIn_nil, piecesIn_nil]
  | succ calls ih =>
    by_cases hs : s = []
    · subst hs
      rw [piecesIn_nil, piecesIn_nil]
    · have hless := length_drop_piece_lt sep hroom hs
      rcases calls' with _ | calls'
      · exact absurd (List.length_eq_zero_iff.mp (Nat.le_zero.mp hcalls')) hs
      · rw [piecesIn, piecesIn, if_neg hs, if_neg hs, ih (Nat.le_of_lt_succ (hless.trans_le hcalls))
          (Nat.le_of_lt_succ (hless.trans_le hcalls'))]

theorem pieces_eq_cons {room : Nat} {s : List α} (hroom : 0 < room) (hs : s ≠ []) :
    pieces sep room s =
      piece sep room s :: pieces sep room (s.drop (piece sep room s).length) := by
  have hless := length_drop_piece_lt sep hroom hs
  rw [pieces, piecesIn_of_length_le sep hroom (Nat.le_refl _) (Nat.le_succ _), piecesIn,
    if_neg hs, pieces, piecesIn_of_length_le sep hroom (Nat.le_of_lt hless) (Nat.le_refl _)]

theorem mem_pieces_of_mem_piecesIn {room calls : Nat} {s p : List α} (hroom : 0 < room)
    (h : p ∈ piecesIn sep room calls s) : p ∈ pieces sep room s := by
  induction calls generalizing s with
  | zero => exact absurd h List.not_mem_nil
  | succ calls ih =>
    by_cases hs : s = []
    · rw [hs, piecesIn_nil] at h
      exact absurd h List.not_mem_nil
    · rw [pieces_eq_cons sep hroom hs]
      rcases (mem_piecesIn_succ sep).mp h with ⟨_, rfl⟩ | h
      · exact List.mem_cons_self
      · exact List.mem_cons_of_mem _ (ih h)

/-- Induction over the pieces of a stream. -/
theorem pieces_induction {room : Nat} (hroom : 0 < room) {motive : List α → Prop}
    (nil : motive [])
    (next : ∀ s, s ≠ [] → motive (s.drop (piece sep room s).length) → motive s) :
    ∀ s, motive s := by
  intro s
  induction hn : s.length using Nat.strong_induction_on generalizing s with
  | _ n ih =>
    by_cases hs : s = []
    · rw [hs]
      exact nil
    · apply next s hs
      exact ih _ (hn ▸ length_drop_piece_lt sep hroom hs) _ rfl

theorem flatten_pieces {room : Nat} (hroom : 0 < room) (s : List α) :
    (pieces sep room s).flatten = s := by
  induction s using pieces_induction sep hroom with
  | nil => rfl
  | next s hs ih =>
    rw [pieces_eq_cons sep hroom hs, List.flatten_cons, ih, piece_append_drop]

theorem ne_nil_of_mem_pieces {room : Nat} (hroom : 0 < room) {s p : List α}
    (hp : p ∈ pieces sep room s) : p ≠ [] := by
  induction s using pieces_induction sep hroom with
  | nil => exact absurd hp List.not_mem_nil
  | next s hs ih =>
    rw [pieces_eq_cons sep hroom hs] at hp
    rcases List.mem_cons.mp hp with rfl | hp
    · exact piece_ne_nil sep hroom hs
    · exact ih hp

/-- A line that fits is the next piece. -/
theorem piece_append_line {room : Nat} {text : List α} (hsep : sep ∉ text)
    (hroom : text.length < room) (s : List α) :
    piece sep room (text ++ sep :: s) = text ++ [sep] := by
  induction text generalizing room with
  | nil =>
    obtain ⟨room, rfl⟩ := Nat.exists_eq_succ_of_ne_zero hroom.ne'
    rw [List.nil_append, piece, if_pos rfl, List.nil_append]
  | cons c text ih =>
    obtain ⟨room, rfl⟩ := Nat.exists_eq_succ_of_ne_zero (Nat.ne_zero_of_lt hroom)
    obtain ⟨hc, htext⟩ := not_or.mp (List.mem_cons.not.mp hsep)
    rw [List.cons_append, piece, if_neg (Ne.symm hc), ih htext (Nat.lt_of_succ_lt_succ hroom),
      List.cons_append]

theorem pieces_append_line {room : Nat} {text : List α} (hsep : sep ∉ text)
    (hroom : text.length < room) (s : List α) :
    pieces sep room (text ++ sep :: s) = (text ++ [sep]) :: pieces sep room s := by
  have hne : text ++ sep :: s ≠ [] := by simp
  have hsplit : text ++ sep :: s = text ++ [sep] ++ s := List.append_cons text sep s
  rw [pieces_eq_cons sep (Nat.zero_lt_of_lt hroom) hne, piece_append_line sep hsep hroom, hsplit,
    List.drop_left]

/-! ### Lines in reverse order -/

/-- The pieces between separators, last piece first, again with separators between
    them. -/
def linesBack (s : List α) : List α := List.intercalate [sep] (s.splitOn sep).reverse

/-- The lines of a stream: its pieces between separators, without the empty piece
    behind a separator at its end. -/
def lines (s : List α) : List (List α) :=
  if s.getLast? = some sep then s.dropLast.splitOn sep else s.splitOn sep

/-- The lines in reverse order, with a separator between two lines, and one behind
    the last line when the stream ends with one. -/
def reverseLines (s : List α) : List α :=
  List.intercalate [sep] (lines sep s).reverse ++ if s.getLast? = some sep then [sep] else []

theorem linesBack_of_notMem {s : List α} (h : sep ∉ s) : linesBack sep s = s := by
  rw [linesBack, List.splitOn_eq_singleton h, List.reverse_singleton, List.intercalate_singleton]

@[simp] theorem linesBack_nil : linesBack sep ([] : List α) = [] := rfl

theorem linesBack_append {pre cur : List α} (h : sep ∉ cur) :
    linesBack sep (pre ++ sep :: cur) = cur ++ sep :: linesBack sep pre := by
  have hsplit : (pre ++ sep :: cur).splitOn sep = pre.splitOn sep ++ [cur] := by
    rw [List.splitOn_append_cons_self, List.splitOn_eq_singleton h]
  have hne : (pre.splitOn sep).reverse ≠ [] := by
    rw [Ne, List.reverse_eq_nil_iff]
    exact List.splitOn_ne_nil sep pre
  rw [linesBack, hsplit, List.reverse_append, List.reverse_singleton, List.singleton_append,
    List.intercalate_cons_of_ne_nil hne, List.append_assoc, List.singleton_append, linesBack]

theorem reverseLines_of_getLast? {s : List α} (h : s.getLast? ≠ some sep) :
    reverseLines sep s = linesBack sep s := by
  rw [reverseLines, lines, if_neg h, if_neg h, List.append_nil, linesBack]

theorem reverseLines_concat (s : List α) :
    reverseLines sep (s ++ [sep]) = linesBack sep s ++ [sep] := by
  have hlast : (s ++ [sep]).getLast? = some sep := List.getLast?_concat
  rw [reverseLines, lines, if_pos hlast, if_pos hlast, List.dropLast_concat, linesBack]

omit [DecidableEq α] in
theorem exists_last_line {s : List α} (h : sep ∈ s) :
    ∃ pre cur, s = pre ++ sep :: cur ∧ sep ∉ cur := by
  obtain ⟨cur, pre, hs, hcur⟩ := List.eq_append_cons_of_mem (List.mem_reverse.mpr h)
  refine ⟨pre.reverse, cur.reverse, ?_, fun hmem => hcur (List.mem_reverse.mp hmem)⟩
  rw [← List.reverse_reverse s, hs, List.reverse_append, List.reverse_cons, List.append_assoc,
    List.singleton_append]

/-- The lines keep their items. -/
theorem linesBack_perm (s : List α) : (linesBack sep s).Perm s := by
  induction hn : s.length using Nat.strong_induction_on generalizing s with
  | _ n ih =>
    by_cases h : sep ∈ s
    · obtain ⟨pre, cur, rfl, hcur⟩ := exists_last_line sep h
      rw [linesBack_append sep hcur]
      have hpre := ih pre.length (by simp [← hn]) pre rfl
      apply ((hpre.cons sep).append_left cur).trans
      apply List.perm_middle.trans
      exact (List.perm_append_comm.cons sep).trans List.perm_middle.symm
    · rw [linesBack_of_notMem sep h]

theorem linesBack_linesBack (s : List α) : linesBack sep (linesBack sep s) = s := by
  have hsplit : (linesBack sep s).splitOn sep = (s.splitOn sep).reverse := by
    apply List.splitOn_intercalate
    · intro l hl
      exact Words.not_mem_of_mem_splitOn (List.mem_reverse.mp hl)
    · rw [Ne, List.reverse_eq_nil_iff]
      exact List.splitOn_ne_nil sep s
  rw [linesBack, hsplit, List.reverse_reverse, List.intercalate_splitOn]

theorem reverseLines_perm (s : List α) : (reverseLines sep s).Perm s := by
  by_cases h : s.getLast? = some sep
  · obtain ⟨s, rfl⟩ := List.getLast?_eq_some_iff.mp h
    rw [reverseLines_concat]
    exact (linesBack_perm sep s).append_right [sep]
  · rw [reverseLines_of_getLast? sep h]
    exact linesBack_perm sep s

/-- Reversing twice gives a stream that ends with a separator back. -/
theorem reverseLines_reverseLines {s : List α} (h : s.getLast? = some sep) :
    reverseLines sep (reverseLines sep s) = s := by
  obtain ⟨s, rfl⟩ := List.getLast?_eq_some_iff.mp h
  rw [reverseLines_concat, reverseLines_concat, linesBack_linesBack]

end OstepProjects.Lines
