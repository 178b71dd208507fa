/-
  OstepProjects/Shell/Segments.lean
  =================================
  **The segments as they are written.**

  `main` normalises the spaces of the line and of each segment before it cuts them
  up.  What it does with a segment depends only on the pieces between the `>` of the
  text as it is written, and on their words: `writtenSegment` says what it does, and
  `line_eq` that the loops of `main` do this for the segments of a line in turn, as long
  as there are zero bytes behind the strings that have no terminator.
-/
import OstepProjects.Lib.Words
import OstepProjects.Shell.Wish

namespace OstepProjects.Shell

open OstepProjects.Bytes OstepProjects.Descriptors OstepProjects.Words

variable {W : Type}

/-! ### Steps that may stop -/

theorem of_bind_eq_ok {α β : Type} {x : Except Stop α} {f : α → Except Stop β} {b : β}
    (h : x >>= f = .ok b) : ∃ a, x = .ok a ∧ f a = .ok b := by
  cases x with
  | error e => cases h
  | ok a => exact ⟨a, rfl, h⟩

theorem ok_bind {α β : Type} (a : α) (f : α → Except Stop β) : (Except.ok a >>= f) = f a := rfl

/-! ### Normalised strings -/

theorem fixLoop_eq (symbol_his : Bool) (s : List UInt8) :
    fixLoop symbol_his s = squeeze 32 symbol_his s := by
  induction s generalizing symbol_his with
  | nil => rfl
  | cons c s ih =>
    simp only [fixLoop, squeeze]
    by_cases hdrop : c = 32 ∧ symbol_his = false
    · obtain ⟨rfl, rfl⟩ := hdrop
      simp [ih]
    · rw [if_neg hdrop, if_neg (by simpa using hdrop), ih]

/-- A string with a newline at the end becomes its words and the newline. -/
theorem inputFix_newline (s : List UInt8) :
    inputFix (s ++ [10]) = unwords 32 (Words.words 32 s) ++ [10] := by
  have hloop : fixLoop false (s ++ [10]) =
      unwords 32 (Words.words 32 s) ++ trail 32 s ++ [10] := by
    rw [fixLoop_eq, squeeze_concat (by decide), squeeze_false]
  have hlast := getLast?_unwords_words (b := (32 : UInt8)) s
  simp only [inputFix, hloop]
  generalize unwords 32 (Words.words 32 s) = u at hlast
  rcases trail_eq_nil_or (b := (32 : UInt8)) s with h | h <;> rw [h]
  · rw [List.append_nil, if_neg]
    rintro ⟨hlen, hget⟩
    simp only [List.length_append, List.length_singleton] at hlen hget
    rw [List.getElem?_append_left (by omega), Nat.add_sub_add_right u.length 1 1,
      ← List.getLast?_eq_getElem?] at hget
    exact hlast hget
  · have hlen : (u ++ [32] ++ [10]).length - 2 = u.length := by simp
    rw [hlen, if_pos ⟨by simp, by simp⟩, List.append_assoc, List.take_left]

/-- A string is normalised by its words if it has no space at its end. -/
theorem inputFix_of_squeeze {s : List UInt8} {ws : List (List UInt8)}
    (h : squeeze 32 false s = unwords 32 ws) (hws : ∀ w ∈ ws, IsWord 32 w) :
    inputFix s = inputFix (unwords 32 ws) := by
  have hsame : squeeze 32 false (unwords 32 ws) = unwords 32 ws := by
    rw [← words_unwords hws, squeeze_unwords_words]
  simp only [inputFix, fixLoop_eq, h, hsame]

theorem inputFix_subset {s : List UInt8} {c : UInt8} (h : c ∈ inputFix s) : c ∈ s ∨ c = 10 := by
  have hloop : ∀ {c : UInt8}, c ∈ fixLoop false s → c ∈ s := by
    intro c hc
    rw [fixLoop_eq] at hc
    exact mem_of_mem_squeeze hc
  simp only [inputFix] at h
  split_ifs at h with htest
  · rcases List.mem_append.mp h with h | h
    · exact Or.inl (hloop (List.mem_of_mem_take h))
    · exact Or.inr (List.mem_singleton.mp h)
  · exact Or.inl (hloop h)

theorem zero_not_mem_inputFix {s : List UInt8} (h : 0 ∉ s) : 0 ∉ inputFix s := by
  intro hmem
  rcases inputFix_subset hmem with hmem | hten
  · exact h hmem
  · cases hten

/-- A string ends in front of a zero byte. -/
theorem cstr_behind {s junk : List UInt8} (hs : 0 ∉ s) (hjunk : cstr junk = []) :
    cstr (s ++ junk) = s := by
  rw [cstr_append hs, hjunk, List.append_nil]

theorem zero_not_mem_newline {s : List UInt8} (h : 0 ∉ s) : 0 ∉ s ++ [10] := by
  simpa using h

theorem zero_not_mem_words {v : List UInt8} (h : 0 ∉ v) : 0 ∉ unwords 32 (Words.words 32 v) :=
  fun hmem => h (mem_of_mem_unwords_words hmem)

/-! ### Cutting up -/

/-- The fields of a string that ends in the only newline it has. -/
theorem splitOnP_newline {s : List UInt8} (h : 10 ∉ s) (x : UInt8) :
    (s ++ [10]).splitOnP (fun c => c == x || c == 10) = s.splitOn x ++ [[]] := by
  have hsame : ∀ t : List UInt8, 10 ∉ t →
      t.splitOnP (fun c => c == x || c == 10) = t.splitOn x := by
    intro t ht
    induction t with
    | nil => simp
    | cons c t ih =>
      simp only [List.mem_cons, not_or] at ht
      rw [List.splitOnP_cons_eq_if_modifyHead, List.splitOn_cons_eq_if_modifyHead, ih ht.2]
      have hc : (c == 10) = false := by simpa using Ne.symm ht.1
      simp [hc]
  rw [List.splitOnP_append_cons s [] (by simp), hsame s h, List.splitOnP_nil]

theorem mem_of_mem_piece {x c : UInt8} {s u : List UInt8} (hu : u ∈ s.splitOn x) (hc : c ∈ u) :
    c ∈ s := by
  rw [List.splitOn_eq_splitOnP] at hu
  exact (sublist_of_mem_splitOnP hu).subset hc

theorem length_splitOn (x : UInt8) (s : List UInt8) : (s.splitOn x).length = s.count x + 1 := by
  induction s with
  | nil => rfl
  | cons c s ih =>
    rw [List.splitOn_cons_eq_if_modifyHead, List.count_cons]
    by_cases hc : c = x
    · simp [hc, ih]
    · simp [hc, ih]

theorem mem_iff_splitOn {x : UInt8} {s : List UInt8} : x ∈ s ↔ 1 < (s.splitOn x).length := by
  rw [length_splitOn, Nat.lt_add_left_iff_pos, List.count_pos_iff]

/-! ### A segment -/

/-- The slot of the next command is marked as redirected. -/
def Wish.label (sh : Wish W) : Wish W :=
  { sh with label_list := Function.update sh.label_list sh.commands.length true }

/-- The slot of the next command is given a file. -/
def Wish.file (sh : Wish W) (file : List UInt8) : Wish W :=
  { sh with file_list := Function.update sh.file_list sh.commands.length (some file) }

/-- The name of the file that the words behind `>` give. -/
def operand (ws : List (List UInt8)) : List UInt8 := inputFix (unwords 32 ws)

variable (os : Os W) {mem : Memory}

/-- A command in front of `>` and a file behind it. -/
def redirected (k : Nat) (front : List UInt8) (file : List UInt8) (sh : Wish W) :
    Except Stop (Wish W) :=
  if (file.findIdx? (· == 32)).any fun i => 0 < i then .ok (sh.label.file file).report
  else do
    let (world, opened) := os.openFile sh.world file
    let (fds, sfd, fd) := redirect sh.fds 1 (if opened then some (.file file) else none)
    let (leave, sh) ← command os k (squeeze 32 false front ++ [10])
      { sh.label.file file with world, fds }
    return if leave then sh.report else { sh with fds := restore sh.fds 1 sfd fd }

/-- What is done with the segment that is written as `v`. -/
def writtenSegment (k : Nat) (v : List UInt8) (sh : Wish W) : Except Stop (Wish W) :=
  if Words.words 32 v = [] then .ok sh
  else
    match v.splitOn 62 with
    | [_] => do
      let (_, sh) ← command os k (unwords 32 (Words.words 32 v) ++ [10]) sh
      return sh
    | [v₀, v₁] =>
      if ¬ sh.commands.length < 100 then .error .overrun
      else if Words.words 32 v₀ = [] ∧ Words.words 32 v₁ = [] then .ok sh.label
      else if Words.words 32 v₀ = [] ∨ Words.words 32 v₁ = [] then .ok sh.label.report
      else redirected os k v₀ (operand (Words.words 32 v₁)) sh
    | _ => if ¬ sh.commands.length < 100 then .error .overrun else .ok sh.label.report

def writtenSegments : Nat → List (List UInt8) → Wish W → Except Stop (Wish W)
  | _, [], sh => .ok sh
  | k, v :: vs, sh => do
    let sh ← writtenSegment os k v sh
    writtenSegments (k + 1) vs sh

/-! ### The loop over the pieces -/

theorem pieces_blank {k : Nat} {redi_char : List UInt8} (h : redi_char = [] ∨ redi_char = [32])
    (rest : List (List UInt8)) {l : Locals} (hl : l.redirect ≤ 1) (sh : Wish W) :
    pieces os mem k (redi_char :: rest) l sh = pieces os mem k rest l sh := by
  rw [pieces, if_neg (Nat.not_lt.mpr hl), if_pos h]

theorem pieces_piece {k : Nat} {redi_char : List UInt8} (h : ¬ (redi_char = [] ∨ redi_char = [32]))
    (rest : List (List UInt8)) {l : Locals} (hl : l.redirect ≤ 1) (sh : Wish W) :
    pieces os mem k (redi_char :: rest) l sh =
      (piece os mem k redi_char l sh >>= fun (leave, l, sh) =>
        if leave then return (l, sh) else pieces os mem k rest l sh) := by
  rw [pieces, if_neg (Nat.not_lt.mpr hl), if_neg h]

/-- A string with words is neither empty nor a single space. -/
theorem not_blank {s : List UInt8} (h : Words.words 32 s ≠ []) : ¬ (s = [] ∨ s = [32]) := by
  rintro (rfl | rfl)
  · exact h rfl
  · exact h (words_blank [])

/-- The copies of the command that `main` makes are the piece and a newline. -/
theorem temp_eq (hmem : mem.Zeroed) (k : Nat) {y : List UInt8} (h0 : 0 ∉ y) :
    cstr (y ++ [10] ++ mem.final_str k) = y ++ [10] :=
  cstr_behind (zero_not_mem_newline h0) (hmem.final_str k)

/-- The piece of a segment without `>` is run at once. -/
theorem pieces_plain (hmem : mem.Zeroed) (k : Nat) {y : List UInt8} (h0 : 0 ∉ y)
    (hy : Words.words 32 y ≠ []) (sh : Wish W) :
    pieces os mem k [[], y, []] ⟨0, false, 0, []⟩ sh = do
      let (leave, sh) ← command os k (y ++ [10]) sh
      return (⟨0, false, if leave then 0 else 1, y ++ [10]⟩, sh) := by
  rw [pieces_blank os (Or.inl rfl) _ (by decide), pieces_piece os (not_blank hy) _ (by decide)]
  simp only [piece, if_true, runCommand, temp_eq hmem k h0]
  cases hrun : command os k (y ++ [10]) sh with
  | error e => rfl
  | ok r =>
    obtain ⟨leave, sh'⟩ := r
    cases leave with
    | true => rfl
    | false =>
      have hl : (⟨0, false, 1, y ++ [10]⟩ : Locals).redirect ≤ 1 := Nat.zero_le 1
      have htail : pieces os mem k [[]] ⟨0, false, 1, y ++ [10]⟩ sh' =
          .ok (⟨0, false, 1, y ++ [10]⟩, sh') := pieces_blank os (Or.inl rfl) [] hl sh'
      exact htail

/-- The first piece that is not blank is kept for later. -/
theorem pieces_first (hmem : mem.Zeroed) (k : Nat) {y : List UInt8} (h0 : 0 ∉ y)
    (hy : Words.words 32 y ≠ []) (rest : List (List UInt8)) (sh : Wish W) :
    pieces os mem k (y :: rest) ⟨1, true, 0, []⟩ sh =
      pieces os mem k rest ⟨0, true, 1, y ++ [10]⟩ sh := by
  rw [pieces_piece os (not_blank hy) _ (le_refl 1)]
  simp only [piece, if_true, runCommand, temp_eq hmem k h0]
  rfl

/-- The second one names the file. -/
theorem pieces_second (hmem : mem.Zeroed) (k : Nat) {u : List UInt8} (h0 : 0 ∉ u)
    (hu : Words.words 32 u ≠ []) (temp : List UInt8) {sh : Wish W}
    (hlabel : sh.label_list sh.commands.length = true) :
    (pieces os mem k [u, []] ⟨0, true, 1, temp⟩ sh >>= fun (l, sh) =>
      (return if l.redirect_label ∧ l.count_file = 1 then sh.report else sh)) =
    if ((inputFix u).findIdx? (· == 32)).any fun i => 0 < i then .ok (sh.file (inputFix u)).report
    else do
      let (world, opened) := os.openFile sh.world (inputFix u)
      let (fds, sfd, fd) := redirect sh.fds 1 (if opened then some (.file (inputFix u)) else none)
      let (leave, sh) ← command os k temp { sh.file (inputFix u) with world, fds }
      return if leave then sh.report else { sh with fds := restore sh.fds 1 sfd fd } := by
  have hfile : cstr (inputFix u ++ mem.final_file_str k 1) = inputFix u :=
    cstr_behind (zero_not_mem_inputFix h0) (hmem.final_file_str k 1)
  rw [pieces_piece os (not_blank hu) _ (Nat.zero_le 1)]
  simp only [piece, Nat.one_ne_zero, if_false, hlabel, if_true, runCommand, hfile]
  by_cases hspace : ((inputFix u).findIdx? (· == 32)).any (fun i => decide (0 < i)) = true
  · rw [if_pos hspace, if_pos hspace]
    rfl
  · rw [if_neg hspace, if_neg hspace]
    simp only [bind_assoc]
    congr 1
    funext ⟨leave, sh'⟩
    cases leave with
    | true => simp
    | false =>
      simp only [Bool.false_eq_true, if_false, pure_bind, pieces]
      rfl

/-! ### The loops of `main` -/

/-- The number of `>` and the pieces of a segment, before and after normalisation. -/
theorem count_fix {v : List UInt8} :
    (unwords 32 (Words.words 32 v) ++ [10]).count 62 + 1 = (v.splitOn 62).length := by
  have hlen := length_splitOnP_unwords (p := fun c => c == 62) (b := (32 : UInt8)) (by decide) v
  rw [← List.splitOn_eq_splitOnP, ← List.splitOn_eq_splitOnP, length_splitOn] at hlen
  rw [← hlen, List.count_append]
  rfl

theorem words_eq_of_squeeze {u : List UInt8} {ws : List (List UInt8)}
    (h : squeeze 32 false u = unwords 32 ws) (hws : ∀ w ∈ ws, IsWord 32 w) :
    Words.words 32 u = ws := by
  rw [← words_squeeze false u, h, words_unwords hws]

/-- The piece behind the only `>` of a segment: `v₁` as it is written, `u` when the
    segment has been normalised. -/
structure SecondPiece (v₁ u : List UInt8) : Prop where
  words : Words.words 32 u = Words.words 32 v₁
  blank : Words.words 32 v₁ = [] → u = [] ∨ u = [32]
  operand : inputFix u = operand (Words.words 32 v₁)

theorem fixed_plain {v v₀ : List UInt8} (hsplit : v.splitOn 62 = [v₀]) :
    (unwords 32 (Words.words 32 v) ++ [10]).count 62 = 0 ∧
      (unwords 32 (Words.words 32 v)).splitOn 62 = [unwords 32 (Words.words 32 v)] := by
  have hcount := count_fix (v := v)
  rw [hsplit, List.length_singleton] at hcount
  have hzero : (unwords 32 (Words.words 32 v) ++ [10]).count 62 = 0 := by omega
  refine ⟨hzero, List.splitOn_eq_singleton fun hmem => ?_⟩
  exact List.count_eq_zero.mp hzero (List.mem_append_left _ hmem)

theorem fixed_pair {v v₀ v₁ : List UInt8} (hsplit : v.splitOn 62 = [v₀, v₁]) :
    (unwords 32 (Words.words 32 v) ++ [10]).count 62 = 1 ∧
      ∃ u, (unwords 32 (Words.words 32 v)).splitOn 62 = [squeeze 32 false v₀, u] ∧
        SecondPiece v₁ u := by
  have hcount := count_fix (v := v)
  rw [hsplit] at hcount
  obtain ⟨u, hpair, hu⟩ := splitOnP_unwords_pair (p := fun c => c == 62) (b := (32 : UInt8))
    (by decide) hsplit
  have hwords := words_eq_of_squeeze hu fun _ => isWord_of_mem_words
  have hmem : u ∈ (unwords 32 (Words.words 32 v)).splitOnP fun c => c == 62 := by
    rw [hpair]
    simp
  refine ⟨by simpa using hcount, u, by rw [List.splitOn_eq_splitOnP, hpair], hwords, ?_, ?_⟩
  · intro h
    exact eq_nil_or_of_mem_splitOnP (by decide) hmem (hwords.trans h)
  · exact inputFix_of_squeeze hu fun _ => isWord_of_mem_words

theorem fixed_several {v v₀ v₁ v₂ : List UInt8} {vs : List (List UInt8)}
    (hsplit : v.splitOn 62 = v₀ :: v₁ :: v₂ :: vs) :
    1 < (unwords 32 (Words.words 32 v) ++ [10]).count 62 := by
  have hcount := count_fix (v := v)
  simp only [hsplit, List.length_cons] at hcount
  omega

/-- **A segment of the normalised line is treated as it is written.** -/
theorem segment_eq (hmem : mem.Zeroed) {k : Nat} {part v : List UInt8}
    (hwords : Words.words 32 part = Words.words 32 v)
    (hblank : Words.words 32 part = [] → part = [] ∨ part = [32]) (h10 : 10 ∉ v)
    (hpart : 0 ∉ part) (h0 : 0 ∉ v) (sh : Wish W) :
    segment os mem k part sh = writtenSegment os k v sh := by
  have hnew : cstr (part ++ [10] ++ mem.command_part_new k) = part ++ [10] :=
    cstr_behind (zero_not_mem_newline hpart) (hmem.command_part_new k)
  have hzero : 0 ∉ unwords 32 (Words.words 32 v) := zero_not_mem_words h0
  have hfix : cstr (unwords 32 (Words.words 32 v) ++ [10] ++ mem.fix_command_part k) =
      unwords 32 (Words.words 32 v) ++ [10] :=
    cstr_behind (zero_not_mem_newline hzero) (hmem.fix_command_part k)
  unfold segment writtenSegment
  by_cases hv : Words.words 32 v = []
  · rw [if_pos hv, if_pos (hblank (hwords.trans hv))]
  rw [if_neg hv, if_neg (not_blank fun h => hv (hwords.symm.trans h))]
  have hnewline : 10 ∉ unwords 32 (Words.words 32 v) := fun h => h10 (mem_of_mem_unwords_words h)
  simp only [hnew, inputFix_newline, hwords, hfix, splitOnP_newline hnewline]
  rcases hsplit : v.splitOn 62 with _ | ⟨v₀, _ | ⟨v₁, _ | ⟨v₂, vs⟩⟩⟩
  · exact absurd hsplit (List.splitOn_ne_nil 62 v)
  · -- no `>`
    obtain ⟨hnone, hpieces⟩ := fixed_plain hsplit
    have hy : Words.words 32 (unwords 32 (Words.words 32 v)) ≠ [] := by
      rw [words_unwords_words]
      exact hv
    simp only [hnone, lt_irrefl, false_and, if_false, decide_false, hpieces,
      List.singleton_append, pieces_plain os hmem k hzero hy, bind_assoc, pure_bind,
      Bool.false_eq_true]
  · -- one `>`
    obtain ⟨hone, u, hpair, hu⟩ := fixed_pair hsplit
    have hwords₀ : Words.words 32 (squeeze 32 false v₀) = Words.words 32 v₀ := words_squeeze ..
    have hlabel : sh.label.label_list sh.label.commands.length = true := Function.update_self ..
    have hpieces : ∀ x ∈ [squeeze 32 false v₀, u], 0 ∉ x := by
      intro x hx hmem0
      rw [← hpair] at hx
      exact hzero (mem_of_mem_piece hx hmem0)
    have hfront : 0 ∉ squeeze 32 false v₀ := hpieces _ (by simp)
    have hback : 0 ∉ u := hpieces _ (by simp)
    simp only [hone, Nat.lt_one_iff, true_and, if_true, decide_true, hpair, List.cons_append,
      List.nil_append]
    by_cases hroom : sh.commands.length < 100
    · rw [if_neg (not_not_intro hroom), if_neg (not_not_intro hroom),
        pieces_blank os (Or.inl rfl) _ (le_refl 1)]
      change (pieces os mem k _ _ sh.label >>= _) = _
      by_cases h₀ : Words.words 32 v₀ = []
      · have hfirst : squeeze 32 false v₀ = [] := squeeze_eq_nil (forall_eq_of_words_eq_nil h₀)
        rw [hfirst, pieces_blank os (Or.inl rfl) _ (le_refl 1)]
        by_cases h₁ : Words.words 32 v₁ = []
        · rw [pieces_blank os (hu.blank h₁) _ (le_refl 1),
            pieces_blank os (Or.inl rfl) _ (le_refl 1), if_pos ⟨h₀, h₁⟩]
          rfl
        · rw [pieces_first os hmem k hback (by rw [hu.words]; exact h₁),
            pieces_blank os (Or.inl rfl) _ (Nat.zero_le 1), if_neg fun h => h₁ h.2,
            if_pos (Or.inl h₀)]
          rfl
      · rw [pieces_first os hmem k hfront (by rw [hwords₀]; exact h₀), if_neg fun h => h₀ h.1]
        by_cases h₁ : Words.words 32 v₁ = []
        · rw [pieces_blank os (hu.blank h₁) _ (Nat.zero_le 1),
            pieces_blank os (Or.inl rfl) _ (Nat.zero_le 1), if_pos (Or.inr h₁)]
          rfl
        · have hrun := pieces_second os hmem k hback (by rw [hu.words]; exact h₁)
            (squeeze 32 false v₀ ++ [10]) hlabel
          rw [hu.operand] at hrun
          rw [if_neg (by simp [h₀, h₁])]
          exact hrun
    · rw [if_pos hroom, if_pos hroom]
  · -- several `>`
    have hseveral := fixed_several hsplit
    have hpos : 0 < (unwords 32 (Words.words 32 v) ++ [10]).count 62 := by omega
    simp only [hpos, true_and, if_true, decide_true]
    by_cases hroom : sh.commands.length < 100
    · rw [if_neg (not_not_intro hroom), if_neg (not_not_intro hroom), pieces, if_pos hseveral]
      rfl
    · rw [if_pos hroom, if_pos hroom]

theorem segment_nil (k : Nat) (sh : Wish W) : segment os mem k [] sh = .ok sh := by
  rw [segment, if_pos (Or.inl rfl)]

theorem segments_eq (hmem : mem.Zeroed) {parts vs : List (List UInt8)}
    (hwords : parts.map (Words.words 32) = vs.map (Words.words 32))
    (hblank : ∀ part ∈ parts, Words.words 32 part = [] → part = [] ∨ part = [32])
    (h10 : ∀ v ∈ vs, 10 ∉ v) (hparts : ∀ part ∈ parts, 0 ∉ part) (h0 : ∀ v ∈ vs, 0 ∉ v)
    (k : Nat) (sh : Wish W) :
    segments os mem k (parts ++ [[]]) sh = writtenSegments os k vs sh := by
  induction parts generalizing vs k sh with
  | nil =>
    have hvs : vs = [] := List.map_eq_nil_iff.mp hwords.symm
    subst hvs
    simp only [List.nil_append, segments, segment_nil, writtenSegments]
    rfl
  | cons part parts ih =>
    obtain ⟨v, vs', rfl, hv, hvs⟩ := List.map_eq_cons_iff.mp hwords.symm
    simp only [List.cons_append, segments, writtenSegments]
    rw [segment_eq os hmem hv.symm (hblank part (by simp)) (h10 v (by simp))
      (hparts part (by simp)) (h0 v (by simp))]
    congr 1
    funext sh'
    exact ih hvs.symm (fun p hp => hblank p (by simp [hp])) (fun u hu => h10 u (by simp [hu]))
      (fun p hp => hparts p (by simp [hp])) (fun u hu => h0 u (by simp [hu])) (k + 1) sh'

/-- The fields of a line have the words of the segments as they are written. -/
theorem parts_newline {text : List UInt8} (h10 : 10 ∉ text) :
    ∃ parts, (inputFix (text ++ [10])).splitOnP (fun c => c == 38 || c == 10) = parts ++ [[]] ∧
      parts.map (Words.words 32) = (text.splitOn 38).map (Words.words 32) ∧
      (∀ part ∈ parts, Words.words 32 part = [] → part = [] ∨ part = [32]) ∧
      ∀ part ∈ parts, ∀ c ∈ part, c ∈ text := by
  have hnewline : 10 ∉ unwords 32 (Words.words 32 text) :=
    fun h => h10 (mem_of_mem_unwords_words h)
  have hwords := words_splitOnP_unwords (p := fun c => c == 38) (b := (32 : UInt8)) (by decide) text
  rw [← List.splitOn_eq_splitOnP, ← List.splitOn_eq_splitOnP] at hwords
  refine ⟨(unwords 32 (Words.words 32 text)).splitOn 38, ?_, hwords, ?_, ?_⟩
  · rw [inputFix_newline, splitOnP_newline hnewline]
  · intro part hpart
    rw [List.splitOn_eq_splitOnP] at hpart
    exact eq_nil_or_of_mem_splitOnP (by decide) hpart
  · intro part hpart c hc
    exact mem_of_mem_unwords_words (mem_of_mem_piece hpart hc)

/-- **A line is the sequence of its segments.** -/
theorem line_eq (hmem : mem.Zeroed) {text : List UInt8} (h10 : 10 ∉ text) (h0 : 0 ∉ text)
    (after : Nat → W) (sh : Wish W) :
    line os mem after (text ++ [10]) sh = do
      let sh ← writtenSegments os 0 (text.splitOn 38) sh
      let children ← launch os after sh 0 sh.commands
      return ({ sh with
        commands := [], label_list := fun _ => false, file_list := fun _ => none }, children) := by
  obtain ⟨parts, hparts, hwords, hblank, hsub⟩ := parts_newline h10
  have hstr : cstr (text ++ [10]) = text ++ [10] := cstr_eq_self (zero_not_mem_newline h0)
  have hfix : cstr (inputFix (text ++ [10]) ++ mem.fix_str_origin) = inputFix (text ++ [10]) :=
    cstr_behind (zero_not_mem_inputFix (zero_not_mem_newline h0)) hmem.fix_str_origin
  simp only [line, segment_nil, hstr, hfix, hparts]
  change (segments os mem 0 (parts ++ [[]]) sh >>= _) = _
  rw [segments_eq os hmem hwords hblank (fun v hv h => h10 (mem_of_mem_piece hv h))
    (fun part hpart h => h0 (hsub part hpart 0 h)) fun v hv h => h0 (mem_of_mem_piece hv h)]

/-! ### Leftovers -/

theorem splitOnP_append_newline (s t : List UInt8) :
    (s ++ 10 :: t).splitOnP (fun c => c == 38 || c == 10) =
      s.splitOnP (fun c => c == 38 || c == 10) ++ t.splitOnP (fun c => c == 38 || c == 10) :=
  List.splitOnP_append_cons s t (by simp)

theorem segments_append (ps qs : List (List UInt8)) (k : Nat) (sh : Wish W) :
    segments os mem k (ps ++ qs) sh =
      segments os mem k ps sh >>= segments os mem (k + ps.length) qs := by
  induction ps generalizing k sh with
  | nil => rfl
  | cons p ps ih =>
    simp only [List.cons_append, segments, bind_assoc, List.length_cons]
    congr 1
    funext sh'
    rw [ih, Nat.add_right_comm k 1, Nat.add_assoc]

/-- The word `exit` stands behind the copy of the line. -/
def Memory.exits : Memory := { Memory.fresh with fix_str_origin := ascii "exit" }

theorem segment_exit (k : Nat) (sh : Wish W) :
    segment os Memory.exits k (ascii "exit") sh = .error .exit := by
  have hfix : cstr (inputFix (cstr (ascii "exit" ++ [10] ++ [])) ++ []) = ascii "exit\n" := by
    decide +kernel
  have hcount : (ascii "exit\n").count 62 = 0 := by decide +kernel
  have hfields : (ascii "exit\n").splitOnP (fun c => c == 62 || c == 10) = [ascii "exit", []] := by
    decide +kernel
  have htemp : cstr (ascii "exit" ++ [10] ++ []) = ascii "exit\n" := by decide +kernel
  rw [segment, if_neg (by decide)]
  simp only [Memory.exits, Memory.fresh, hfix, hfields, hcount, lt_irrefl, false_and, if_false,
    decide_false]
  rw [pieces_blank os (Or.inl rfl) _ (Nat.zero_le 1),
    pieces_piece os (by decide) _ (Nat.zero_le 1)]
  simp only [piece, runCommand, if_true, htemp]
  rfl

/-- **What is left behind a line is read as one more segment of it**: here the shell ends. -/
theorem line_exits {text : List UInt8} (h0 : 0 ∉ text) (after : Nat → W) (sh : Wish W)
    (r : Wish W × List Child) : line os Memory.exits after (text ++ [10]) sh ≠ .ok r := by
  have hfix : cstr (inputFix (cstr (text ++ [10])) ++ Memory.exits.fix_str_origin) =
      unwords 32 (Words.words 32 text) ++ 10 :: ascii "exit" := by
    rw [cstr_eq_self (zero_not_mem_newline h0),
      cstr_append (zero_not_mem_inputFix (zero_not_mem_newline h0)), inputFix_newline]
    simp [Memory.exits, cstr, ascii]
  intro hline
  simp only [line, hfix, splitOnP_append_newline, segments_append] at hline
  obtain ⟨sh₁, -, hline⟩ := of_bind_eq_ok hline
  obtain ⟨sh₂, hrun, -⟩ := of_bind_eq_ok hline
  obtain ⟨sh₃, -, hlast⟩ := of_bind_eq_ok hrun
  rw [show (ascii "exit").splitOnP (fun c => c == 38 || c == 10) = [ascii "exit"] by decide,
    segments, segment_exit] at hlast
  cases hlast

/-- What is asked of a line holds for whatever `malloc` hands out.  `fresh` says that the
    blocks come fresh from the system. -/
theorem forall_memory_iff {fresh c : Prop} {P : Memory → Prop}
    (hzeroed : ∀ mem : Memory, mem.Zeroed → (P mem ↔ c)) (hleft : ∃ mem, ¬ P mem) :
    (∀ mem : Memory, (fresh → mem.Zeroed) → P mem) ↔ fresh ∧ c := by
  constructor
  · intro h
    by_cases hfresh : fresh
    · have hmem := Memory.zeroed_fresh
      exact ⟨hfresh, (hzeroed _ hmem).mp (h _ fun _ => hmem)⟩
    · obtain ⟨mem, hmem⟩ := hleft
      exact absurd (h mem fun hf => absurd hf hfresh) hmem
  · rintro ⟨hfresh, hc⟩ mem hmem
    exact (hzeroed mem (hmem hfresh)).mpr hc

end OstepProjects.Shell
