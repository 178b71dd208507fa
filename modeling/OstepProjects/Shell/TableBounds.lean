/-
  OstepProjects/Shell/TableBounds.lean
  ====================================
  **When the tables of `wish3.c` are large enough.**

  No loop of the shell looks at the size of its table, so the bounds are on the text and
  on the state in front of each segment: `SegmentFits` asks for a free slot where the
  segment has a `>`, for at most ten directories behind `path`, and for any other command
  for at most four fields behind it (a space in front of `>` makes one more), for names
  shorter than 200 bytes in the directories that are tried, and for a free slot if it is
  found.  The writes of a session are all inside their tables exactly when every segment
  fits in the state in front of it and nothing is left in memory behind the strings of
  the lines (`tables_kept_iff`): what stands there is read as further segments.
-/
import OstepProjects.Shell.TableWrites

namespace OstepProjects.Shell

open OstepProjects.Bytes OstepProjects.Descriptors OstepProjects.Words

variable {W : Type}

/-! ### The condition -/

/-- The words of the command that a segment runs, and whether a space stands between them
    and `>`. -/
def runs (v : List UInt8) : Option (List (List UInt8) × Bool) :=
  match v.splitOn 62 with
  | [_] => some (Words.words 32 v, false)
  | [front, _] =>
    if redirects v then some (Words.words 32 front, decide (front.getLast? = some 32)) else none
  | _ => none

variable (os : Os W)

/-- The command fits the tables when `n` commands have been found. -/
def CommandFits (w : W) (command_path : List (List UInt8)) (n : Nat) (spaced : Bool) :
    List (List UInt8) → Prop
  | [] => True
  | token :: args =>
    if token = ascii "exit" ∨ token = ascii "cd" then True
    else if token = ascii "path" then (fields args spaced).length ≤ MAX_COMMAND
    else (token :: fields args spaced).length < MAX_PARAMETER ∧ Fits os w token command_path ∧
      (CommandExists os w token command_path → n < 100)

instance (w : W) (command_path : List (List UInt8)) (n : Nat) (spaced : Bool) :
    ∀ ws, Decidable (CommandFits os w command_path n spaced ws)
  | [] => inferInstanceAs (Decidable True)
  | token :: args => inferInstanceAs (Decidable
      (if token = ascii "exit" ∨ token = ascii "cd" then True
      else if token = ascii "path" then (fields args spaced).length ≤ MAX_COMMAND
      else (token :: fields args spaced).length < MAX_PARAMETER ∧ Fits os w token command_path ∧
        (CommandExists os w token command_path → n < 100)))

def RunFits (w : W) (command_path : List (List UInt8)) (n : Nat) :
    Option (List (List UInt8) × Bool) → Prop
  | none => True
  | some (ws, spaced) => CommandFits os w command_path n spaced ws

instance (w : W) (command_path : List (List UInt8)) (n : Nat) :
    ∀ run, Decidable (RunFits os w command_path n run)
  | none => inferInstanceAs (Decidable True)
  | some (ws, spaced) => inferInstanceAs (Decidable (CommandFits os w command_path n spaced ws))

/-- **The condition on a segment**, in the state in front of it. -/
def SegmentFits (v : List UInt8) (sh : Wish W) : Prop :=
  (62 ∈ v → sh.commands.length < 100) ∧
    RunFits os (opens os sh.world v) sh.command_path sh.commands.length (runs v)

instance (v : List UInt8) (sh : Wish W) : Decidable (SegmentFits os v sh) :=
  inferInstanceAs (Decidable (_ ∧ _))

/-- The property of the state behind a step, if the step does not stop. -/
def After {α : Type} (x : Except Stop α) (P : α → Prop) : Prop :=
  match x with
  | .error _ => True
  | .ok a => P a

instance {α : Type} (x : Except Stop α) (P : α → Prop) [∀ a, Decidable (P a)] :
    Decidable (After x P) :=
  match x with
  | .error _ => inferInstanceAs (Decidable True)
  | .ok a => inferInstanceAs (Decidable (P a))

def SegmentsFit : Nat → List (List UInt8) → Wish W → Prop
  | _, [], _ => True
  | k, v :: vs, sh =>
    SegmentFits os v sh ∧ After (writtenSegment os k v sh) (SegmentsFit (k + 1) vs)

def decideSegmentsFit : ∀ (k : Nat) (vs : List (List UInt8)) (sh : Wish W),
    Decidable (SegmentsFit os k vs sh)
  | _, [], _ => inferInstanceAs (Decidable True)
  | k, v :: vs, sh =>
    have := decideSegmentsFit (k + 1) vs
    inferInstanceAs (Decidable (SegmentFits os v sh ∧ After (writtenSegment os k v sh) _))

instance (k : Nat) (vs : List (List UInt8)) (sh : Wish W) : Decidable (SegmentsFit os k vs sh) :=
  decideSegmentsFit os k vs sh

/-- Every segment of every line fits, in the state that fresh memory gives. -/
def SessionFits (after : Nat → W) : List (List UInt8) → Wish W → Prop
  | [], _ => True
  | str :: lines, sh => SegmentsFit os 0 (lineSegments Memory.fresh str) sh ∧
      After (line os Memory.fresh after str sh) fun r => SessionFits after lines r.1

def decideSessionFits (after : Nat → W) : ∀ (lines : List (List UInt8)) (sh : Wish W),
    Decidable (SessionFits os after lines sh)
  | [], _ => inferInstanceAs (Decidable True)
  | str :: lines, sh =>
    have := decideSessionFits after lines
    inferInstanceAs (Decidable (SegmentsFit os 0 (lineSegments Memory.fresh str) sh ∧
      After (line os Memory.fresh after str sh) _))

instance (after : Nat → W) (lines : List (List UInt8)) (sh : Wish W) :
    Decidable (SessionFits os after lines sh) := decideSessionFits os after lines sh

/-! ### Commands -/

section Commands

variable {os}

theorem allInTable_commandEvents {token : List UInt8} {args : List (List UInt8)}
    (hwords : ∀ v ∈ token :: args, IsWord 32 v ∧ 10 ∉ v) (spaced : Bool) (sh : Wish W) :
    AllInTable (commandEvents os (commandText token args spaced) sh) ↔
      CommandFits os sh.world sh.command_path sh.commands.length spaced (token :: args) := by
  obtain ⟨htoken, hargs⟩ := List.forall_mem_cons.mp hwords
  obtain ⟨rest, hstrsep, hpara⟩ := strsep_command htoken (fun v hv => (hargs v hv).2) spaced
  have hfields := fields_argString (fun v hv => (hargs v hv).1) spaced
  simp only [commandEvents, commandText, hstrsep, Option.getD_some, hpara, CommandFits]
  by_cases hbuilt : token = ascii "exit" ∨ token = ascii "cd"
  · rw [if_pos hbuilt, if_pos hbuilt]
    exact iff_of_true allInTable_nil trivial
  rw [if_neg hbuilt, if_neg hbuilt]
  by_cases hpath : token = ascii "path"
  · rw [if_pos hpath, if_pos hpath, allInTable_pathEvents, hfields]
  have hclear : AllInTable (stores .final_command 0 200) :=
    allInTable_stores.mpr fun _ => le_refl 200
  rw [if_neg hpath, if_neg hpath, allInTable_append, allInTable_append, and_iff_right hclear,
    allInTable_execEvents, hfields, and_assoc, and_left_comm]
  refine and_congr_right fun hlen => and_congr_right fun hfits => ?_
  rw [← hfields] at hlen
  obtain ⟨final_command, hexec, haccess⟩ := execZx_ok os hfits hlen
  rw [hexec, behind_ok, ← haccess]
  dsimp only
  by_cases hfound : os.access sh.world final_command = true
  · have hlists : AllInTable [.store .final_command_list sh.commands.length,
        .store .parameter_list sh.commands.length] ↔ sh.commands.length < 100 := by
      simp [AllInTable, Event.InTable, TableName.slots]
    rw [if_pos hfound, hlists]
    exact ⟨fun h _ => h, fun h => h hfound⟩
  · rw [if_neg hfound]
    exact iff_of_true allInTable_nil fun h => absurd h hfound

end Commands

/-! ### Pieces -/

section Pieces

variable {os} {mem : Memory} {k : Nat} {sh : Wish W}

theorem behind_nil {α : Type} (x : Except Stop α) : (behind x fun _ => []) = [] := by
  cases x <;> rfl

theorem piecesEvents_blank {redi_char : List UInt8} (h : redi_char = [] ∨ redi_char = [32])
    (rest : List (List UInt8)) {l : Locals} (hl : l.redirect ≤ 1) (sh : Wish W) :
    piecesEvents os mem k (redi_char :: rest) l sh = piecesEvents os mem k rest l sh := by
  rw [piecesEvents, if_neg (Nat.not_lt.mpr hl), if_pos h]

theorem piecesEvents_piece {redi_char : List UInt8} (h : ¬ (redi_char = [] ∨ redi_char = [32]))
    (rest : List (List UInt8)) {l : Locals} (hl : l.redirect ≤ 1) (sh : Wish W) :
    piecesEvents os mem k (redi_char :: rest) l sh =
      pieceEvents os mem k redi_char l sh ++ behind (piece os mem k redi_char l sh) fun r =>
        if r.1 then [] else piecesEvents os mem k rest r.2.1 r.2.2 := by
  rw [piecesEvents, if_neg (Nat.not_lt.mpr hl), if_neg h]

/-- Nothing is written for the empty piece behind the newline. -/
theorem piecesEvents_last (l : Locals) (sh : Wish W) : piecesEvents os mem k [[]] l sh = [] := by
  rw [piecesEvents, if_pos (Or.inl rfl)]
  split_ifs
  · rfl
  · rfl

theorem behind_last (x : Except Stop (Bool × Locals × Wish W)) :
    (behind x fun r => if r.1 then [] else piecesEvents os mem k [[]] r.2.1 r.2.2) = [] := by
  simp only [piecesEvents_last, ite_self]
  exact behind_nil x

/-- The piece of a segment without `>` is run at once. -/
theorem piecesEvents_plain (hmem : mem.Zeroed) {y : List UInt8} (h0 : 0 ∉ y)
    (hy : Words.words 32 y ≠ []) :
    piecesEvents os mem k [[], y, []] ⟨0, false, 0, []⟩ sh = commandEvents os (y ++ [10]) sh := by
  rw [piecesEvents_blank (Or.inl rfl) _ (Nat.zero_le 1),
    piecesEvents_piece (not_blank hy) _ (Nat.zero_le 1), behind_last, List.append_nil]
  simp only [pieceEvents, runEvents, if_true, temp_eq hmem k h0]

/-- The first piece that is not blank is kept for later. -/
theorem piecesEvents_first (hmem : mem.Zeroed) {y : List UInt8} (h0 : 0 ∉ y)
    (hy : Words.words 32 y ≠ []) (rest : List (List UInt8)) :
    piecesEvents os mem k (y :: rest) ⟨1, true, 0, []⟩ sh =
      piecesEvents os mem k rest ⟨0, true, 1, y ++ [10]⟩ sh := by
  rw [piecesEvents_piece (not_blank hy) _ (le_refl 1)]
  simp only [pieceEvents, piece, if_true, runEvents, runCommand, temp_eq hmem k h0]
  rfl

/-- The second one names the file, whose slot has been marked. -/
theorem piecesEvents_second (hmem : mem.Zeroed) {u : List UInt8} (h0 : 0 ∉ u)
    (hu : Words.words 32 u ≠ []) (temp : List UInt8)
    (hlabel : sh.label_list sh.commands.length = true) :
    piecesEvents os mem k [u, []] ⟨0, true, 1, temp⟩ sh =
      .store .file_list sh.commands.length :: if accepted (inputFix u) then
        commandEvents os temp { sh with world := (os.openFile sh.world (inputFix u)).1 }
      else [] := by
  have hfile : cstr (inputFix u ++ mem.final_file_str k 1) = inputFix u :=
    cstr_behind (zero_not_mem_inputFix h0) (hmem.final_file_str k 1)
  rw [piecesEvents_piece (not_blank hu) _ (Nat.zero_le 1), behind_last, List.append_nil]
  simp only [pieceEvents, hfile, Nat.one_ne_zero, if_false, hlabel, if_true, runEvents, accepted,
    List.singleton_append]
  by_cases hspace : ((inputFix u).findIdx? (· == 32)).any (fun i => decide (0 < i)) = true
  · simp only [hspace, if_true, Bool.not_true, Bool.false_eq_true, if_false]
  · simp only [hspace, Bool.false_eq_true, if_false, Bool.not_false, if_true]

end Pieces

/-! ### Segments -/

section Segments

variable {os} {mem : Memory} {k : Nat} {v : List UInt8} {sh : Wish W}

theorem segmentFits_of_runs {ws : List (List UInt8)} {spaced : Bool}
    (h : runs v = some (ws, spaced)) : SegmentFits os v sh ↔
      (62 ∈ v → sh.commands.length < 100) ∧
        CommandFits os (opens os sh.world v) sh.command_path sh.commands.length spaced ws := by
  rw [SegmentFits, h]
  rfl

theorem segmentFits_of_not_runs (h : runs v = none) :
    SegmentFits os v sh ↔ (62 ∈ v → sh.commands.length < 100) := by
  rw [SegmentFits, h]
  exact and_iff_left trivial

/-- The words of a piece are words of the segment. -/
theorem words_piece {u : List UInt8} (h10 : 10 ∉ v) (hu : u ∈ v.splitOn 62) :
    ∀ w ∈ Words.words 32 u, IsWord 32 w ∧ 10 ∉ w := by
  intro w hw
  refine ⟨isWord_of_mem_words hw, fun hmem => ?_⟩
  exact h10 (mem_of_mem_piece hu (mem_of_mem_words hw hmem))

/-- The events of a segment, by its pieces after normalisation. -/
theorem segmentEvents_fixed (hmem : mem.Zeroed) (hv : Words.words 32 v ≠ []) (h10 : 10 ∉ v)
    (h0 : 0 ∉ v) {n : Nat} (hn : (unwords 32 (Words.words 32 v) ++ [10]).count 62 = n) :
    segmentEvents os mem k v sh =
      List.replicate n (.store .label_list sh.commands.length) ++
        if 0 < n ∧ ¬ sh.commands.length < 100 then []
        else
          piecesEvents os mem k ([] :: ((unwords 32 (Words.words 32 v)).splitOn 62 ++ [[]]))
            ⟨n, decide (0 < n), 0, []⟩ (if 0 < n then sh.label else sh) := by
  have hnewline : 10 ∉ unwords 32 (Words.words 32 v) := fun h => h10 (mem_of_mem_unwords_words h)
  have hnew : cstr (v ++ [10] ++ mem.command_part_new k) = v ++ [10] :=
    cstr_behind (zero_not_mem_newline h0) (hmem.command_part_new k)
  have hfix : cstr (unwords 32 (Words.words 32 v) ++ [10] ++ mem.fix_command_part k) =
      unwords 32 (Words.words 32 v) ++ [10] :=
    cstr_behind (zero_not_mem_newline (zero_not_mem_words h0)) (hmem.fix_command_part k)
  rw [segmentEvents, if_neg (not_blank hv)]
  simp only [hnew, inputFix_newline, hfix, splitOnP_newline hnewline, hn]

/-- A segment without `>`. -/
theorem allInTable_plain (hmem : mem.Zeroed) {v₀ : List UInt8} (hsplit : v.splitOn 62 = [v₀])
    (hv : Words.words 32 v ≠ []) (h10 : 10 ∉ v) (h0 : 0 ∉ v) :
    AllInTable (segmentEvents os mem k v sh) ↔ SegmentFits os v sh := by
  have h62 : 62 ∉ v := by
    rw [mem_iff_splitOn, hsplit]
    exact lt_irrefl 1
  have hopens : opens os sh.world v = sh.world := by simp [opens, recorded, hsplit]
  have hruns : runs v = some (Words.words 32 v, false) := by rw [runs, hsplit]
  have hself : v.splitOn 62 = [v] := List.splitOn_eq_singleton h62
  obtain ⟨hzero, hpieces⟩ := fixed_plain hsplit
  obtain ⟨token, args, hwords⟩ := List.exists_cons_of_ne_nil hv
  have htext : unwords 32 (Words.words 32 v) ++ [10] = commandText token args false := by
    simp [commandText, hwords]
  have hy : Words.words 32 (unwords 32 (Words.words 32 v)) ≠ [] := by
    rw [words_unwords_words]
    exact hv
  have hplain := words_piece h10 (hself ▸ List.mem_singleton_self v)
  rw [hwords] at hplain
  rw [segmentFits_of_runs hruns, and_iff_right fun h => absurd h h62, hopens, hwords,
    ← allInTable_commandEvents hplain, ← htext,
    ← piecesEvents_plain (k := k) hmem (zero_not_mem_words h0) hy,
    segmentEvents_fixed hmem hv h10 h0 hzero, hpieces]
  rfl

/-- A segment with several `>`. -/
theorem allInTable_several (hmem : mem.Zeroed) {v₀ v₁ v₂ : List UInt8} {vs : List (List UInt8)}
    (hsplit : v.splitOn 62 = v₀ :: v₁ :: v₂ :: vs) (hv : Words.words 32 v ≠ [])
    (h10 : 10 ∉ v) (h0 : 0 ∉ v) :
    AllInTable (segmentEvents os mem k v sh) ↔ SegmentFits os v sh := by
  have hseveral := fixed_several hsplit
  have h62 : 62 ∈ v := by
    rw [mem_iff_splitOn, hsplit]
    simp
  have hruns : runs v = none := by rw [runs, hsplit]
  obtain ⟨n, hn⟩ : ∃ n, (unwords 32 (Words.words 32 v) ++ [10]).count 62 = n := ⟨_, rfl⟩
  rw [hn] at hseveral
  rw [segmentFits_of_not_runs hruns, segmentEvents_fixed hmem hv h10 h0 hn, piecesEvents,
    if_pos hseveral, ite_self, List.append_nil, allInTable_replicate]
  exact ⟨fun h _ => h (by omega), fun h _ => h h62⟩

theorem redirects_pair {v₀ v₁ : List UInt8} (hsplit : v.splitOn 62 = [v₀, v₁]) :
    redirects v = true ↔ Words.words 32 v₀ ≠ [] ∧ Words.words 32 v₁ ≠ [] ∧
      accepted (operand (Words.words 32 v₁)) = true := by
  unfold redirects recorded
  rw [hsplit]
  simp only [List.map_cons, List.map_nil]
  rcases Words.words 32 v₀ with _ | ⟨token, args⟩
  · simp
  · rcases Words.words 32 v₁ with _ | ⟨file, files⟩
    · simp
    · simp

/-- What one `>` leaves of a segment: nothing but the label, or the name of the file and the
    command. -/
theorem piecesEvents_pair (hmem : mem.Zeroed) {v₀ v₁ u : List UInt8} (hfront : 0 ∉ v₀)
    (hback : 0 ∉ u) (hu : SecondPiece v₁ u) (t : Wish W)
    (hlabel : t.label_list t.commands.length = true) :
    piecesEvents os mem k [[], squeeze 32 false v₀, u, []] ⟨1, true, 0, []⟩ t =
      if Words.words 32 v₀ ≠ [] ∧ Words.words 32 v₁ ≠ [] then
        .store .file_list t.commands.length :: if accepted (operand (Words.words 32 v₁)) then
          commandEvents os (squeeze 32 false v₀ ++ [10])
            { t with world := (os.openFile t.world (operand (Words.words 32 v₁))).1 }
        else []
      else [] := by
  have hwords₀ : Words.words 32 (squeeze 32 false v₀) = Words.words 32 v₀ := words_squeeze ..
  rw [piecesEvents_blank (Or.inl rfl) _ (le_refl 1)]
  by_cases h₀ : Words.words 32 v₀ = []
  · have hfirst : squeeze 32 false v₀ = [] := squeeze_eq_nil (forall_eq_of_words_eq_nil h₀)
    rw [if_neg fun h => h.1 h₀, hfirst, piecesEvents_blank (Or.inl rfl) _ (le_refl 1)]
    by_cases h₁ : Words.words 32 v₁ = []
    · rw [piecesEvents_blank (hu.blank h₁) _ (le_refl 1), piecesEvents_last]
    · rw [piecesEvents_first hmem hback (by rw [hu.words]; exact h₁), piecesEvents_last]
  · have hsqueeze : 0 ∉ squeeze 32 false v₀ := fun h => hfront (mem_of_mem_squeeze h)
    rw [piecesEvents_first hmem hsqueeze (by rw [hwords₀]; exact h₀)]
    by_cases h₁ : Words.words 32 v₁ = []
    · rw [if_neg fun h => h.2 h₁, piecesEvents_blank (hu.blank h₁) _ (Nat.zero_le 1),
        piecesEvents_last]
    · rw [if_pos ⟨h₀, h₁⟩, piecesEvents_second hmem hback (by rw [hu.words]; exact h₁) _ hlabel,
        hu.operand]

/-- A segment with one `>`. -/
theorem allInTable_pair (hmem : mem.Zeroed) {v₀ v₁ : List UInt8} (hsplit : v.splitOn 62 = [v₀, v₁])
    (hv : Words.words 32 v ≠ []) (h10 : 10 ∉ v) (h0 : 0 ∉ v) :
    AllInTable (segmentEvents os mem k v sh) ↔ SegmentFits os v sh := by
  have h62 : 62 ∈ v := by
    rw [mem_iff_splitOn, hsplit]
    exact Nat.one_lt_two
  obtain ⟨hone, u, hpair, hu⟩ := fixed_pair hsplit
  have hfront : 0 ∉ v₀ := fun h => h0 (mem_of_mem_piece (x := 62) (by simp [hsplit]) h)
  have hback : 0 ∉ u :=
    fun h => zero_not_mem_words h0 (mem_of_mem_piece (x := 62) (by simp [hpair]) h)
  rw [segmentEvents_fixed hmem hv h10 h0 hone, allInTable_append, allInTable_replicate, hpair]
  by_cases hroom : sh.commands.length < 100
  · have hmarked : (Event.store .label_list sh.commands.length).InTable := hroom
    rw [and_iff_right fun _ => hmarked, if_neg fun h => h.2 hroom]
    change AllInTable (piecesEvents os mem k [[], squeeze 32 false v₀, u, []] ⟨1, true, 0, []⟩
      sh.label) ↔ _
    rw [piecesEvents_pair hmem hfront hback hu sh.label (Function.update_self ..)]
    by_cases hredirects : redirects v = true
    · obtain ⟨h₀, h₁, haccepted⟩ := (redirects_pair hsplit).mp hredirects
      obtain ⟨token, args, hwords⟩ := List.exists_cons_of_ne_nil h₀
      have hruns : runs v = some (Words.words 32 v₀, decide (v₀.getLast? = some 32)) := by
        rw [runs, hsplit]
        exact if_pos hredirects
      have hopens : opens os sh.world v =
          (os.openFile sh.world (operand (Words.words 32 v₁))).1 := by
        obtain ⟨file, files, hback⟩ := List.exists_cons_of_ne_nil h₁
        rw [hback] at haccepted ⊢
        simp [opens, recorded, hsplit, hwords, hback, haccepted]
      have hplain := words_piece (u := v₀) h10 (by simp [hsplit])
      rw [hwords] at hplain
      rw [if_pos ⟨h₀, h₁⟩, if_pos haccepted, segmentFits_of_runs hruns,
        and_iff_right fun _ => hroom, hopens, hwords, squeeze_front hwords]
      refine List.forall_mem_cons.trans ((and_iff_right hroom).trans ?_)
      exact allInTable_commandEvents hplain _ _
    · have hruns : runs v = none := by
        rw [runs, hsplit]
        exact if_neg hredirects
      rw [segmentFits_of_not_runs hruns]
      refine iff_of_true ?_ fun _ => hroom
      split_ifs with hboth haccepted
      · exact absurd ((redirects_pair hsplit).mpr ⟨hboth.1, hboth.2, haccepted⟩) hredirects
      · exact allInTable_singleton.mpr hroom
      · exact allInTable_nil
  · exact iff_of_false (fun h => hroom (h.1 Nat.one_pos)) fun h => hroom (h.1 h62)

/-- **A segment stays in the tables exactly if it fits.** -/
theorem allInTable_segmentEvents (hmem : mem.Zeroed)
    (hblank : Words.words 32 v = [] → v = [] ∨ v = [32]) (h10 : 10 ∉ v) (h0 : 0 ∉ v) :
    AllInTable (segmentEvents os mem k v sh) ↔ SegmentFits os v sh := by
  by_cases hv : Words.words 32 v = []
  · have h62 : 62 ∉ v := fun hc => absurd (forall_eq_of_words_eq_nil hv 62 hc) (by decide)
    have hruns : runs v = some ([], false) := by
      rw [runs, List.splitOn_eq_singleton h62]
      exact congrArg (fun ws => some (ws, false)) hv
    rw [segmentFits_of_runs hruns, segmentEvents, if_pos (hblank hv)]
    exact iff_of_true allInTable_nil ⟨fun h => absurd h h62, trivial⟩
  rcases hsplit : v.splitOn 62 with _ | ⟨v₀, _ | ⟨v₁, _ | ⟨v₂, vs⟩⟩⟩
  · exact absurd hsplit (List.splitOn_ne_nil 62 v)
  · exact allInTable_plain hmem hsplit hv h10 h0
  · exact allInTable_pair hmem hsplit hv h10 h0
  · exact allInTable_several hmem hsplit hv h10 h0

end Segments

/-! ### Lines and sessions -/

section Sessions

variable {os} {mem : Memory} {k : Nat} {sh : Wish W}

theorem allInTable_after {α : Type} {x : Except Stop α} {es : α → List Event} {P : α → Prop}
    (h : ∀ a, AllInTable (es a) ↔ P a) : AllInTable (behind x es) ↔ After x P := by
  cases x with
  | error stop => exact iff_of_true allInTable_nil trivial
  | ok a => exact h a

theorem allInTable_segmentsEvents (hmem : mem.Zeroed) {parts : List (List UInt8)}
    (hblank : ∀ v ∈ parts, Words.words 32 v = [] → v = [] ∨ v = [32])
    (h10 : ∀ v ∈ parts, 10 ∉ v) (h0 : ∀ v ∈ parts, 0 ∉ v) :
    AllInTable (segmentsEvents os mem k parts sh) ↔ SegmentsFit os k parts sh := by
  induction parts generalizing k sh with
  | nil => exact iff_of_true allInTable_nil trivial
  | cons v vs ih =>
    obtain ⟨hv, hblanks⟩ := List.forall_mem_cons.mp hblank
    obtain ⟨hv10, h10s⟩ := List.forall_mem_cons.mp h10
    obtain ⟨hv0, h0s⟩ := List.forall_mem_cons.mp h0
    rw [segmentsEvents, SegmentsFit, allInTable_append, segment_eq os hmem rfl hv hv10 hv0 hv0]
    exact and_congr (allInTable_segmentEvents hmem hv hv10 hv0)
      (allInTable_after fun _ => ih hblanks h10s h0s)

theorem allInTable_clearEvents : AllInTable clearEvents := by
  have hclear : ∀ table : TableName, table.slots = 100 → AllInTable (stores table 0 100) :=
    fun table hslots => allInTable_stores.mpr fun _ => by rw [hslots]
  simp only [clearEvents, allInTable_append]
  exact ⟨⟨⟨hclear _ rfl, hclear _ rfl⟩, hclear _ rfl⟩, hclear _ rfl⟩

/-- The fields of a line as `main` cuts it. -/
theorem plain_of_mem_lineSegments (hmem : mem.Zeroed) {str v : List UInt8}
    (hv : v ∈ lineSegments mem str) :
    (Words.words 32 v = [] → v = [] ∨ v = [32]) ∧ 10 ∉ v ∧ 0 ∉ v := by
  refine ⟨?_, fun h10 => ?_, fun h0 => ?_⟩
  · rw [lineSegments_eq hmem] at hv
    exact (noDouble_inputFix (cstr str)).piece hv
  · have hfalse := not_sep_of_mem_splitOnP hv 10 h10
    cases hfalse
  · exact zero_not_mem_cstr _ ((sublist_of_mem_splitOnP hv).subset h0)

theorem allInTable_lineEvents (hmem : mem.Zeroed) {after : Nat → W} {str : List UInt8} :
    AllInTable (lineEvents os mem after str sh) ↔
      SegmentsFit os 0 (lineSegments Memory.fresh str) sh := by
  have hsame : lineSegments mem str = lineSegments Memory.fresh str := by
    rw [lineSegments_eq hmem, lineSegments_eq Memory.zeroed_fresh]
  rw [lineEvents, allInTable_append,
    allInTable_segmentsEvents hmem (fun v hv => (plain_of_mem_lineSegments hmem hv).1)
      (fun v hv => (plain_of_mem_lineSegments hmem hv).2.1)
      (fun v hv => (plain_of_mem_lineSegments hmem hv).2.2), hsame]
  exact and_iff_left (allInTable_behind.mpr fun _ _ => allInTable_clearEvents)

/-- Strings that end where they should make a line what it is in fresh memory. -/
theorem line_zeroed (hmem : mem.Zeroed) (after : Nat → W) (str : List UInt8) (sh : Wish W) :
    line os mem after str sh = line os Memory.fresh after str sh := by
  rw [line_segments os hmem, line_segments os Memory.zeroed_fresh, lineSegments_eq hmem,
    lineSegments_eq Memory.zeroed_fresh]

theorem allInTable_sessionEvents {mem : Nat → Memory} (hmem : ∀ i, (mem i).Zeroed)
    (after : Nat → W) (i : Nat) (lines : List (List UInt8)) (sh : Wish W) :
    AllInTable (sessionEvents os mem after i lines sh) ↔ SessionFits os after lines sh := by
  induction lines generalizing i sh with
  | nil => exact iff_of_true allInTable_nil trivial
  | cons str lines ih =>
    rw [sessionEvents, SessionFits, allInTable_append, line_zeroed (hmem i)]
    exact and_congr (allInTable_lineEvents (hmem i)) (allInTable_after fun r => ih (i + 1) r.1)

/-! ### Leftovers -/

/-- `path` with eleven directories stands behind a line, and two `>` behind each of its `n`
    segments. -/
def Memory.overruns (n : Nat) : Memory :=
  { Memory.fresh with
    fix_str_origin := ascii "\npath a b c d e f g h i j k"
    fix_command_part := fun k => if k < n then ascii ">>" else [] }

/-- A segment with several `>` is refused, if its slot of `label_list` is there. -/
theorem segment_refused {n : Nat} (hk : k < n) {part : List UInt8}
    (h : AllInTable (segmentEvents os (Memory.overruns n) k part sh)) :
    ∃ sh', segment os (Memory.overruns n) k part sh = .ok sh' := by
  have hseveral : ∀ s : List UInt8, 0 ∉ s →
      1 < (cstr (s ++ (Memory.overruns n).fix_command_part k)).count 62 := by
    intro s h0
    rw [cstr_append h0, List.count_append, Memory.overruns]
    dsimp only
    rw [if_pos hk, show (cstr (ascii ">>")).count 62 = 2 by decide]
    omega
  have hcount := hseveral _ (zero_not_mem_inputFix (zero_not_mem_cstr
    (part ++ [10] ++ (Memory.overruns n).command_part_new k)))
  simp only [segmentEvents] at h
  simp only [segment]
  by_cases hblank : part = [] ∨ part = [32]
  · rw [if_pos hblank]
    exact ⟨sh, rfl⟩
  · rw [if_neg hblank, allInTable_append, allInTable_replicate] at h
    have hroom : sh.commands.length < 100 := h.1 (Nat.zero_lt_of_lt hcount)
    rw [if_neg hblank, if_neg fun hfull => hfull.2 hroom, pieces, if_pos hcount]
    exact ⟨_, rfl⟩

theorem segments_refused {n : Nat} {parts : List (List UInt8)} (hn : k + parts.length ≤ n)
    (h : AllInTable (segmentsEvents os (Memory.overruns n) k parts sh)) :
    ∃ sh', segments os (Memory.overruns n) k parts sh = .ok sh' := by
  induction parts generalizing k sh with
  | nil => exact ⟨sh, rfl⟩
  | cons part parts ih =>
    rw [List.length_cons] at hn
    rw [segmentsEvents, allInTable_append, allInTable_behind] at h
    obtain ⟨sh₁, hsegment⟩ := segment_refused (by omega) h.1
    rw [segments, hsegment]
    exact ih (by omega) (h.2 sh₁ hsegment)

theorem segmentsEvents_append (ps qs : List (List UInt8)) :
    segmentsEvents os mem k (ps ++ qs) sh = segmentsEvents os mem k ps sh ++
      behind (segments os mem k ps sh) (segmentsEvents os mem (k + ps.length) qs) := by
  induction ps generalizing k sh with
  | nil => rfl
  | cons p ps ih =>
    rw [List.cons_append, segmentsEvents, segmentsEvents, segments, List.append_assoc]
    congr 1
    cases segment os mem k p sh with
    | error stop => rfl
    | ok sh₁ =>
      rw [behind_ok, behind_ok, ih, List.length_cons, Nat.add_right_comm k 1, Nat.add_assoc]
      rfl

/-- The eleventh directory is stored behind `command_path`. -/
theorem not_allInTable_path {n : Nat} (hk : n ≤ k) :
    ¬ AllInTable
      (segmentEvents os (Memory.overruns n) k (ascii "path a b c d e f g h i j k") sh) := by
  have hempty : (Memory.overruns n).fix_command_part k = [] := if_neg (Nat.not_lt.mpr hk)
  have hfix : cstr (inputFix (cstr (ascii "path a b c d e f g h i j k" ++ [10] ++
      (Memory.overruns n).command_part_new k)) ++ (Memory.overruns n).fix_command_part k) =
      ascii "path a b c d e f g h i j k\n" := by
    rw [hempty]
    change cstr (inputFix (cstr (ascii "path a b c d e f g h i j k" ++ [10] ++ [])) ++ []) = _
    decide +kernel
  have hfields : (ascii "path a b c d e f g h i j k\n").splitOnP (fun c => c == 62 || c == 10) =
      [ascii "path a b c d e f g h i j k", []] := by
    decide +kernel
  have htemp : cstr (ascii "path a b c d e f g h i j k" ++ [10] ++
      (Memory.overruns n).final_str k) = ascii "path a b c d e f g h i j k\n" := by
    change cstr (ascii "path a b c d e f g h i j k" ++ [10] ++ []) = _
    decide +kernel
  have hevents : commandEvents os (ascii "path a b c d e f g h i j k\n") sh =
      pathEvents (ascii "a b c d e f g h i j k") := rfl
  rw [segmentEvents, if_neg (by decide)]
  simp only [hfix, hfields]
  rw [show (ascii "path a b c d e f g h i j k\n").count 62 = 0 by decide]
  simp only [lt_irrefl, false_and, if_false, decide_false, List.replicate_zero, List.nil_append]
  rw [piecesEvents_blank (Or.inl rfl) _ (Nat.zero_le 1), piecesEvents_piece (by decide) _
    (Nat.zero_le 1), allInTable_append]
  simp only [pieceEvents, runEvents, if_true, htemp, hevents]
  exact fun h => absurd h.1 (by decide +kernel)

/-- **What is left behind a line can overrun a table.** -/
theorem line_overruns (after : Nat → W) (str : List UInt8) (sh : Wish W) :
    ¬ AllInTable (lineEvents os (Memory.overruns (lineSegments Memory.fresh str).length)
      after str sh) := by
  intro h
  have hfields : lineSegments (Memory.overruns (lineSegments Memory.fresh str).length) str =
      lineSegments Memory.fresh str ++ [ascii "path a b c d e f g h i j k"] := by
    have htail : cstr (inputFix (cstr str) ++
        (Memory.overruns (lineSegments Memory.fresh str).length).fix_str_origin) =
        inputFix (cstr str) ++ 10 :: ascii "path a b c d e f g h i j k" := by
      rw [cstr_append (zero_not_mem_inputFix (zero_not_mem_cstr str))]
      rfl
    rw [lineSegments, htail, splitOnP_append_newline, ← lineSegments_eq Memory.zeroed_fresh]
    rfl
  rw [lineEvents, allInTable_append, hfields, segmentsEvents_append, allInTable_append] at h
  obtain ⟨sh₁, hrun⟩ := segments_refused (Nat.le_of_eq (Nat.zero_add _)) h.1.1
  have hlast := h.1.2
  rw [hrun, behind_ok, segmentsEvents, allInTable_append] at hlast
  exact not_allInTable_path (Nat.le_of_eq (Nat.zero_add _).symm) hlast.1

/-- **The tables are large enough exactly for the sessions that fit.**  In every session,
    from any state and with any lines, every write is inside its table and every argument
    vector keeps its NULL, whatever the blocks of `malloc` hold, if and only if every segment
    fits in the state in front of it and the blocks are known to come fresh from the system
    (or there is no line). -/
theorem tables_kept_iff (os : Os W) (after : Nat → W) (lines : List (List UInt8)) (sh : Wish W)
    (fresh : Prop) :
    (∀ mem : Nat → Memory, (fresh → ∀ i, (mem i).Zeroed) →
      ∀ e ∈ sessionEvents os mem after 0 lines sh, e.InTable) ↔
      SessionFits os after lines sh ∧ (lines ≠ [] → fresh) := by
  change (∀ mem : Nat → Memory, _ → AllInTable _) ↔ _
  constructor
  · intro h
    have hfresh : lines ≠ [] → fresh := by
      intro hne
      by_contra hnot
      obtain ⟨str, rest, rfl⟩ := List.exists_cons_of_ne_nil hne
      have hall := h (fun _ => Memory.overruns (lineSegments Memory.fresh str).length)
        fun hfresh => absurd hfresh hnot
      rw [sessionEvents, allInTable_append] at hall
      exact line_overruns after str sh hall.1
    have hall := h (fun _ => Memory.fresh) fun _ _ => Memory.zeroed_fresh
    exact ⟨(allInTable_sessionEvents (fun _ => Memory.zeroed_fresh) after 0 lines sh).mp hall,
      hfresh⟩
  · rintro ⟨hfits, hfresh⟩ mem hmem
    by_cases hnil : lines = []
    · subst hnil
      exact allInTable_nil
    · exact (allInTable_sessionEvents (hmem (hfresh hnil)) after 0 lines sh).mpr hfits

/-- The lines `path` with eleven directories, `ls` with six and with five arguments, and a
    word of 195 letters. -/
def largeLines : List (List UInt8) :=
  [ascii "path a b c d e f g h i j k\n", ascii "ls a b c d e f\n", ascii "ls a b c d e\n",
    List.replicate 195 120 ++ [10]]

/-- **Each of them is too large for a table of the shell as it is started**, in fresh memory
    too. -/
theorem tables_overrun : ¬ ∃ str ∈ largeLines,
    ∀ e ∈ sessionEvents disk (fun _ => Memory.fresh) (fun _ => bin) 0 [str] (start bin),
      e.InTable := by
  change ¬ ∃ str ∈ largeLines,
    AllInTable (sessionEvents disk (fun _ => Memory.fresh) (fun _ => bin) 0 [str] (start bin))
  decide +kernel

example : SessionFits disk (fun _ => bin)
    [ascii "ls a b c d & path a b c d e f g h i j\n", ascii "path /bin\n", ascii "ls a b c > out\n"]
    (start bin) := by
  decide +kernel

end Sessions

end OstepProjects.Shell
