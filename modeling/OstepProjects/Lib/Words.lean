/-
  OstepProjects/Lib/Words.lean
  ============================
  **Words between blanks.**

  `words` are the nonempty pieces of a sequence between blanks and `unwords` joins
  words by single blanks.  `squeeze` drops the blanks at the beginning and all but
  one of every run of blanks: it leaves `unwords` of the words, and one blank at the
  end if there was any (`squeeze_false`).

  A sequence can be split at other separators before or after its blanks are squeezed:
  the pieces have the same words (`words_splitOnP_unwords`).
-/
import Mathlib.Data.List.Basic
import Mathlib.Data.List.Chain

namespace OstepProjects.Words

variable {α : Type*} [DecidableEq α] (b : α)

def words (s : List α) : List (List α) := (s.splitOn b).filter fun w => !w.isEmpty

def unwords (ws : List (List α)) : List α := [b].intercalate ws

/-- `keep` says whether a blank is kept next. -/
def squeeze : Bool → List α → List α
  | _, [] => []
  | keep, c :: s =>
    if c = b ∧ keep = false then squeeze false s else c :: squeeze (decide (c ≠ b)) s

/-- A nonempty sequence without blanks. -/
def IsWord (w : List α) : Prop := w ≠ [] ∧ b ∉ w

variable {b}

/-! ### Words -/

@[simp] theorem words_nil : words b [] = [] := rfl

theorem words_append_blank (s t : List α) : words b (s ++ b :: t) = words b s ++ words b t := by
  simp only [words, List.splitOn_append_cons_self, List.filter_append]

@[simp] theorem words_blank (s : List α) : words b (b :: s) = words b s :=
  words_append_blank [] s

@[simp] theorem words_concat_blank (s : List α) : words b (s ++ [b]) = words b s := by
  rw [words_append_blank, words_nil, List.append_nil]

theorem IsWord.words {w : List α} (h : IsWord b w) : words b w = [w] := by
  have hne : w.isEmpty = false := List.isEmpty_eq_false_iff.mpr h.1
  simp [Words.words, List.splitOn_eq_singleton h.2, hne]

/-- There is no separator in a piece. -/
theorem not_sep_of_mem_splitOnP {β : Type*} {p : β → Bool} {s w : List β}
    (h : w ∈ s.splitOnP p) : ∀ c ∈ w, p c = false := by
  induction s generalizing w with
  | nil => simp_all
  | cons c s ih =>
    rw [List.splitOnP_cons_eq_if_modifyHead] at h
    by_cases hc : p c = true
    · rw [if_pos hc] at h
      rcases List.mem_cons.mp h with rfl | h
      · simp
      · exact ih h
    · rw [if_neg hc] at h
      obtain ⟨v, vs, hsplit⟩ := List.exists_cons_of_ne_nil (List.splitOnP_ne_nil p s)
      rw [hsplit, List.modifyHead_cons] at h
      rcases List.mem_cons.mp h with rfl | h
      · have hv := ih (w := v) (by simp [hsplit])
        simpa [Bool.eq_false_iff.mpr hc] using hv
      · exact ih (by simp [hsplit, h])

theorem not_mem_of_mem_splitOn {s w : List α} (h : w ∈ s.splitOn b) : b ∉ w := by
  rw [List.splitOn_eq_splitOnP] at h
  intro hb
  have hfalse := not_sep_of_mem_splitOnP h b hb
  simp at hfalse

theorem isWord_of_mem_words {s w : List α} (h : w ∈ words b s) : IsWord b w := by
  obtain ⟨hmem, hne⟩ := List.mem_filter.mp h
  exact ⟨by simpa using hne, not_mem_of_mem_splitOn hmem⟩

theorem isWord_of_words_eq {s : List α} {ws : List (List α)} (h : words b s = ws) :
    ∀ w ∈ ws, IsWord b w := by
  rw [← h]
  exact fun _ => isWord_of_mem_words

theorem words_unwords {ws : List (List α)} (h : ∀ w ∈ ws, IsWord b w) :
    words b (unwords b ws) = ws := by
  cases ws with
  | nil => rfl
  | cons w ws =>
    rw [words, unwords, List.splitOn_intercalate b (fun w hw => (h w hw).2) (by simp)]
    apply List.filter_eq_self.mpr
    intro v hv
    simp [(h v hv).1]

@[simp] theorem words_unwords_words (s : List α) : words b (unwords b (words b s)) = words b s :=
  words_unwords fun _ => isWord_of_mem_words

theorem forall_eq_of_words_eq_nil {s : List α} (h : words b s = []) : ∀ c ∈ s, c = b := by
  induction s with
  | nil => simp
  | cons c s ih =>
    by_cases hc : c = b
    · subst hc
      rw [words_blank] at h
      intro d hd
      rcases List.mem_cons.mp hd with rfl | hd
      · rfl
      · exact ih h d hd
    · obtain ⟨v, vs, hsplit⟩ := List.exists_cons_of_ne_nil (List.splitOn_ne_nil b s)
      rw [words, List.splitOn_cons_eq_if_modifyHead, if_neg (by simpa using hc), hsplit] at h
      simp at h

omit [DecidableEq α] in
theorem unwords_cons {ws : List (List α)} (w : List α) (h : ws ≠ []) :
    unwords b (w :: ws) = w ++ b :: unwords b ws := by
  rw [unwords, List.intercalate_cons_of_ne_nil h, List.append_assoc]
  rfl

omit [DecidableEq α] in
@[simp] theorem unwords_nil : unwords b [] = [] := rfl

omit [DecidableEq α] in
@[simp] theorem unwords_singleton (w : List α) : unwords b [w] = w := List.intercalate_singleton

omit [DecidableEq α] in
theorem eq_or_mem_of_mem_unwords {ws : List (List α)} {c : α} (h : c ∈ unwords b ws) :
    c = b ∨ ∃ w ∈ ws, c ∈ w := by
  induction ws with
  | nil => cases h
  | cons w ws ih =>
    by_cases hnil : ws = []
    · subst hnil
      exact Or.inr ⟨w, by simp, by simpa using h⟩
    · rw [unwords_cons w hnil] at h
      rcases List.mem_append.mp h with h | h
      · exact Or.inr ⟨w, by simp, h⟩
      · rcases List.mem_cons.mp h with rfl | h
        · exact Or.inl rfl
        · rcases ih h with hc | ⟨v, hv, hc⟩
          · exact Or.inl hc
          · exact Or.inr ⟨v, by simp [hv], hc⟩

/-! ### Squeezing -/

variable (b) in
/-- The blank that `squeeze` leaves at the end. -/
def trail (s : List α) : List α := if words b s ≠ [] ∧ s.getLast? = some b then [b] else []

theorem trail_eq_nil_or (s : List α) : trail b s = [] ∨ trail b s = [b] := by
  unfold trail
  split_ifs
  · exact Or.inr rfl
  · exact Or.inl rfl

theorem squeeze_blank (s : List α) : squeeze b false (b :: s) = squeeze b false s := by
  simp [squeeze]

theorem squeeze_true_blank (s : List α) : squeeze b true (b :: s) = b :: squeeze b false s := by
  simp [squeeze]

theorem squeeze_of_ne {c : α} (hc : c ≠ b) (keep : Bool) (s : List α) :
    squeeze b keep (c :: s) = c :: squeeze b true s := by
  simp [squeeze, hc]

theorem squeeze_concat {c : α} (hc : c ≠ b) (keep : Bool) (s : List α) :
    squeeze b keep (s ++ [c]) = squeeze b keep s ++ [c] := by
  induction s generalizing keep with
  | nil => simp [squeeze, hc]
  | cons d s ih =>
    simp only [List.cons_append, squeeze]
    split_ifs
    · exact ih false
    · rw [ih, List.cons_append]

theorem squeeze_eq_nil {s : List α} (h : ∀ c ∈ s, c = b) : squeeze b false s = [] := by
  induction s with
  | nil => rfl
  | cons c s ih =>
    rw [h c (by simp), squeeze_blank]
    exact ih fun d hd => h d (by simp [hd])

theorem trail_blank (s : List α) : trail b (b :: s) = trail b s := by
  cases s with
  | nil => simp [trail]
  | cons c s => simp [trail]

/-- The word at the beginning is read letter by letter. -/
theorem squeeze_word {s : List α}
    (h : squeeze b false s = unwords b (words b s) ++ trail b s) {w : List α} (hw : IsWord b w) :
    w ++ squeeze b true (b :: s) = unwords b (words b (w ++ b :: s)) ++ trail b (w ++ b :: s) := by
  rw [squeeze_true_blank, words_append_blank, hw.words, List.singleton_append]
  by_cases hws : words b s = []
  · have hall := forall_eq_of_words_eq_nil hws
    have hlast : (w ++ b :: s).getLast? = some b := by
      rw [List.getLast?_append_of_ne_nil _ (by simp), List.getLast?_eq_some_getLast (by simp)]
      have hmem := List.getLast_mem (List.cons_ne_nil b s)
      rcases List.mem_cons.mp hmem with hb | hs
      · rw [hb]
      · rw [hall _ hs]
    have hne : words b (w ++ b :: s) ≠ [] := by
      rw [words_append_blank, hw.words]
      simp
    rw [squeeze_eq_nil hall, hws, unwords_singleton, trail, if_pos ⟨hne, hlast⟩]
  · have htrail : trail b (w ++ b :: s) = trail b s := by
      have hs : s ≠ [] := fun hs => hws (by rw [hs, words_nil])
      have hlast : (w ++ b :: s).getLast? = s.getLast? := by
        rw [List.getLast?_append_of_ne_nil _ (by simp), List.getLast?_cons_of_ne_nil hs]
      rw [trail, trail, hlast, words_append_blank]
      simp [hws]
    rw [htrail, h, unwords_cons w hws, List.append_assoc, List.cons_append]

theorem squeeze_false (s : List α) :
    squeeze b false s = unwords b (words b s) ++ trail b s := by
  have hboth : squeeze b false s = unwords b (words b s) ++ trail b s ∧
      ∀ w, IsWord b w →
        w ++ squeeze b true s = unwords b (words b (w ++ s)) ++ trail b (w ++ s) := by
    induction s with
    | nil =>
      refine ⟨rfl, ?_⟩
      intro w hw
      have hlast : w.getLast? ≠ some b := fun hc => hw.2 (List.mem_of_getLast? hc)
      simp [squeeze, hw.words, trail, hlast]
    | cons c s ih =>
      by_cases hc : c = b
      · subst hc
        refine ⟨?_, fun w hw => squeeze_word ih.1 hw⟩
        rw [squeeze_blank, ih.1, words_blank, trail_blank]
      · refine ⟨?_, ?_⟩
        · have hword : IsWord b [c] := ⟨by simp, by simpa using Ne.symm hc⟩
          rw [squeeze_of_ne hc]
          exact ih.2 [c] hword
        · intro w hw
          have hword : IsWord b (w ++ [c]) := ⟨by simp, by simp [hw.2, Ne.symm hc]⟩
          have happend := ih.2 (w ++ [c]) hword
          rw [List.append_assoc, List.append_assoc] at happend
          rw [squeeze_of_ne hc]
          exact happend
  exact hboth.1

theorem words_squeeze (keep : Bool) (s : List α) : words b (squeeze b keep s) = words b s := by
  have hfalse : ∀ s, words b (squeeze b false s) = words b s := by
    intro s
    rw [squeeze_false]
    rcases trail_eq_nil_or (b := b) s with h | h <;> rw [h] <;> simp
  cases keep with
  | false => exact hfalse s
  | true =>
    cases s with
    | nil => rfl
    | cons c s =>
      by_cases hc : c = b
      · subst hc
        rw [squeeze_true_blank, words_blank, words_blank, hfalse]
      · have hsame : squeeze b true (c :: s) = squeeze b false (c :: s) := by
          rw [squeeze_of_ne hc, squeeze_of_ne hc]
        rw [hsame, hfalse]

theorem squeeze_eq_nil_iff {s : List α} : squeeze b false s = [] ↔ ∀ c ∈ s, c = b := by
  refine ⟨fun h => forall_eq_of_words_eq_nil ?_, squeeze_eq_nil⟩
  rw [← words_squeeze false, h, words_nil]

theorem squeeze_sublist (keep : Bool) (s : List α) : (squeeze b keep s).Sublist s := by
  induction s generalizing keep with
  | nil => exact List.Sublist.slnil
  | cons d s ih =>
    rw [squeeze]
    split_ifs
    · exact (ih false).cons d
    · exact (ih _).cons_cons d

theorem mem_of_mem_squeeze {keep : Bool} {s : List α} {c : α} (h : c ∈ squeeze b keep s) :
    c ∈ s :=
  (squeeze_sublist keep s).subset h

theorem mem_of_mem_unwords_words {s : List α} {c : α} (h : c ∈ unwords b (words b s)) : c ∈ s := by
  have hmem : c ∈ squeeze b false s := by
    rw [squeeze_false]
    exact List.mem_append_left _ h
  exact mem_of_mem_squeeze hmem

omit [DecidableEq α] in
theorem getLast?_unwords {ws : List (List α)} (h : ∀ w ∈ ws, IsWord b w) :
    (unwords b ws).getLast? ≠ some b := by
  induction ws with
  | nil => simp
  | cons w ws ih =>
    obtain ⟨hne, hb⟩ := h w (by simp)
    have hws := ih fun v hv => h v (by simp [hv])
    by_cases hnil : ws = []
    · rw [hnil, unwords_singleton]
      exact fun hc => hb (List.mem_of_getLast? hc)
    · rw [unwords_cons w hnil, List.getLast?_append_of_ne_nil _ (by simp)]
      cases hu : unwords b ws with
      | nil =>
        obtain ⟨v, vs, rfl⟩ := List.exists_cons_of_ne_nil hnil
        have hv := (h v (by simp)).1
        cases vs with
        | nil => rw [unwords_singleton] at hu; exact absurd hu hv
        | cons v' vs =>
          rw [unwords_cons v (by simp)] at hu
          simp at hu
      | cons c u =>
        rw [List.getLast?_cons_cons, ← hu]
        exact hws

theorem getLast?_unwords_words (s : List α) : (unwords b (words b s)).getLast? ≠ some b :=
  getLast?_unwords fun _ => isWord_of_mem_words

/-- A squeezed sequence ends as the sequence does, unless nothing is left. -/
theorem getLast?_squeeze {s : List α} (h : squeeze b false s ≠ []) :
    (squeeze b false s).getLast? = s.getLast? := by
  rcases List.eq_nil_or_concat s with rfl | ⟨t, c, rfl⟩
  · rfl
  · rw [List.concat_eq_append] at h ⊢
    by_cases hc : c = b
    · subst hc
      have hwords : words c (t ++ [c]) ≠ [] := fun hnil =>
        h (squeeze_eq_nil (forall_eq_of_words_eq_nil hnil))
      have htrail : trail c (t ++ [c]) = [c] := if_pos ⟨hwords, List.getLast?_concat⟩
      rw [squeeze_false, htrail, List.getLast?_concat, List.getLast?_concat]
    · rw [squeeze_concat hc, List.getLast?_concat, List.getLast?_concat]

theorem squeeze_unwords_words (s : List α) :
    squeeze b false (unwords b (words b s)) = unwords b (words b s) := by
  have htrail : trail b (unwords b (words b s)) = [] := by
    rw [trail, if_neg fun h => getLast?_unwords_words s h.2]
  rw [squeeze_false, words_unwords_words, htrail, List.append_nil]

/-! ### Splitting at other separators -/

section Split

variable {p : α → Bool}

theorem splitOnP_squeeze (hp : p b = false) (keep : Bool) (s : List α) :
    ∃ v vs, s.splitOnP p = v :: vs ∧
      (squeeze b keep s).splitOnP p = squeeze b keep v :: vs.map (squeeze b true) := by
  induction s generalizing keep with
  | nil => exact ⟨[], [], by simp, by simp [squeeze]⟩
  | cons c s ih =>
    rw [List.splitOnP_cons_eq_if_modifyHead]
    by_cases hpc : p c = true
    · have hc : c ≠ b := fun h => by rw [h, hp] at hpc; cases hpc
      obtain ⟨v, vs, hsplit, hsqueeze⟩ := ih true
      refine ⟨[], v :: vs, by rw [if_pos hpc, hsplit], ?_⟩
      rw [squeeze_of_ne hc, List.splitOnP_cons_eq_if_modifyHead, if_pos hpc, hsqueeze]
      rfl
    · rw [if_neg hpc]
      by_cases hdrop : c = b ∧ keep = false
      · obtain ⟨rfl, rfl⟩ := hdrop
        obtain ⟨v, vs, hsplit, hsqueeze⟩ := ih false
        refine ⟨c :: v, vs, by rw [hsplit, List.modifyHead_cons], ?_⟩
        rw [squeeze_blank, squeeze_blank, hsqueeze]
      · obtain ⟨v, vs, hsplit, hsqueeze⟩ := ih (decide (c ≠ b))
        refine ⟨c :: v, vs, by rw [hsplit, List.modifyHead_cons], ?_⟩
        rw [squeeze, if_neg hdrop, List.splitOnP_cons_eq_if_modifyHead, if_neg hpc, hsqueeze,
          List.modifyHead_cons, squeeze, if_neg hdrop]

omit [DecidableEq α] in
/-- An element at the end that is no separator belongs to the last piece. -/
theorem splitOnP_concat {b : α} (hp : p b = false) (s : List α) :
    ∃ vs v, s.splitOnP p = vs ++ [v] ∧ (s ++ [b]).splitOnP p = vs ++ [v ++ [b]] := by
  induction s with
  | nil =>
    refine ⟨[], [], by simp, ?_⟩
    simp [List.splitOnP_cons_eq_if_modifyHead, hp]
  | cons c s ih =>
    obtain ⟨vs, v, hsplit, hconcat⟩ := ih
    rw [List.cons_append, List.splitOnP_cons_eq_if_modifyHead, List.splitOnP_cons_eq_if_modifyHead,
      hsplit, hconcat]
    by_cases hpc : p c = true
    · exact ⟨[] :: vs, v, by rw [if_pos hpc]; rfl, by rw [if_pos hpc]; rfl⟩
    · rw [if_neg hpc, if_neg hpc]
      cases vs with
      | nil => exact ⟨[], c :: v, rfl, rfl⟩
      | cons u vs => exact ⟨(c :: u) :: vs, v, rfl, rfl⟩

/-- **Splitting and squeezing commute**, as far as the words of the pieces go. -/
theorem words_splitOnP_unwords (hp : p b = false) (s : List α) :
    ((unwords b (words b s)).splitOnP p).map (words b) = (s.splitOnP p).map (words b) := by
  obtain ⟨v, vs, hsplit, hsqueeze⟩ := splitOnP_squeeze hp false s
  have hmap : ((squeeze b false s).splitOnP p).map (words b) = (s.splitOnP p).map (words b) := by
    rw [hsplit, hsqueeze, List.map_cons, List.map_cons, words_squeeze, List.map_map]
    congr 1
    exact List.map_congr_left fun u _ => words_squeeze true u
  rw [← hmap, squeeze_false]
  rcases trail_eq_nil_or (b := b) s with h | h <;> rw [h]
  · rw [List.append_nil]
  · obtain ⟨us, u, hus, hconcat⟩ := splitOnP_concat hp (unwords b (words b s))
    rw [hus, hconcat]
    simp

theorem length_splitOnP_unwords (hp : p b = false) (s : List α) :
    ((unwords b (words b s)).splitOnP p).length = (s.splitOnP p).length := by
  have hlen := congrArg List.length (words_splitOnP_unwords hp s)
  simpa using hlen

/-- A piece without words is empty or a single blank. -/
theorem eq_nil_or_of_mem_splitOnP (hp : p b = false) {s u : List α}
    (hu : u ∈ (unwords b (words b s)).splitOnP p) (hwords : words b u = []) :
    u = [] ∨ u = [b] := by
  obtain ⟨v, vs, hsplit, hsqueeze⟩ := splitOnP_squeeze hp false (unwords b (words b s))
  rw [squeeze_unwords_words, hsplit] at hsqueeze
  rw [hsplit, hsqueeze] at hu
  rcases List.mem_cons.mp hu with rfl | hu
  · rw [words_squeeze] at hwords
    exact Or.inl (squeeze_eq_nil (forall_eq_of_words_eq_nil hwords))
  · obtain ⟨u', _, rfl⟩ := List.mem_map.mp hu
    rw [words_squeeze] at hwords
    have hall := forall_eq_of_words_eq_nil hwords
    cases u' with
    | nil => exact Or.inl rfl
    | cons c u' =>
      rw [hall c (by simp), squeeze_true_blank, squeeze_eq_nil fun d hd => hall d (by simp [hd])]
      exact Or.inr rfl

/-- The last piece has no blank at its end. -/
theorem trail_last_piece {s u : List α} {us : List (List α)}
    (h : (unwords b (words b s)).splitOnP p = us ++ [u]) : trail b u = [] := by
  rcases List.eq_nil_or_concat (unwords b (words b s)) with hnil | ⟨t, c, hconcat⟩
  · rw [hnil, List.splitOnP_nil] at h
    have hempty : [] ++ [[]] = us ++ [u] := h
    rw [← (List.cons.inj (List.append_inj' hempty rfl).2).1]
    rfl
  · rw [List.concat_eq_append] at hconcat
    have hc : c ≠ b := by
      intro hc
      refine getLast?_unwords_words (b := b) s ?_
      rw [hconcat, List.getLast?_concat, hc]
    rw [hconcat] at h
    by_cases hpc : p c = true
    · rw [List.splitOnP_append_cons t [] hpc, List.splitOnP_nil] at h
      rw [← (List.cons.inj (List.append_inj' h rfl).2).1]
      rfl
    · obtain ⟨vs, v, _, hlast⟩ := splitOnP_concat (by simpa using hpc) t
      rw [hlast] at h
      rw [← (List.cons.inj (List.append_inj' h rfl).2).1, trail, if_neg]
      rw [List.getLast?_concat]
      simp [hc]

/-- The piece in front of the first separator keeps a blank at its end. -/
theorem splitOnP_unwords_pair (hp : p b = false) {s v₀ v₁ : List α}
    (hs : s.splitOnP p = [v₀, v₁]) :
    ∃ u, (unwords b (words b s)).splitOnP p = [squeeze b false v₀, u] ∧
      squeeze b false u = unwords b (words b v₁) := by
  obtain ⟨v, vs, hsplit, hsqueeze⟩ := splitOnP_squeeze hp false s
  rw [hs, List.cons.injEq] at hsplit
  obtain ⟨rfl, rfl⟩ := hsplit
  obtain ⟨u, hus, hwords⟩ : ∃ u, (unwords b (words b s)).splitOnP p = [squeeze b false v₀, u] ∧
      words b u = words b v₁ := by
    rw [squeeze_false s] at hsqueeze
    rcases trail_eq_nil_or (b := b) s with h | h <;> rw [h] at hsqueeze
    · rw [List.append_nil] at hsqueeze
      exact ⟨_, hsqueeze, words_squeeze true v₁⟩
    · obtain ⟨us, u, hus, hconcat⟩ := splitOnP_concat hp (unwords b (words b s))
      rw [hconcat] at hsqueeze
      have hlast : us ++ [u ++ [b]] = [squeeze b false v₀] ++ [squeeze b true v₁] := hsqueeze
      obtain ⟨hus', hu⟩ := List.append_inj' hlast rfl
      rw [hus'] at hus
      refine ⟨u, hus, ?_⟩
      rw [← words_concat_blank u, (List.cons.inj hu).1, words_squeeze]
  have hlast : (unwords b (words b s)).splitOnP p = [squeeze b false v₀] ++ [u] := hus
  have htrail := trail_last_piece hlast
  exact ⟨u, hus, by rw [squeeze_false, htrail, hwords, List.append_nil]⟩

end Split

/-! ### Blanks in a row -/

/-- No two blanks in a row. -/
def NoDouble (b : α) (s : List α) : Prop := s.IsChain fun c d => ¬ (c = b ∧ d = b)

theorem noDouble_squeeze (keep : Bool) (s : List α) :
    NoDouble b (squeeze b keep s) ∧ (keep = false → (squeeze b keep s).head? ≠ some b) := by
  induction s generalizing keep with
  | nil => exact ⟨List.isChain_nil, by simp [squeeze]⟩
  | cons c s ih =>
    by_cases hc : c = b
    · subst hc
      cases keep with
      | false =>
        rw [squeeze_blank]
        exact ih false
      | true =>
        obtain ⟨hchain, hhead⟩ := ih false
        rw [squeeze_true_blank]
        refine ⟨List.isChain_cons.mpr ⟨?_, hchain⟩, by simp⟩
        rintro d hd ⟨_, rfl⟩
        exact hhead rfl hd
    · rw [squeeze_of_ne hc]
      refine ⟨List.isChain_cons.mpr ⟨fun d _ h => hc h.1, (ih true).1⟩, ?_⟩
      intro _
      simpa using hc

/-- The first piece is a prefix, and every piece an infix. -/
theorem infix_of_splitOnP {β : Type*} (p : β → Bool) (s : List β) :
    (∀ first rest, s.splitOnP p = first :: rest → first <+: s) ∧ ∀ u ∈ s.splitOnP p, u <:+: s := by
  induction s with
  | nil => simp
  | cons c s ih =>
    obtain ⟨hfirst, hall⟩ := ih
    rw [List.splitOnP_cons_eq_if_modifyHead]
    split_ifs
    · constructor
      · intro first rest h
        rw [← (List.cons.inj h).1]
        exact List.nil_prefix
      · intro u hu
        rcases List.mem_cons.mp hu with rfl | hu
        · exact List.nil_infix
        · exact List.infix_cons (hall u hu)
    · obtain ⟨first, rest, hsplit⟩ := List.exists_cons_of_ne_nil (List.splitOnP_ne_nil p s)
      have hprefix : c :: first <+: c :: s :=
        List.cons_prefix_cons.mpr ⟨rfl, hfirst first rest hsplit⟩
      rw [hsplit, List.modifyHead_cons]
      constructor
      · intro first' rest' h
        rw [← (List.cons.inj h).1]
        exact hprefix
      · intro u hu
        rcases List.mem_cons.mp hu with rfl | hu
        · exact hprefix.isInfix
        · exact List.infix_cons (hall u (by simp [hsplit, hu]))

theorem NoDouble.piece {p : α → Bool} {s u : List α} (h : NoDouble b s) (hu : u ∈ s.splitOnP p)
    (hwords : words b u = []) : u = [] ∨ u = [b] := by
  have hchain : NoDouble b u := h.infix ((infix_of_splitOnP p s).2 u hu)
  have hall := forall_eq_of_words_eq_nil hwords
  match u with
  | [] => exact Or.inl rfl
  | [c] => exact Or.inr (by rw [hall c (by simp)])
  | c :: d :: u =>
    have hpair := (List.isChain_cons.mp hchain).1 d rfl
    exact absurd ⟨hall c (by simp), hall d (by simp)⟩ hpair

end OstepProjects.Words
