/-
  OstepProjects/Lib/RunLength.lean
  ================================
  **Run-length decompositions of a list.**

  A list over any alphabet with decidable equality splits into maximal runs:
  positive counts, neighbouring runs with different symbols, the runs laid out
  again giving the list (`IsRuns`, `isRuns_runs`).  The
  decomposition is computed by `runs`; `runsFrom n a` is the state of a left to
  right encoder that has seen `n` copies of `a` and nothing else yet.

  Two decompositions are put side by side by `join`, which fuses the last run of
  the one with the first run of the other when their symbols agree.  `runs_append`
  says that this is the decomposition of the concatenation, so an encoder that
  works on pieces and repairs the borders agrees with one that reads everything.
-/
import Mathlib.Data.List.Basic
import Mathlib.Data.List.Chain
import Mathlib.Tactic.Ring

namespace OstepProjects.RunLength

/-- A run: how many copies, and of which symbol. -/
abbrev Run (α : Type*) := Nat × α

/-- Lay a list of runs out again. -/
def expand {α : Type*} (rs : List (Run α)) : List α :=
  rs.flatMap fun r => List.replicate r.1 r.2

@[simp] theorem expand_nil {α : Type*} : expand ([] : List (Run α)) = [] := rfl

@[simp] theorem expand_cons {α : Type*} (r : Run α) (rs : List (Run α)) :
    expand (r :: rs) = List.replicate r.1 r.2 ++ expand rs := rfl

/-- `rs` is the list of maximal runs of `xs`, in order. -/
structure IsRuns {α : Type*} (rs : List (Run α)) (xs : List α) : Prop where
  expand_eq : expand rs = xs
  pos : ∀ r ∈ rs, 1 ≤ r.1
  alternate : rs.IsChain fun r s => r.2 ≠ s.2

variable {α : Type*} [DecidableEq α]

/-- The runs of `n` copies of `a` followed by the list. -/
def runsFrom (n : Nat) (a : α) : List α → List (Run α)
  | [] => [(n, a)]
  | x :: xs => if x = a then runsFrom (n + 1) a xs else (n, a) :: runsFrom 1 x xs

/-- The maximal runs of a list. -/
def runs : List α → List (Run α)
  | [] => []
  | x :: xs => runsFrom 1 x xs

@[simp] theorem runs_nil : runs ([] : List α) = [] := rfl

theorem runsFrom_ne_nil (n : Nat) (a : α) (xs : List α) : runsFrom n a xs ≠ [] := by
  induction xs generalizing n with
  | nil => simp [runsFrom]
  | cons x xs ih =>
    simp only [runsFrom]
    by_cases hx : x = a
    · rw [if_pos hx]; exact ih (n + 1)
    · rw [if_neg hx]; simp

theorem runs_ne_nil {xs : List α} (h : xs ≠ []) : runs xs ≠ [] := by
  cases xs with
  | nil => exact absurd rfl h
  | cons x xs => exact runsFrom_ne_nil 1 x xs

/-! ### The decomposition is the maximal one -/

theorem expand_runsFrom (n : Nat) (a : α) (xs : List α) :
    expand (runsFrom n a xs) = List.replicate n a ++ xs := by
  induction xs generalizing n a with
  | nil => simp [runsFrom]
  | cons x xs ih =>
    simp only [runsFrom]
    by_cases hx : x = a
    · rw [if_pos hx, ih, hx, List.replicate_succ']
      simp
    · rw [if_neg hx, expand_cons, ih]
      simp

theorem expand_runs (xs : List α) : expand (runs xs) = xs := by
  cases xs with
  | nil => rfl
  | cons x xs =>
    rw [runs, expand_runsFrom]
    rfl

theorem pos_of_mem_runsFrom {n : Nat} (hn : 1 ≤ n) (a : α) (xs : List α) :
    ∀ r ∈ runsFrom n a xs, 1 ≤ r.1 := by
  induction xs generalizing n a with
  | nil =>
    intro r hr
    simp only [runsFrom, List.mem_singleton] at hr
    subst hr; exact hn
  | cons x xs ih =>
    intro r hr
    simp only [runsFrom] at hr
    by_cases hx : x = a
    · rw [if_pos hx] at hr
      exact ih (by omega) a r hr
    · rw [if_neg hx, List.mem_cons] at hr
      rcases hr with rfl | hr
      · exact hn
      · exact ih (le_refl 1) x r hr

/-- The first run of `runsFrom n a` carries the symbol `a`. -/
theorem runsFrom_head (n : Nat) (a : α) (xs : List α) :
    ∃ m rest, n ≤ m ∧ runsFrom n a xs = (m, a) :: rest := by
  induction xs generalizing n with
  | nil => exact ⟨n, [], le_refl n, rfl⟩
  | cons x xs ih =>
    simp only [runsFrom]
    by_cases hx : x = a
    · obtain ⟨m, rest, hm, heq⟩ := ih (n + 1)
      exact ⟨m, rest, by omega, by rw [if_pos hx, heq]⟩
    · exact ⟨n, runsFrom 1 x xs, le_refl n, by rw [if_neg hx]⟩

theorem isChain_runsFrom (n : Nat) (a : α) (xs : List α) :
    (runsFrom n a xs).IsChain fun r s => r.2 ≠ s.2 := by
  induction xs generalizing n a with
  | nil => simp [runsFrom]
  | cons x xs ih =>
    simp only [runsFrom]
    by_cases hx : x = a
    · rw [if_pos hx]; exact ih (n + 1) a
    · rw [if_neg hx]
      obtain ⟨m, rest, _, heq⟩ := runsFrom_head 1 x xs
      have htail := ih 1 x
      rw [heq] at htail ⊢
      exact List.isChain_cons_cons.mpr ⟨fun h => hx h.symm, htail⟩

/-- **`runs` computes the maximal runs.** -/
theorem isRuns_runs (xs : List α) : IsRuns (runs xs) xs := by
  refine ⟨expand_runs xs, ?_, ?_⟩
  · cases xs with
    | nil => intro r hr; cases hr
    | cons x xs => exact pos_of_mem_runsFrom (le_refl 1) x xs
  · cases xs with
    | nil => simp
    | cons x xs => exact isChain_runsFrom 1 x xs

/-! ### Joining decompositions -/

/-- Put two decompositions side by side, fusing the runs that meet when they
    carry the same symbol. -/
def join : List (Run α) → List (Run α) → List (Run α)
  | [], ss => ss
  | [r], [] => [r]
  | [r], s :: ss => if r.2 = s.2 then (r.1 + s.1, s.2) :: ss else r :: s :: ss
  | r :: r' :: rs, ss => r :: join (r' :: rs) ss

@[simp] theorem join_nil_left (ss : List (Run α)) : join [] ss = ss := by
  cases ss <;> rfl

@[simp] theorem join_nil_right (rs : List (Run α)) : join rs [] = rs := by
  induction rs with
  | nil => rfl
  | cons r rs ih =>
    cases rs with
    | nil => rfl
    | cons r' rs => rw [join, ih]

/-- Only the last run of the left side meets the right side. -/
theorem join_append_singleton (rs : List (Run α)) (r : Run α) (ss : List (Run α)) :
    join (rs ++ [r]) ss = rs ++ join [r] ss := by
  induction rs with
  | nil => rfl
  | cons q rs ih =>
    cases rs with
    | nil => rfl
    | cons q' rs =>
      rw [List.cons_append, List.cons_append, join, ← List.cons_append, ih]
      rfl

/-- How a single run meets a decomposition that is itself joined to a third. -/
theorem join_singleton_join (r s : Run α) (ss ts : List (Run α)) :
    join [r] (join (s :: ss) ts) =
      if r.2 = s.2 then join ((r.1 + s.1, s.2) :: ss) ts else r :: join (s :: ss) ts := by
  cases ss with
  | cons s' ss =>
    simp only [join]
  | nil =>
    cases ts with
    | nil => simp only [join]
    | cons t ts =>
      simp only [join]
      by_cases hst : s.2 = t.2
      · simp only [if_pos hst, join]
        by_cases hrs : r.2 = s.2
        · have hrt : r.2 = t.2 := hrs.trans hst
          simp [hrs, hst, Nat.add_assoc]
        · have hrt : ¬ r.2 = t.2 := fun h => hrs (h.trans hst.symm)
          simp [hrs, hrt]
      · simp only [if_neg hst, join]

theorem join_singleton_runsFrom (n k : Nat) (a : α) (xs : List α) :
    join [(n, a)] (runsFrom k a xs) = runsFrom (n + k) a xs := by
  induction xs generalizing k with
  | nil => simp [runsFrom, join]
  | cons x xs ih =>
    simp only [runsFrom]
    by_cases hx : x = a
    · rw [if_pos hx, if_pos hx, ih]; rfl
    · rw [if_neg hx, if_neg hx]; simp [join]

theorem runsFrom_append (n : Nat) (a : α) (xs ys : List α) :
    runsFrom n a (xs ++ ys) = join (runsFrom n a xs) (runs ys) := by
  induction xs generalizing n a with
  | nil =>
    cases ys with
    | nil => simp [runsFrom]
    | cons y ys =>
      simp only [List.nil_append, runsFrom, runs]
      by_cases hy : y = a
      · rw [if_pos hy, hy, join_singleton_runsFrom]
      · rw [if_neg hy]
        obtain ⟨m, rest, _, heq⟩ := runsFrom_head 1 y ys
        rw [heq, join, if_neg fun h => hy h.symm]
  | cons x xs ih =>
    simp only [List.cons_append, runsFrom]
    by_cases hx : x = a
    · rw [if_pos hx, if_pos hx, ih]
    · rw [if_neg hx, if_neg hx, ih]
      obtain ⟨m, rest, _, heq⟩ := runsFrom_head 1 x xs
      rw [heq, join]

/-- **The runs of a concatenation are the joined runs of the parts.** -/
theorem runs_append (xs ys : List α) : runs (xs ++ ys) = join (runs xs) (runs ys) := by
  cases xs with
  | nil => simp
  | cons x xs => exact runsFrom_append 1 x xs ys

/-- Starting from no copies of `a` adds at most an empty run in front. -/
theorem runsFrom_zero (a : α) (xs : List α) :
    runsFrom 0 a xs = if xs.head? = some a then runs xs else (0, a) :: runs xs := by
  cases xs with
  | nil => simp [runsFrom]
  | cons x xs =>
    by_cases hx : x = a
    · simp [runsFrom, runs, hx]
    · simp [runsFrom, runs, hx]

/-- A run is a part of the list it comes from. -/
theorem replicate_sublist_of_mem_runs {xs : List α} {r : Run α} (h : r ∈ runs xs) :
    (List.replicate r.1 r.2).Sublist xs := by
  have hmem : List.replicate r.1 r.2 ∈ (runs xs).map fun r => List.replicate r.1 r.2 :=
    List.mem_map.mpr ⟨r, h, rfl⟩
  have hsub := List.sublist_flatten_of_mem hmem
  rw [← List.flatMap_def] at hsub
  change (List.replicate r.1 r.2).Sublist (expand (runs xs)) at hsub
  rwa [expand_runs] at hsub

theorem le_length_of_mem_runs {xs : List α} {r : Run α} (h : r ∈ runs xs) :
    r.1 ≤ xs.length := by
  simpa using (replicate_sublist_of_mem_runs h).length_le

/-- There are no more runs than elements. -/
theorem length_runs_le (xs : List α) : (runs xs).length ≤ xs.length := by
  have hpos := (isRuns_runs xs).pos
  have hexpand : ∀ rs : List (Run α), (∀ r ∈ rs, 1 ≤ r.1) → rs.length ≤ (expand rs).length := by
    intro rs hrs
    induction rs with
    | nil => simp
    | cons r rs ih =>
      have hfirst := hrs r List.mem_cons_self
      have hrest := ih fun q hq => hrs q (List.mem_cons_of_mem _ hq)
      rw [expand_cons, List.length_append, List.length_replicate, List.length_cons]
      omega
  have hle := hexpand (runs xs) hpos
  rwa [expand_runs] at hle

end OstepProjects.RunLength
