/-
  OstepProjects/MapReduce/ReducePhase.lean
  ========================================
  **Reduction, and `MR_Run` as a whole.**

  What lies left of the cursor of a partition is made of finished groups, but for the
  group of the call in progress, of which the values handed out so far lie there too
  (`ReduceInv`).  With the invariants of the other phases this gives the contract of
  `MR_Run` (`MR_Run_groups`): every run ends, no thread is stuck before, and each
  partition's reducer is called once for each of its keys, in increasing order, with
  the values of that key in the order of their emission.
-/
import Mathlib.Algebra.BigOperators.Group.Finset.Piecewise
import Mathlib.Algebra.Order.BigOperators.Group.Finset
import Mathlib.Data.List.ReduceOption
import Mathlib.Data.Prod.Lex
import OstepProjects.MapReduce.MapPhase

namespace OstepProjects.MapReduce

open OstepProjects.CString OstepProjects.InsertionSort OstepProjects.Transition
open OstepProjects.Grouping

variable {m r : Nat} {cfg : Config m r}

/-- A reducer that calls `get_next` until it returns `NULL`. -/
def UntilNull (reduce : Reducer) : Prop :=
  ∀ key answers, reduce key answers = true ↔ none ∉ answers

theorem all_isSome_iff (answers : List (Option CString)) :
    answers.all Option.isSome = true ↔ none ∉ answers := by
  rw [List.all_eq_true]
  constructor
  · intro h hnone
    cases h none hnone
  · intro h x hx
    cases x with
    | none => exact absurd hx h
    | some _ => rfl

/-! ### The cursor of a partition -/

/-- Every key of `A` comes before every key of `B`. -/
def Behind (A B : List (CString × CString)) : Prop := ∀ x ∈ A, ∀ y ∈ B, x.1 < y.1

/-- The answers of a call that has got the values `vs`, with `B` still to be read:
    either all of them are values, or the last one was `NULL`. -/
inductive Answered (key : CString) (vs : List CString) (B : List (CString × CString)) :
    List (Option CString) → Prop
  | values (h : vs = [] → ∃ v B', B = (key, v) :: B') : Answered key vs B (vs.map some)
  | ended (hne : vs ≠ []) (h : ∀ x ∈ B.head?, x.1 ≠ key) :
      Answered key vs B (vs.map some ++ [none])

/-- A reducer thread with its cursor at `c` in the partition `xs` and the finished
    calls `G`. -/
def ReduceInv (xs : List (CString × CString)) (c : Nat) (G : List (CString × List CString)) :
    ReduceThread → Prop
  | .test => ∃ A B, xs = A ++ B ∧ c = A.length ∧ Groups G A ∧ Behind A B
  | .call => ∃ A x B, xs = A ++ x :: B ∧ c = A.length ∧ Groups G A ∧ Behind A (x :: B)
  | .running key answers =>
    ∃ A vs B, xs = A ++ vs.map (fun v => (key, v)) ++ B ∧ c = A.length + vs.length ∧
      Groups G A ∧ (∀ x ∈ A, x.1 < key) ∧ Answered key vs B answers
  | .returned => c = xs.length ∧ Groups G xs

theorem reduceInv_start (xs : List (CString × CString)) : ReduceInv xs 0 [] .test :=
  ⟨[], xs, rfl, rfl, groups_nil, fun x hx => by cases hx⟩

section Cursor

variable {xs : List (CString × CString)} {c : Nat} {G : List (CString × List CString)}

theorem ReduceInv.of_test (h : ReduceInv xs c G .test) :
    if c < xs.length then ReduceInv xs c G .call else ReduceInv xs c G .returned := by
  obtain ⟨A, B, rfl, rfl, hG, hbehind⟩ := h
  cases B with
  | nil =>
    rw [List.append_nil, if_neg (lt_irrefl _)]
    exact ⟨rfl, hG⟩
  | cons x B =>
    rw [if_pos (by simp)]
    exact ⟨A, x, B, rfl, rfl, hG, hbehind⟩

theorem ReduceInv.of_call (h : ReduceInv xs c G .call) {x : CString × CString}
    (hx : xs[c]? = some x) : ReduceInv xs c G (.running x.1 []) := by
  obtain ⟨A, y, B, rfl, rfl, hG, hbehind⟩ := h
  rw [List.getElem?_append_right (le_refl _)] at hx
  simp only [Nat.sub_self, List.getElem?_cons_zero, Option.some.injEq] at hx
  subst hx
  refine ⟨A, [], y :: B, by simp, rfl, hG, fun z hz => hbehind z hz y (by simp), ?_⟩
  exact .values fun _ => ⟨y.2, B, rfl⟩

/-- The data at the cursor of a call. -/
theorem getElem?_cursor {A B : List (CString × CString)} {key : CString} {vs : List CString} :
    (A ++ vs.map (fun v => (key, v)) ++ B)[A.length + vs.length]? = B.head? := by
  rw [List.getElem?_append_right (by simp)]
  simp [List.head?_eq_getElem?]

theorem ReduceInv.of_value {key v : CString} {answers : List (Option CString)}
    (h : ReduceInv xs c G (.running key answers)) (hmore : none ∉ answers)
    (hget : xs[c]? = some (key, v)) :
    ReduceInv xs (c + 1) G (.running key (answers ++ [some v])) := by
  obtain ⟨A, vs, B, rfl, rfl, hG, hlt, hanswers⟩ := h
  rw [getElem?_cursor] at hget
  cases hanswers with
  | ended => exact absurd (by simp) hmore
  | values hfirst =>
    obtain ⟨B, rfl⟩ := List.head?_eq_some_iff.mp hget
    refine ⟨A, vs ++ [v], B, by simp, by simp; omega, hG, hlt, ?_⟩
    have hsome : (vs ++ [v]).map some = vs.map some ++ [some v] := by simp
    rw [← hsome]
    exact .values (by simp)

theorem ReduceInv.of_null {key : CString} {answers : List (Option CString)}
    (h : ReduceInv xs c G (.running key answers)) (hmore : none ∉ answers)
    (hget : ∀ x, xs[c]? = some x → x.1 ≠ key) :
    ReduceInv xs c G (.running key (answers ++ [none])) := by
  obtain ⟨A, vs, B, rfl, rfl, hG, hlt, hanswers⟩ := h
  rw [getElem?_cursor] at hget
  cases hanswers with
  | ended => exact absurd (by simp) hmore
  | values hfirst =>
    have hne : vs ≠ [] := fun hnil => by
      obtain ⟨v, B', rfl⟩ := hfirst hnil
      exact hget _ rfl rfl
    exact ⟨A, vs, B, rfl, rfl, hG, hlt, .ended hne hget⟩

/-- The first answer of a call is a value. -/
theorem ReduceInv.ne_nil_of_null {key : CString} {answers : List (Option CString)}
    (h : ReduceInv xs c G (.running key answers))
    (hget : ∀ x, xs[c]? = some x → x.1 ≠ key) : answers ≠ [] := by
  obtain ⟨A, vs, B, rfl, rfl, _, _, hanswers⟩ := h
  rw [getElem?_cursor] at hget
  cases hanswers with
  | ended => simp
  | values hfirst =>
    rintro hnil
    obtain ⟨v, B', rfl⟩ := hfirst (List.map_eq_nil_iff.mp hnil)
    exact hget _ rfl rfl

/-- The end of a call: its group is complete, as the partition is sorted. -/
theorem ReduceInv.of_ended {key : CString} {answers : List (Option CString)}
    (h : ReduceInv xs c G (.running key answers)) (hend : none ∈ answers)
    (hsorted : xs.Pairwise fun x y => x.1 ≤ y.1) :
    ReduceInv xs c (G ++ [(key, answers.reduceOption)]) .test := by
  obtain ⟨A, vs, B, rfl, rfl, hG, hlt, hanswers⟩ := h
  cases hanswers with
  | values => simp at hend
  | ended hne hhead =>
    have hvs : (vs.map some ++ [none]).reduceOption = vs := by
      rw [List.reduceOption_append]
      simp [List.reduceOption]
    rw [hvs]
    obtain ⟨v, vs', rfl⟩ := List.exists_cons_of_ne_nil hne
    have hbelow : ∀ y ∈ B, key < y.1 := by
      obtain ⟨_, hB, hle⟩ := List.pairwise_append.mp hsorted
      have hkey : ∀ y ∈ B, key ≤ y.1 := fun y hy => hle (key, v) (by simp) y hy
      cases B with
      | nil => simp
      | cons z B =>
        have hz : key < z.1 := lt_of_le_of_ne (hkey z (by simp)) (Ne.symm (hhead z (by simp)))
        intro y hy
        rcases List.mem_cons.mp hy with rfl | hy
        · exact hz
        · exact hz.trans_le ((List.pairwise_cons.mp hB).1 y hy)
    refine ⟨A ++ (v :: vs').map fun v => (key, v), B, rfl, by simp,
      hG.concat hne hlt, ?_⟩
    intro x hx y hy
    rcases List.mem_append.mp hx with hx | hx
    · exact (hlt x hx).trans (hbelow y hy)
    · obtain ⟨w, _, rfl⟩ := List.mem_map.mp hx
      exact hbelow y hy

end Cursor

/-! ### The steps of the reducer threads -/

theorem get_next_spec {g : Globals} {p : Nat} {L : List map_data}
    (hbegins : Begins (g.part_data p) L) (hlen : g.part_num p = L.length) (key : CString) :
    (∃ v, (L.map map_data.pair)[g.part_count p]? = some (key, v) ∧
      get_next g key p = (some v,
        { g with part_count := Function.update g.part_count p (g.part_count p + 1) })) ∨
    ((∀ x, (L.map map_data.pair)[g.part_count p]? = some x → x.1 ≠ key) ∧
      get_next g key p = (none, g)) := by
  simp only [get_next, strcmp_eq_zero, hlen]
  by_cases hlt : g.part_count p < L.length
  · have hget := List.getElem?_eq_getElem (l := L.map map_data.pair) (by simpa using hlt)
    rw [List.getElem_map] at hget
    rw [hget, hbegins.getElem hlt]
    by_cases hkey : L[g.part_count p].key = key
    · exact Or.inl ⟨L[g.part_count p].value, by rw [← hkey]; rfl, by rw [if_pos ⟨hlt, hkey⟩]⟩
    · refine Or.inr ⟨?_, by rw [if_neg fun h => hkey h.2]⟩
      intro x hx
      cases hx
      exact hkey
  · refine Or.inr ⟨?_, by rw [if_neg fun h => hlt h.1]⟩
    intro x hx
    have hin := (List.getElem?_eq_some_iff.mp hx).1
    exact absurd (by simpa using hin) hlt

theorem stepReducer_cases {s s' : State m r} {p : Fin r} (h : stepReducer cfg s p = some s') :
    s.main = .joinReducers ∧
    ((s.reducers p = .test ∧ s' = s.setReducer p
        (if s.globals.part_count p < s.globals.part_num p then .call else .returned)) ∨
      (s.reducers p = .call ∧ s' = s.setReducer p
        (.running (s.globals.part_data p (s.globals.part_count p)).key [])) ∨
      (∃ key answers, s.reducers p = .running key answers ∧ cfg.reduce key answers = true ∧
        s' = { s.setReducer p (.running key (answers ++ [(get_next s.globals key p).1])) with
          globals := (get_next s.globals key p).2 }) ∨
      (∃ key answers, s.reducers p = .running key answers ∧ cfg.reduce key answers = false ∧
        s' = { s.setReducer p .test with
          delivered := Function.update s.delivered p
            (s.delivered p ++ [(key, answers.reduceOption)]) })) := by
  unfold stepReducer at h
  by_cases hmain : s.main = .joinReducers
  · rw [if_pos hmain] at h
    refine ⟨hmain, ?_⟩
    cases hp : s.reducers p <;> simp only [hp] at h
    case test =>
      refine Or.inl ⟨rfl, ?_⟩
      split at h <;> cases h
      · rename_i hlt; rw [if_pos hlt]
      · rename_i hlt; rw [if_neg hlt]
    case call =>
      cases h
      exact Or.inr (Or.inl ⟨rfl, rfl⟩)
    case running key answers =>
      split at h <;> cases h
      · rename_i hmore
        exact Or.inr (Or.inr (Or.inl ⟨key, answers, rfl, hmore, rfl⟩))
      · rename_i hmore
        exact Or.inr (Or.inr (Or.inr ⟨key, answers, rfl, by simpa using hmore, rfl⟩))
    case returned => cases h
  · rw [if_neg hmain] at h
    cases h

/-- All partitions in the reduce phase, with `L p` in partition `p`. -/
structure ReducersInv (cfg : Config m r) (s : State m r) (L : Nat → List map_data) : Prop where
  partition : ∀ p, PartitionInv cfg s.pairs p s.globals (L p)
  reducer : ∀ p : Fin r, ReduceInv ((L p).map map_data.pair) (s.globals.part_count p)
    (s.delivered p) (s.reducers p)

/-- A step that touches partition `p` only has to be looked at there. -/
theorem ReducersInv.update {s s' : State m r} {p : Fin r} {L : Nat → List map_data}
    (h : ReducersInv cfg s L) (hemitted : s'.emitted = s.emitted)
    (hdata : s'.globals.part_data = s.globals.part_data)
    (hnum : s'.globals.part_num = s.globals.part_num)
    (hothers : ∀ q, q ≠ p → s'.globals.part_count q = s.globals.part_count q ∧
      s'.delivered q = s.delivered q ∧ s'.reducers q = s.reducers q)
    (hp : ReduceInv ((L p).map map_data.pair) (s'.globals.part_count p) (s'.delivered p)
      (s'.reducers p)) : ReducersInv cfg s' L where
  partition q := by
    have hq := h.partition q
    rw [State.pairs, hemitted]
    exact ⟨by rw [hdata]; exact hq.begins, by rw [hnum]; exact hq.length, hq.sorted, hq.values,
      hq.perm⟩
  reducer q := by
    by_cases hqp : q = p
    · rw [hqp]
      exact hp
    · obtain ⟨hcount, hdelivered, hreducer⟩ := hothers q hqp
      rw [hcount, hdelivered, hreducer]
      exact h.reducer q

theorem reducersInv_reducer {s s' : State m r} {p : Fin r} {L : Nat → List map_data}
    (huntil : UntilNull cfg.reduce) (h : ReducersInv cfg s L)
    (hs : stepReducer cfg s p = some s') : ReducersInv cfg s' L := by
  have hpart := h.partition p
  have hred := h.reducer p
  have hset : ∀ (x : ReduceThread) q, q ≠ p → (s.setReducer p x).reducers q = s.reducers q :=
    fun x q hq => Function.update_of_ne hq ..
  have hself : ∀ x : ReduceThread, (s.setReducer p x).reducers p = x :=
    fun x => Function.update_self ..
  obtain ⟨_, ⟨hp, rfl⟩ | ⟨hp, rfl⟩ | ⟨key, answers, hp, hmore, rfl⟩ |
    ⟨key, answers, hp, hend, rfl⟩⟩ := stepReducer_cases hs
  · rw [hp] at hred
    refine h.update rfl rfl rfl (fun q hq => ⟨rfl, rfl, hset _ q hq⟩) ?_
    rw [hself, hpart.length, ← List.length_map (f := map_data.pair)]
    have htest := hred.of_test
    split at htest
    · rename_i hlt
      rw [if_pos hlt]
      exact htest
    · rename_i hlt
      rw [if_neg hlt]
      exact htest
  · rw [hp] at hred
    refine h.update rfl rfl rfl (fun q hq => ⟨rfl, rfl, hset _ q hq⟩) ?_
    rw [hself]
    obtain ⟨A, x, B, hxs, hc, _, _⟩ := id hred
    have hlt : s.globals.part_count p < (L p).length := by
      have hlen := congrArg List.length hxs
      simp only [List.length_map, List.length_append, List.length_cons] at hlen
      change s.globals.part_count p = A.length at hc
      omega
    have hget := List.getElem?_eq_getElem (l := (L p).map map_data.pair) (by simpa using hlt)
    rw [List.getElem_map] at hget
    have hcall := hred.of_call hget
    rw [hpart.begins.getElem hlt]
    exact hcall
  · rw [hp] at hred
    have hnone : none ∉ answers := (huntil key answers).mp hmore
    rcases get_next_spec hpart.begins hpart.length key with ⟨v, hv, hget⟩ | ⟨hnull, hget⟩
    · rw [hget]
      refine h.update rfl rfl rfl (fun q hq => ⟨?_, rfl, hset _ q hq⟩) ?_
      · exact Function.update_of_ne (Fin.val_ne_of_ne hq) ..
      · have hvalue := hred.of_value hnone hv
        simp only [Function.update_self]
        rw [hself]
        exact hvalue
    · rw [hget]
      refine h.update rfl rfl rfl (fun q hq => ⟨rfl, rfl, hset _ q hq⟩) ?_
      rw [hself]
      exact hred.of_null hnone hnull
  · rw [hp] at hred
    have hnone : none ∈ answers := by
      by_contra hc
      rw [(huntil key answers).mpr hc] at hend
      cases hend
    have hsorted : ((L p).map map_data.pair).Pairwise fun x y => x.1 ≤ y.1 :=
      List.pairwise_map.mpr hpart.sorted
    refine h.update rfl rfl rfl (fun q hq => ⟨rfl, Function.update_of_ne hq .., hset _ q hq⟩) ?_
    rw [hself]
    simp only [Function.update_self]
    exact hred.of_ended hnone hsorted

/-! ### The phases of `MR_Run` -/

def State.Joined (s : State m r) : Prop := ∀ t, (s.mappers t).pc = .returned

/-- No reducer thread has moved. -/
def State.Unreduced (s : State m r) : Prop :=
  (∀ p, s.reducers p = .test) ∧ ∀ p, s.delivered p = []

def PhaseInv (cfg : Config m r) (s : State m r) : Prop :=
  match s.main with
  | .checkArguments | .joinMappers => s.Unreduced
  | .allocate => s.Unreduced ∧ s.Joined
  | .partitionLoop i =>
    s.Unreduced ∧ s.Joined ∧ i ≤ s.pairs.length ∧ (∀ p, s.globals.part_count p = 0) ∧
      ∀ p, ∃ L, PartitionInv cfg (s.pairs.take i) p s.globals L
  | .joinReducers => s.Joined ∧ ∃ L, ReducersInv cfg s L
  | .returned => s.Joined ∧ (∀ p, s.reducers p = .returned) ∧ ∃ L, ReducersInv cfg s L
  | .exited _ => ¬ m ≤ cfg.num_mappers

structure RunInv (cfg : Config m r) (s : State m r) : Prop where
  emit : EmitInv cfg s
  phase : PhaseInv cfg s

theorem runInv_start (cfg : Config m r) {g : Globals} (hg : g.map_count = 0) :
    RunInv cfg (.start cfg g) :=
  ⟨emitInv_start cfg hg, fun _ => rfl, fun _ => rfl⟩

theorem runInv_mapper {s s' : State m r} {t : Fin m} (h : RunInv cfg s)
    (hs : stepMapper s t = some s') : RunInv cfg s' := by
  refine ⟨emitInv_mapper h.emit hs, ?_⟩
  have hphase := h.phase
  obtain ⟨hmain, hcases⟩ := stepMapper_cases hs
  simp only [PhaseInv, hmain] at hphase
  rcases hcases with ⟨_, _, rfl⟩ | ⟨_, _, _, rfl⟩ | ⟨_, _, _, _, _, rfl⟩ | ⟨_, _, _, _, rfl⟩ |
    ⟨_, rfl⟩
  all_goals
    simp only [PhaseInv, State.setMapper, hmain]
    exact hphase

theorem get_next_all_data (g : Globals) (key : CString) (p : Nat) :
    (get_next g key p).2.all_data = g.all_data ∧ (get_next g key p).2.map_count = g.map_count := by
  simp only [get_next]
  split <;> exact ⟨rfl, rfl⟩

/-- A reducer thread leaves everything of the mappers alone. -/
theorem stepReducer_keeps {s s' : State m r} {p : Fin r} (hs : stepReducer cfg s p = some s') :
    s'.main = .joinReducers ∧ s'.mutex = s.mutex ∧ s'.emitted = s.emitted ∧
      s'.mappers = s.mappers ∧ s'.globals.map_count = s.globals.map_count ∧
      s'.globals.all_data = s.globals.all_data := by
  obtain ⟨hmain, hcases⟩ := stepReducer_cases hs
  rcases hcases with ⟨_, rfl⟩ | ⟨_, rfl⟩ | ⟨key, _, _, _, rfl⟩ | ⟨_, _, _, _, rfl⟩
  · exact ⟨hmain, rfl, rfl, rfl, rfl, rfl⟩
  · exact ⟨hmain, rfl, rfl, rfl, rfl, rfl⟩
  · obtain ⟨hdata, hcount⟩ := get_next_all_data s.globals key p
    exact ⟨hmain, rfl, rfl, rfl, hcount, hdata⟩
  · exact ⟨hmain, rfl, rfl, rfl, rfl, rfl⟩

theorem runInv_reducer {s s' : State m r} {p : Fin r} (huntil : UntilNull cfg.reduce)
    (h : RunInv cfg s) (hs : stepReducer cfg s p = some s') : RunInv cfg s' := by
  have hphase := h.phase
  obtain ⟨hmain, _⟩ := stepReducer_cases hs
  simp only [PhaseInv, hmain] at hphase
  obtain ⟨hjoined, L, hL⟩ := hphase
  have hL' := reducersInv_reducer huntil hL hs
  obtain ⟨hmain', hmutex, hemitted, hmappers, hcount, hdata⟩ := stepReducer_keeps hs
  refine ⟨h.emit.congr hmutex hemitted hmappers hcount (by simp [hdata]) (by simp [hmain']), ?_⟩
  simp only [PhaseInv, hmain']
  refine ⟨?_, L, hL'⟩
  rw [State.Joined, hmappers]
  exact hjoined

/-- The loop has distributed the pairs up to the one it reads next. -/
theorem EmitInv.getElem?_pairs {s : State m r} (h : EmitInv cfg s) {i : Nat}
    (hi : i < s.globals.map_count) :
    s.pairs.take (i + 1) = s.pairs.take i ++ [(s.globals.all_data i).pair] := by
  have hlt : i < s.pairs.length := by
    rw [h.count] at hi
    simpa [State.pairs] using hi
  have hget := h.stored.getElem hlt
  rw [List.take_add_one, List.getElem?_eq_getElem hlt, ← hget]
  rfl

theorem runInv_main {s s' : State m r} (h : RunInv cfg s) (hs : stepMain cfg s = some s') :
    RunInv cfg s' := by
  have hphase := h.phase
  cases hmain : s.main <;> simp only [stepMain, hmain] at hs <;>
    simp only [PhaseInv, hmain] at hphase
  case checkArguments =>
    obtain ⟨hemitted, hlock⟩ := h.emit.unstarted hmain
    split at hs <;> cases hs
    · refine ⟨⟨?_, h.emit.count, ?_, fun hc => (by cases hc)⟩, hphase⟩
      · intro t
        have ht := h.emit.mapper t
        exact ⟨ht.lock, ht.order, fun hc => (by rw [hlock t] at hc; cases hc), ht.returned, ht.busy⟩
      · simp only [State.pairs, hemitted]
        exact begins_nil _
    · rename_i hmore
      exact ⟨h.emit.congr rfl rfl rfl rfl (fun _ => rfl) (by simp), hmore⟩
  case joinMappers =>
    split at hs <;> cases hs
    rename_i hjoined
    exact ⟨h.emit.congr rfl rfl rfl rfl (fun _ => rfl) (by simp), hphase, hjoined⟩
  case allocate =>
    cases hs
    refine ⟨h.emit.congr rfl rfl rfl rfl (fun _ => rfl) (by simp), hphase.1, hphase.2,
      Nat.zero_le _, fun _ => rfl, fun p => ⟨[], ?_⟩⟩
    rw [List.take_zero]
    exact partitionInv_nil cfg p rfl
  case partitionLoop i =>
    obtain ⟨hunreduced, hjoined, hi, hcount, hL⟩ := hphase
    split at hs <;> cases hs
    · rename_i hlt
      refine ⟨h.emit.congr rfl rfl rfl rfl (fun k => partitionEntry_pair ..) (by simp), hunreduced,
        hjoined, ?_, hcount, ?_⟩
      · rw [h.emit.count] at hlt
        change i + 1 ≤ s.pairs.length
        rw [State.pairs, List.length_map]
        exact hlt
      · intro p
        obtain ⟨L, hp⟩ := hL p
        have hnext := h.emit.getElem?_pairs hlt
        have hentry := partitionInv_entry (i := i) hp
        rw [← hnext] at hentry
        exact hentry
    · rename_i hge
      have hall : s.pairs.take i = s.pairs := by
        rw [h.emit.count] at hge
        apply List.take_of_length_le
        simpa [State.pairs] using hge
      choose L hL using hL
      rw [hall] at hL
      refine ⟨h.emit.congr rfl rfl rfl rfl (fun _ => rfl) (by simp), hjoined, L, hL, ?_⟩
      intro p
      change ReduceInv _ (s.globals.part_count p) (s.delivered p) (s.reducers p)
      rw [hcount, hunreduced.1, hunreduced.2]
      exact reduceInv_start _
  case joinReducers =>
    split at hs <;> cases hs
    rename_i hreturned
    obtain ⟨hjoined, L, hL⟩ := hphase
    exact ⟨h.emit.congr rfl rfl rfl rfl (fun _ => rfl) (by simp), hjoined, hreturned, L,
      hL.partition, hL.reducer⟩
  case returned | exited => cases hs

theorem Reachable.runInv {g : Globals} (hg : g.map_count = 0) (huntil : UntilNull cfg.reduce)
    {s : State m r} (hs : (system cfg g).Reachable s) : RunInv cfg s := by
  refine System.Reaches.invariant (runInv_start cfg hg) ?_ hs
  intro s a s' _ h _ hstep
  cases a with
  | main => exact runInv_main h hstep
  | mapper t => exact runInv_mapper h hstep
  | reducer p => exact runInv_reducer huntil h hstep

/-! ### Progress and termination -/

theorem EmitInv.mapper_enabled {s : State m r} (h : EmitInv cfg s) (hmain : s.main = .joinMappers)
    {t : Fin m} (hpc : (s.mappers t).pc ≠ .returned)
    (hlock : (s.mappers t).pc = .lock → s.mutex = none) : ∃ s', stepMapper s t = some s' := by
  have hbusy := (h.mapper t).busy
  rw [stepMapper, if_pos hmain]
  cases hcur : (s.mappers t).pc <;> cases htodo : (s.mappers t).todo
  case lock.cons => exact ⟨_, if_pos (hlock hcur)⟩
  case store.nil | count.nil => exact absurd htodo (hbusy (by rw [hcur]; rfl))
  case returned.nil | returned.cons => exact absurd hcur hpc
  all_goals exact ⟨_, rfl⟩

variable (cfg) in
theorem stepReducer_enabled {s : State m r} (hmain : s.main = .joinReducers) {p : Fin r}
    (hp : s.reducers p ≠ .returned) : ∃ s', stepReducer cfg s p = some s' := by
  rw [stepReducer, if_pos hmain]
  cases hcur : s.reducers p
  case test => exact ⟨_, (apply_ite some _ _ _).symm⟩
  case call => exact ⟨_, rfl⟩
  case running key answers =>
    cases hmore : cfg.reduce key answers
    · exact ⟨_, if_neg (by simp [hmore])⟩
    · exact ⟨_, if_pos hmore⟩
  case returned => exact absurd hcur hp

/-- No thread can move only when `MR_Run` has ended. -/
theorem RunInv.stuck {g : Globals} {s : State m r} (h : RunInv cfg s)
    (hstuck : (system cfg g).Stuck s) : s.main = .returned ∨ ¬ m ≤ cfg.num_mappers := by
  have hstepMain : stepMain cfg s = none := hstuck .main
  have hphase := h.phase
  cases hmain : s.main <;> simp only [stepMain, hmain] at hstepMain <;>
    simp only [PhaseInv, hmain] at hphase
  case checkArguments => split at hstepMain <;> cases hstepMain
  case joinMappers =>
    split at hstepMain
    · cases hstepMain
    · rename_i hrunning
      obtain ⟨t, ht⟩ := not_forall.mp hrunning
      obtain ⟨u, hu, hlock⟩ : ∃ u, (s.mappers u).pc ≠ .returned ∧
          ((s.mappers u).pc = .lock → s.mutex = none) := by
        cases hmutex : s.mutex with
        | none => exact ⟨t, ht, fun _ => rfl⟩
        | some u =>
          have hin := (h.emit.mapper u).lock.mp hmutex
          refine ⟨u, ?_, ?_⟩ <;> intro hc <;> rw [hc] at hin <;> cases hin
      obtain ⟨s', hs'⟩ := h.emit.mapper_enabled hmain hu hlock
      have hnone : stepMapper s u = none := hstuck (.mapper u)
      rw [hnone] at hs'; cases hs'
  case allocate => cases hstepMain
  case partitionLoop => split at hstepMain <;> cases hstepMain
  case joinReducers =>
    split at hstepMain
    · cases hstepMain
    · rename_i hrunning
      obtain ⟨p, hp⟩ := not_forall.mp hrunning
      obtain ⟨s', hs'⟩ := stepReducer_enabled cfg hmain hp
      have hnone : stepReducer cfg s p = none := hstuck (.reducer p)
      rw [hnone] at hs'; cases hs'
  case returned => exact Or.inl rfl
  case exited => exact Or.inr hphase

/-- The statements a mapper has still to execute. -/
def MapThread.work (x : MapThread) : Nat :=
  match x.pc with
  | .lock => 4 * x.todo.length + 1
  | .store => 4 * x.todo.length
  | .count => 4 * x.todo.length - 1
  | .unlock => 4 * x.todo.length - 2
  | .returned => 0

/-- A bound on the steps of a reducer thread with `rest` entries left; a call of
    `reduce` that has got a value has fewer entries left than before. -/
def ReduceThread.work (rest : Nat) : ReduceThread → Nat
  | .test => 5 * rest + 2
  | .call => 5 * rest + 1
  | .running _ answers =>
    if answers = [] then 5 * rest else if none ∈ answers then 5 * rest + 3 else 5 * rest + 4
  | .returned => 0

def MainPc.rank : MainPc → Nat
  | .checkArguments => 5
  | .joinMappers => 4
  | .allocate => 3
  | .partitionLoop _ => 2
  | .joinReducers => 1
  | .returned | .exited _ => 0

/-- The entries right of the cursor of partition `p`. -/
def Globals.rest (g : Globals) (p : Nat) : Nat := g.part_num p - g.part_count p

/-- The work left in the current phase. -/
def State.work (s : State m r) : Nat :=
  match s.main with
  | .joinMappers => ∑ t, (s.mappers t).work
  | .partitionLoop i => s.globals.map_count - i
  | .joinReducers => ∑ p : Fin r, (s.reducers p).work (s.globals.rest p)
  | _ => 0

def State.measure (s : State m r) : ℕ ×ₗ ℕ := toLex (s.main.rank, s.work)

theorem measure_lt_of_rank {s s' : State m r} (h : s'.main.rank < s.main.rank) :
    s'.measure < s.measure := Prod.Lex.toLex_lt_toLex.mpr (Or.inl h)

theorem measure_lt_of_work {s s' : State m r} (hmain : s'.main.rank = s.main.rank)
    (h : s'.work < s.work) : s'.measure < s.measure :=
  Prod.Lex.toLex_lt_toLex.mpr (Or.inr ⟨hmain, h⟩)

theorem measure_main {s s' : State m r} (hs : stepMain cfg s = some s') :
    s'.measure < s.measure := by
  cases hmain : s.main <;> simp only [stepMain, hmain] at hs
  case partitionLoop i =>
    split at hs <;> cases hs
    · rename_i hlt
      apply measure_lt_of_work (by rw [hmain]; rfl)
      simp only [State.work, hmain, partitionEntry]
      omega
    · exact measure_lt_of_rank (by rw [hmain]; exact Nat.one_lt_two)
  case returned | exited => cases hs
  case allocate =>
    cases hs
    exact measure_lt_of_rank (by rw [hmain]; exact Nat.lt_succ_self 2)
  all_goals
    split at hs <;> cases hs
    all_goals exact measure_lt_of_rank (by rw [hmain]; simp [MainPc.rank])

theorem measure_mapper {s s' : State m r} {t : Fin m} (h : EmitInv cfg s)
    (hs : stepMapper s t = some s') : s'.measure < s.measure := by
  obtain ⟨hmain, hcases⟩ := stepMapper_cases hs
  have hbusy := (h.mapper t).busy
  have hsum : s'.main = .joinMappers ∧ (s'.mappers t).work < (s.mappers t).work ∧
      ∀ u, u ≠ t → s'.mappers u = s.mappers u := by
    rcases hcases with ⟨hpc, htodo, rfl⟩ | ⟨hpc, hne, _, rfl⟩ |
      ⟨key, value, todo, hpc, htodo, rfl⟩ | ⟨pair, todo, hpc, htodo, rfl⟩ | ⟨hpc, rfl⟩
    all_goals
      refine ⟨hmain, ?_, fun u hu => Function.update_of_ne hu ..⟩
      simp only [State.setMapper, Function.update_self, MapThread.work, hpc]
    · omega
    · omega
    · simp only [htodo, List.length_cons]; omega
    · simp only [htodo, List.length_cons]; omega
    · have hpos := List.length_pos_iff.mpr (hbusy (by rw [hpc]; rfl))
      simp only [List.length_tail]
      omega
  obtain ⟨hmain', hlt, hothers⟩ := hsum
  apply measure_lt_of_work (by rw [hmain, hmain'])
  simp only [State.work, hmain, hmain']
  refine Finset.sum_lt_sum (fun u _ => ?_) ⟨t, Finset.mem_univ t, hlt⟩
  by_cases hut : u = t
  · rw [hut]; exact hlt.le
  · rw [hothers u hut]

theorem measure_reducer {s s' : State m r} {p : Fin r} (huntil : UntilNull cfg.reduce)
    (h : RunInv cfg s) (hs : stepReducer cfg s p = some s') : s'.measure < s.measure := by
  have hphase := h.phase
  obtain ⟨hmain, hcases⟩ := stepReducer_cases hs
  simp only [PhaseInv, hmain] at hphase
  obtain ⟨_, L, hL⟩ := hphase
  have hpart := hL.partition p
  have hred := hL.reducer p
  have hsum : s'.main = .joinReducers ∧
      (s'.reducers p).work (s'.globals.rest p) < (s.reducers p).work (s.globals.rest p) ∧
      ∀ q, q ≠ p → s'.reducers q = s.reducers q ∧ s'.globals.rest q = s.globals.rest q := by
    rcases hcases with ⟨hp, rfl⟩ | ⟨hp, rfl⟩ | ⟨key, answers, hp, hmore, rfl⟩ |
      ⟨key, answers, hp, hend, rfl⟩
    · refine ⟨hmain, ?_, fun q hq => ⟨Function.update_of_ne hq .., rfl⟩⟩
      simp only [State.setReducer, Function.update_self, hp]
      split <;> simp [ReduceThread.work]
    · refine ⟨hmain, ?_, fun q hq => ⟨Function.update_of_ne hq .., rfl⟩⟩
      simp [State.setReducer, ReduceThread.work, hp]
    · rw [hp] at hred
      have hnone : none ∉ answers := (huntil key answers).mp hmore
      rcases get_next_spec hpart.begins hpart.length key with ⟨v, hv, hget⟩ | ⟨hnull, hget⟩
      · rw [hget]
        have hlt := (List.getElem?_eq_some_iff.mp hv).1
        rw [List.length_map, ← hpart.length] at hlt
        refine ⟨hmain, ?_, fun q hq => ⟨Function.update_of_ne hq .., ?_⟩⟩
        · simp only [State.setReducer, Function.update_self, hp, ReduceThread.work, Globals.rest]
          have hsome : ¬ none ∈ answers ++ [some v] := by simpa using hnone
          rw [if_neg (by simp), if_neg hsome, if_neg hnone]
          split <;> omega
        · simp only [Globals.rest]
          rw [Function.update_of_ne (Fin.val_ne_of_ne hq)]
      · rw [hget]
        refine ⟨hmain, ?_, fun q hq => ⟨Function.update_of_ne hq .., rfl⟩⟩
        simp only [State.setReducer, Function.update_self, hp, ReduceThread.work]
        rw [if_neg (by simp), if_pos (by simp), if_neg (hred.ne_nil_of_null hnull), if_neg hnone]
        omega
    · have hnone : none ∈ answers := by
        by_contra hc
        rw [(huntil key answers).mpr hc] at hend
        cases hend
      refine ⟨hmain, ?_, fun q hq => ⟨Function.update_of_ne hq .., rfl⟩⟩
      simp only [State.setReducer, Function.update_self, hp, ReduceThread.work]
      rw [if_neg (List.ne_nil_of_mem hnone), if_pos hnone]
      exact Nat.lt_succ_self _
  obtain ⟨hmain', hlt, hothers⟩ := hsum
  apply measure_lt_of_work (by rw [hmain, hmain'])
  simp only [State.work, hmain, hmain']
  refine Finset.sum_lt_sum (fun q _ => ?_) ⟨p, Finset.mem_univ p, hlt⟩
  by_cases hqp : q = p
  · rw [hqp]; exact hlt.le
  · rw [(hothers q hqp).1, (hothers q hqp).2]

/-- Every run of `MR_Run` ends. -/
theorem system_terminates {g : Globals} (hg : g.map_count = 0) (huntil : UntilNull cfg.reduce) :
    (system cfg g).Terminates := by
  apply System.terminates_of_measure State.measure
  intro s a s' hs hstep
  have h := Reachable.runInv hg huntil hs
  cases a with
  | main => exact measure_main hstep
  | mapper t => exact measure_mapper h.emit hstep
  | reducer p => exact measure_reducer huntil h hstep

/-! ### The sizes of the arrays -/

/-- The slots the next stores go to exist. -/
structure InBounds (cfg : Config m r) (s : State m r) : Prop where
  all_data : ∀ t, (s.mappers t).pc = .store → s.globals.map_count < all_data_slots
  part_data : ∀ i, s.main = .partitionLoop i → i < s.globals.map_count →
    s.globals.part_num (cfg.partition (s.globals.all_data i).key r) < part_data_slots

/-- A log is made of the entries of the mappers. -/
theorem countP_eq_sum {β : Type*} (q : β → Bool) (log : List (Fin m × β)) :
    (log.map Prod.snd).countP q =
      ∑ t, ((log.filter fun e => e.1 = t).map Prod.snd).countP q := by
  induction log with
  | nil => simp
  | cons e log ih =>
    have hcons : ∀ t, (((e :: log).filter fun e => e.1 = t).map Prod.snd).countP q =
        ((log.filter fun e => e.1 = t).map Prod.snd).countP q +
          if e.1 = t then (if q e.2 then 1 else 0) else 0 := by
      intro t
      by_cases ht : e.1 = t
      · rw [if_pos ht, List.filter_cons_of_pos (by simpa using ht), List.map_cons, List.countP_cons]
      · rw [if_neg ht, List.filter_cons_of_neg (by simpa using ht), Nat.add_zero]
    simp only [hcons, Finset.sum_add_distrib, Finset.sum_ite_eq, Finset.mem_univ, if_true]
    rw [List.map_cons, List.countP_cons, ih]

/-- The pairs emitted and the pairs still to be emitted are the calls. -/
theorem EmitInv.countP_pairs {s : State m r} (h : EmitInv cfg s)
    (q : CString × CString → Bool) :
    s.pairs.countP q + ∑ t, (s.mappers t).left.countP q = ∑ t, (cfg.calls t).countP q := by
  rw [State.pairs, countP_eq_sum, ← Finset.sum_add_distrib]
  apply Finset.sum_congr rfl
  intro t _
  rw [← (h.mapper t).order, List.countP_append]

/-- A thread about to store has a pair that is not among those emitted. -/
theorem EmitInv.emitted_lt {s : State m r} (h : EmitInv cfg s) {t : Fin m}
    (hpc : (s.mappers t).pc = .store) : s.emitted.length < ∑ t, (cfg.calls t).length := by
  have hcount := h.countP_pairs fun _ => true
  simp only [List.countP_true] at hcount
  have hbusy := (h.mapper t).busy (by rw [hpc]; rfl)
  have hleft : 0 < (s.mappers t).left.length := by
    rw [MapThread.left, if_neg (by rw [hpc]; decide)]
    exact List.length_pos_iff.mpr hbusy
  have hsum := Finset.single_le_sum (f := fun t => (s.mappers t).left.length)
    (fun _ _ => Nat.zero_le _) (Finset.mem_univ t)
  rw [State.pairs, List.length_map] at hcount
  omega

theorem RunInv.inBounds {s : State m r} (h : RunInv cfg s)
    (hall : ∑ t, (cfg.calls t).length ≤ all_data_slots)
    (hper : ∀ p, ∑ t, (cfg.calls t).countP (fun x => cfg.partition x.1 r = p) ≤
      part_data_slots) : InBounds cfg s := by
  constructor
  · intro t hpc
    rw [h.emit.count]
    exact (h.emit.emitted_lt hpc).trans_le hall
  · intro i hmain hi
    have hphase := h.phase
    simp only [PhaseInv, hmain] at hphase
    obtain ⟨_, _, _, _, hL⟩ := hphase
    let p := cfg.partition (s.globals.all_data i).key r
    obtain ⟨L, hp⟩ := hL p
    have hlen := hp.perm.length_eq
    rw [List.length_map, ← List.countP_eq_length_filter] at hlen
    have hnext := congrArg (List.countP fun x => decide (cfg.partition x.1 r = p))
      (h.emit.getElem?_pairs hi)
    rw [List.countP_append] at hnext
    have hone : [(s.globals.all_data i).pair].countP
        (fun x => decide (cfg.partition x.1 r = p)) = 1 := by
      simp [p, map_data.pair]
    have hsub := (List.take_sublist (i + 1) s.pairs).countP_le
      (p := fun x => decide (cfg.partition x.1 r = p))
    have hcount := h.emit.countP_pairs fun x => decide (cfg.partition x.1 r = p)
    have hbound := hper p
    change s.globals.part_num p < part_data_slots
    rw [hp.length]
    omega

/-! ### The contract -/

/-- The groups of a partition whose reducer has read all of it. -/
theorem ReducersInv.groups {s : State m r} {L : Nat → List map_data} (h : ReducersInv cfg s L)
    {p : Fin r} (hp : s.reducers p = .returned) :
    ((s.delivered p).map Prod.fst).Pairwise (fun k l => strcmp k l < 0) ∧
    ∀ k vs, (k, vs) ∈ s.delivered p ↔
      (∃ v, (k, v) ∈ s.pairs) ∧ cfg.partition k r = p ∧ vs = valuesOf s.pairs k := by
  have hred := h.reducer p
  have hpart := h.partition p
  rw [hp] at hred
  obtain ⟨_, hgroups⟩ := hred
  refine ⟨hgroups.increasing.imp fun hlt => (strcmp_neg _ _).mpr hlt, ?_⟩
  intro k vs
  have hmem : ∀ v, (k, v) ∈ (L p).map map_data.pair ↔
      (k, v) ∈ s.pairs ∧ cfg.partition k r = p := by
    intro v
    rw [hpart.perm.mem_iff, List.mem_filter]
    simp
  have hvalues : cfg.partition k r = p →
      valuesOf ((L p).map map_data.pair) k = valuesOf s.pairs k := by
    intro hk
    have hfilter := hpart.values k
    rw [if_pos hk] at hfilter
    rw [valuesOf, valuesOf, ← hfilter, List.filter_map]
    rfl
  rw [hgroups.mem_iff]
  constructor
  · rintro ⟨⟨v, hv⟩, hvs⟩
    obtain ⟨hpair, hk⟩ := (hmem v).mp hv
    exact ⟨⟨v, hpair⟩, hk, by rw [hvs, hvalues hk]⟩
  · rintro ⟨⟨v, hv⟩, hk, hvs⟩
    exact ⟨⟨v, (hmem v).mpr ⟨hv, hk⟩⟩, by rw [hvs, hvalues hk]⟩

/-- **The contract of `MR_Run`.**  In a fresh process, under every interleaving, the
    call ends, stores within its arrays, and when it has returned every mapper has
    emitted its pairs in order and `reduce` has been called for each partition once for
    each of its keys, in increasing order, with exactly the values emitted with the key
    in the order of the critical sections. -/
theorem MR_Run_groups (cfg : Config m r) (junk : map_data) (huntil : UntilNull cfg.reduce)
    (hpartition : ∀ key, cfg.partition key r < r)
    (hall : ∑ t, (cfg.calls t).length ≤ all_data_slots)
    (hper : ∀ p, ∑ t, (cfg.calls t).countP (fun x => cfg.partition x.1 r = p) ≤
      part_data_slots) :
    (system cfg (.initial junk)).Terminates ∧
    ∀ s, (system cfg (.initial junk)).Reachable s →
      InBounds cfg s ∧
      ((system cfg (.initial junk)).Stuck s → s.main = .returned ∨ ¬ m ≤ cfg.num_mappers) ∧
      (s.main = .returned →
        (∀ t, (s.emitted.filter fun e => e.1 = t).map Prod.snd = cfg.calls t) ∧
        (∀ p : Fin r, ((s.delivered p).map Prod.fst).Pairwise (fun k l => strcmp k l < 0) ∧
          ∀ k vs, (k, vs) ∈ s.delivered p ↔
            (∃ v, (k, v) ∈ s.pairs) ∧ cfg.partition k r = p ∧ vs = valuesOf s.pairs k) ∧
        ∀ x ∈ s.pairs, ∃! p : Fin r, ∃ vs, (x.1, vs) ∈ s.delivered p) := by
  refine ⟨system_terminates rfl huntil, ?_⟩
  intro s hs
  have h := Reachable.runInv rfl huntil hs
  refine ⟨h.inBounds hall hper, h.stuck, ?_⟩
  intro hmain
  have hphase := h.phase
  simp only [PhaseInv, hmain] at hphase
  obtain ⟨hjoined, hreturned, L, hL⟩ := hphase
  have hgroups := fun p => hL.groups (hreturned p)
  refine ⟨?_, hgroups, ?_⟩
  · intro t
    have ht := h.emit.mapper t
    have horder := ht.order
    rw [MapThread.left, if_neg (by rw [hjoined t]; decide), ht.returned (hjoined t)] at horder
    rw [← horder, List.append_nil]
  · intro x hx
    refine ⟨⟨cfg.partition x.1 r, hpartition x.1⟩, ?_, ?_⟩
    · exact ⟨valuesOf s.pairs x.1, ((hgroups _).2 _ _).mpr ⟨⟨x.2, hx⟩, rfl, rfl⟩⟩
    · rintro q ⟨vs, hq⟩
      exact Fin.ext (((hgroups q).2 _ _).mp hq).2.1.symm

/-- Two mappers that emit (b, 1), (a, 2) and (a, 3), and two partitions. -/
def twoMappers : Config 2 2 where
  num_mappers := 2
  calls t := if t = 0 then [(⟨[98], by decide⟩, ⟨[49], by decide⟩),
    (⟨[97], by decide⟩, ⟨[50], by decide⟩)] else [(⟨[97], by decide⟩, ⟨[51], by decide⟩)]
  reduce _ answers := decide (none ∉ answers)
  partition key num_partitions := (key.bytes.headD 0).toNat % num_partitions
  all_junk _ := ⟨⟨[], by decide⟩, ⟨[], by decide⟩, 0⟩
  part_junk _ _ := ⟨⟨[], by decide⟩, ⟨[], by decide⟩, 0⟩

/-- Mapper 1 emits between the two calls of mapper 0. -/
def interleaved : List (Action 2 2) :=
  List.flatten [[.main], List.replicate 4 (.mapper 0), List.replicate 5 (.mapper 1),
    List.replicate 5 (.mapper 0), List.replicate 6 .main, List.replicate 7 (.reducer 1),
    List.replicate 6 (.reducer 0), [.main]]

theorem MR_Run_groups_interleaved :
    ∃ s, (system twoMappers (.initial (twoMappers.all_junk 0))).run
        (.start twoMappers (.initial (twoMappers.all_junk 0))) interleaved = some s ∧
      s.delivered 1 = [(⟨[97], by decide⟩, [⟨[51], by decide⟩, ⟨[50], by decide⟩])] ∧
      ∀ k vs, (k, vs) ∈ s.delivered 1 ↔ (∃ v, (k, v) ∈ s.pairs) ∧
        twoMappers.partition k 2 = 1 ∧ vs = valuesOf s.pairs k := by
  obtain ⟨s, hs⟩ := Option.isSome_iff_exists.mp
    (by decide +kernel : ((system twoMappers (.initial (twoMappers.all_junk 0))).run
      (.start twoMappers (.initial (twoMappers.all_junk 0))) interleaved).isSome)
  have hend : ((system twoMappers (.initial (twoMappers.all_junk 0))).run
      (.start twoMappers (.initial (twoMappers.all_junk 0))) interleaved).map
      (fun s => (s.main, s.delivered 1)) =
      some (.returned, [(⟨[97], by decide⟩, [⟨[51], by decide⟩, ⟨[50], by decide⟩])]) := by
    decide +kernel
  simp only [hs, Option.map_some, Option.some.injEq, Prod.mk.injEq] at hend
  obtain ⟨hmain, hdelivered⟩ := hend
  have hthree : ∑ t, (twoMappers.calls t).length ≤ 3 := by decide
  have h := (MR_Run_groups twoMappers (twoMappers.all_junk 0) (fun key answers => by
    simp [twoMappers]) (fun key => Nat.mod_lt _ Nat.two_pos)
    (hthree.trans (by rw [all_data_slots]; omega)) (fun p => ?_)).2 s (System.Reaches.run .start hs)
  · exact ⟨s, hs, hdelivered, ((h.2.2 hmain).2.1 1).2⟩
  · refine (Finset.sum_le_sum fun t _ => List.countP_le_length).trans (hthree.trans ?_)
    rw [part_data_slots]
    omega

end OstepProjects.MapReduce
