/-
  OstepProjects/MapReduce/RepeatedRuns.lean
  =========================================
  **Several calls of `MR_Run` in one process.**

  A call allocates its arrays anew, but `map_count` is set to 0 only when the process
  starts: a later call stores behind the slots that the earlier ones have used, and
  sorts those slots, which it has never written, into the partitions too.  So a call
  delivers what the first call of a process delivers iff no earlier call has emitted
  anything (`as_first_call_iff`).
-/
import Mathlib.Algebra.BigOperators.Fin
import OstepProjects.MapReduce.KeyGroups

namespace OstepProjects.MapReduce

open OstepProjects.CString OstepProjects.Transition

variable {m r : Nat} {cfg : Config m r}

/-! ### What the groups of a call add up to -/

/-- The values that finished calls of `reduce` have got. -/
def handed (delivered : List (CString × List CString)) : Nat :=
  (delivered.map fun d => d.2.length).sum

/-- The values that the call in progress has got. -/
def ReduceThread.inCall : ReduceThread → Nat
  | .running _ answers => answers.reduceOption.length
  | _ => 0

/-- One reducer thread and its cursor. -/
structure CursorInv (part_num part_count : Nat) (delivered : List (CString × List CString))
    (x : ReduceThread) : Prop where
  handed : handed delivered + x.inCall = part_count
  inside : part_count ≤ part_num
  returned : x = .returned → part_num ≤ part_count

/-- The partitions of the reducer threads hold `n` entries. -/
def Holding (s : State m r) (n : Nat) : Prop := ∑ p : Fin r, s.globals.part_num p = n

/-- A call that has found `map_count` to be `base`. -/
structure CountInv (base : Nat) (s : State m r) : Prop where
  count : s.globals.map_count = base + s.emitted.length
  phase : match s.main with
    | .checkArguments | .joinMappers | .allocate => s.Unreduced
    | .partitionLoop i => s.Unreduced ∧ i ≤ s.globals.map_count ∧ Holding s i ∧
        ∀ p, s.globals.part_count p = 0
    | .joinReducers => Holding s s.globals.map_count ∧ ∀ p : Fin r,
        CursorInv (s.globals.part_num p) (s.globals.part_count p) (s.delivered p) (s.reducers p)
    | .returned => Holding s s.globals.map_count ∧ ∀ p : Fin r, s.reducers p = .returned ∧
        CursorInv (s.globals.part_num p) (s.globals.part_count p) (s.delivered p) (s.reducers p)
    | .exited _ => True

theorem sum_update_succ (f : Nat → Nat) {i : Nat} (h : i < r) :
    ∑ p : Fin r, Function.update f i (f i + 1) p = ∑ p : Fin r, f p + 1 := by
  have hsplit : ∀ p : Fin r, Function.update f i (f i + 1) p =
      f p + if p = ⟨i, h⟩ then 1 else 0 := by
    intro p
    by_cases hp : p = ⟨i, h⟩
    · rw [if_pos hp, hp, Function.update_self]
    · rw [if_neg hp, Function.update_of_ne fun heq => hp (Fin.ext heq), Nat.add_zero]
  simp only [hsplit, Finset.sum_add_distrib, Finset.sum_ite_eq', Finset.mem_univ, if_true]

section Count

variable {base : Nat} {s s' : State m r}

theorem countInv_main (hpartition : ∀ key, cfg.partition key r < r) (h : CountInv base s)
    (hs : stepMain cfg s = some s') : CountInv base s' := by
  obtain ⟨hcount, hphase⟩ := h
  cases hmain : s.main <;> simp only [stepMain, hmain] at hs <;> simp only [hmain] at hphase
  case checkArguments =>
    split at hs <;> cases hs
    · exact ⟨hcount, hphase⟩
    · exact ⟨hcount, trivial⟩
  case joinMappers =>
    split at hs <;> cases hs
    exact ⟨hcount, hphase⟩
  case allocate =>
    cases hs
    refine ⟨hcount, hphase, Nat.zero_le _, ?_, fun _ => rfl⟩
    simp [Holding]
  case partitionLoop i =>
    obtain ⟨hunreduced, hi, hholding, hzero⟩ := hphase
    split at hs <;> cases hs
    · rename_i hlt
      refine ⟨hcount, hunreduced, hlt, ?_, hzero⟩
      simp only [Holding, partitionEntry]
      rw [sum_update_succ _ (hpartition _)]
      exact congrArg (· + 1) hholding
    · rename_i hge
      have hall : i = s.globals.map_count := le_antisymm hi (Nat.le_of_not_lt hge)
      refine ⟨hcount, ?_, ?_⟩
      · rw [hall] at hholding
        exact hholding
      · intro p
        change CursorInv (s.globals.part_num p) (s.globals.part_count p) (s.delivered p)
          (s.reducers p)
        rw [hzero, hunreduced.1, hunreduced.2]
        exact ⟨rfl, Nat.zero_le _, fun hc => by cases hc⟩
  case joinReducers =>
    split at hs <;> cases hs
    rename_i hreturned
    exact ⟨hcount, hphase.1, fun p => ⟨hreturned p, hphase.2 p⟩⟩
  case returned | exited => cases hs

theorem countInv_mapper {t : Fin m} (h : CountInv base s) (hs : stepMapper s t = some s') :
    CountInv base s' := by
  obtain ⟨hcount, hphase⟩ := h
  obtain ⟨hmain, hcases⟩ := stepMapper_cases hs
  simp only [hmain] at hphase
  have hsame : s'.main = .joinMappers ∧ s'.reducers = s.reducers ∧ s'.delivered = s.delivered ∧
      s'.globals.map_count = base + s'.emitted.length := by
    rcases hcases with ⟨_, _, rfl⟩ | ⟨_, _, _, rfl⟩ | ⟨_, _, _, _, _, rfl⟩ | ⟨_, _, _, _, rfl⟩ |
      ⟨_, rfl⟩
    case inr.inr.inr.inl =>
      refine ⟨hmain, rfl, rfl, ?_⟩
      simp only [List.length_append, List.length_singleton]
      rw [hcount, Nat.add_assoc]
    all_goals exact ⟨hmain, rfl, rfl, hcount⟩
  obtain ⟨hmain', hreducers, hdelivered, hcount'⟩ := hsame
  refine ⟨hcount', ?_⟩
  simp only [hmain', State.Unreduced, hreducers, hdelivered]
  exact hphase

/-- One call of `get_next` hands out the entry it passes. -/
theorem get_next_counts (g : Globals) (key : CString) (p : Nat) :
    (∃ v, (get_next g key p).1 = some v ∧ g.part_count p < g.part_num p ∧
      (get_next g key p).2 =
        { g with part_count := Function.update g.part_count p (g.part_count p + 1) }) ∨
    ((get_next g key p).1 = none ∧ (get_next g key p).2 = g) := by
  simp only [get_next]
  split
  · rename_i hfound
    exact Or.inl ⟨_, rfl, hfound.1, rfl⟩
  · exact Or.inr ⟨rfl, rfl⟩

theorem handed_append (delivered : List (CString × List CString)) (d : CString × List CString) :
    handed (delivered ++ [d]) = handed delivered + d.2.length := by
  simp [handed]

theorem cursorInv_reducer {p : Fin r} (hs : stepReducer cfg s p = some s')
    (h : CursorInv (s.globals.part_num p) (s.globals.part_count p) (s.delivered p) (s.reducers p)) :
    CursorInv (s'.globals.part_num p) (s'.globals.part_count p) (s'.delivered p)
      (s'.reducers p) := by
  obtain ⟨hhanded, hinside, _⟩ := h
  have hself : ∀ x : ReduceThread, (s.setReducer p x).reducers p = x :=
    fun x => Function.update_self ..
  obtain ⟨_, ⟨hp, rfl⟩ | ⟨hp, rfl⟩ | ⟨key, answers, hp, hmore, rfl⟩ |
    ⟨key, answers, hp, hend, rfl⟩⟩ := stepReducer_cases hs
  · rw [hself]
    rw [hp] at hhanded
    by_cases hlt : s.globals.part_count p < s.globals.part_num p
    · rw [if_pos hlt]
      exact ⟨hhanded, hinside, fun hc => by cases hc⟩
    · rw [if_neg hlt]
      exact ⟨hhanded, hinside, fun _ => Nat.le_of_not_lt hlt⟩
  · rw [hself]
    rw [hp] at hhanded
    exact ⟨hhanded, hinside, fun hc => by cases hc⟩
  · rw [hp] at hhanded
    rcases get_next_counts s.globals key p with ⟨v, hv, hlt, hg⟩ | ⟨hnull, hg⟩
    · rw [hg, hv]
      refine ⟨?_, ?_, ?_⟩
      · simp only [Function.update_self]
        rw [hself, ← hhanded]
        simp [State.setReducer, ReduceThread.inCall, List.reduceOption_append, Nat.add_assoc]
      · simp only [Function.update_self]
        exact hlt
      · intro hc
        change (s.setReducer p _).reducers p = _ at hc
        rw [hself] at hc
        cases hc
    · rw [hg, hnull]
      refine ⟨?_, hinside, ?_⟩
      · change handed (s.delivered p) + ReduceThread.inCall ((s.setReducer p _).reducers p) = _
        rw [hself, ← hhanded]
        simp [ReduceThread.inCall, List.reduceOption_append]
      · intro hc
        change (s.setReducer p _).reducers p = _ at hc
        rw [hself] at hc
        cases hc
  · rw [hp] at hhanded
    refine ⟨?_, hinside, ?_⟩
    · change handed (Function.update s.delivered p _ p) +
        ReduceThread.inCall ((s.setReducer p _).reducers p) = _
      rw [hself, Function.update_self, handed_append]
      exact hhanded
    · intro hc
      change (s.setReducer p _).reducers p = _ at hc
      rw [hself] at hc
      cases hc

/-- A reducer leaves the other partitions alone. -/
theorem stepReducer_others {p q : Fin r} (hs : stepReducer cfg s p = some s') (hq : q ≠ p) :
    s'.globals.part_count q = s.globals.part_count q ∧ s'.delivered q = s.delivered q ∧
      s'.reducers q = s.reducers q := by
  obtain ⟨_, ⟨_, rfl⟩ | ⟨_, rfl⟩ | ⟨key, _, _, _, rfl⟩ | ⟨_, _, _, _, rfl⟩⟩ :=
    stepReducer_cases hs
  · exact ⟨rfl, rfl, Function.update_of_ne hq ..⟩
  · exact ⟨rfl, rfl, Function.update_of_ne hq ..⟩
  · refine ⟨?_, rfl, Function.update_of_ne hq ..⟩
    rcases get_next_counts s.globals key p with ⟨v, _, _, hg⟩ | ⟨_, hg⟩
    · rw [hg]
      exact Function.update_of_ne (Fin.val_ne_of_ne hq) ..
    · rw [hg]
  · exact ⟨rfl, Function.update_of_ne hq .., Function.update_of_ne hq ..⟩

theorem countInv_reducer {p : Fin r} (h : CountInv base s) (hs : stepReducer cfg s p = some s') :
    CountInv base s' := by
  obtain ⟨hcount, hphase⟩ := h
  obtain ⟨hmain, hcases⟩ := stepReducer_cases hs
  simp only [hmain] at hphase
  have hkeep : s'.main = .joinReducers ∧ s'.emitted = s.emitted ∧
      s'.globals.map_count = s.globals.map_count ∧ s'.globals.part_num = s.globals.part_num := by
    rcases hcases with ⟨_, rfl⟩ | ⟨_, rfl⟩ | ⟨key, _, _, _, rfl⟩ | ⟨_, _, _, _, rfl⟩
    case inr.inr.inl =>
      rcases get_next_counts s.globals key p with ⟨v, _, _, hg⟩ | ⟨_, hg⟩
      · exact ⟨hmain, rfl, by rw [hg], by rw [hg]⟩
      · exact ⟨hmain, rfl, by rw [hg], by rw [hg]⟩
    all_goals exact ⟨hmain, rfl, rfl, rfl⟩
  obtain ⟨hmain', hemitted, hmap, hnum⟩ := hkeep
  refine ⟨by rw [hmap, hemitted, hcount], ?_⟩
  simp only [hmain', Holding, hmap, hnum]
  refine ⟨hphase.1, ?_⟩
  intro q
  by_cases hq : q = p
  · rw [hq, ← hnum]
    exact cursorInv_reducer hs (hphase.2 p)
  · obtain ⟨hcursor, hdelivered, hreducer⟩ := stepReducer_others hs hq
    rw [hcursor, hdelivered, hreducer]
    exact hphase.2 q

theorem countInv_start (cfg : Config m r) (g : Globals) :
    CountInv g.map_count (State.start cfg g) :=
  ⟨rfl, fun _ => rfl, fun _ => rfl⟩

theorem Reachable.countInv {g : Globals} (hpartition : ∀ key, cfg.partition key r < r)
    {s : State m r} (hs : (system cfg g).Reachable s) : CountInv g.map_count s := by
  refine System.Reaches.invariant (P := CountInv g.map_count) (countInv_start cfg g) ?_ hs
  intro s a s' _ h _ hstep
  cases a with
  | main => exact countInv_main hpartition h hstep
  | mapper t => exact countInv_mapper h hstep
  | reducer p => exact countInv_reducer h hstep

/-- **The values delivered by a call** that has returned are as many as the slots up to
    `map_count`, those in front of its own pairs included. -/
theorem Reachable.sum_handed {g : Globals} (hpartition : ∀ key, cfg.partition key r < r)
    {s : State m r} (hs : (system cfg g).Reachable s) (hmain : s.main = .returned) :
    ∑ p, handed (s.delivered p) = g.map_count + s.emitted.length := by
  obtain ⟨hcount, hphase⟩ := Reachable.countInv hpartition hs
  simp only [hmain] at hphase
  obtain ⟨hholding, hreducers⟩ := hphase
  rw [← hcount, ← hholding]
  apply Finset.sum_congr rfl
  intro p _
  obtain ⟨hreturned, hcursor⟩ := hreducers p
  have hhanded := hcursor.handed
  rw [hreturned] at hhanded
  exact hhanded.trans (le_antisymm hcursor.inside (hcursor.returned hreturned))

end Count

/-! ### Two calls that find the same `map_count` -/

/-- The globals that a call has not written yet may differ. -/
def Agree : MainPc → Globals → Globals → Prop
  | .checkArguments, g, g' | .exited _, g, g' => g.map_count = g'.map_count
  | .joinMappers, g, g' | .allocate, g, g' =>
    g.map_count = g'.map_count ∧ g.all_data = g'.all_data
  | .partitionLoop _, g, g' | .joinReducers, g, g' | .returned, g, g' => g = g'

section Simulation

variable {s s' : State m r} {g : Globals}

theorem stepMain_agree (h : Agree s.main s.globals g) (hs : stepMain cfg s = some s') :
    ∃ g', stepMain cfg { s with globals := g } = some { s' with globals := g' } ∧
      Agree s'.main s'.globals g' := by
  cases hmain : s.main <;> simp only [stepMain, hmain] at hs ⊢ <;> rw [hmain] at h
  case checkArguments =>
    split at hs <;> cases hs
    · rename_i hm
      rw [if_pos hm]
      exact ⟨{ g with all_data := cfg.all_junk }, rfl, h, rfl⟩
    · rename_i hm
      rw [if_neg hm]
      exact ⟨g, rfl, h⟩
  case joinMappers =>
    split at hs <;> cases hs
    rename_i hreturned
    rw [if_pos hreturned]
    exact ⟨g, rfl, h⟩
  case allocate =>
    cases hs
    obtain ⟨hcount, hdata⟩ := h
    refine ⟨_, rfl, ?_⟩
    simp only [Agree, hcount, hdata]
  case partitionLoop i =>
    have hg : s.globals = g := h
    subst hg
    split at hs <;> cases hs
    · rename_i hlt
      exact ⟨_, if_pos hlt, rfl⟩
    · rename_i hge
      exact ⟨_, if_neg hge, rfl⟩
  case joinReducers =>
    have hg : s.globals = g := h
    subst hg
    split at hs <;> cases hs
    rename_i hreturned
    rw [if_pos hreturned]
    exact ⟨_, rfl, rfl⟩
  case returned | exited => cases hs

theorem stepMapper_agree {t : Fin m} (h : Agree s.main s.globals g)
    (hs : stepMapper s t = some s') :
    ∃ g', stepMapper { s with globals := g } t = some { s' with globals := g' } ∧
      Agree s'.main s'.globals g' := by
  obtain ⟨hmain, hcases⟩ := stepMapper_cases hs
  rw [hmain] at h
  obtain ⟨hcount, hdata⟩ := h
  rcases hcases with ⟨hpc, htodo, rfl⟩ | ⟨hpc, htodo, hfree, rfl⟩ |
    ⟨key, value, todo, hpc, htodo, rfl⟩ | ⟨pair, todo, hpc, htodo, rfl⟩ | ⟨hpc, rfl⟩
  · refine ⟨g, ?_, ?_⟩
    · simp [stepMapper, State.setMapper, hmain, hpc, htodo]
    · simp only [State.setMapper, hmain]
      exact ⟨hcount, hdata⟩
  · refine ⟨g, ?_, ?_⟩
    · obtain ⟨pair, todo, hcons⟩ := List.exists_cons_of_ne_nil htodo
      simp [stepMapper, State.setMapper, hmain, hpc, hcons, hfree]
    · simp only [State.setMapper, hmain]
      exact ⟨hcount, hdata⟩
  · refine ⟨emitStore g key value, ?_, ?_⟩
    · simp [stepMapper, State.setMapper, hmain, hpc, htodo]
    · simp only [State.setMapper, hmain, emitStore]
      exact ⟨hcount, by rw [hcount, hdata]⟩
  · refine ⟨{ g with map_count := g.map_count + 1 }, ?_, ?_⟩
    · simp [stepMapper, State.setMapper, hmain, hpc, htodo]
    · simp only [State.setMapper, hmain]
      exact ⟨by rw [hcount], hdata⟩
  · refine ⟨g, ?_, ?_⟩
    · cases htodo : (s.mappers t).todo <;>
        simp [stepMapper, State.setMapper, hmain, hpc, htodo]
    · simp only [State.setMapper, hmain]
      exact ⟨hcount, hdata⟩

theorem stepReducer_agree {p : Fin r} (h : Agree s.main s.globals g)
    (hs : stepReducer cfg s p = some s') :
    ∃ g', stepReducer cfg { s with globals := g } p = some { s' with globals := g' } ∧
      Agree s'.main s'.globals g' := by
  obtain ⟨hmain, hcases⟩ := stepReducer_cases hs
  have hmain' : s'.main = .joinReducers := by
    rcases hcases with ⟨_, rfl⟩ | ⟨_, rfl⟩ | ⟨_, _, _, _, rfl⟩ | ⟨_, _, _, _, rfl⟩ <;> exact hmain
  rw [hmain] at h
  have hg : s.globals = g := h
  subst hg
  refine ⟨s'.globals, hs, ?_⟩
  rw [hmain']
  rfl

/-- Two calls that find the same `map_count` can take the same steps. -/
theorem Reachable.agree {g₁ g₂ : Globals} (hcount : g₁.map_count = g₂.map_count)
    (hs : (system cfg g₁).Reachable s) :
    ∃ g, (system cfg g₂).Reachable { s with globals := g } ∧ Agree s.main s.globals g := by
  have hstart : Agree (State.start cfg g₁).main (State.start cfg g₁).globals g₂ := hcount
  refine System.Reaches.invariant (P := fun s => ∃ g, (system cfg g₂).Reachable
    { s with globals := g } ∧ Agree s.main s.globals g) ⟨g₂, .start, hstart⟩ ?_ hs
  rintro s a s' _ ⟨g, hreach, hagree⟩ _ hstep
  cases a with
  | main =>
    obtain ⟨g', hstep', hagree'⟩ := stepMain_agree hagree hstep
    exact ⟨g', .step (a := .main) hreach trivial hstep', hagree'⟩
  | mapper t =>
    obtain ⟨g', hstep', hagree'⟩ := stepMapper_agree hagree hstep
    exact ⟨g', .step (a := .mapper t) hreach trivial hstep', hagree'⟩
  | reducer p =>
    obtain ⟨g', hstep', hagree'⟩ := stepReducer_agree hagree hstep
    exact ⟨g', .step (a := .reducer p) hreach trivial hstep', hagree'⟩

end Simulation

/-! ### The calls of a process -/

/-- A process that has completed calls with these emitted pairs has the globals `g`.  The
    calls can have any files, mappers, reducers and partition functions. -/
inductive Completed (junk : map_data) : List (List (CString × CString)) → Globals → Prop
  | fresh : Completed junk [] (.initial junk)
  | call {earlier : List (List (CString × CString))} {g : Globals} {m r : Nat} (cfg : Config m r)
      {s : State m r} : Completed junk earlier g → (∀ key, cfg.partition key r < r) →
        (system cfg g).Reachable s → s.main = .returned →
          Completed junk (earlier ++ [s.pairs]) s.globals

theorem Completed.map_count {junk : map_data} {earlier : List (List (CString × CString))}
    {g : Globals} (h : Completed junk earlier g) :
    g.map_count = (earlier.map List.length).sum := by
  induction h with
  | fresh => rfl
  | @call earlier g m r cfg s _ hpartition hs hmain ih =>
    rw [(Reachable.countInv hpartition hs).count, ih]
    simp [State.pairs]

/-- The call could have been the first of its process. -/
def AsFirstCall (cfg : Config m r) (junk : map_data) (s : State m r) : Prop :=
  ∃ s', (system cfg (.initial junk)).Reachable s' ∧ s'.main = .returned ∧
    s'.emitted = s.emitted ∧ s'.delivered = s.delivered

/-- **`MR_Run` after other calls.**  A completed call delivers the groups of a first call
    that emits the same pairs iff no earlier call of the process has emitted a pair; they
    are then the groups of its pairs, when the reducers read until `NULL`. -/
theorem as_first_call_iff (junk : map_data) {earlier : List (List (CString × CString))}
    {g : Globals} (hcompleted : Completed junk earlier g) (cfg : Config m r)
    (hpartition : ∀ key, cfg.partition key r < r) {s : State m r}
    (hs : (system cfg g).Reachable s) (hmain : s.main = .returned) :
    (AsFirstCall cfg junk s ↔ ∀ pairs ∈ earlier, pairs = []) ∧
    ((∀ pairs ∈ earlier, pairs = []) → UntilNull cfg.reduce →
      ∀ p : Fin r, s.delivered p = groupsOf cfg s.pairs p) := by
  have hempty : g.map_count = 0 ↔ ∀ pairs ∈ earlier, pairs = [] := by
    rw [hcompleted.map_count, List.sum_eq_zero_iff]
    simp
  refine ⟨⟨?_, ?_⟩, ?_⟩
  · rintro ⟨s', hs', hmain', hemitted, hdelivered⟩
    have hfirst := Reachable.sum_handed hpartition hs' hmain'
    have hthis := Reachable.sum_handed hpartition hs hmain
    rw [hemitted, hdelivered, hthis] at hfirst
    apply hempty.mp
    exact Nat.add_right_cancel hfirst
  · intro hnone
    have hcount : g.map_count = (Globals.initial junk).map_count := hempty.mpr hnone
    obtain ⟨g', hreach, _⟩ := Reachable.agree hcount hs
    exact ⟨_, hreach, hmain, rfl, rfl⟩
  · intro hnone huntil p
    have hphase := (Reachable.runInv (hempty.mpr hnone) huntil hs).phase
    simp only [PhaseInv, hmain] at hphase
    obtain ⟨_, hreturned, L, hL⟩ := hphase
    exact hL.delivered_eq (hreturned p)

/-- An entry with the empty key and the empty value. -/
def emptyData : map_data := ⟨toCString [], toCString [], 0⟩

/-- One mapper that emits the given pairs, and one partition. -/
def emits (pairs : List (CString × CString)) : Config 1 1 where
  num_mappers := 1
  calls _ := pairs
  reduce _ answers := answers.all Option.isSome
  partition _ _ := 0
  all_junk _ := emptyData
  part_junk _ _ := emptyData

def aOne : CString × CString := (toCString [97], toCString [49])

/-- A call with so many steps of the mapper, of the loop and of the reducer. -/
def oneCall (mapper loop reducer : Nat) : List (Action 1 1) :=
  List.flatten [[.main], List.replicate mapper (.mapper ⟨0, Nat.one_pos⟩),
    List.replicate (loop + 3) .main, List.replicate reducer (.reducer ⟨0, Nat.one_pos⟩), [.main]]

def freshGlobals : Globals := .initial emptyData

/-- The state after a call of each configuration in turn. -/
def twoCalls (cfg₁ cfg₂ : Config 1 1) (as₁ as₂ : List (Action 1 1)) :
    Option (State 1 1 × State 1 1) :=
  ((system cfg₁ freshGlobals).run (.start cfg₁ freshGlobals) as₁).bind fun s₁ =>
    ((system cfg₂ s₁.globals).run (.start cfg₂ s₁.globals) as₂).map fun s₂ => (s₁, s₂)

theorem twoCalls_completed {cfg₁ cfg₂ : Config 1 1} {as₁ as₂ : List (Action 1 1)}
    {s₁ s₂ : State 1 1} (hpartition : ∀ key, cfg₁.partition key 1 < 1)
    (h : twoCalls cfg₁ cfg₂ as₁ as₂ = some (s₁, s₂)) (hmain : s₁.main = .returned) :
    Completed emptyData [s₁.pairs] s₁.globals ∧
      (system cfg₂ s₁.globals).Reachable s₂ := by
  obtain ⟨t₁, ht₁, hrest⟩ := Option.bind_eq_some_iff.mp h
  obtain ⟨t₂, ht₂, heq⟩ := Option.map_eq_some_iff.mp hrest
  obtain ⟨rfl, rfl⟩ := Prod.mk.inj heq
  exact ⟨.call cfg₁ .fresh hpartition (System.Reaches.run .start ht₁) hmain,
    System.Reaches.run .start ht₂⟩

/-- A call that follows one without pairs is like a first call. -/
theorem as_first_call_iff_none : ∃ (g : Globals) (s : State 1 1),
    Completed emptyData [[]] g ∧
    (system (emits [aOne]) g).Reachable s ∧ s.delivered 0 = [(aOne.1, [aOne.2])] ∧
    AsFirstCall (emits [aOne]) emptyData s := by
  have hend : (twoCalls (emits []) (emits [aOne]) (oneCall 1 0 1) (oneCall 5 1 6)).map (fun s =>
      (s.1.main, s.1.pairs, s.2.main)) = some (.returned, [], .returned) := by decide +kernel
  have hgroups : (twoCalls (emits []) (emits [aOne]) (oneCall 1 0 1) (oneCall 5 1 6)).map (fun s =>
      s.2.delivered 0) = some [(aOne.1, [aOne.2])] := by decide +kernel
  obtain ⟨⟨s₁, s₂⟩, hs, heq⟩ := Option.map_eq_some_iff.mp hend
  simp only [Prod.mk.injEq] at heq
  obtain ⟨hmain₁, hpairs, hmain₂⟩ := heq
  rw [hs] at hgroups
  have hdelivered : s₂.delivered 0 = [(aOne.1, [aOne.2])] := Option.some.inj hgroups
  obtain ⟨hcompleted, hreach⟩ := twoCalls_completed (fun _ => Nat.one_pos) hs hmain₁
  rw [hpairs] at hcompleted
  refine ⟨s₁.globals, s₂, hcompleted, hreach, hdelivered, ?_⟩
  exact (as_first_call_iff _ hcompleted (emits [aOne]) (fun _ => Nat.one_pos) hreach
    hmain₂).1.mpr (by simp)

/-- **The second of two calls that emit ("a", "1") delivers a slot it never wrote.** -/
theorem second_call_reads_junk : ∃ (g : Globals) (s : State 1 1),
    Completed emptyData [[aOne]] g ∧
    (system (emits [aOne]) g).Reachable s ∧ s.main = .returned ∧ s.pairs = [aOne] ∧
    s.delivered 0 = [(emptyData.key, [emptyData.value]), (aOne.1, [aOne.2])] ∧
    ¬ AsFirstCall (emits [aOne]) emptyData s := by
  have hend : (twoCalls (emits [aOne]) (emits [aOne]) (oneCall 5 1 6) (oneCall 5 2 11)).map
      (fun s => (s.1.main, s.1.pairs, s.2.main, s.2.pairs)) =
      some (.returned, [aOne], .returned, [aOne]) := by decide +kernel
  have hgroups : (twoCalls (emits [aOne]) (emits [aOne]) (oneCall 5 1 6) (oneCall 5 2 11)).map
      (fun s => s.2.delivered 0) =
      some [(emptyData.key, [emptyData.value]), (aOne.1, [aOne.2])] := by decide +kernel
  obtain ⟨⟨s₁, s₂⟩, hs, heq⟩ := Option.map_eq_some_iff.mp hend
  simp only [Prod.mk.injEq] at heq
  obtain ⟨hmain₁, hpairs₁, hmain₂, hpairs₂⟩ := heq
  rw [hs] at hgroups
  have hdelivered : s₂.delivered 0 =
      [(emptyData.key, [emptyData.value]), (aOne.1, [aOne.2])] := Option.some.inj hgroups
  obtain ⟨hcompleted, hreach⟩ := twoCalls_completed (fun _ => Nat.one_pos) hs hmain₁
  rw [hpairs₁] at hcompleted
  refine ⟨s₁.globals, s₂, hcompleted, hreach, hmain₂, hpairs₂, hdelivered, ?_⟩
  rintro ⟨s', hs', hmain', hemitted, hsame⟩
  have hfirst := Reachable.sum_handed (fun _ => Nat.one_pos) hs' hmain'
  have hone : s'.emitted.length = 1 := by
    rw [hemitted, ← List.length_map (f := Prod.snd)]
    exact congrArg List.length hpairs₂
  rw [hsame, hone] at hfirst
  have htwo : handed (s₂.delivered 0) = 2 := by
    rw [hdelivered]
    rfl
  simp only [Finset.univ_unique, Finset.sum_singleton] at hfirst
  change handed (s₂.delivered 0) = 0 + 1 at hfirst
  omega

end OstepProjects.MapReduce
