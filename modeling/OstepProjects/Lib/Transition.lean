/-
  OstepProjects/Lib/Transition.lean
  =================================
  **Transition systems given by a partial step function.**

  A `System` has a start state and a step function: `step s a = none` when the
  action `a` cannot be taken in `s`.  A set of threads that interleave is one such
  system, an action naming the thread that moves and every choice that the
  scheduler or the library makes for it, so a statement about all reachable states
  is a statement about all interleavings.

  `Reaches ok` is reachability by steps that all satisfy `ok`; `Reachable` puts no
  condition on the steps.  The induction over runs is done once, in
  `Reaches.invariant`; `run` executes a schedule, `terminates_of_measure` rules out
  infinite runs of a system whose steps decrease a measure, `Reaches.simulates` carries
  reachability over to a more abstract system, and `logging` adds a log of what the
  steps put out.
-/
import Mathlib.Data.List.Basic
import Mathlib.Order.OrderIsoNat

namespace OstepProjects.Transition

structure System (S A : Type*) where
  start : S
  step : S → A → Option S

variable {S A : Type*}

/-- `s` is reached from the start by steps that all satisfy `ok`. -/
inductive System.Reaches (T : System S A) (ok : S → A → Prop) : S → Prop
  | start : System.Reaches T ok T.start
  | step {s s' : S} {a : A} :
      System.Reaches T ok s → ok s a → T.step s a = some s' → System.Reaches T ok s'

abbrev System.Reachable (T : System S A) : S → Prop := T.Reaches fun _ _ => True

/-- No action can be taken. -/
def System.Stuck (T : System S A) (s : S) : Prop := ∀ a, T.step s a = none

variable {T : System S A}

theorem System.Reaches.mono {ok ok' : S → A → Prop} (h : ∀ s a, ok s a → ok' s a) {s : S}
    (hs : T.Reaches ok s) : T.Reaches ok' s := by
  induction hs with
  | start => exact .start
  | step _ hok hstep ih => exact .step ih (h _ _ hok) hstep

theorem System.Reaches.reachable {ok : S → A → Prop} {s : S} (hs : T.Reaches ok s) :
    T.Reachable s :=
  hs.mono fun _ _ _ => trivial

/-- **The invariant rule.**  What holds at the start and is kept by every permitted
    step of a reached state holds in every reached state. -/
theorem System.Reaches.invariant {ok : S → A → Prop} {P : S → Prop} (hstart : P T.start)
    (hstep : ∀ s a s', T.Reaches ok s → P s → ok s a → T.step s a = some s' → P s') {s : S}
    (hs : T.Reaches ok s) : P s := by
  induction hs with
  | start => exact hstart
  | step hr hok hst ih => exact hstep _ _ _ hr ih hok hst

/-! ### Schedules -/

/-- Take the actions of a schedule in order. -/
def System.run (T : System S A) : S → List A → Option S
  | s, [] => some s
  | s, a :: as => (T.step s a).bind fun s' => T.run s' as

/-- Take the actions of a schedule in order, each of which must satisfy `ok`. -/
def System.runIf (T : System S A) (ok : S → A → Prop) [∀ s a, Decidable (ok s a)] :
    S → List A → Option S
  | s, [] => some s
  | s, a :: as =>
    if ok s a then (T.step s a).bind fun s' => T.runIf ok s' as else none

theorem System.Reaches.runIf {ok : S → A → Prop} [∀ s a, Decidable (ok s a)] {s s' : S}
    {as : List A} (hs : T.Reaches ok s) (h : T.runIf ok s as = some s') : T.Reaches ok s' := by
  induction as generalizing s with
  | nil =>
    simp only [System.runIf, Option.some.injEq] at h
    subst h; exact hs
  | cons a as ih =>
    simp only [System.runIf] at h
    by_cases hok : ok s a
    · rw [if_pos hok] at h
      obtain ⟨t, ht, hrest⟩ := Option.bind_eq_some_iff.mp h
      exact ih (.step hs hok ht) hrest
    · rw [if_neg hok] at h; cases h

/-- A schedule whose actions satisfy `ok` in every state. -/
theorem System.Reaches.runAll {ok : S → A → Prop} {s s' : S} {as : List A} (hs : T.Reaches ok s)
    (hok : ∀ a ∈ as, ∀ s, ok s a) (h : T.run s as = some s') : T.Reaches ok s' := by
  induction as generalizing s with
  | nil =>
    simp only [System.run, Option.some.injEq] at h
    subst h; exact hs
  | cons a as ih =>
    obtain ⟨t, ht, hrest⟩ := Option.bind_eq_some_iff.mp h
    exact ih (.step hs (hok a (by simp) s) ht) (fun b hb => hok b (by simp [hb])) hrest

theorem System.Reaches.run {s s' : S} {as : List A} (hs : T.Reachable s)
    (h : T.run s as = some s') : T.Reachable s' :=
  hs.runAll (fun _ _ _ => trivial) h

theorem System.run_append (s : S) (as bs : List A) :
    T.run s (as ++ bs) = (T.run s as).bind fun s' => T.run s' bs := by
  induction as generalizing s with
  | nil => rfl
  | cons a as ih => simp only [List.cons_append, System.run, ih, Option.bind_assoc]

/-- The schedule `as` passes through the state `s`. -/
def System.Visits (T : System S A) (as : List A) (s : S) : Prop :=
  ∃ before behind, as = before ++ behind ∧ T.run T.start before = some s

/-- The schedule `as` takes the action `a` in the state `s`. -/
def System.Takes (T : System S A) (as : List A) (s : S) (a : A) : Prop :=
  ∃ before behind, as = before ++ a :: behind ∧ T.run T.start before = some s

/-- A state that a schedule passes through is reached by the steps it takes. -/
theorem System.Visits.reaches {as : List A} {s : S} (h : T.Visits as s) :
    T.Reaches (fun s a => T.Takes as s a) s := by
  obtain ⟨before, behind, rfl, hrun⟩ := h
  induction before using List.reverseRecOn generalizing s behind with
  | nil =>
    simp only [System.run, Option.some.injEq] at hrun
    subst hrun
    exact .start
  | append_singleton before a ih =>
    rw [System.run_append] at hrun
    obtain ⟨t, ht, hstep⟩ := Option.bind_eq_some_iff.mp hrun
    simp only [System.run, Option.bind_fun_some] at hstep
    have hreach := ih (a :: behind) ht
    rw [List.append_cons] at hreach
    exact .step hreach ⟨before, behind, by simp, ht⟩ hstep

/-- The state after a step of a schedule that can be taken to its end. -/
theorem System.Takes.visits {as : List A} {s : S} {a : A} (h : T.Takes as s a)
    (hrun : (T.run T.start as).isSome) : ∃ s', T.step s a = some s' ∧ T.Visits as s' := by
  obtain ⟨before, behind, rfl, hs⟩ := h
  rw [System.run_append, hs, Option.bind_some, System.run] at hrun
  cases hstep : T.step s a with
  | none =>
    rw [hstep] at hrun
    cases hrun
  | some s' =>
    refine ⟨s', rfl, before ++ [a], behind, by simp, ?_⟩
    rw [System.run_append, hs, Option.bind_some, System.run, hstep]
    rfl

/-! ### Termination -/

/-- No schedule goes on for ever. -/
def System.Terminates (T : System S A) : Prop :=
  ¬ ∃ f : Nat → S, f 0 = T.start ∧ ∀ i, ∃ a, T.step (f i) a = some (f (i + 1))

/-- Every step of a reachable state decreases the measure `μ`. -/
theorem System.terminates_of_measure {W : Type*} [Preorder W] [WellFoundedLT W] (μ : S → W)
    (hμ : ∀ s a s', T.Reachable s → T.step s a = some s' → μ s' < μ s) : T.Terminates := by
  rintro ⟨f, h0, hstep⟩
  have hreach : ∀ i, T.Reachable (f i) := by
    intro i
    induction i with
    | zero =>
      rw [h0]
      exact .start
    | succ i ih =>
      obtain ⟨a, ha⟩ := hstep i
      exact .step ih trivial ha
  apply not_strictAnti_of_wellFoundedLT (fun i => μ (f i))
  apply strictAnti_nat_of_succ_lt
  intro i
  obtain ⟨a, ha⟩ := hstep i
  exact hμ _ a _ (hreach i) ha

/-- A system whose runs all end has a run to a state where no action can be taken. -/
theorem System.Terminates.exists_stuck (h : T.Terminates) : ∃ s, T.Reachable s ∧ T.Stuck s := by
  by_contra hnone
  have hnext : ∀ s : { s // T.Reachable s }, ∃ s' : { s // T.Reachable s },
      ∃ a, T.step s.1 a = some s'.1 := by
    rintro ⟨s, hs⟩
    have hmove : ¬ T.Stuck s := fun hstuck => hnone ⟨s, hs, hstuck⟩
    obtain ⟨a, ha⟩ := not_forall.mp hmove
    obtain ⟨s', hs'⟩ := Option.ne_none_iff_exists'.mp ha
    exact ⟨⟨s', .step hs trivial hs'⟩, a, hs'⟩
  choose next hstep using hnext
  apply h
  refine ⟨fun i => (next^[i] ⟨T.start, .start⟩).1, rfl, ?_⟩
  intro i
  simp only [Function.iterate_succ_apply']
  exact hstep _

/-- **The progress rule.**  When every reachable state of `P` that is not in `G` has a step
    that stays in `P` and decreases `μ`, a state of `G` can be reached. -/
theorem System.exists_reachable {W : Type*} [Preorder W] [WellFoundedLT W] {P G : S → Prop}
    (μ : S → W)
    (h : ∀ s, T.Reachable s → P s → ¬ G s → ∃ a s', T.step s a = some s' ∧ P s' ∧ μ s' < μ s)
    {s : S} (hs : T.Reachable s) (hp : P s) : ∃ s', T.Reachable s' ∧ P s' ∧ G s' := by
  induction hm : μ s using WellFoundedLT.induction generalizing s with
  | _ m ih =>
    by_cases hg : G s
    · exact ⟨s, hs, hp, hg⟩
    · obtain ⟨a, s', hstep, hp', hlt⟩ := h s hs hp hg
      exact ih (μ s') (hm ▸ hlt) (.step hs trivial hstep) hp' rfl

/-! ### Simulation -/

/-- **The simulation rule.**  When `α` maps the start to the start, and every step of a
    reached state to a step of `U` or to none, it maps reachable states to reachable ones. -/
theorem System.Reaches.simulates {S' A' : Type*} {U : System S' A'} {ok : S → A → Prop} (α : S → S')
    (hstart : α T.start = U.start)
    (hstep : ∀ s a s', T.Reaches ok s → ok s a → T.step s a = some s' →
      α s' = α s ∨ ∃ b, U.step (α s) b = some (α s'))
    {s : S} (hs : T.Reaches ok s) : U.Reachable (α s) := by
  induction hs with
  | start =>
    rw [hstart]
    exact .start
  | step hr hok hst ih =>
    rcases hstep _ _ _ hr hok hst with hsame | ⟨b, hb⟩
    · rw [hsame]
      exact ih
    · exact .step ih trivial hb

/-! ### Output -/

/-- The system with a log of what its steps put out. -/
def System.logging {B : Type*} (T : System S A) (out : S → A → List B) : System (S × List B) A where
  start := (T.start, [])
  step s a := (T.step s.1 a).map fun s' => (s', s.2 ++ out s.1 a)

section Logging

variable {B : Type*} {out : S → A → List B}

theorem System.logging_step {s s' : S × List B} {a : A} (h : (T.logging out).step s a = some s') :
    T.step s.1 a = some s'.1 ∧ s'.2 = s.2 ++ out s.1 a := by
  obtain ⟨t, ht, rfl⟩ := Option.map_eq_some_iff.mp h
  exact ⟨ht, rfl⟩

theorem System.logging_reachable {s : S × List B} (hs : (T.logging out).Reachable s) :
    T.Reachable s.1 := by
  induction hs with
  | start => exact .start
  | step _ _ hstep ih => exact .step ih trivial (System.logging_step hstep).1

theorem System.logging_stuck {s : S × List B} (hs : (T.logging out).Stuck s) : T.Stuck s.1 :=
  fun a => Option.map_eq_none_iff.mp (hs a)

theorem System.Terminates.logging (h : T.Terminates) : (T.logging out).Terminates := by
  rintro ⟨f, h0, hstep⟩
  apply h
  refine ⟨fun i => (f i).1, congrArg Prod.fst h0, ?_⟩
  intro i
  obtain ⟨a, ha⟩ := hstep i
  exact ⟨a, (System.logging_step ha).1⟩

end Logging

end OstepProjects.Transition
