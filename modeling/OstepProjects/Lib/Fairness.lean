/-
  OstepProjects/Lib/Fairness.lean
  ===============================
  **Runs that are fair to one actor.**

  A system with a waiting loop has infinite runs: a thread may spin for ever while the
  thread it waits for is never scheduled.  What can be said of it is that a run ends
  when the latter is not neglected.

  `InfiniteRun` is a run that goes on for ever, `FairTo` says that in such a run an
  actor moves again and again unless it is done.  `no_fairRun` is the rule: the actor's
  own steps decrease one measure that nobody increases, and once it is done every step
  decreases a second one.  `no_calmRun` allows for finitely many steps that disturb this.

  `LeadsTo` is progress along a run that does not end, and `StrongFair` the assumption
  under which it is proved: an actor that can move infinitely often does.  The rule
  `StrongFair.leadsTo` follows one actor, whose steps bring a rank down that the steps of
  the others do not raise.  `ofCycle` builds runs from a schedule that is repeated, and
  `after` puts a beginning in front of a run.
-/
import OstepProjects.Lib.Transition

namespace OstepProjects.Transition

variable {S A : Type*}

/-- A run without an end: the states it passes through and the actions it takes. -/
structure System.InfiniteRun (T : System S A) where
  state : Nat → S
  action : Nat → A
  start_eq : state 0 = T.start
  step_eq : ∀ i, T.step (state i) (action i) = some (state (i + 1))

variable {T : System S A}

theorem System.InfiniteRun.reachable (r : T.InfiniteRun) (i : Nat) : T.Reachable (r.state i) := by
  induction i with
  | zero =>
    rw [r.start_eq]
    exact .start
  | succ i ih => exact .step ih trivial (r.step_eq i)

theorem System.InfiniteRun.reaches (r : T.InfiniteRun) {ok : S → A → Prop}
    (hok : ∀ i, ok (r.state i) (r.action i)) (i : Nat) : T.Reaches ok (r.state i) := by
  induction i with
  | zero =>
    rw [r.start_eq]
    exact .start
  | succ i ih => exact .step ih (hok i) (r.step_eq i)

/-- A log that no step shortens is not shortened by a run. -/
theorem System.InfiniteRun.log_mono (r : T.InfiniteRun) {α : Type*} (log : S → List α)
    (hstep : ∀ s a s', T.step s a = some s' → log s <+: log s') {i j : Nat} (hij : i ≤ j) :
    log (r.state i) <+: log (r.state j) := by
  induction j, hij using Nat.le_induction with
  | base => exact List.prefix_refl _
  | succ j _ ih => exact ih.trans (hstep _ _ _ (r.step_eq j))

/-- Again and again an action of the actor is taken, or the actor is done. -/
def System.InfiniteRun.FairTo (r : T.InfiniteRun) (acts : A → Prop) (done : S → Prop) : Prop :=
  ∀ i, ∃ j, i ≤ j ∧ (acts (r.action j) ∨ done (r.state j))

section Rule

variable {V W : Type*} [Preorder V] [Preorder W] [WellFoundedLT W]

/-- A measure that every step from a place on decreases does not exist. -/
theorem System.InfiniteRun.not_decreasing (r : T.InfiniteRun) (ν : S → W) (i : Nat) :
    ¬ ∀ j, i ≤ j → ν (r.state (j + 1)) < ν (r.state j) := by
  intro h
  apply not_strictAnti_of_wellFoundedLT fun k => ν (r.state (i + k))
  apply strictAnti_nat_of_succ_lt
  intro k
  exact h (i + k) (Nat.le_add_right i k)

/-- A measure that no step from a place on increases keeps its bound. -/
theorem System.InfiniteRun.bounded (r : T.InfiniteRun) (μ : S → V) {i : Nat}
    (h : ∀ j, i ≤ j → μ (r.state (j + 1)) ≤ μ (r.state j)) {j k : Nat} (hij : i ≤ j)
    (hjk : j ≤ k) : μ (r.state k) ≤ μ (r.state j) := by
  induction k, hjk using Nat.le_induction with
  | base => exact le_refl _
  | succ k hjk ih => exact (h k (hij.trans hjk)).trans ih

variable [WellFoundedLT V]

/-- **The rule of fair termination.**  Some actions are disturbances, and from a place on
    there are none.  While the actor is not done its steps decrease `μ` and those of the
    others do not increase it; being done lasts, and every step then decreases `ν`. -/
theorem System.no_calmRun (disturbs : A → Prop) {acts : A → Prop} {done : S → Prop}
    (μ : S → V) (ν : S → W)
    (hacts : ∀ s a s', T.Reachable s → T.step s a = some s' → ¬ disturbs a → acts a → μ s' < μ s)
    (hothers : ∀ s a s', T.Reachable s → T.step s a = some s' → ¬ disturbs a → ¬ acts a →
      μ s' ≤ μ s)
    (hdone : ∀ s a s', T.Reachable s → T.step s a = some s' → ¬ disturbs a → done s →
      done s' ∧ ν s' < ν s) :
    ¬ ∃ r : T.InfiniteRun, (∃ i, ∀ j, i ≤ j → ¬ disturbs (r.action j)) ∧ r.FairTo acts done := by
  rintro ⟨r, ⟨calm, hcalm⟩, hfair⟩
  have hstays : ∀ i, calm ≤ i → done (r.state i) → ∀ j, i ≤ j → done (r.state j) := by
    intro i hci hi j hij
    induction j, hij using Nat.le_induction with
    | base => exact hi
    | succ j hij ih =>
      exact (hdone _ _ _ (r.reachable j) (r.step_eq j) (hcalm j (hci.trans hij)) ih).1
  have hnever : ∀ i, calm ≤ i → ¬ done (r.state i) := by
    intro i hci hi
    apply r.not_decreasing ν i
    intro j hij
    exact (hdone _ _ _ (r.reachable j) (r.step_eq j) (hcalm j (hci.trans hij))
      (hstays i hci hi j hij)).2
  have hle : ∀ j, calm ≤ j → μ (r.state (j + 1)) ≤ μ (r.state j) := by
    intro j hj
    by_cases ha : acts (r.action j)
    · exact (hacts _ _ _ (r.reachable j) (r.step_eq j) (hcalm j hj) ha).le
    · exact hothers _ _ _ (r.reachable j) (r.step_eq j) (hcalm j hj) ha
  -- the next step of the actor brings `μ` below its value here
  have hfall : ∀ v : V, ∀ i, calm ≤ i → μ (r.state i) = v → False := by
    intro v
    induction v using WellFoundedLT.induction with
    | ind v ih =>
      intro i hci hi
      obtain ⟨j, hij, hj⟩ := hfair i
      have hcj := hci.trans hij
      have ha : acts (r.action j) := hj.resolve_right (hnever j hcj)
      have hlt := hacts _ _ _ (r.reachable j) (r.step_eq j) (hcalm j hcj) ha
      have hbelow : μ (r.state (j + 1)) < v := hlt.trans_le ((r.bounded μ hle hci hij).trans_eq hi)
      exact ih _ hbelow (j + 1) (hcj.trans (Nat.le_succ j)) rfl
  exact hfall _ calm (le_refl calm) rfl

/-- The rule where nothing disturbs. -/
theorem System.no_fairRun {acts : A → Prop} {done : S → Prop} (μ : S → V) (ν : S → W)
    (hacts : ∀ s a s', T.Reachable s → T.step s a = some s' → acts a → μ s' < μ s)
    (hothers : ∀ s a s', T.Reachable s → T.step s a = some s' → ¬ acts a → μ s' ≤ μ s)
    (hdone : ∀ s a s', T.Reachable s → T.step s a = some s' → done s → done s' ∧ ν s' < ν s) :
    ¬ ∃ r : T.InfiniteRun, r.FairTo acts done := by
  rintro ⟨r, hfair⟩
  exact System.no_calmRun (fun _ => False) μ ν (fun s a s' hs hst _ => hacts s a s' hs hst)
    (fun s a s' hs hst _ => hothers s a s' hs hst) (fun s a s' hs hst _ => hdone s a s' hs hst)
    ⟨r, ⟨0, fun _ _ => id⟩, hfair⟩

end Rule

/-! ### Progress -/

namespace System.InfiniteRun

/-- From a state of `P` the run comes to one of `Q`. -/
def LeadsTo (r : T.InfiniteRun) (P Q : S → Prop) : Prop :=
  ∀ i, P (r.state i) → ∃ j, i ≤ j ∧ Q (r.state j)

/-- Something happens again and again. -/
def Often (r : T.InfiniteRun) (c : S → A → Prop) : Prop :=
  ∀ i, ∃ j, i ≤ j ∧ c (r.state j) (r.action j)

/-- An actor that can move again and again does so. -/
def StrongFair (r : T.InfiniteRun) (enabled : S → Prop) (takes : S → A → Prop) : Prop :=
  r.Often (fun s _ => enabled s) → r.Often takes

variable {r : T.InfiniteRun} {P Q R : S → Prop}

theorem LeadsTo.trans (hPQ : r.LeadsTo P Q) (hQR : r.LeadsTo Q R) : r.LeadsTo P R := by
  intro i hi
  obtain ⟨j, hij, hj⟩ := hPQ i hi
  obtain ⟨k, hjk, hk⟩ := hQR j hj
  exact ⟨k, hij.trans hjk, hk⟩

theorem LeadsTo.or (hP : r.LeadsTo P R) (hQ : r.LeadsTo Q R) :
    r.LeadsTo (fun s => P s ∨ Q s) R := by
  rintro i (hi | hi)
  · exact hP i hi
  · exact hQ i hi

theorem leadsTo_of_imp (h : ∀ s, P s → Q s) : r.LeadsTo P Q := fun i hi => ⟨i, le_refl i, h _ hi⟩

/-- What holds until `Q` does, holds for ever if `Q` never does. -/
theorem forever (hstep : ∀ s a s', T.Reachable s → P s → T.step s a = some s' → P s' ∨ Q s')
    {i : Nat} (hi : P (r.state i)) (hnot : ∀ j, i ≤ j → ¬ Q (r.state j)) :
    ∀ j, i ≤ j → P (r.state j) := by
  intro j hij
  induction j, hij using Nat.le_induction with
  | base => exact hi
  | succ j hij ih =>
    exact (hstep _ _ _ (r.reachable j) ih (r.step_eq j)).resolve_right (hnot (j + 1) (by omega))

/-- A run that leaves `P`, and can leave it to `Q` only, comes to `Q`. -/
theorem LeadsTo.exit (hleave : r.LeadsTo P fun s => ¬ P s)
    (hstep : ∀ s a s', T.Reachable s → P s → T.step s a = some s' → P s' ∨ Q s') :
    r.LeadsTo P Q := by
  intro i hi
  by_contra hnever
  have hnot : ∀ j, i ≤ j → ¬ Q (r.state j) := fun j hij hq => hnever ⟨j, hij, hq⟩
  obtain ⟨j, hij, hj⟩ := hleave i hi
  exact hj (forever hstep hi hnot j hij)

/-- **The rule of strong fairness.**  While `P` lasts the actor can move whenever `c` holds,
    which happens again and again; its steps bring the rank down or lead to `Q`. -/
theorem StrongFair.leadsTo {enabled c : S → Prop} {takes : S → A → Prop}
    (hfair : r.StrongFair enabled takes) (rank : S → Nat)
    (hoften : r.Often fun s _ => c s) (henabled : ∀ s, T.Reachable s → P s → c s → enabled s)
    (hstep : ∀ s a s', T.Reachable s → P s → T.step s a = some s' →
      Q s' ∨ (P s' ∧ rank s' ≤ rank s ∧ (takes s a → rank s' < rank s))) :
    r.LeadsTo P Q := by
  intro i hi
  by_contra hnever
  have hnot : ∀ j, i ≤ j → ¬ Q (r.state j) := fun j hij hq => hnever ⟨j, hij, hq⟩
  have hP : ∀ j, i ≤ j → P (r.state j) := by
    refine forever (fun s a s' hs hp hst => ?_) hi hnot
    exact (hstep s a s' hs hp hst).symm.imp_left And.left
  have hranked : ∀ j, i ≤ j → rank (r.state (j + 1)) ≤ rank (r.state j) ∧
      (takes (r.state j) (r.action j) → rank (r.state (j + 1)) < rank (r.state j)) := fun j hij =>
    ((hstep _ _ _ (r.reachable j) (hP j hij) (r.step_eq j)).resolve_left (hnot (j + 1)
      (by omega))).2
  have hanti : ∀ j k, i ≤ j → j ≤ k → rank (r.state k) ≤ rank (r.state j) := by
    intro j k hij hjk
    induction k, hjk using Nat.le_induction with
    | base => exact le_refl _
    | succ k hjk ih => exact (hranked k (hij.trans hjk)).1.trans ih
  have htakes : r.Often takes := by
    apply hfair
    intro m
    obtain ⟨k, hk, hc⟩ := hoften (max i m)
    exact ⟨k, (le_max_right i m).trans hk,
      henabled _ (r.reachable k) (hP k ((le_max_left i m).trans hk)) hc⟩
  -- the next step of the actor brings the rank below its value here
  have hfall : ∀ v j, i ≤ j → rank (r.state j) = v → False := by
    intro v
    induction v using Nat.strong_induction_on with
    | _ v ih =>
      intro j hij hv
      obtain ⟨k, hjk, hk⟩ := htakes j
      have hlt := (hranked k (hij.trans hjk)).2 hk
      have hle := hanti j k hij hjk
      exact ih _ (by omega) (k + 1) (by omega) rfl
  exact hfall _ i (le_refl i) rfl

end System.InfiniteRun

/-! ### Runs that repeat a schedule -/

section Cycle

variable {f : Nat → S} {cycle : List A}

/-- The state at time `i` when the schedule `cycle` leads from each `f k` to the next. -/
def System.cycleState (T : System S A) (f : Nat → S) (cycle : List A) (i : Nat) : S :=
  (T.run (f (i / cycle.length)) (cycle.take (i % cycle.length))).getD T.start

theorem System.run_take {s s' : S} {as : List A} (h : T.run s as = some s') (m : Nat) :
    ∃ t, T.run s (as.take m) = some t := by
  rw [← List.take_append_drop m as, System.run_append] at h
  obtain ⟨t, ht, _⟩ := Option.bind_eq_some_iff.mp h
  exact ⟨t, ht⟩

theorem System.cycleState_step (hne : 0 < cycle.length)
    (hrun : ∀ k, T.run (f k) cycle = some (f (k + 1))) (i : Nat) :
    T.step (T.cycleState f cycle i) (cycle.get ⟨i % cycle.length, Nat.mod_lt i hne⟩) =
      some (T.cycleState f cycle (i + 1)) := by
  have hlt := Nat.mod_lt i hne
  obtain ⟨s, hs⟩ := System.run_take (hrun (i / cycle.length)) (i % cycle.length)
  obtain ⟨s', hs'⟩ := System.run_take (hrun (i / cycle.length)) (i % cycle.length + 1)
  have hstep : T.step s (cycle.get ⟨i % cycle.length, hlt⟩) = some s' := by
    rw [List.take_add_one, List.getElem?_eq_getElem hlt, System.run_append, hs, Option.bind_some,
      Option.toList_some, System.run, Option.bind_eq_some_iff] at hs'
    obtain ⟨t, ht, hend⟩ := hs'
    rw [System.run, Option.some.injEq] at hend
    rw [← hend]
    exact ht
  have hnext : T.cycleState f cycle (i + 1) = s' := by
    rw [System.cycleState]
    by_cases hlast : i % cycle.length + 1 = cycle.length
    · have hzero : (i + 1) % cycle.length = 0 := by
        rw [← Nat.mod_add_mod, hlast, Nat.mod_self]
      have hdiv : (i + 1) / cycle.length = i / cycle.length + 1 := by
        rw [Nat.succ_div_of_dvd (Nat.dvd_of_mod_eq_zero hzero)]
      rw [hlast, List.take_length, hrun, Option.some.injEq] at hs'
      rw [hzero, hdiv, List.take_zero, System.run, Option.getD_some, hs']
    · have hmod : (i + 1) % cycle.length = i % cycle.length + 1 := by
        rw [← Nat.mod_add_mod, Nat.mod_eq_of_lt (by omega)]
      have hdiv : (i + 1) / cycle.length = i / cycle.length := by
        apply Nat.succ_div_of_not_dvd
        intro hdvd
        have hzero := Nat.mod_eq_zero_of_dvd hdvd
        omega
      rw [hmod, hdiv, hs', Option.getD_some]
  rw [hnext, System.cycleState, hs, Option.getD_some]
  exact hstep

theorem System.cycleState_zero (h0 : f 0 = T.start) : T.cycleState f cycle 0 = T.start := by
  rw [System.cycleState, Nat.zero_div, Nat.zero_mod, List.take_zero, System.run, Option.getD_some,
    h0]

/-- The schedule repeated for ever. -/
def System.InfiniteRun.ofCycle (f : Nat → S) (cycle : List A) (h0 : f 0 = T.start)
    (hne : 0 < cycle.length) (hrun : ∀ k, T.run (f k) cycle = some (f (k + 1))) :
    T.InfiniteRun where
  state := T.cycleState f cycle
  action i := cycle.get ⟨i % cycle.length, Nat.mod_lt i hne⟩
  start_eq := System.cycleState_zero h0
  step_eq := System.cycleState_step hne hrun

theorem System.InfiniteRun.ofCycle_state (h0 : f 0 = T.start) (hne : 0 < cycle.length)
    (hrun : ∀ k, T.run (f k) cycle = some (f (k + 1))) (k : Nat) :
    (System.InfiniteRun.ofCycle f cycle h0 hne hrun).state (cycle.length * k) = f k := by
  change T.cycleState f cycle (cycle.length * k) = f k
  rw [System.cycleState, Nat.mul_mod_right, Nat.mul_div_cancel_left k hne, List.take_zero,
    System.run, Option.getD_some]

/-- What happens at one place of the schedule happens again and again. -/
theorem System.InfiniteRun.ofCycle_often (h0 : f 0 = T.start) (hne : 0 < cycle.length)
    (hrun : ∀ k, T.run (f k) cycle = some (f (k + 1))) {c : S → A → Prop} {m : Nat}
    (hm : m < cycle.length)
    (h : ∀ k s, T.run (f k) (cycle.take m) = some s → c s (cycle.get ⟨m, hm⟩)) :
    (System.InfiniteRun.ofCycle f cycle h0 hne hrun).Often c := by
  intro i
  refine ⟨cycle.length * i + m, ?_, ?_⟩
  · have := Nat.le_mul_of_pos_left i hne
    omega
  · have hmod : (cycle.length * i + m) % cycle.length = m := by
      rw [Nat.mul_add_mod, Nat.mod_eq_of_lt hm]
    have hdiv : (cycle.length * i + m) / cycle.length = i := by
      rw [Nat.mul_add_div hne, Nat.div_eq_of_lt hm, Nat.add_zero]
    obtain ⟨s, hs⟩ := System.run_take (hrun i) m
    have hstate : T.cycleState f cycle (cycle.length * i + m) = s := by
      rw [System.cycleState, hmod, hdiv, hs, Option.getD_some]
    change c (T.cycleState f cycle (cycle.length * i + m)) _
    rw [hstate]
    simp only [System.InfiniteRun.ofCycle, hmod]
    exact h i s hs

/-- A schedule that leads from every state of `P` to another can be repeated. -/
theorem System.exists_cycle {P : S → Prop} {s : S} (hs : P s)
    (h : ∀ s, P s → ∃ s', T.run s cycle = some s' ∧ P s') :
    ∃ f : Nat → S, f 0 = s ∧ ∀ k, P (f k) ∧ T.run (f k) cycle = some (f (k + 1)) := by
  choose next hrun hnext using h
  let g : Nat → {s // P s} := fun k => (fun s => ⟨next s.1 s.2, hnext s.1 s.2⟩)^[k] ⟨s, hs⟩
  refine ⟨fun k => (g k).1, rfl, fun k => ⟨(g k).2, ?_⟩⟩
  have hsucc : (g (k + 1)).1 = next (g k).1 (g k).2 := by
    simp only [g, Function.iterate_succ_apply']
  change T.run (g k).1 cycle = some (g (k + 1)).1
  rw [hsucc]
  exact hrun _ _

end Cycle

/-! ### Runs with a beginning of their own -/

/-- The system started in another state. -/
def System.startAt (T : System S A) (s : S) : System S A := { T with start := s }

theorem System.run_startAt (s t : S) (as : List A) : (T.startAt s).run t as = T.run t as := by
  induction as generalizing t with
  | nil => rfl
  | cons a as ih =>
    change (T.step t a).bind (fun t' => (T.startAt s).run t' as) = _
    simp only [ih]
    rfl

/-- One step, and then a run from there. -/
def System.InfiniteRun.cons (s : S) (a : A) {s' : S} (h : T.step s a = some s')
    (r : (T.startAt s').InfiniteRun) : (T.startAt s).InfiniteRun where
  state
    | 0 => s
    | i + 1 => r.state i
  action
    | 0 => a
    | i + 1 => r.action i
  start_eq := rfl
  step_eq
    | 0 => h.trans (congrArg some r.start_eq.symm)
    | i + 1 => r.step_eq i

/-- A run after finitely many steps. -/
theorem System.InfiniteRun.after {s s' : S} {as : List A} (h : T.run s as = some s')
    (r : (T.startAt s').InfiniteRun) :
    ∃ r' : (T.startAt s).InfiniteRun, (∀ i, r'.state (as.length + i) = r.state i ∧
      r'.action (as.length + i) = r.action i) ∧
      ∀ i, r'.action i ∈ as ∨ ∃ j, r'.action i = r.action j := by
  induction as generalizing s with
  | nil =>
    cases h
    refine ⟨r, fun i => ?_, fun i => Or.inr ⟨i, rfl⟩⟩
    rw [List.length_nil, Nat.zero_add]
    exact ⟨rfl, rfl⟩
  | cons a as ih =>
    obtain ⟨t, ht, hrun⟩ := Option.bind_eq_some_iff.mp h
    obtain ⟨r', hr', hactions⟩ := ih hrun
    refine ⟨r'.cons s a ht, fun i => ?_, fun i => ?_⟩
    · have hindex : (a :: as).length + i = as.length + i + 1 := by
        rw [List.length_cons]
        omega
      rw [hindex]
      exact hr' i
    · cases i with
      | zero => exact Or.inl List.mem_cons_self
      | succ i => exact (hactions i).imp_left (List.mem_cons_of_mem a)

/-- What happens again and again in the end happens again and again. -/
theorem System.InfiniteRun.Often.of_suffix {U : System S A} {r : T.InfiniteRun}
    {r' : U.InfiniteRun} {d : Nat} (h : ∀ i, r'.state (d + i) = r.state i ∧
      r'.action (d + i) = r.action i) {c : S → A → Prop} (hoften : r.Often c) : r'.Often c := by
  intro i
  obtain ⟨j, hij, hc⟩ := hoften i
  refine ⟨d + j, hij.trans (Nat.le_add_left j d), ?_⟩
  rw [(h j).1, (h j).2]
  exact hc

end OstepProjects.Transition
