/-
  OstepProjects/Lib/Tickets.lean
  ==============================
  **Jobs that are handed out by number.**

  One party publishes jobs `0, 1, ...`; workers draw the next number below `count`,
  one worker at a time, and do the job later, each at its own pace.  Nothing but the
  two counters and the number a worker holds is shared.

  `TicketInv` says that every number that was drawn is either done or held by one
  worker, and `done_perm` that every job has been done exactly once when nobody holds
  a number any more.
-/
import Mathlib.Data.List.Perm.Basic
import Mathlib.Data.List.Range
import OstepProjects.Lib.Transition

namespace OstepProjects.Tickets

open OstepProjects.Transition

structure State (W : Type*) where
  count : Nat
  next : Nat
  holding : W → Option Nat
  done : List Nat

inductive Action (W : Type*)
  | publish
  | draw (w : W)
  | finish (w : W)

variable {W : Type*} [DecidableEq W]

def step (s : State W) : Action W → Option (State W)
  | .publish => some { s with count := s.count + 1 }
  | .draw w =>
    if s.next < s.count ∧ s.holding w = none then
      some { s with next := s.next + 1, holding := Function.update s.holding w (some s.next) }
    else none
  | .finish w =>
    (s.holding w).map fun k =>
      { s with done := s.done ++ [k], holding := Function.update s.holding w none }

def system (W : Type*) [DecidableEq W] : System (State W) (Action W) where
  start := ⟨0, 0, fun _ => none, []⟩
  step := step

structure TicketInv (s : State W) : Prop where
  next_le : s.next ≤ s.count
  held_lt : ∀ w k, s.holding w = some k → k < s.next
  held_once : ∀ w w' k, s.holding w = some k → s.holding w' = some k → w = w'
  held_notDone : ∀ w k, s.holding w = some k → k ∉ s.done
  done_lt : ∀ k ∈ s.done, k < s.next
  done_nodup : s.done.Nodup
  drawn : ∀ k < s.next, k ∈ s.done ∨ ∃ w, s.holding w = some k

theorem ticketInv_draw {s : State W} (h : TicketInv s) {w : W} (hlt : s.next < s.count)
    (hfree : s.holding w = none) :
    TicketInv
      { s with next := s.next + 1, holding := Function.update s.holding w (some s.next) } := by
  constructor
  case next_le => exact hlt
  case held_lt =>
    intro v k hv
    by_cases hvw : v = w
    · subst hvw
      simp only [Function.update_self, Option.some.injEq] at hv
      rw [← hv]
      exact Nat.lt_succ_self _
    · simp only [Function.update_of_ne hvw] at hv
      exact (h.held_lt v k hv).trans (Nat.lt_succ_self _)
  case held_once =>
    intro v v' k hv hv'
    have hnew : ∀ u, u ≠ w → Function.update s.holding w (some s.next) u = some k → k < s.next := by
      intro u hu huk
      rw [Function.update_of_ne hu] at huk
      exact h.held_lt u k huk
    by_cases hvw : v = w
    · by_cases hvw' : v' = w
      · rw [hvw, hvw']
      · subst hvw
        simp only [Function.update_self, Option.some.injEq] at hv
        have := hnew v' hvw' hv'
        omega
    · by_cases hvw' : v' = w
      · subst hvw'
        simp only [Function.update_self, Option.some.injEq] at hv'
        have := hnew v hvw hv
        omega
      · simp only [Function.update_of_ne hvw, Function.update_of_ne hvw'] at hv hv'
        exact h.held_once v v' k hv hv'
  case held_notDone =>
    intro v k hv hdone
    by_cases hvw : v = w
    · subst hvw
      simp only [Function.update_self, Option.some.injEq] at hv
      have := h.done_lt k hdone
      omega
    · simp only [Function.update_of_ne hvw] at hv
      exact h.held_notDone v k hv hdone
  case done_lt => exact fun k hk => (h.done_lt k hk).trans (Nat.lt_succ_self _)
  case done_nodup => exact h.done_nodup
  case drawn =>
    intro k hk
    rcases Nat.lt_succ_iff_lt_or_eq.mp hk with hold | rfl
    · refine (h.drawn k hold).imp_right ?_
      rintro ⟨v, hv⟩
      have hvw : v ≠ w := by
        rintro rfl
        rw [hfree] at hv
        cases hv
      exact ⟨v, (Function.update_of_ne hvw ..).trans hv⟩
    · exact Or.inr ⟨w, Function.update_self ..⟩

theorem ticketInv_finish {s : State W} (h : TicketInv s) {w : W} {k : Nat}
    (hk : s.holding w = some k) :
    TicketInv { s with done := s.done ++ [k], holding := Function.update s.holding w none } := by
  -- whoever still holds a number held it before, and it is not `k`
  have hkept : ∀ v j,
      Function.update s.holding w none v = some j → s.holding v = some j ∧ j ≠ k := by
    intro v j hv
    by_cases hvw : v = w
    · subst hvw
      simp at hv
    · rw [Function.update_of_ne hvw] at hv
      refine ⟨hv, ?_⟩
      rintro rfl
      exact hvw (h.held_once v w j hv hk)
  constructor
  case next_le => exact h.next_le
  case held_lt => exact fun v j hv => h.held_lt v j (hkept v j hv).1
  case held_once =>
    exact fun v v' j hv hv' => h.held_once v v' j (hkept v j hv).1 (hkept v' j hv').1
  case held_notDone =>
    intro v j hv hdone
    obtain ⟨hold, hne⟩ := hkept v j hv
    rcases List.mem_append.mp hdone with hbefore | hlast
    · exact h.held_notDone v j hold hbefore
    · exact hne (List.mem_singleton.mp hlast)
  case done_lt =>
    intro j hj
    rcases List.mem_append.mp hj with hbefore | hlast
    · exact h.done_lt j hbefore
    · rw [List.mem_singleton.mp hlast]
      exact h.held_lt w k hk
  case done_nodup =>
    rw [List.nodup_append]
    refine ⟨h.done_nodup, List.nodup_singleton k, ?_⟩
    rintro a ha b hb rfl
    rw [List.mem_singleton.mp hb] at ha
    exact h.held_notDone w k hk ha
  case drawn =>
    intro j hj
    rcases h.drawn j hj with hdone | ⟨v, hv⟩
    · exact Or.inl (List.mem_append_left _ hdone)
    · by_cases hvw : v = w
      · subst hvw
        rw [hk, Option.some.injEq] at hv
        subst hv
        exact Or.inl (List.mem_append_right _ (List.mem_singleton_self _))
      · exact Or.inr ⟨v, (Function.update_of_ne hvw ..).trans hv⟩

theorem ticketInv_step {s s' : State W} {a : Action W} (h : TicketInv s)
    (hs : step s a = some s') : TicketInv s' := by
  cases a with
  | publish =>
    cases hs
    exact { h with next_le := h.next_le.trans (Nat.le_succ _) }
  | draw w =>
    rw [step, Option.ite_none_right_eq_some] at hs
    obtain ⟨⟨hlt, hfree⟩, hs'⟩ := hs
    cases hs'
    exact ticketInv_draw h hlt hfree
  | finish w =>
    obtain ⟨k, hk, rfl⟩ := Option.map_eq_some_iff.mp hs
    exact ticketInv_finish h hk

theorem ticketInv {s : State W} (hs : (system W).Reachable s) : TicketInv s := by
  refine hs.invariant (P := TicketInv) ?_ ?_
  · constructor <;> simp [system]
  · intro s a s' _ h _ hstep
    exact ticketInv_step h hstep

omit [DecidableEq W] in
/-- **Every job once.**  When nobody holds a number, the jobs that are done are those that
    were handed out, each of them once. -/
theorem done_perm {s : State W} (h : TicketInv s) (hfree : ∀ w, s.holding w = none) :
    s.done.Perm (List.range s.next) := by
  rw [List.perm_ext_iff_of_nodup h.done_nodup List.nodup_range]
  intro k
  rw [List.mem_range]
  refine ⟨h.done_lt k, fun hk => (h.drawn k hk).resolve_right ?_⟩
  rintro ⟨w, hw⟩
  rw [hfree w] at hw
  cases hw

end OstepProjects.Tickets
