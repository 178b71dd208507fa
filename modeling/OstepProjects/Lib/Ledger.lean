/-
  OstepProjects/Lib/Ledger.lean
  =============================
  **What came in has gone out or is still there.**

  Values come in, stay in a table under a key of their own and go out again.  A key is
  free when no value is in the table under it, and may then be used for another value.
  `Balanced` says that the values that came are those that went and those in the
  table, each as often as it came.
-/
import Mathlib.Data.List.Nodup
import Mathlib.Data.List.Perm.Basic
import Mathlib.Logic.Function.Basic

namespace OstepProjects.Ledger

variable {K V : Type*} {key : V → K} {table : K → Option V} {came went : List V}

/-- The values in the table, each once. -/
structure Lists (key : V → K) (table : K → Option V) (opened : List V) : Prop where
  nodup : (opened.map key).Nodup
  mem_iff : ∀ v, v ∈ opened ↔ table (key v) = some v

def Balanced (key : V → K) (table : K → Option V) (came went : List V) : Prop :=
  ∃ opened, Lists key table opened ∧ came.Perm (went ++ opened)

theorem balanced_nil (key : V → K) : Balanced key (fun _ => none) [] [] :=
  ⟨[], ⟨List.nodup_nil, fun v => ⟨fun h => (by cases h), fun h => (by cases h)⟩⟩, List.Perm.refl _⟩

section Moves

variable [DecidableEq K]

theorem Lists.insert {opened : List V} (h : Lists key table opened) {v : V}
    (hfree : table (key v) = none) :
    Lists key (Function.update table (key v) (some v)) (opened ++ [v]) := by
  have hnew : ∀ w ∈ opened, key w ≠ key v := by
    intro w hw heq
    have hsome := (h.mem_iff w).mp hw
    rw [heq, hfree] at hsome
    cases hsome
  constructor
  · rw [List.map_append, List.nodup_append]
    refine ⟨h.nodup, List.nodup_singleton _, ?_⟩
    intro k hk k' hk' heq
    obtain ⟨w, hw, rfl⟩ := List.mem_map.mp hk
    exact hnew w hw (heq.trans (List.mem_singleton.mp hk'))
  · intro w
    rw [List.mem_append, List.mem_singleton]
    by_cases heq : key w = key v
    · rw [heq, Function.update_self, Option.some.injEq]
      exact ⟨fun hw => hw.elim (fun hw => absurd heq (hnew w hw)) Eq.symm, fun hw => Or.inr hw.symm⟩
    · rw [Function.update_of_ne heq, ← h.mem_iff w]
      exact or_iff_left fun hw => heq (congrArg key hw)

theorem Lists.erase {before behind : List V} {v : V}
    (h : Lists key table (before ++ v :: behind)) :
    Lists key (Function.update table (key v) none) (before ++ behind) := by
  have hmiddle : (before ++ v :: behind).Perm (v :: (before ++ behind)) := List.perm_middle
  have hnodup := h.nodup
  rw [(hmiddle.map key).nodup_iff, List.map_cons, List.nodup_cons] at hnodup
  refine ⟨hnodup.2, fun w => ?_⟩
  have hother : w ∈ before ++ behind → key w ≠ key v := fun hw heq =>
    hnodup.1 (List.mem_map.mpr ⟨w, hw, heq⟩)
  by_cases heq : key w = key v
  · rw [heq, Function.update_self]
    exact ⟨fun hw => absurd heq (hother hw), fun hsome => (by cases hsome)⟩
  · rw [Function.update_of_ne heq, ← h.mem_iff w, hmiddle.mem_iff, List.mem_cons]
    exact ⟨Or.inr, fun hw => hw.resolve_left fun hv => heq (congrArg key hv)⟩

/-- A value comes in under a free key. -/
theorem Balanced.come (h : Balanced key table came went) {v : V} (hfree : table (key v) = none) :
    Balanced key (Function.update table (key v) (some v)) (came ++ [v]) went := by
  obtain ⟨opened, hlists, hperm⟩ := h
  refine ⟨opened ++ [v], hlists.insert hfree, ?_⟩
  rw [← List.append_assoc]
  exact hperm.append_right [v]

/-- A value goes out. -/
theorem Balanced.go (h : Balanced key table came went) {v : V} (hv : table (key v) = some v) :
    Balanced key (Function.update table (key v) none) came (went ++ [v]) := by
  obtain ⟨opened, hlists, hperm⟩ := h
  obtain ⟨before, behind, rfl⟩ := List.append_of_mem ((hlists.mem_iff v).mpr hv)
  refine ⟨before ++ behind, hlists.erase, hperm.trans ?_⟩
  rw [List.append_assoc]
  exact List.perm_middle.append_left _

end Moves

/-- Nothing is there any more. -/
theorem Balanced.perm (h : Balanced key table came went) (hempty : ∀ k, table k = none) :
    came.Perm went := by
  obtain ⟨opened, hlists, hperm⟩ := h
  have hnil : opened = [] := by
    refine List.eq_nil_iff_forall_not_mem.mpr fun v hv => ?_
    have hsome := (hlists.mem_iff v).mp hv
    rw [hempty] at hsome
    cases hsome
  rwa [hnil, List.append_nil] at hperm

end OstepProjects.Ledger
