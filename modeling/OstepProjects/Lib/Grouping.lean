/-
  OstepProjects/Lib/Grouping.lean
  ===============================
  **Values grouped by key.**

  `Groups G xs` says that the groups `G` are the pairs `xs` collected by key: the
  keys strictly increase, every key of `xs` has exactly one group, and a group holds
  the values of its key in the order in which they stand in `xs`.
-/
import Mathlib.Data.List.Basic
import Mathlib.Order.Lattice

namespace OstepProjects.Grouping

variable {κ ν : Type*} [LinearOrder κ]

/-- The values that stand with a key, in order. -/
def valuesOf (xs : List (κ × ν)) (k : κ) : List ν :=
  (xs.filter fun x => x.1 = k).map Prod.snd

structure Groups (G : List (κ × List ν)) (xs : List (κ × ν)) : Prop where
  increasing : (G.map Prod.fst).Pairwise (· < ·)
  mem_iff : ∀ k vs, (k, vs) ∈ G ↔ (∃ v, (k, v) ∈ xs) ∧ vs = valuesOf xs k

theorem valuesOf_append (xs ys : List (κ × ν)) (k : κ) :
    valuesOf (xs ++ ys) k = valuesOf xs k ++ valuesOf ys k := by
  simp [valuesOf]

theorem valuesOf_eq_nil {xs : List (κ × ν)} {k : κ} (h : ∀ x ∈ xs, x.1 ≠ k) :
    valuesOf xs k = [] := by
  rw [valuesOf, List.map_eq_nil_iff, List.filter_eq_nil_iff]
  intro x hx
  simpa using h x hx

theorem valuesOf_map_self (k : κ) (vs : List ν) : valuesOf (vs.map fun v => (k, v)) k = vs := by
  simp [valuesOf, List.filter_map, Function.comp_def]

theorem groups_nil : Groups ([] : List (κ × List ν)) [] where
  increasing := List.Pairwise.nil
  mem_iff k vs := by simp

/-- A further key behind all others. -/
theorem Groups.concat {G : List (κ × List ν)} {xs : List (κ × ν)} (h : Groups G xs) {k : κ}
    {vs : List ν} (hne : vs ≠ []) (hlt : ∀ x ∈ xs, x.1 < k) :
    Groups (G ++ [(k, vs)]) (xs ++ vs.map fun v => (k, v)) where
  increasing := by
    rw [List.map_append, List.map_singleton]
    refine List.pairwise_append.mpr ⟨h.increasing, List.pairwise_singleton _ _, ?_⟩
    intro a ha b hb
    rw [List.mem_singleton.mp hb]
    obtain ⟨⟨a', us⟩, hg, rfl⟩ := List.mem_map.mp ha
    obtain ⟨⟨v, hv⟩, _⟩ := (h.mem_iff a' us).mp hg
    exact hlt _ hv
  mem_iff l us := by
    rw [List.mem_append, List.mem_singleton, h.mem_iff, valuesOf_append]
    by_cases hl : l = k
    · subst hl
      have hold : ∀ v, (l, v) ∉ xs := fun v hv => lt_irrefl _ (hlt _ hv)
      have hnil : valuesOf xs l = [] :=
        valuesOf_eq_nil fun x hx heq => absurd (hlt x hx) (by rw [heq]; exact lt_irrefl l)
      obtain ⟨v, vs', rfl⟩ := List.exists_cons_of_ne_nil hne
      rw [hnil, valuesOf_map_self]
      simp [hold]
    · have hnil : valuesOf (vs.map fun v => (k, v)) l = [] := by
        apply valuesOf_eq_nil
        intro x hx
        obtain ⟨v, _, rfl⟩ := List.mem_map.mp hx
        exact Ne.symm hl
      rw [hnil]
      simp [hl, Ne.symm hl]

end OstepProjects.Grouping
