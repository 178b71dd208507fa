/-
  OstepProjects/Lib/Allocation.lean
  =================================
  **A region that is divided among owners.**

  Every owner has a list of places.  No place is listed twice, by one owner or by two, and
  what nobody lists is free.  So a listed place has one owner (`owner_unique`), and the
  places of the region are the free ones and those in the lists (`card_free_add`).
-/
import Mathlib.Algebra.GroupWithZero.Nat
import Mathlib.Data.Finset.Card
import Mathlib.Data.List.Nodup
import Mathlib.Data.List.Pairwise

namespace OstepProjects

structure Allocation (ι β : Type*) [DecidableEq β] where
  owners : List ι
  places : ι → List β
  region : Finset β
  once : (owners.flatMap places).Nodup
  inside : ∀ b ∈ owners.flatMap places, b ∈ region

namespace Allocation

variable {ι β : Type*} [DecidableEq β] (A : Allocation ι β)

/-- The places with an owner. -/
def taken : Finset β := (A.owners.flatMap A.places).toFinset

/-- What nobody lists. -/
def free : Finset β := A.region \ A.taken

variable {A}

theorem taken_subset : A.taken ⊆ A.region := fun _ hb => A.inside _ (List.mem_toFinset.mp hb)

/-- In the region, a place is free or has an owner. -/
theorem mem_taken_iff {b : β} : b ∈ A.taken ↔ b ∈ A.region ∧ b ∉ A.free := by
  unfold free
  rw [Finset.mem_sdiff, not_and, not_not]
  exact ⟨fun hb => ⟨taken_subset hb, fun _ => hb⟩, fun h => h.2 h.1⟩

theorem places_nodup {i : ι} (hi : i ∈ A.owners) : (A.places i).Nodup :=
  (List.nodup_flatMap.mp A.once).1 i hi

/-- **A place has one owner.** -/
theorem owner_unique {i j : ι} {b : β} (hi : i ∈ A.owners) (hj : j ∈ A.owners)
    (hbi : b ∈ A.places i) (hbj : b ∈ A.places j) : i = j := by
  by_contra hne
  have hdisjoint := (List.nodup_flatMap.mp A.once).2
  have hsymm : Std.Symm (Function.onFun List.Disjoint A.places) := ⟨fun _ _ h => h.symm⟩
  exact hdisjoint.forall hi hj hne hbi hbj

/-- **Nothing is lost:** a place of the region is free, or one place of one list. -/
theorem card_free_add :
    A.free.card + (A.owners.map fun i => (A.places i).length).sum = A.region.card := by
  have htaken : A.taken.card = (A.owners.map fun i => (A.places i).length).sum := by
    have hlength := List.length_flatMap (l := A.owners) (f := A.places)
    unfold taken
    rw [List.toFinset_card_of_nodup A.once, hlength]
  rw [← htaken]
  exact Finset.card_sdiff_add_card_eq_card taken_subset

end Allocation

end OstepProjects
