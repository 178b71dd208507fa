/-
  OstepProjects/MapReduce/KeyGroups.lean
  ======================================
  **The key groups of a partition as a function of the emitted pairs.**

  A reducer that has read all of its partition has been called with the distinct keys
  of the partition in the order of `strcmp`, each with its values in the order of their
  emission (`ReducersInv.delivered_eq`).
-/
import Mathlib.Data.Finset.Sort
import OstepProjects.MapReduce.ReducePhase

namespace OstepProjects.MapReduce

open OstepProjects.CString OstepProjects.Grouping

variable {m r : Nat} (cfg : Config m r) (xs : List (CString × CString))

/-- Keys in the order of `strcmp`. -/
def increasing (keys : Finset CString) : List CString := keys.sort fun a b => a ≤ b

theorem mem_increasing {keys : Finset CString} {k : CString} : k ∈ increasing keys ↔ k ∈ keys :=
  Finset.mem_sort _

theorem pairwise_increasing (keys : Finset CString) : (increasing keys).Pairwise (· < ·) :=
  (Finset.sortedLT_sort keys).pairwise

/-- The distinct keys of a partition. -/
def distinctKeys (p : Nat) : List CString :=
  increasing ((xs.map Prod.fst).toFinset.filter fun k => cfg.partition k r = p)

/-- The groups of a partition, each with the values of its key. -/
def groupsOf (p : Nat) : List (CString × List CString) :=
  (distinctKeys cfg xs p).map fun k => (k, valuesOf xs k)

variable {cfg xs}

theorem mem_distinctKeys {p : Nat} {k : CString} :
    k ∈ distinctKeys cfg xs p ↔ (∃ v, (k, v) ∈ xs) ∧ cfg.partition k r = p := by
  rw [distinctKeys, mem_increasing, Finset.mem_filter, List.mem_toFinset, List.mem_map]
  refine and_congr_left fun _ => ⟨?_, ?_⟩
  · rintro ⟨⟨k', v⟩, hv, rfl⟩
    exact ⟨v, hv⟩
  · rintro ⟨v, hv⟩
    exact ⟨(k, v), hv, rfl⟩

theorem distinctKeys_increasing (p : Nat) : (distinctKeys cfg xs p).Pairwise (· < ·) :=
  pairwise_increasing _

/-- Increasing keys that are those of a partition are its distinct keys. -/
theorem eq_distinctKeys {p : Nat} {ks : List CString} (hlt : ks.Pairwise (· < ·))
    (hmem : ∀ k, k ∈ ks ↔ (∃ v, (k, v) ∈ xs) ∧ cfg.partition k r = p) :
    ks = distinctKeys cfg xs p := by
  apply List.Pairwise.eq_of_mem_iff hlt (distinctKeys_increasing p)
  intro k
  rw [hmem, mem_distinctKeys]

/-- **The groups delivered for a partition.** -/
theorem ReducersInv.delivered_eq {s : State m r} {L : Nat → List map_data}
    (h : ReducersInv cfg s L) {p : Fin r} (hp : s.reducers p = .returned) :
    s.delivered p = groupsOf cfg s.pairs p := by
  obtain ⟨hsorted, hmem⟩ := h.groups hp
  have hkeys : (s.delivered p).map Prod.fst = distinctKeys cfg s.pairs p := by
    apply eq_distinctKeys (hsorted.imp fun hlt => (strcmp_neg _ _).mp hlt)
    intro k
    constructor
    · intro hk
      obtain ⟨⟨k', vs⟩, hd, rfl⟩ := List.mem_map.mp hk
      obtain ⟨hpair, hpart, _⟩ := (hmem k' vs).mp hd
      exact ⟨hpair, hpart⟩
    · rintro ⟨hpair, hpart⟩
      exact List.mem_map.mpr ⟨(k, valuesOf s.pairs k), (hmem _ _).mpr ⟨hpair, hpart, rfl⟩, rfl⟩
  rw [groupsOf, ← hkeys, List.map_map]
  refine (List.map_id _).symm.trans (List.map_congr_left ?_)
  rintro ⟨k, vs⟩ hd
  obtain ⟨_, _, rfl⟩ := (hmem k vs).mp hd
  rfl

end OstepProjects.MapReduce
