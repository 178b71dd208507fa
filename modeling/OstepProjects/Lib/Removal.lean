/-
  OstepProjects/Lib/Removal.lean
  ==============================
  **Sets in a representation with membership and removal.**

  A `SetOps` says that two representations with the same members are equal and that
  removing an element takes away its membership and no other.  Everything else about a
  sequence of removals follows: it is set difference (`elements_removeAll`), so it
  depends on the elements of the sequence only (`removeAll_congr`), and removals commute
  and can be repeated.
-/
import Mathlib.Data.Set.Basic

namespace OstepProjects.Removal

/-- Representations `S` of sets of `ι`; the elements in `valid` can be removed. -/
structure SetOps (S ι : Type*) [DecidableEq ι] where
  mem : S → ι → Bool
  remove : ι → S → S
  valid : ι → Prop
  ext : ∀ s t, (∀ b, mem s b = mem t b) → s = t
  mem_remove : ∀ s a b, valid a → mem (remove a s) b = (mem s b && decide (b ≠ a))

variable {S ι : Type*} [DecidableEq ι] (R : SetOps S ι)

def SetOps.elements (s : S) : Set ι := {b | R.mem s b = true}

/-- Remove the elements of a list, from the front. -/
def SetOps.removeAll (as : List ι) (s : S) : S := as.foldl (fun s a => R.remove a s) s

variable {R} {as bs : List ι} {s : S}

theorem SetOps.removeAll_append :
    R.removeAll (as ++ bs) s = R.removeAll bs (R.removeAll as s) :=
  List.foldl_append

theorem SetOps.mem_removeAll (h : ∀ a ∈ as, R.valid a) (s : S) (b : ι) :
    R.mem (R.removeAll as s) b = (R.mem s b && decide (b ∉ as)) := by
  induction as generalizing s with
  | nil => simp [removeAll]
  | cons a as ih =>
    have hrest := ih (fun c hc => h c (List.mem_cons_of_mem a hc)) (R.remove a s)
    have hfirst := R.mem_remove s a b (h a List.mem_cons_self)
    rw [hfirst] at hrest
    refine hrest.trans ?_
    by_cases hb : b = a
    · simp [hb]
    · simp [hb]

/-- **A sequence of removals is set difference.** -/
theorem SetOps.elements_removeAll (h : ∀ a ∈ as, R.valid a) (s : S) :
    R.elements (R.removeAll as s) = R.elements s \ {a | a ∈ as} := by
  apply Set.ext
  intro b
  simp [elements, mem_removeAll h]

/-- **Neither the order nor the number of repetitions matters.** -/
theorem SetOps.removeAll_congr (h : ∀ a ∈ as, R.valid a) (hsame : ∀ a, a ∈ bs ↔ a ∈ as) (s : S) :
    R.removeAll bs s = R.removeAll as s := by
  apply R.ext
  intro b
  have hbs : ∀ a ∈ bs, R.valid a := fun a ha => h a ((hsame a).mp ha)
  rw [mem_removeAll hbs, mem_removeAll h, decide_eq_decide.mpr (not_congr (hsame b))]

theorem SetOps.removeAll_perm (h : ∀ a ∈ as, R.valid a) (hperm : bs.Perm as) (s : S) :
    R.removeAll bs s = R.removeAll as s :=
  removeAll_congr h (fun _ => hperm.mem_iff) s

theorem SetOps.remove_comm {a c : ι} (ha : R.valid a) (hc : R.valid c) (s : S) :
    R.remove a (R.remove c s) = R.remove c (R.remove a s) := by
  have hvalid : ∀ b ∈ [a, c], R.valid b := by
    intro b hb
    rcases List.mem_cons.mp hb with rfl | hb
    · exact ha
    · exact List.mem_singleton.mp hb ▸ hc
  exact removeAll_perm hvalid (List.Perm.swap a c []) s

/-- An element that is removed already. -/
theorem SetOps.remove_removeAll (h : ∀ a ∈ as, R.valid a) {a : ι} (ha : a ∈ as) (s : S) :
    R.remove a (R.removeAll as s) = R.removeAll as s := by
  have hsame : ∀ b, b ∈ as ++ [a] ↔ b ∈ as := by
    intro b
    simp only [List.mem_append, List.mem_singleton]
    exact ⟨fun hb => hb.elim id fun heq => heq ▸ ha, Or.inl⟩
  exact removeAll_append.symm.trans (removeAll_congr h hsame s)

theorem SetOps.remove_remove {a : ι} (ha : R.valid a) (s : S) :
    R.remove a (R.remove a s) = R.remove a s := by
  have hvalid : ∀ b ∈ [a], R.valid b := fun b hb => List.mem_singleton.mp hb ▸ ha
  exact remove_removeAll hvalid List.mem_cons_self s

end OstepProjects.Removal
