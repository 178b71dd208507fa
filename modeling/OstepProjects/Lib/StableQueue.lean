/-
  OstepProjects/Lib/StableQueue.lean
  ==================================
  **A queue that serves the smallest key first, and equal keys in order of arrival.**

  `Served` says which answers are right for a sequence of calls, in terms of the list
  of the pending elements in their order of arrival.  An implementation keeps the
  pending elements in another list, the order in which they would be served; `Sorts`
  relates the two, `Sorts.put` and `Sorts.take` are its rules for the two calls.
-/
import OstepProjects.Lib.InsertionSort
import Mathlib.Order.Lattice

namespace OstepProjects.StableQueue

open OstepProjects.InsertionSort

variable {α κ : Type*} [LinearOrder κ] (key : α → κ)

inductive Call (α : Type*)
  | put (x : α)
  | get

/-- What a sequence of calls puts, in order. -/
def putted : List (Call α) → List α
  | [] => []
  | .put x :: calls => x :: putted calls
  | .get :: calls => putted calls

theorem putted_append (calls calls' : List (Call α)) :
    putted (calls ++ calls') = putted calls ++ putted calls' := by
  induction calls with
  | nil => rfl
  | cons call calls ih => cases call <;> simp [putted, ih]

/-! ### What is served -/

/-- `x` is the earliest of the smallest elements of `pending`, and `rest` are the others. -/
def IsNext (pending : List α) (x : α) (rest : List α) : Prop :=
  ∃ before behind, pending = before ++ x :: behind ∧ rest = before ++ behind ∧
    (∀ y ∈ before, key x < key y) ∧ ∀ y ∈ behind, key x ≤ key y

/-- After `calls` the answers given are `answers`, and `pending` is put and not taken. -/
inductive Served : List (Call α) → List α → List α → Prop
  | start : Served [] [] []
  | put {calls : List (Call α)} {answers pending : List α} (x : α) :
      Served calls answers pending → Served (calls ++ [.put x]) answers (pending ++ [x])
  | get {calls : List (Call α)} {answers pending rest : List α} {x : α} :
      Served calls answers pending → IsNext key pending x rest →
        Served (calls ++ [.get]) (answers ++ [x]) rest

theorem IsNext.perm {pending rest : List α} {x : α} (h : IsNext key pending x rest) :
    pending.Perm (x :: rest) := by
  obtain ⟨before, behind, rfl, rfl, _⟩ := h
  exact List.perm_middle

/-- **Nothing is lost or duplicated.** -/
theorem Served.perm {calls : List (Call α)} {answers pending : List α}
    (h : Served key calls answers pending) : (putted calls).Perm (answers ++ pending) := by
  induction h with
  | start => exact List.Perm.refl _
  | put x _ ih =>
    rw [putted_append, ← List.append_assoc]
    exact ih.append_right _
  | get _ hnext ih =>
    rw [putted_append, List.append_assoc]
    change (putted _ ++ []).Perm _
    rw [List.append_nil]
    exact ih.trans (hnext.perm.append_left _)

/-! ### The sorted list -/

/-- `queue` holds the elements of `pending` in the order in which they are served. -/
structure Sorts (queue pending : List α) : Prop where
  sorted : queue.Pairwise fun x y => key x ≤ key y
  stable : ∀ k, queue.filter (fun x => key x = k) = pending.filter (fun x => key x = k)

theorem Sorts.nil : Sorts key ([] : List α) [] := ⟨List.Pairwise.nil, fun _ => rfl⟩

variable {key} {queue pending : List α}

theorem Sorts.perm (h : Sorts key queue pending) : queue.Perm pending := by
  classical
  rw [List.perm_iff_count]
  intro x
  have hcount : ∀ l : List α, (l.filter fun y => key y = key x).count x = l.count x :=
    fun l => List.count_filter (by simp)
  rw [← hcount queue, ← hcount pending, h.stable]

theorem Sorts.put (h : Sorts key queue pending) {lt : α → α → Prop} [DecidableRel lt]
    (hlt : ∀ x y, lt x y ↔ key x < key y) (x : α) :
    Sorts key (insertLast lt queue x) (pending ++ [x]) := by
  constructor
  · exact pairwise_insertLast lt key hlt x h.sorted
  · intro k
    have hequal : ∀ y ∈ queue, decide (key x = k) = true → decide (key y = k) = true →
        ¬ lt x y := by
      intro y _ hx hy
      rw [hlt, of_decide_eq_true hx, of_decide_eq_true hy]
      exact lt_irrefl k
    rw [filter_insertLast lt (fun y => key y = k) queue x hequal, List.filter_append,
      List.filter_append, h.stable]

theorem Sorts.take {x : α} (h : Sorts key (x :: queue) pending) :
    ∃ rest, IsNext key pending x rest ∧ Sorts key queue rest := by
  obtain ⟨hle, hsorted⟩ := List.pairwise_cons.mp h.sorted
  have hleAll : ∀ y ∈ pending, key x ≤ key y := by
    intro y hy
    rcases List.mem_cons.mp (h.perm.mem_iff.mpr hy) with rfl | hy
    · exact le_refl _
    · exact hle y hy
  -- The elements with the key of `x` come in both lists in the same order.
  have hfirst := (h.stable (key x)).symm
  rw [List.filter_cons_of_pos (by simp)] at hfirst
  obtain ⟨before, behind, hpending, hbefore, _, hbehind⟩ := List.filter_eq_cons_iff.mp hfirst
  have hother : ∀ y ∈ before, key y ≠ key x := by
    intro y hy heq
    exact hbefore y hy (by simp [heq])
  refine ⟨before ++ behind, ⟨before, behind, hpending, rfl, ?_, ?_⟩, hsorted, ?_⟩
  · intro y hy
    exact lt_of_le_of_ne (hleAll y (by simp [hpending, hy])) (hother y hy).symm
  · intro y hy
    exact hleAll y (by simp [hpending, hy])
  · intro k
    by_cases hk : key x = k
    · have hnone : before.filter (fun y => key y = k) = [] := by
        rw [List.filter_eq_nil_iff]
        intro y hy
        simpa [← hk] using hother y hy
      rw [List.filter_append, hnone, List.nil_append, ← hk, hbehind]
    · have hstable := h.stable k
      rw [hpending] at hstable
      simpa [List.filter_cons, hk] using hstable

end OstepProjects.StableQueue
