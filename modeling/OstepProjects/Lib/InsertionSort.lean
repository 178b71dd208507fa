/-
  OstepProjects/Lib/InsertionSort.lean
  ====================================
  **Insertion from the right, in place.**

  `sift` moves the last cell of an array to the left past every larger cell, by
  swapping neighbours; on lists this is `insertLast`.  Inserting the values one by
  one keeps the list sorted (`pairwise_insertLast`) and equal keys in the order of
  insertion (`filter_insertLast`).
-/
import Mathlib.Data.List.Induction
import Mathlib.Data.List.Sort
import Mathlib.Logic.Function.Basic

namespace OstepProjects.InsertionSort

variable {α : Type*} (lt : α → α → Prop) [DecidableRel lt]

/-! ### On lists -/

/-- Insert `x` in front of the larger elements at the right end. -/
def insertLast (xs : List α) (x : α) : List α :=
  (xs.reverse.orderedInsert (fun a b => ¬ lt a b) x).reverse

@[simp] theorem insertLast_nil (x : α) : insertLast lt [] x = [x] := rfl

theorem insertLast_concat (xs : List α) (x y : α) :
    insertLast lt (xs ++ [y]) x =
      if lt x y then insertLast lt xs x ++ [y] else xs ++ [y] ++ [x] := by
  by_cases h : lt x y
  · rw [if_pos h]
    simp [insertLast, h]
  · rw [if_neg h]
    simp [insertLast, h]

/-- Nothing moves past elements that are not larger. -/
theorem insertLast_of_forall_not_lt {xs : List α} {x : α} (h : ∀ y ∈ xs, ¬ lt x y) :
    insertLast lt xs x = xs ++ [x] := by
  induction xs using List.reverseRecOn with
  | nil => rfl
  | append_singleton xs y _ =>
    rw [insertLast_concat, if_neg (h y (by simp))]

/-- Insertion into a list that continues with `y` and elements that are not smaller. -/
theorem insertLast_append {xs zs : List α} {x y : α} (h : ∀ z ∈ zs, lt x y → lt x z) :
    insertLast lt (xs ++ y :: zs) x =
      if lt x y then insertLast lt xs x ++ y :: zs else xs ++ y :: insertLast lt zs x := by
  induction zs using List.reverseRecOn with
  | nil =>
    rw [insertLast_concat]
    split
    · rfl
    · rw [insertLast_nil, List.append_assoc, List.singleton_append]
  | append_singleton zs z ih =>
    have hsplit : xs ++ y :: (zs ++ [z]) = (xs ++ y :: zs) ++ [z] := by simp
    rw [hsplit, insertLast_concat, insertLast_concat, ih fun z' hz' => h z' (by simp [hz'])]
    by_cases hxy : lt x y
    · have hxz : lt x z := h z (by simp) hxy
      rw [if_pos hxz, if_pos hxy, if_pos hxy]
      simp
    · rw [if_neg hxy, if_neg hxy]
      by_cases hxz : lt x z
      · rw [if_pos hxz, if_pos hxz]
        simp
      · rw [if_neg hxz, if_neg hxz]
        simp

/-- An element smaller than all others goes to the front. -/
theorem insertLast_of_forall_lt {xs : List α} {x : α} (h : ∀ y ∈ xs, lt x y) :
    insertLast lt xs x = x :: xs := by
  cases xs with
  | nil => rfl
  | cons y ys =>
    have happend := @insertLast_append α lt _ [] ys x y
      fun z hz _ => h z (List.mem_cons_of_mem y hz)
    rw [if_pos (h y List.mem_cons_self)] at happend
    exact happend

theorem mem_insertLast {xs : List α} {x y : α} : y ∈ insertLast lt xs x ↔ y = x ∨ y ∈ xs := by
  simp [insertLast]

@[simp] theorem length_insertLast (xs : List α) (x : α) :
    (insertLast lt xs x).length = xs.length + 1 := by
  simp [insertLast, List.orderedInsert_length]

theorem perm_insertLast (xs : List α) (x : α) : (insertLast lt xs x).Perm (xs ++ [x]) := by
  apply (List.reverse_perm _).trans
  apply (List.perm_orderedInsert _ x xs.reverse).trans
  exact ((List.reverse_perm xs).cons x).trans (List.perm_append_singleton x xs).symm

/-- Insertion keeps a list sorted. -/
theorem pairwise_insertLast {β : Type*} [LinearOrder β] (key : α → β)
    (hlt : ∀ x y, lt x y ↔ key x < key y) {xs : List α} (x : α)
    (h : xs.Pairwise fun a b => key a ≤ key b) :
    (insertLast lt xs x).Pairwise fun a b => key a ≤ key b := by
  induction xs using List.reverseRecOn with
  | nil => simp
  | append_singleton xs y ih =>
    rw [insertLast_concat]
    obtain ⟨hxs, _, hle⟩ := List.pairwise_append.mp h
    by_cases hxy : lt x y
    · rw [if_pos hxy]
      refine List.pairwise_append.mpr ⟨ih hxs, List.pairwise_singleton _ _, ?_⟩
      intro a ha b hb
      rw [List.mem_singleton.mp hb]
      rcases (mem_insertLast lt).mp ha with rfl | ha
      · exact ((hlt _ _).mp hxy).le
      · exact hle a ha y (List.mem_singleton_self y)
    · rw [if_neg hxy]
      have hyx : key y ≤ key x := not_lt.mp fun hlt' => hxy ((hlt _ _).mpr hlt')
      refine List.pairwise_append.mpr ⟨h, List.pairwise_singleton _ _, ?_⟩
      intro a ha b hb
      rw [List.mem_singleton.mp hb]
      rcases List.mem_append.mp ha with ha | ha
      · exact (hle a ha y (List.mem_singleton_self y)).trans hyx
      · rw [List.mem_singleton.mp ha]
        exact hyx

/-- **Stability.**  Among the elements that `p` selects, none of which is smaller
    than another, the new one comes last. -/
theorem filter_insertLast (p : α → Bool) (xs : List α) (x : α)
    (hp : ∀ y ∈ xs, p x = true → p y = true → ¬ lt x y) :
    (insertLast lt xs x).filter p = (xs ++ [x]).filter p := by
  induction xs using List.reverseRecOn with
  | nil => rfl
  | append_singleton xs y ih =>
    rw [insertLast_concat]
    by_cases hxy : lt x y
    · rw [if_pos hxy, List.filter_append, ih fun z hz => hp z (by simp [hz])]
      by_cases hx : p x = true
      · have hy : ¬ p y = true := fun hy => hp y (by simp) hx hy hxy
        simp [hy]
      · simp [List.filter_cons, hx]
    · rw [if_neg hxy]

/-! ### On arrays -/

/-- The array `a` begins with the values `xs`. -/
def Begins (a : Nat → α) (xs : List α) : Prop := ∀ k x, xs[k]? = some x → a k = x

theorem begins_nil (a : Nat → α) : Begins a [] := fun k x h => by simp at h

theorem begins_concat {a : Nat → α} {xs : List α} {x : α} :
    Begins a (xs ++ [x]) ↔ Begins a xs ∧ a xs.length = x := by
  constructor
  · intro h
    refine ⟨fun k y hk => h k y ?_, h _ _ (by simp)⟩
    rw [List.getElem?_append_left (List.getElem?_eq_some_iff.mp hk).1]
    exact hk
  · rintro ⟨h, hx⟩ k y hk
    rcases Nat.lt_or_ge k xs.length with hlt | hge
    · rw [List.getElem?_append_left hlt] at hk
      exact h k y hk
    · rw [List.getElem?_append_right hge, List.getElem?_singleton] at hk
      split at hk
      · rename_i hz
        have hk' : k = xs.length := by omega
        rw [hk', hx]
        exact Option.some.inj hk
      · cases hk

theorem Begins.getElem {a : Nat → α} {xs : List α} (h : Begins a xs) {k : Nat}
    (hk : k < xs.length) : a k = xs[k] :=
  h k _ (List.getElem?_eq_getElem hk)

theorem Begins.map_range {a : Nat → α} {xs : List α} (h : Begins a xs) :
    (List.range xs.length).map a = xs := by
  apply List.ext_getElem
  · simp
  · intro k _ hk
    rw [List.getElem_map, List.getElem_range]
    exact h.getElem hk

/-- A write behind the values leaves them as they are. -/
theorem Begins.update {a : Nat → α} {xs : List α} (h : Begins a xs) {k : Nat}
    (hk : xs.length ≤ k) (x : α) : Begins (Function.update a k x) xs := by
  intro j y hj
  have hlt := (List.getElem?_eq_some_iff.mp hj).1
  rw [Function.update_of_ne (by omega)]
  exact h j y hj

def swap (a : Nat → α) (i j : Nat) : Nat → α :=
  Function.update (Function.update a i (a j)) j (a i)

/-- Move cell `i` to the left while it is smaller than its left neighbour. -/
def sift (a : Nat → α) : Nat → (Nat → α)
  | 0 => a
  | i + 1 => if lt (a (i + 1)) (a i) then sift (swap a (i + 1) i) i else a

theorem sift_of_lt (a : Nat → α) {i k : Nat} (h : i < k) : sift lt a i k = a k := by
  induction i generalizing a with
  | zero => rfl
  | succ i ih =>
    rw [sift]
    split
    · rw [ih _ (by omega), swap, Function.update_of_ne (by omega), Function.update_of_ne (by omega)]
    · rfl

/-- **`sift` is `insertLast`.** -/
theorem sift_begins {a : Nat → α} {xs : List α} {x : α} (h : Begins a xs)
    (hx : a xs.length = x) : Begins (sift lt a xs.length) (insertLast lt xs x) := by
  induction xs using List.reverseRecOn generalizing a with
  | nil =>
    intro k y hk
    have hk' : k = 0 := by
      have := (List.getElem?_eq_some_iff.mp hk).1
      simpa using this
    subst hk'
    simp only [insertLast_nil, List.getElem?_cons_zero, Option.some.injEq] at hk
    rw [← hk, ← hx]
    rfl
  | append_singleton xs y ih =>
    obtain ⟨hxs, hy⟩ := begins_concat.mp h
    have hlen : (xs ++ [y]).length = xs.length + 1 := by simp
    rw [hlen] at hx ⊢
    rw [sift, hx, hy, insertLast_concat]
    by_cases hxy : lt x y
    · rw [if_pos hxy, if_pos hxy]
      have hkeep : Begins (swap a (xs.length + 1) xs.length) xs :=
        (hxs.update (by omega) _).update (le_refl _) _
      have hmoved : swap a (xs.length + 1) xs.length xs.length = x := by
        rw [swap, Function.update_self, hx]
      refine begins_concat.mpr ⟨ih hkeep hmoved, ?_⟩
      rw [length_insertLast, sift_of_lt lt _ (Nat.lt_succ_self _), swap,
        Function.update_of_ne (by omega), Function.update_self, hy]
    · rw [if_neg hxy, if_neg hxy]
      refine begins_concat.mpr ⟨h, ?_⟩
      rw [hlen, hx]

end OstepProjects.InsertionSort
