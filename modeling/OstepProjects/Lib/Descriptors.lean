/-
  OstepProjects/Lib/Descriptors.lean
  ==================================
  **Tables of file descriptors.**

  A table gives the open file behind each descriptor.  `dup` takes the lowest
  descriptor that is free; a call that fails returns `none`, and `none` as a
  descriptor is one that no call accepts.
-/
import Mathlib.Data.List.Basic

namespace OstepProjects.Descriptors

abbrev Table (F : Type*) := List (Option F)

variable {F : Type*}

def lookup (t : Table F) (fd : Nat) : Option F := t[fd]?.join

def assign (t : Table F) (fd : Nat) (f : Option F) : Table F :=
  (t ++ List.replicate (fd + 1 - t.length) none).set fd f

def lowest (t : Table F) : Nat := t.findIdx Option.isNone

/-- A new descriptor for `f`. -/
def alloc (t : Table F) (f : F) : Table F × Nat := (assign t (lowest t) (some f), lowest t)

def dup (t : Table F) (fd : Nat) : Table F × Option Nat :=
  match lookup t fd with
  | none => (t, none)
  | some f => ((alloc t f).1, some (alloc t f).2)

def dup2 (t : Table F) (fd : Option Nat) (new : Nat) : Table F :=
  match fd.bind (lookup t) with
  | none => t
  | some f => assign t new (some f)

def close (t : Table F) : Option Nat → Table F
  | none => t
  | some fd => if (lookup t fd).isSome then assign t fd none else t

theorem lookup_assign (t : Table F) (fd : Nat) (f : Option F) (k : Nat) :
    lookup (assign t fd f) k = if k = fd then f else lookup t k := by
  by_cases hk : k = fd
  · have hlen : fd < (t ++ List.replicate (fd + 1 - t.length) none).length := by
      simp only [List.length_append, List.length_replicate]
      omega
    rw [if_pos hk, hk, lookup, assign, List.getElem?_set_self hlen]
    rfl
  · rw [if_neg hk, lookup, assign, List.getElem?_set_ne (Ne.symm hk), lookup]
    rcases Nat.lt_or_ge k t.length with hlt | hge
    · rw [List.getElem?_append_left hlt]
    · rw [List.getElem?_append_right hge, List.getElem?_replicate, List.getElem?_eq_none hge]
      split <;> rfl

@[simp] theorem lookup_assign_self (t : Table F) (fd : Nat) (f : Option F) :
    lookup (assign t fd f) fd = f := by
  rw [lookup_assign, if_pos rfl]

theorem lookup_assign_of_ne (t : Table F) {fd k : Nat} (h : k ≠ fd) (f : Option F) :
    lookup (assign t fd f) k = lookup t k := by
  rw [lookup_assign, if_neg h]

/-- The lowest free descriptor is free. -/
theorem lookup_lowest (t : Table F) : lookup t (lowest t) = none := by
  rcases Nat.lt_or_ge (lowest t) t.length with hlt | hge
  · have hnone : (t[lowest t]).isNone = true := List.findIdx_getElem (p := Option.isNone)
    rw [lookup, List.getElem?_eq_getElem hlt, Option.isNone_iff_eq_none.mp hnone]
    rfl
  · rw [lookup, List.getElem?_eq_none hge]
    rfl

theorem ne_lowest {t : Table F} {fd : Nat} {f : F} (h : lookup t fd = some f) : fd ≠ lowest t := by
  intro heq
  rw [heq, lookup_lowest] at h
  cases h

/-! ### Redirecting a descriptor -/

/-- `fd` is saved and made to refer to the file just opened, if there is one: the new
    table, the copy that is saved and the descriptor of the file. -/
def redirect (t : Table F) (fd : Nat) (f : Option F) : Table F × Option Nat × Option Nat :=
  let (t₁, saved) := dup t fd
  match f with
  | none => (dup2 t₁ none fd, saved, none)
  | some f => (dup2 (alloc t₁ f).1 (some (alloc t₁ f).2) fd, saved, some (alloc t₁ f).2)

def restore (t : Table F) (fd : Nat) (saved opened : Option Nat) : Table F :=
  close (dup2 t saved fd) opened

theorem lookup_redirect {t : Table F} {fd : Nat} {g : F} (h : lookup t fd = some g)
    (f : Option F) : lookup (redirect t fd f).1 fd = some (f.getD g) := by
  have hsaved := ne_lowest h
  cases f with
  | none => simp [redirect, dup, h, dup2, alloc, lookup_assign_of_ne _ hsaved]
  | some f => simp [redirect, dup, h, dup2, alloc]

/-- **What was redirected is restored.** -/
theorem lookup_restore {t : Table F} {fd : Nat} {g : F} (h : lookup t fd = some g)
    (f : Option F) : lookup (restore (redirect t fd f).1 fd (redirect t fd f).2.1
      (redirect t fd f).2.2) fd = some g := by
  have hsaved := ne_lowest h
  cases f with
  | none => simp [redirect, restore, dup, h, dup2, alloc, close]
  | some f =>
    have hkept : lookup (assign t (lowest t) (some g)) fd = some g := by
      rw [lookup_assign_of_ne _ hsaved, h]
    have hopened := ne_lowest hkept
    have hother := ne_lowest (lookup_assign_self t (lowest t) (some g))
    simp [redirect, restore, dup, h, dup2, alloc, close, lookup_assign, hopened, hother,
      Ne.symm hsaved, Ne.symm hopened]

/-! ### Descriptors that stay open -/

/-- Everything that is open in `t` is open in `t'`, and something else is too. -/
structure Leaks (t t' : Table F) : Prop where
  kept : ∀ k, (lookup t k).isSome → (lookup t' k).isSome
  gained : ∃ k, lookup t k = none ∧ (lookup t' k).isSome

theorem Leaks.trans_kept {t t' t'' : Table F} (h : Leaks t t')
    (hkept : ∀ k, (lookup t' k).isSome → (lookup t'' k).isSome) : Leaks t t'' := by
  obtain ⟨k, hnone, hsome⟩ := h.gained
  exact ⟨fun j hj => hkept j (h.kept j hj), k, hnone, hkept k hsome⟩

theorem Leaks.trans {t t' t'' : Table F} (h : Leaks t t') (h' : Leaks t' t'') : Leaks t t'' :=
  h.trans_kept h'.kept

theorem leaks_assign_lowest (t : Table F) (f : F) : Leaks t (assign t (lowest t) (some f)) := by
  refine ⟨?_, lowest t, lookup_lowest t, by simp⟩
  intro k hk
  rw [lookup_assign]
  split_ifs
  · rfl
  · exact hk

theorem isSome_lookup_dup2 (t : Table F) (fd : Option Nat) (new : Nat) {k : Nat}
    (h : (lookup t k).isSome) : (lookup (dup2 t fd new) k).isSome := by
  unfold dup2
  cases fd.bind (lookup t) with
  | none => exact h
  | some f =>
    dsimp only
    rw [lookup_assign]
    split_ifs
    · rfl
    · exact h

theorem isSome_lookup_close {t : Table F} {fd : Option Nat} {k : Nat} (hk : fd ≠ some k)
    (h : (lookup t k).isSome) : (lookup (close t fd) k).isSome := by
  unfold close
  cases fd with
  | none => exact h
  | some fd =>
    dsimp only
    have hne : k ≠ fd := fun heq => hk (by rw [heq])
    split_ifs
    · rw [lookup_assign_of_ne _ hne]
      exact h
    · exact h

theorem leaks_redirect {t : Table F} {fd : Nat} {g : F} (h : lookup t fd = some g)
    (f : Option F) : Leaks t (redirect t fd f).1 := by
  have hsaved := leaks_assign_lowest t g
  cases f with
  | none =>
    simp only [redirect, dup, h, alloc]
    exact hsaved.trans_kept fun k => isSome_lookup_dup2 _ _ _
  | some f =>
    simp only [redirect, dup, h, alloc]
    have hopened := hsaved.trans (leaks_assign_lowest _ f)
    exact hopened.trans_kept fun k => isSome_lookup_dup2 _ _ _

/-- **The copy that is saved is never closed.** -/
theorem leaks_restore {t : Table F} {fd : Nat} {g : F} (h : lookup t fd = some g)
    (f : Option F) : Leaks t (restore (redirect t fd f).1 fd (redirect t fd f).2.1
      (redirect t fd f).2.2) := by
  have hsaved := leaks_assign_lowest t g
  apply hsaved.trans_kept
  intro k hk
  cases f with
  | none =>
    simp only [restore, redirect, dup, h, alloc, close]
    exact isSome_lookup_dup2 _ _ _ (isSome_lookup_dup2 _ _ _ hk)
  | some f =>
    simp only [restore, redirect, dup, h, alloc]
    obtain ⟨f', hf'⟩ := Option.isSome_iff_exists.mp hk
    have hother : some (lowest (assign t (lowest t) (some g))) ≠ some k :=
      fun heq => ne_lowest hf' (Option.some.inj heq).symm
    apply isSome_lookup_close hother
    apply isSome_lookup_dup2
    apply isSome_lookup_dup2
    exact (leaks_assign_lowest _ f).kept k hk

end OstepProjects.Descriptors
