/-
  OstepProjects/Lib/Paths.lean
  ============================
  **Relative path names, component by component.**

  A path is cut at its slashes.  An empty component and `.` stay where they are, `..`
  goes up, any other name goes down.  `descend` keeps the depth below the starting
  directory and fails where a `..` would leave it; it comes to the end iff no prefix
  of the path has more `..` than names (`neverClimbs_iff`).
-/
import Mathlib.Data.List.Basic
import Mathlib.Data.UInt

namespace OstepProjects.Paths

def slash : UInt8 := 47

def dot : UInt8 := 46

inductive Component
  | here
  | parent
  | name
deriving DecidableEq

def component (s : List UInt8) : Component :=
  if s = [] ∨ s = [dot] then .here
  else if s = [dot, dot] then .parent
  else .name

def components (path : List UInt8) : List Component := (path.splitOn slash).map component

/-- From `start` levels down, every prefix has at most as many `..` as levels to leave. -/
def NeverClimbs (start : Nat) (cs : List Component) : Prop :=
  ∀ p, p <+: cs → p.count .parent ≤ start + p.count .name

/-- The depth at the end. -/
def descend : Nat → List Component → Option Nat
  | depth, [] => some depth
  | depth, .here :: cs => descend depth cs
  | depth, .name :: cs => descend (depth + 1) cs
  | 0, .parent :: _ => none
  | depth + 1, .parent :: cs => descend depth cs

theorem neverClimbs_nil (start : Nat) : NeverClimbs start [] := by
  intro p hp
  rw [List.prefix_nil.mp hp]
  exact Nat.zero_le _

theorem neverClimbs_cons {start : Nat} {c : Component} {cs : List Component} :
    NeverClimbs start (c :: cs) ↔
      ∀ p, p <+: cs → (c :: p).count .parent ≤ start + (c :: p).count .name := by
  constructor
  · intro h p hp
    exact h (c :: p) (List.cons_prefix_cons.mpr ⟨rfl, hp⟩)
  · intro h p hp
    cases p with
    | nil => exact Nat.zero_le _
    | cons c' p =>
      obtain ⟨rfl, hprefix⟩ := List.cons_prefix_cons.mp hp
      exact h p hprefix

theorem neverClimbs_here {start : Nat} {cs : List Component} :
    NeverClimbs start (.here :: cs) ↔ NeverClimbs start cs := by
  rw [neverClimbs_cons]
  simp [NeverClimbs]

theorem neverClimbs_name {start : Nat} {cs : List Component} :
    NeverClimbs start (.name :: cs) ↔ NeverClimbs (start + 1) cs := by
  rw [neverClimbs_cons]
  apply forall₂_congr
  intro p _
  simp only [List.count_cons, beq_iff_eq, reduceCtorEq, if_false, if_true]
  omega

theorem neverClimbs_parent {start : Nat} {cs : List Component} :
    NeverClimbs start (.parent :: cs) ↔ 0 < start ∧ NeverClimbs (start - 1) cs := by
  rw [neverClimbs_cons]
  simp only [List.count_cons, beq_iff_eq, reduceCtorEq, if_false, if_true]
  constructor
  · intro h
    have hone := h [] List.nil_prefix
    have hpos : 0 < start := by simpa [Nat.lt_iff_add_one_le] using hone
    refine ⟨hpos, ?_⟩
    intro p hp
    have hle := h p hp
    omega
  · rintro ⟨hpos, h⟩ p hp
    have hle := h p hp
    omega

/-- **The walk down succeeds iff no prefix climbs above the starting directory.** -/
theorem neverClimbs_iff (start : Nat) (cs : List Component) :
    NeverClimbs start cs ↔ (descend start cs).isSome := by
  fun_induction descend start cs with
  | case1 depth => exact iff_of_true (neverClimbs_nil depth) rfl
  | case2 depth cs ih => rw [neverClimbs_here, ih]
  | case3 depth cs ih => rw [neverClimbs_name, ih]
  | case4 cs =>
    rw [neverClimbs_parent]
    exact iff_of_false (fun h => absurd h.1 (Nat.lt_irrefl 0)) Bool.false_ne_true
  | case5 depth cs ih =>
    rw [neverClimbs_parent, Nat.succ_sub_one, ih]
    exact and_iff_right depth.succ_pos

/-- A name behind the path changes nothing. -/
theorem descend_append_name (start : Nat) (cs : List Component) :
    (descend start (cs ++ [.name])).isSome = (descend start cs).isSome := by
  fun_induction descend start cs with
  | case1 depth => rfl
  | case2 depth cs ih => exact ih
  | case3 depth cs ih => exact ih
  | case4 cs => rfl
  | case5 depth cs ih => exact ih

theorem descend_append_here (start : Nat) (cs : List Component) :
    (descend start (cs ++ [.here])).isSome = (descend start cs).isSome := by
  fun_induction descend start cs with
  | case1 depth => rfl
  | case2 depth cs ih => exact ih
  | case3 depth cs ih => exact ih
  | case4 cs => rfl
  | case5 depth cs ih => exact ih

end OstepProjects.Paths
