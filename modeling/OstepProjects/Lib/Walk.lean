/-
  OstepProjects/Lib/Walk.lean
  ===========================
  **Recursion over a graph without a visited set.**

  `walk` visits the items of a node in order and descends into those that are nodes
  again; `fuel` bounds the depth, and an item can stop the walk.  It comes back iff the
  node is accessible, every chain of descents from it ends, and none of them leads to a
  node with an item that stops it (`walk_ends_iff`).  What it has put out then are the
  outputs of the nodes that chains of descents lead to (`mem_walk_iff`).
-/
import Mathlib.Data.List.Basic
import Mathlib.Logic.Relation
import Mathlib.Order.Lattice

namespace OstepProjects.Walk

variable {ι α β : Type*}

/-- The outputs of all items, or `none` when one of them has none. -/
def collect (f : ι → Option (List β)) : List ι → Option (List β)
  | [] => some []
  | x :: xs => do
    let out ← f x
    let more ← collect f xs
    return out ++ more

theorem collect_cons (f : ι → Option (List β)) (x : ι) (xs : List ι) :
    collect f (x :: xs) = (f x).bind fun out => (collect f xs).map fun more => out ++ more := by
  rw [collect]
  cases f x with
  | none => rfl
  | some out => cases collect f xs <;> rfl

theorem collect_eq_none {f : ι → Option (List β)} {xs : List ι} :
    collect f xs = none ↔ ∃ x ∈ xs, f x = none := by
  induction xs with
  | nil => simp [collect]
  | cons x xs ih =>
    rw [collect_cons]
    cases hx : f x with
    | none => simp [hx]
    | some out =>
      rw [Option.bind_some, Option.map_eq_none_iff, ih]
      simp [hx]

theorem collect_append (f : ι → Option (List β)) (xs ys : List ι) :
    collect f (xs ++ ys) =
      (collect f xs).bind fun out => (collect f ys).map fun more => out ++ more := by
  induction xs with
  | nil =>
    change collect f ys = (collect f ys).map fun more => [] ++ more
    simp
  | cons x xs ih =>
    rw [List.cons_append, collect_cons, collect_cons, ih]
    cases f x with
    | none => rfl
    | some out =>
      cases collect f xs with
      | none => rfl
      | some more => cases collect f ys <;> simp

theorem collect_congr {f g : ι → Option (List β)} {xs : List ι} (h : ∀ x ∈ xs, f x = g x) :
    collect f xs = collect g xs := by
  induction xs with
  | nil => rfl
  | cons x xs ih =>
    rw [collect_cons, collect_cons, h x (by simp), ih fun x hx => h x (by simp [hx])]

theorem collect_flatMap {κ : Type*} (f : ι → Option (List β)) (g : κ → List ι) (xs : List κ) :
    collect f (xs.flatMap g) = collect (fun x => collect f (g x)) xs := by
  induction xs with
  | nil => rfl
  | cons x xs ih => rw [List.flatMap_cons, collect_append, collect_cons, ih]

theorem collect_map {κ : Type*} (f : ι → Option (List β)) (g : κ → ι) (xs : List κ) :
    collect f (xs.map g) = collect (fun x => f (g x)) xs := by
  induction xs with
  | nil => rfl
  | cons x xs ih => rw [List.map_cons, collect_cons, collect_cons, ih]

theorem mem_collect_iff {f : ι → Option (List β)} {xs : List ι} {out : List β}
    (h : collect f xs = some out) {y : β} : y ∈ out ↔ ∃ x ∈ xs, ∃ o, f x = some o ∧ y ∈ o := by
  induction xs generalizing out with
  | nil =>
    obtain rfl : [] = out := Option.some.inj h
    simp
  | cons x xs ih =>
    rw [collect_cons] at h
    obtain ⟨first, hfirst, h⟩ := Option.bind_eq_some_iff.mp h
    obtain ⟨more, hmore, rfl⟩ := Option.map_eq_some_iff.mp h
    rw [List.mem_append, ih hmore, List.exists_mem_cons_iff]
    refine or_congr_left ⟨fun hy => ⟨first, hfirst, hy⟩, ?_⟩
    rintro ⟨o, ho, hy⟩
    obtain rfl := Option.some.inj (hfirst.symm.trans ho)
    exact hy

/-- What the walk comes to at a node. -/
inductive Item (α β : Type*)
  | put (out : β)
  | into (node : α)
  | stop

def atItem (descend : α → Option (List β)) : Item α β → Option (List β)
  | .put out => some [out]
  | .into e => descend e
  | .stop => none

def walk (items : α → List (Item α β)) : Nat → α → Option (List β)
  | 0, _ => none
  | fuel + 1, a => collect (atItem (walk items fuel)) (items a)

/-- The walk descends from `d` into `e`. -/
def Descends (items : α → List (Item α β)) (e d : α) : Prop := .into e ∈ items d

/-- Chains of descents lead from `a` to `d`. -/
def Leads (items : α → List (Item α β)) : α → α → Prop :=
  Relation.ReflTransGen fun d e => Descends items e d

variable {items : α → List (Item α β)}

theorem walk_eq_none {fuel : Nat} {a : α} :
    walk items (fuel + 1) a = none ↔
      .stop ∈ items a ∨ ∃ e, Descends items e a ∧ walk items fuel e = none := by
  rw [walk, collect_eq_none]
  constructor
  · rintro ⟨item, hmem, hnone⟩
    cases item with
    | put out => cases hnone
    | into e => exact Or.inr ⟨e, hmem, hnone⟩
    | stop => exact Or.inl hmem
  · rintro (hstop | ⟨e, hmem, hnone⟩)
    · exact ⟨.stop, hstop, rfl⟩
    · exact ⟨.into e, hmem, hnone⟩

/-- More fuel does no harm. -/
theorem walk_mono {fuel fuel' : Nat} (hle : fuel ≤ fuel') {a : α} (h : walk items fuel a ≠ none) :
    walk items fuel' a ≠ none := by
  induction fuel generalizing fuel' a with
  | zero => exact absurd rfl h
  | succ fuel ih =>
    obtain ⟨fuel', rfl⟩ := Nat.exists_eq_add_of_le' (Nat.one_le_of_lt hle)
    intro hnone
    rcases walk_eq_none.mp hnone with hstop | ⟨e, hmem, he⟩
    · exact h (walk_eq_none.mpr (Or.inl hstop))
    · refine ih (Nat.le_of_succ_le_succ hle) ?_ he
      intro hc
      exact h (walk_eq_none.mpr (Or.inr ⟨e, hmem, hc⟩))

/-- Finitely many walks that come back do so with a common fuel. -/
theorem exists_common_fuel {es : List α} (h : ∀ e ∈ es, ∃ fuel, walk items fuel e ≠ none) :
    ∃ fuel, ∀ e ∈ es, walk items fuel e ≠ none := by
  induction es with
  | nil => exact ⟨0, fun e he => by cases he⟩
  | cons e es ih =>
    obtain ⟨fuel, hfuel⟩ := h e (by simp)
    obtain ⟨fuel', hfuel'⟩ := ih fun e he => h e (by simp [he])
    refine ⟨max fuel fuel', ?_⟩
    intro e' he'
    rcases List.mem_cons.mp he' with rfl | he'
    · exact walk_mono (le_max_left _ _) hfuel
    · exact walk_mono (le_max_right _ _) (hfuel' e' he')

/-- A walk that comes back meets nothing that stops it. -/
theorem stop_notMem_of_walk {fuel : Nat} {a d : α} (h : walk items fuel a ≠ none)
    (hd : Leads items a d) : .stop ∉ items d := by
  induction fuel generalizing a with
  | zero => exact absurd rfl h
  | succ fuel ih =>
    rcases hd.cases_head with rfl | ⟨e, he, hpath⟩
    · intro hstop
      exact h (walk_eq_none.mpr (Or.inl hstop))
    · apply ih _ hpath
      intro hnone
      exact h (walk_eq_none.mpr (Or.inr ⟨e, he, hnone⟩))

/-- **The walk comes back iff every chain of descents ends** and none leads to a node that stops
    it. -/
theorem walk_ends_iff {a : α} : (∃ fuel, walk items fuel a ≠ none) ↔
    Acc (Descends items) a ∧ ∀ d, Leads items a d → .stop ∉ items d := by
  constructor
  · rintro ⟨fuel, h⟩
    refine ⟨?_, fun d hd => stop_notMem_of_walk h hd⟩
    induction fuel generalizing a with
    | zero => exact absurd rfl h
    | succ fuel ih =>
      refine Acc.intro a ?_
      intro e he
      apply ih
      intro hnone
      exact h (walk_eq_none.mpr (Or.inr ⟨e, he, hnone⟩))
  · rintro ⟨hacc, hstop⟩
    induction hacc with
    | intro a _ ih =>
      let node : Item α β → Option α := fun item =>
        match item with
        | .into e => some e
        | _ => none
      have hnode : ∀ item e, node item = some e ↔ item = .into e := by
        intro item e
        cases item <;> simp [node]
      have hall : ∀ e ∈ (items a).filterMap node, ∃ fuel, walk items fuel e ≠ none := by
        intro e he
        obtain ⟨item, hmem, hitem⟩ := List.mem_filterMap.mp he
        obtain rfl := (hnode item e).mp hitem
        exact ih e hmem fun d hd => hstop d (hd.head hmem)
      obtain ⟨fuel, hfuel⟩ := exists_common_fuel hall
      refine ⟨fuel + 1, ?_⟩
      intro hnone
      rcases walk_eq_none.mp hnone with hs | ⟨e, hmem, he⟩
      · exact hstop a .refl hs
      · exact hfuel e (List.mem_filterMap.mpr ⟨.into e, hmem, rfl⟩) he

/-- Nothing that descends into itself is accessible. -/
theorem not_acc_of_loop {e : α} (hloop : Descends items e e) : ¬ Acc (Descends items) e := by
  intro h
  induction h with
  | intro e _ ih => exact ih e hloop hloop

/-- **What the walk puts out** are the outputs of the nodes that it gets to. -/
theorem mem_walk_iff {fuel : Nat} {a : α} {out : List β} (h : walk items fuel a = some out)
    {y : β} : y ∈ out ↔ ∃ d, Leads items a d ∧ .put y ∈ items d := by
  induction fuel generalizing a out with
  | zero => cases h
  | succ fuel ih =>
    have hdescend : ∀ e, Descends items e a → ∃ o, walk items fuel e = some o := by
      intro e he
      apply Option.ne_none_iff_exists'.mp
      intro hnone
      rw [walk_eq_none.mpr (Or.inr ⟨e, he, hnone⟩)] at h
      cases h
    rw [walk] at h
    rw [mem_collect_iff h]
    constructor
    · rintro ⟨item, hitem, o, ho, hy⟩
      cases item with
      | put out' =>
        obtain rfl : [out'] = o := Option.some.inj ho
        obtain rfl := List.mem_singleton.mp hy
        exact ⟨a, .refl, hitem⟩
      | into e =>
        obtain ⟨d, hpath, hd⟩ := (ih ho).mp hy
        exact ⟨d, hpath.head hitem, hd⟩
      | stop => cases ho
    · rintro ⟨d, hpath, hd⟩
      rcases hpath.cases_head with rfl | ⟨e, he, hpath⟩
      · exact ⟨.put y, hd, [y], rfl, List.mem_singleton_self y⟩
      · obtain ⟨o, ho⟩ := hdescend e he
        exact ⟨.into e, he, o, ho, (ih ho).mpr ⟨d, hpath, hd⟩⟩

end OstepProjects.Walk
