/-
  OstepProjects/Lib/Cursor.lean
  =============================
  **A loop over runs of equal elements whose body moves the cursor.**

  The loop calls its body with the element at the cursor until the list is used up;
  the `i`-th call moves the cursor over at most `asks i` elements equal to the one it
  was called with.  On a sorted list every distinct element gets exactly one call iff
  each first call passes all occurrences of its element (`calls_once_iff`).
-/
import Mathlib.Data.List.Dedup
import Mathlib.Data.List.Sort
import Mathlib.Order.Lattice

namespace OstepProjects.Cursor

variable {κ : Type*} [LinearOrder κ]

/-- Move over at most `n` elements equal to `k`. -/
def skip (k : κ) : Nat → List κ → List κ
  | 0, ks => ks
  | _ + 1, [] => []
  | n + 1, x :: ks => if x = k then skip k n ks else x :: ks

/-- The elements the body is called with, from the `i`-th call on; `none` when `fuel`
    calls are not enough. -/
def calls (asks : Nat → Nat) : Nat → Nat → List κ → Option (List κ)
  | _, _, [] => some []
  | 0, _, _ :: _ => none
  | fuel + 1, i, k :: ks => (calls asks fuel (i + 1) (skip k (asks i) (k :: ks))).map (k :: ·)

/-- The first call for each distinct element asks for all its occurrences. -/
def Suffices (asks : Nat → Nat) (i : Nat) (ks : List κ) : Prop :=
  ∀ j k, ks.dedup[j]? = some k → ks.count k ≤ asks (i + j)

/-! ### One run -/

/-- A sorted list begins with all occurrences of its first element. -/
theorem exists_run {ks : List κ} (hsorted : ks.Pairwise (· ≤ ·)) (hne : ks ≠ []) :
    ∃ k c rest, ks = List.replicate (c + 1) k ++ rest ∧ (∀ x ∈ rest, k < x) ∧
      rest.Pairwise (· ≤ ·) := by
  induction ks with
  | nil => exact absurd rfl hne
  | cons k ks ih =>
    obtain ⟨hle, htail⟩ := List.pairwise_cons.mp hsorted
    by_cases hnil : ks = []
    · exact ⟨k, 0, [], by rw [hnil]; rfl, by simp, List.Pairwise.nil⟩
    · obtain ⟨k', c, rest, rfl, hlt, hrest⟩ := ih htail hnil
      rcases (hle k' (by simp)).eq_or_lt with rfl | hkk
      · refine ⟨k, c + 1, rest, ?_, hlt, hrest⟩
        rw [List.replicate_succ (n := c + 1), List.cons_append]
      · refine ⟨k, 0, List.replicate (c + 1) k' ++ rest, rfl, ?_, htail⟩
        intro x hx
        rcases List.mem_append.mp hx with hx | hx
        · rw [List.eq_of_mem_replicate hx]
          exact hkk
        · exact hkk.trans (hlt x hx)

section Run

variable {k : κ} {rest : List κ} (hlt : ∀ x ∈ rest, k < x)
include hlt

theorem skip_of_forall_lt (n : Nat) : skip k n rest = rest := by
  cases n with
  | zero => rfl
  | succ n =>
    cases rest with
    | nil => rfl
    | cons x rest => rw [skip, if_neg (hlt x (by simp)).ne']

theorem skip_run (n c : Nat) :
    skip k n (List.replicate c k ++ rest) = List.replicate (c - n) k ++ rest := by
  induction c generalizing n with
  | zero =>
    rw [Nat.zero_sub]
    exact skip_of_forall_lt hlt n
  | succ c ih =>
    cases n with
    | zero => rfl
    | succ n =>
      rw [List.replicate_succ, List.cons_append, skip, if_pos rfl, ih, Nat.succ_sub_succ]

theorem dedup_run (c : Nat) : (List.replicate (c + 1) k ++ rest).dedup = k :: rest.dedup := by
  have hnot : k ∉ rest := fun hmem => lt_irrefl k (hlt k hmem)
  induction c with
  | zero => exact List.dedup_cons_of_notMem hnot
  | succ c ih =>
    rw [List.replicate_succ, List.cons_append, List.dedup_cons_of_mem (by simp), ih]

/-- The condition for a list is that for its first run and that for what follows. -/
theorem suffices_run {asks : Nat → Nat} {i c : Nat} :
    Suffices asks i (List.replicate (c + 1) k ++ rest) ↔
      c + 1 ≤ asks i ∧ Suffices asks (i + 1) rest := by
  have hnot : k ∉ rest := fun hmem => lt_irrefl k (hlt k hmem)
  have hcount : ∀ x ∈ rest, (List.replicate (c + 1) k ++ rest).count x = rest.count x := by
    intro x hx
    have hne : ¬ (k == x) = true := by simpa using (hlt x hx).ne
    rw [List.count_append, List.count_replicate, if_neg hne, Nat.zero_add]
  rw [Suffices, dedup_run hlt]
  constructor
  · intro h
    constructor
    · simpa [List.count_eq_zero_of_not_mem hnot] using h 0 k rfl
    · intro j x hx
      have hj := h (j + 1) x hx
      rw [hcount x (List.mem_dedup.mp (List.mem_of_getElem? hx))] at hj
      rwa [Nat.add_right_comm, Nat.add_assoc]
  · rintro ⟨hfirst, hothers⟩ j x hx
    cases j with
    | zero =>
      cases hx
      simpa [List.count_eq_zero_of_not_mem hnot] using hfirst
    | succ j =>
      rw [List.getElem?_cons_succ] at hx
      rw [hcount x (List.mem_dedup.mp (List.mem_of_getElem? hx))]
      have hj := hothers j x hx
      rwa [Nat.add_right_comm, Nat.add_assoc] at hj

end Run

/-! ### The loop -/

variable {asks : Nat → Nat}

theorem calls_eq_cons {fuel i : Nat} {k : κ} {ks cs : List κ}
    (h : calls asks fuel i (k :: ks) = some cs) :
    ∃ fuel' cs', fuel = fuel' + 1 ∧ cs = k :: cs' ∧
      calls asks fuel' (i + 1) (skip k (asks i) (k :: ks)) = some cs' := by
  cases fuel with
  | zero => cases h
  | succ fuel =>
    obtain ⟨cs', hcs, rfl⟩ := Option.map_eq_some_iff.mp h
    exact ⟨fuel, cs', rfl, rfl, hcs⟩

/-- Each distinct element gets one call when the first calls ask for enough. -/
theorem Suffices.calls {ks : List κ} (hsorted : ks.Pairwise (· ≤ ·)) {i : Nat}
    (h : Suffices asks i ks) : ∃ fuel, calls asks fuel i ks = some ks.dedup := by
  induction hlen : ks.length using Nat.strong_induction_on generalizing ks i with
  | _ len ih =>
    by_cases hnil : ks = []
    · exact ⟨0, by rw [hnil]; rfl⟩
    · obtain ⟨k, c, rest, rfl, hlt, hrest⟩ := exists_run hsorted hnil
      obtain ⟨henough, hothers⟩ := (suffices_run hlt).mp h
      have hshort : rest.length < len := by
        rw [← hlen, List.length_append, List.length_replicate]
        omega
      obtain ⟨fuel, hfuel⟩ := ih rest.length hshort hrest hothers rfl
      refine ⟨fuel + 1, ?_⟩
      have hskip := skip_run hlt (asks i) (c + 1)
      rw [Nat.sub_eq_zero_of_le henough, List.replicate_zero, List.nil_append, List.replicate_succ,
        List.cons_append] at hskip
      rw [dedup_run hlt, List.replicate_succ, List.cons_append, Cursor.calls, hskip, hfuel]
      rfl

/-- A run in which no element gets two calls. -/
theorem suffices_of_nodup {fuel : Nat} {ks cs : List κ} (hsorted : ks.Pairwise (· ≤ ·)) {i : Nat}
    (h : calls asks fuel i ks = some cs) (hnodup : cs.Nodup) : Suffices asks i ks := by
  induction fuel generalizing ks cs i with
  | zero =>
    cases ks with
    | nil => exact fun j k hj => by cases hj
    | cons k ks => cases h
  | succ fuel ih =>
    by_cases hnil : ks = []
    · subst hnil
      exact fun j k hj => by cases hj
    · obtain ⟨k, c, rest, rfl, hlt, hrest⟩ := exists_run hsorted hnil
      have hskip := skip_run hlt (asks i) (c + 1)
      rw [List.replicate_succ, List.cons_append] at h hskip
      obtain ⟨fuel', cs', hfuel, rfl, hcalls⟩ := calls_eq_cons h
      cases hfuel
      rw [hskip] at hcalls
      obtain ⟨hnot, hnodup'⟩ := List.nodup_cons.mp hnodup
      refine (suffices_run hlt).mpr ?_
      cases hleft : c + 1 - asks i with
      | zero =>
        rw [hleft, List.replicate_zero, List.nil_append] at hcalls
        exact ⟨Nat.sub_eq_zero_iff_le.mp hleft, ih hrest hcalls hnodup'⟩
      | succ left =>
        -- the next call is for the same element
        rw [hleft, List.replicate_succ, List.cons_append] at hcalls
        obtain ⟨_, cs'', _, rfl, _⟩ := calls_eq_cons hcalls
        exact absurd (List.mem_cons_self) hnot

/-- **One call for each distinct element** of a sorted list. -/
theorem calls_once_iff {ks : List κ} (hsorted : ks.Pairwise (· ≤ ·)) {i : Nat} :
    (∃ fuel cs, calls asks fuel i ks = some cs ∧ cs.Nodup ∧ ∀ k, k ∈ cs ↔ k ∈ ks) ↔
      Suffices asks i ks := by
  constructor
  · rintro ⟨fuel, cs, hcalls, hnodup, _⟩
    exact suffices_of_nodup hsorted hcalls hnodup
  · intro h
    obtain ⟨fuel, hcalls⟩ := h.calls hsorted
    exact ⟨fuel, _, hcalls, List.nodup_dedup ks, fun _ => List.mem_dedup⟩

/-- A body that never moves the cursor is called for ever. -/
theorem calls_of_asks_zero (hzero : ∀ i, asks i = 0) (fuel i : Nat) (k : κ) (ks : List κ) :
    calls asks fuel i (k :: ks) = none := by
  induction fuel generalizing i with
  | zero => rfl
  | succ fuel ih =>
    rw [calls, hzero, skip, ih]
    rfl

end OstepProjects.Cursor
