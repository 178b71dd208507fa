/-
  OstepProjects/Lib/CircularQueue.lean
  ====================================
  **Circular queues.**

  A queue kept in the first `cap` cells of an array: values are put at `head`, taken
  at `tail`, and `size` of them are in the queue.  `Holds cap r xs` says that the
  cells from `tail` on hold the list `xs`; `put_holds` and `get_holds` say that the
  two operations append to and remove from that list, so a correctly guarded queue
  loses, repeats and reorders nothing.
-/
import Mathlib.Data.List.Basic
import Mathlib.Data.Nat.ModEq
import Mathlib.Logic.Function.Basic

namespace OstepProjects.CircularQueue

structure Queue (α : Type*) where
  buf : Nat → α
  head : Nat
  tail : Nat
  size : Nat

variable {α : Type*}

/-- Write at the head and advance it. -/
def Queue.put (cap : Nat) (r : Queue α) (x : α) : Queue α :=
  { r with
    buf := Function.update r.buf r.head x
    head := (r.head + 1) % cap
    size := r.size + 1 }

/-- Read at the tail. -/
def Queue.front (r : Queue α) : α := r.buf r.tail

/-- Advance the tail. -/
def Queue.get (cap : Nat) (r : Queue α) : Queue α :=
  { r with
    tail := (r.tail + 1) % cap
    size := r.size - 1 }

/-- The queue holds exactly the values `xs`, the oldest first. -/
structure Holds (cap : Nat) (r : Queue α) (xs : List α) : Prop where
  length_eq : xs.length = r.size
  size_le : r.size ≤ cap
  tail_lt : r.tail < cap
  head_eq : (r.tail + r.size) % cap = r.head
  cell : ∀ k (h : k < xs.length), r.buf ((r.tail + k) % cap) = xs[k]

theorem holds_empty {cap : Nat} (h : 0 < cap) (buf : Nat → α) : Holds cap ⟨buf, 0, 0, 0⟩ [] where
  length_eq := rfl
  size_le := Nat.zero_le cap
  tail_lt := h
  head_eq := Nat.zero_mod cap
  cell k hk := absurd hk (Nat.not_lt_zero k)

/-- Distinct offsets below the capacity are distinct cells. -/
theorem index_ne {cap tail k l : Nat} (hk : k < cap) (hl : l < cap) (hne : k ≠ l) :
    (tail + k) % cap ≠ (tail + l) % cap := by
  intro h
  have hmod : k % cap = l % cap := Nat.ModEq.add_left_cancel rfl h
  rw [Nat.mod_eq_of_lt hk, Nat.mod_eq_of_lt hl] at hmod
  exact hne hmod

/-- The cell that `put` writes is outside the part in use. -/
theorem head_unused {cap : Nat} {r : Queue α} {xs : List α} (h : Holds cap r xs)
    (hsize : r.size < cap) {k : Nat} (hk : k < xs.length) : (r.tail + k) % cap ≠ r.head := by
  rw [← h.head_eq]
  have hlen := h.length_eq
  exact index_ne (by omega) hsize (by omega)

theorem put_holds {cap : Nat} {r : Queue α} {xs : List α} (h : Holds cap r xs)
    (hsize : r.size < cap) (x : α) : Holds cap (r.put cap x) (xs ++ [x]) where
  length_eq := by simp [Queue.put, h.length_eq]
  size_le := hsize
  tail_lt := h.tail_lt
  head_eq := by
    have hhead := h.head_eq
    simp only [Queue.put]
    rw [← hhead, ← Nat.add_assoc, Nat.mod_add_mod]
  cell k hk := by
    simp only [Queue.put]
    by_cases hlt : k < xs.length
    · rw [Function.update_of_ne (head_unused h hsize hlt), List.getElem_append_left hlt]
      exact h.cell k hlt
    · have hk' : k = xs.length := by
        rw [List.length_append, List.length_singleton] at hk
        omega
      have hhead : (r.tail + k) % cap = r.head := by rw [hk', h.length_eq, h.head_eq]
      rw [hhead, Function.update_self]
      simp [hk']

theorem front_eq {cap : Nat} {r : Queue α} {x : α} {xs : List α} (h : Holds cap r (x :: xs)) :
    r.front = x := by
  have hcell := h.cell 0 (by simp)
  rwa [Nat.add_zero, Nat.mod_eq_of_lt h.tail_lt] at hcell

theorem get_holds {cap : Nat} {r : Queue α} {x : α} {xs : List α} (h : Holds cap r (x :: xs)) :
    Holds cap (r.get cap) xs := by
  have hlen : xs.length + 1 = r.size := h.length_eq
  have hsize := h.size_le
  have htail := h.tail_lt
  refine ⟨?_, ?_, ?_, ?_, ?_⟩
  · simp only [Queue.get]; omega
  · simp only [Queue.get]; omega
  · exact Nat.mod_lt _ (by omega)
  · have hhead := h.head_eq
    simp only [Queue.get]
    rw [Nat.mod_add_mod, ← hhead]
    congr 1; omega
  · intro k hk
    have hcell := h.cell (k + 1) (by simp; omega)
    simp only [Queue.get]
    rw [Nat.mod_add_mod, Nat.add_assoc, Nat.add_comm 1 k]
    exact hcell

/-- A queue with a positive size has a front. -/
theorem exists_cons {cap : Nat} {r : Queue α} {xs : List α} (h : Holds cap r xs)
    (hsize : 0 < r.size) : ∃ ys, xs = r.front :: ys := by
  cases xs with
  | nil =>
    have hlen := h.length_eq
    simp at hlen; omega
  | cons x ys => exact ⟨ys, by rw [front_eq h]⟩

end OstepProjects.CircularQueue
