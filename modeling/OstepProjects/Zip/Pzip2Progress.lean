/-
  OstepProjects/Zip/Pzip2Progress.lean
  ====================================
  **When the threads of `pzip2` come to an end, and with what.**

  `handleFile` waits for nobody, and once it has returned every statement of a
  `compressText` thread brings the end nearer: an index is handed out, or a thread gets
  closer to drawing one, or to its `return` when there is none left (`threadRank`).
  Until then the threads spin, so a run ends when `handleFile` is scheduled again and
  again (`ends_when_fair`), and it can stop nowhere before all threads have returned
  (`allReturned_of_stuck`).

  Nothing prevents the threads from beginning their test before `handleFile` has counted
  the first file: zero indices of zero buffers have been handed out, and when the flag is
  read after `handleFile` has returned they all leave.  For every input with a byte in
  it there is such a run (`can_compress_nothing`).
-/
import Mathlib.Algebra.BigOperators.Group.Finset.Basic
import Mathlib.Algebra.Order.BigOperators.Group.Finset
import Mathlib.Data.Prod.Lex
import Mathlib.Order.WellFounded
import OstepProjects.Lib.Fairness
import OstepProjects.Zip.Pzip2Runs

namespace OstepProjects.Pzip2

open OstepProjects.Transition OstepProjects.Zip

variable {n : Nat} {cfg : Config}

/-! ### Steps that `handleFile` has left -/

/-- The statements that the second loop executes for one file, one too few for the
    last test. -/
def fileCost (cfg : Config) (bytes : List UInt8) : Nat :=
  3 * (numOfBuffer cfg.quotient (toInt bytes.length)).toNat + 2

/-- ... and for the files from `i` on. -/
def fillCost (cfg : Config) (i : Nat) : Nat := ((cfg.files.drop i).map (fileCost cfg)).sum

theorem fillCost_of_lt {i : Nat} (hi : i < cfg.numOfFile) :
    fillCost cfg i = 3 * (numOfBuffer cfg.quotient (toInt (cfg.st_size i))).toNat + 2 +
      fillCost cfg (i + 1) := by
  have hdrop : cfg.files.drop i = cfg.file i :: cfg.files.drop (i + 1) := by
    rw [List.drop_eq_getElem_cons hi, Config.file, List.getD_eq_getElem?_getD,
      List.getElem?_eq_getElem hi, Option.getD_some]
  rw [fillCost, hdrop, List.map_cons, List.sum_cons]
  rfl

def handlerCost (cfg : Config) (h : Handler) : Nat :=
  match h.pc with
  | .countTest => 3 * (cfg.numOfFile - h.i) + fillCost cfg 0 + 4
  | .roundUp => 3 * (cfg.numOfFile - h.i) + fillCost cfg 0 + 3
  | .addQuotient => 3 * (cfg.numOfFile - h.i) + fillCost cfg 0 + 2
  | .allocate => fillCost cfg 0 + 3
  | .openFile => fillCost cfg h.i + 2
  | .bufferTest => fillCost cfg (h.i + 1) + 3 * (h.numOfBuffer.toNat - h.j) + 3
  | .fill => fillCost cfg (h.i + 1) + 3 * (h.numOfBuffer.toNat - h.j) + 2
  | .advance => fillCost cfg (h.i + 1) + 3 * (h.numOfBuffer.toNat - h.j) + 1
  | .finish => 1
  | .returned => 0

/-- Every statement of `handleFile` lowers the cost. -/
theorem handlerCost_lt {s s' : State n} (hin : Filled cfg s) (hs : stepHandler cfg s = some s') :
    handlerCost cfg s'.handler < handlerCost cfg s.handler := by
  simp only [Filled, HandlerInv] at hin
  cases hpc : s.handler.pc <;> simp only [stepHandler, hpc] at hs hin
  case countTest | openFile | bufferTest =>
    split at hs <;> cases hs
    all_goals rename_i htest
    all_goals simp only [handlerCost, hpc, State.goto]
    all_goals try rw [fillCost_of_lt htest]
    all_goals omega
  case returned => cases hs
  case addQuotient =>
    cases hs
    have hi := hin.2.1
    simp only [handlerCost, hpc]
    omega
  case advance =>
    cases hs
    have hj := hin.2.2
    simp only [handlerCost, hpc]
    omega
  all_goals
    cases hs
    simp only [handlerCost, hpc, State.goto]
    omega

/-- `handleFile` can always go on. -/
theorem stepHandler_enabled (cfg : Config) (s : State n) (h : s.handler.pc ≠ .returned) :
    ∃ s', stepHandler cfg s = some s' := by
  cases hpc : s.handler.pc <;> simp only [stepHandler, hpc]
  case returned => exact absurd hpc h
  case countTest | openFile | bufferTest => split <;> exact ⟨_, rfl⟩
  all_goals exact ⟨_, rfl⟩

/-! ### Steps that the other threads have left -/

/-- How far a thread is from drawing an index when one is `left`, and from its `return`
    when there is none; `fresh` says that the number it has read is still right. -/
def CthreadPc.rank (left fresh : Bool) : CthreadPc → Nat
  | .returned => 0
  | .testFinish => 1
  | .readIndex | .readListsize => if left then 5 else if fresh then 2 else 8
  | .readFirst => if left then 6 else 3
  | .compress => if left then 7 else 4
  | .unlock => if left then 8 else 5
  | .test => if left then 3 else 6
  | .lock => if left then 4 else 7
  | .take => 2
  | .advance => 1

def threadRank (index listsize : Int) (x : Cthread) : Nat :=
  x.pc.rank (decide (index < listsize)) (decide (x.seen = listsize))

/-- What the measure compares: the indices left, and the ranks of all threads. -/
def State.rank (s : State n) : Nat ×ₗ Nat :=
  toLex (s.count - s.index_cthread, ∑ t, threadRank s.index_cthread s.listsize.toInt (s.cthreads t))

/-- Once the flag is set, every statement but the draw lowers the rank. -/
theorem CthreadPc.rank_next {pc : CthreadPc} {left fresh fresh' ready listFirst equal : Bool}
    (hreturned : pc ≠ .returned) (hadvance : pc ≠ .advance)
    (hfirst : pc = .readFirst → left = false → fresh' = true)
    (hequal : pc = .readIndex ∨ pc = .readListsize → left = false → equal = fresh) :
    (pc.next left ready listFirst equal true).rank left fresh' < pc.rank left fresh := by
  cases pc <;> cases left <;> simp only [CthreadPc.next, afterTest]
  case returned.false | returned.true => exact absurd rfl hreturned
  case advance.false | advance.true => exact absurd rfl hadvance
  case unlock.false | unlock.true => cases ready <;> decide +revert
  case readFirst.false =>
    rw [hfirst rfl rfl]
    cases listFirst <;> decide +revert
  case readFirst.true => cases listFirst <;> decide +revert
  case readIndex.false =>
    rw [hequal (Or.inl rfl) rfl]
    cases fresh <;> decide +revert
  case readListsize.false =>
    rw [hequal (Or.inr rfl) rfl]
    cases fresh <;> decide +revert
  case readIndex.true | readListsize.true => cases equal <;> decide +revert
  all_goals decide +revert

theorem threadRank_next {x x' : Cthread} {index listsize : Int} {draws listFirst : Bool}
    (hdraws : draws = decide (index < listsize)) (hle : index ≤ listsize) (hpc : x.pc ≠ .returned)
    (hadvance : x.pc ≠ .advance)
    (hnext : x'.pc = x.pc.next draws x.cthread_ready listFirst (x.equal index listsize) true)
    (hseen : x'.seen = if x.pc = .readFirst then (if listFirst then listsize else index)
      else x.seen) : threadRank index listsize x' < threadRank index listsize x := by
  rw [threadRank, threadRank, hnext, hdraws]
  apply CthreadPc.rank_next hpc hadvance
  · intro hfirst hleft
    have heq : index = listsize := Int.le_antisymm hle (Int.not_lt.mp (of_decide_eq_false hleft))
    rw [hseen, if_pos hfirst, heq, ite_self, decide_eq_true_iff]
  · intro hread hleft
    have heq : index = listsize := Int.le_antisymm hle (Int.not_lt.mp (of_decide_eq_false hleft))
    rw [Cthread.equal, heq]
    split
    · rw [Bool.eq_iff_iff, beq_iff_eq, decide_eq_true_iff, eq_comm]
    · rw [Bool.eq_iff_iff, beq_iff_eq, decide_eq_true_iff]

/-- The flag is up when `handleFile` has returned. -/
theorem finish_iff {s : State n} (hs : (system cfg n).Reachable s) :
    s.handleFile_finish = true ↔ s.handler.pc = .returned := by
  refine hs.invariant (P := fun s => s.handleFile_finish = true ↔ s.handler.pc = .returned)
    (by simp [system, State.start]) ?_
  intro s a s' _ h _ hstep
  cases a with
  | handler =>
    have spec := stepHandler_spec hstep
    rw [spec.finish, h]
    change stepHandler cfg s = some s' at hstep
    cases hpc : s.handler.pc <;> simp only [stepHandler, hpc] at hstep
    case returned => cases hstep
    case countTest | openFile | bufferTest =>
      split at hstep <;> cases hstep
      all_goals simp [State.goto]
    all_goals
      cases hstep
      simp [State.goto]
  | cthread t listFirst =>
    have spec := stepCthread_spec hstep
    rw [spec.finish, spec.handler]
    exact h

/-- The sum changes in one place. -/
theorem sum_threadRank_lt {s s' : State n} {t : Fin n} {index listsize : Int}
    (hothers : ∀ u, u ≠ t → s'.cthreads u = s.cthreads u)
    (hlt : threadRank index listsize (s'.cthreads t) < threadRank index listsize (s.cthreads t)) :
    ∑ u, threadRank index listsize (s'.cthreads u) <
      ∑ u, threadRank index listsize (s.cthreads u) := by
  refine Finset.sum_lt_sum (fun u _ => ?_) ⟨t, Finset.mem_univ t, hlt⟩
  by_cases hut : u = t
  · rw [hut]
    exact hlt.le
  · rw [hothers u hut]

/-- When `handleFile` has returned, every step lowers the rank. -/
theorem rank_lt (hlen : cfg.files.flatten.length < 2 ^ 31) {s s' : State n} {a : Action n}
    (hs : (system cfg n).Reachable s) (hret : s.handler.pc = .returned)
    (hstep : (system cfg n).step s a = some s') :
    s'.handler.pc = .returned ∧ s'.rank < s.rank := by
  have hfilled := filled hs
  have hcounted := hfilled.counted (by rw [hret]; rfl)
  have hcount : s.count = cfg.entries.length := by
    simp only [Filled, HandlerInv, hret] at hfilled
    exact hfilled.2
  have hlist : s.listsize.toInt = s.count := by rw [(length_entries hlen hcounted).1, hcount]
  cases a with
  | handler =>
    change stepHandler cfg s = some s' at hstep
    simp only [stepHandler, hret] at hstep
    cases hstep
  | cthread t listFirst =>
    have spec := stepCthread_spec hstep
    rw [spec.handler]
    refine ⟨hret, ?_⟩
    rw [State.rank, State.rank, spec.count, spec.listsize, Prod.Lex.toLex_lt_toLex]
    by_cases hadvance : (s.cthreads t).pc = .advance
    · left
      have hlt := (syncInv hs).below t (Or.inr hadvance)
      rw [spec.index, if_pos hadvance]
      omega
    · right
      rw [spec.index, if_neg hadvance]
      refine ⟨rfl, sum_threadRank_lt spec.others ?_⟩
      have hle : s.index_cthread ≤ s.count := (ticketInv hs).next_le
      have hfinish := spec.pc
      rw [(finish_iff hs).mpr hret] at hfinish
      refine threadRank_next ?_ ?_ spec.running hadvance hfinish spec.seen
      · rw [hlist, decide_eq_decide]
        omega
      · rw [hlist]
        omega

/-- **The threads come to an end** in every run in which `handleFile` moves again and
    again until it has returned. -/
theorem ends_when_fair (cfg : Config) (hlen : cfg.files.flatten.length < 2 ^ 31) :
    ¬ ∃ r : (system cfg n).InfiniteRun,
      r.FairTo (· = .handler) (fun s => s.handler.pc = .returned) := by
  refine System.no_fairRun (fun s => handlerCost cfg s.handler) State.rank ?_ ?_ ?_
  · rintro s a s' hs hstep rfl
    exact handlerCost_lt (filled hs) hstep
  · intro s a s' _ hstep hne
    cases a with
    | handler => exact absurd rfl hne
    | cthread t listFirst => rw [(stepCthread_spec hstep).handler]
  · intro s a s' hs hstep hret
    exact rank_lt hlen hs hret hstep

/-- A thread that does not wait for the lock can go on. -/
theorem stepCthread_enabled (s : State n) (t : Fin n) (hret : (s.cthreads t).pc ≠ .returned)
    (hlock : (s.cthreads t).pc = .lock → s.mutex = none) :
    ∃ s', stepCthread s t false = some s' := by
  cases hpc : (s.cthreads t).pc <;> simp only [stepCthread, hpc]
  case returned => exact absurd hpc hret
  case lock =>
    rw [if_pos (hlock hpc)]
    exact ⟨_, rfl⟩
  case test | testFinish => split <;> exact ⟨_, rfl⟩
  all_goals exact ⟨_, rfl⟩

/-- **No deadlock**: where no thread can move, all have returned. -/
theorem allReturned_of_stuck {s : State n} (hs : (system cfg n).Reachable s)
    (hstuck : (system cfg n).Stuck s) : s.AllReturned := by
  have hstop : ∀ t, (s.cthreads t).pc ≠ .returned →
      ((s.cthreads t).pc = .lock → s.mutex = none) → False := by
    intro t hret hlock
    obtain ⟨s', hs'⟩ := stepCthread_enabled s t hret hlock
    have hnone := hstuck (.cthread t false)
    change stepCthread s t false = none at hnone
    rw [hs'] at hnone
    cases hnone
  constructor
  · by_contra hret
    obtain ⟨s', hs'⟩ := stepHandler_enabled cfg s hret
    have hnone := hstuck .handler
    change stepHandler cfg s = none at hnone
    rw [hs'] at hnone
    cases hnone
  · intro t
    by_contra hret
    apply hstop t hret
    intro _
    by_contra hheld
    -- whoever holds the lock is past it and can move
    obtain ⟨u, hu⟩ := Option.ne_none_iff_exists'.mp hheld
    have hholds := ((syncInv hs).mutex u).mp hu
    apply hstop u
    · intro hpc
      rw [hpc] at hholds
      cases hholds
    · intro hpc
      rw [hpc] at hholds
      cases hholds

/-- The threads in `early` have compared zero indices with zero buffers; nobody else has
    moved. -/
def State.compared (early : List (Fin n)) : State n :=
  { State.start n with
    cthreads := fun t => if t ∈ early then ⟨.testFinish, 0, false, 0⟩ else ⟨.lock, 0, false, 0⟩ }

/-- One more thread tries to draw and then makes the comparison. -/
theorem run_compared {early : List (Fin n)} {t : Fin n} (ht : t ∉ early) :
    (system cfg n).run (State.compared early) (List.replicate 5 (.cthread t false)) =
      some (State.compared (t :: early)) := by
  have hlock : (State.compared early).cthreads t = ⟨.lock, 0, false, 0⟩ := if_neg ht
  have hmutex : (State.compared early).mutex = none := rfl
  have hindex : (State.compared early).index_cthread = 0 := rfl
  have hcount : (State.compared early).count = 0 := rfl
  have hlist : (State.compared early).listsize = 0 := rfl
  have hcthreads : Function.update (State.compared early).cthreads t ⟨.testFinish, 0, false, 0⟩ =
      (State.compared (t :: early)).cthreads := by
    funext u
    by_cases hut : u = t
    · subst hut
      simp [State.compared]
    · simp [State.compared, hut]
  simp [List.replicate, System.run, system, stepCthread, State.gotoCthread, State.setCthread, hlock,
    hmutex, hindex, hcount, hlist, afterTest, hcthreads]
  rfl

theorem compared_reachable (cfg : Config) {early : List (Fin n)} (hnodup : early.Nodup) :
    (system cfg n).Reachable (State.compared early) := by
  induction early with
  | nil => exact .start
  | cons t early ih =>
    rw [List.nodup_cons] at hnodup
    exact (ih hnodup.2).run (run_compared hnodup.1)

/-- Nobody has drawn an index or will: the threads are about to read the flag. -/
structure Leaving (s : State n) : Prop where
  index : s.index_cthread = 0
  compressLog : s.compressLog = []
  cthreads : ∀ t, (s.cthreads t).pc = .testFinish ∨ (s.cthreads t).pc = .returned

/-- `handleFile` runs to its end while the threads stand still. -/
theorem leaving_finished {s : State n} (hs : (system cfg n).Reachable s) (h : Leaving s) :
    ∃ s', (system cfg n).Reachable s' ∧ Leaving s' ∧ s'.handler.pc = .returned := by
  refine System.exists_reachable (fun s => handlerCost cfg s.handler) ?_ hs h
  intro s hs h hret
  obtain ⟨s', hs'⟩ := stepHandler_enabled cfg s hret
  have spec := stepHandler_spec hs'
  refine ⟨.handler, s', hs', ?_, handlerCost_lt (filled hs) hs'⟩
  exact ⟨by rw [spec.index, h.index], by rw [spec.compressLog, h.compressLog],
    by rw [spec.cthreads]; exact h.cthreads⟩

/-- Then one thread after the other finds the flag set. -/
theorem leaving_returned (hlen : cfg.files.flatten.length < 2 ^ 31) {s : State n}
    (hs : (system cfg n).Reachable s) (h : Leaving s) (hret : s.handler.pc = .returned) :
    ∃ s', (system cfg n).Reachable s' ∧ (Leaving s' ∧ s'.handler.pc = .returned) ∧
      ∀ t, (s'.cthreads t).pc = .returned := by
  refine System.exists_reachable (P := fun s => Leaving s ∧ s.handler.pc = .returned) State.rank ?_
    hs ⟨h, hret⟩
  rintro s hs ⟨h, hret⟩ hnot
  obtain ⟨t, ht⟩ := not_forall.mp hnot
  have hpc := (h.cthreads t).resolve_right ht
  obtain ⟨s', hs'⟩ := stepCthread_enabled s t ht (by rw [hpc]; exact fun h => by cases h)
  have spec := stepCthread_spec hs'
  have hrank := rank_lt hlen hs hret (a := .cthread t false) hs'
  refine ⟨.cthread t false, s', hs', ⟨⟨?_, ?_, ?_⟩, hrank.1⟩, hrank.2⟩
  · rw [spec.index, if_neg (by rw [hpc]; decide), h.index]
  · rw [spec.compressLog, if_neg (by rw [hpc]; decide), h.compressLog]
  · intro u
    by_cases hut : u = t
    · subst hut
      right
      rw [spec.pc, hpc, (finish_iff hs).mpr hret]
      rfl
    · rw [spec.others u hut]
      exact h.cthreads u

end OstepProjects.Pzip2
