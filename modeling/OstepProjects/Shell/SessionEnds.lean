/-
  OstepProjects/Shell/SessionEnds.lean
  ====================================
  **A session ends.**

  The shell waits for nothing but its children: a session ends if their programs do and
  `execv` does not fail again and again (`session_ends`).  What is left to do is counted by
  the lines that are not read yet, and within a line by the commands to fork and the
  children to wait for (`Machine.rest`).
-/
import Mathlib.Data.Prod.Lex
import OstepProjects.Lib.Fairness
import OstepProjects.Shell.Processes

namespace OstepProjects.Shell

open OstepProjects.Bytes OstepProjects.Transition

variable {W : Type}

/-- A step of a program that is not its last. -/
def Move.Works : Move W → Prop
  | .process _ _ ends => ends = false
  | _ => False

/-- An `execv` that fails. -/
def Move.Fails : Move W → Prop
  | .fail _ _ => True
  | _ => False

def Process.weight (p : Process) : Nat :=
  match p.phase with
  | .forked => 3
  | .running => 2
  | .ended => 1

def load (processes : List Process) : Nat := (processes.map Process.weight).sum

/-- What there is to do for the line at hand, with `n` commands. -/
def MainPc.rest (n load : Nat) : MainPc → Nat
  | .getline | .stopped _ => 0
  | .fork i => 2 + 4 * (n + 1 - i) + load
  | .wait => 1 + load

def Machine.rest (s : Machine W) : Nat × Nat :=
  (s.input.length, s.pc.rest s.wish.commands.length (load s.processes))

section Ending

variable {os : Os W} {w : W} {lines : List (List UInt8)} {s s' : Machine W}

theorem load_set {processes : List Process} {k : Nat} {p : Process} (hp : processes[k]? = some p)
    (q : Process) : load (processes.set k q) + p.weight = load processes + q.weight := by
  obtain ⟨before, behind, hsplit, hset, _⟩ := exists_split hp
  rw [hset, hsplit]
  simp only [load, List.map_append, List.map_cons, List.sum_append, List.sum_cons]
  omega

theorem load_eraseIdx {processes : List Process} {k : Nat} {p : Process}
    (hp : processes[k]? = some p) :
    load (processes.eraseIdx k) + p.weight = load processes := by
  obtain ⟨before, behind, hsplit, _, herase⟩ := exists_split hp
  rw [herase, hsplit]
  simp only [load, List.map_append, List.map_cons, List.sum_append, List.sum_cons]
  omega

theorem rest_main (hmove : MainMove os s s') : toLex s'.rest < toLex s.rest := by
  cases hmove with
  | read str mem input wish hpc hinput | stop str mem input stop hpc hinput =>
    refine Prod.Lex.toLex_lt_toLex.mpr (Or.inl ?_)
    simp [Machine.rest, hinput]
  | fork i command hpc hcommand =>
    have hlt := (List.getElem?_eq_some_iff.mp hcommand).1
    refine Prod.Lex.toLex_lt_toLex.mpr (Or.inr ⟨rfl, ?_⟩)
    simp only [Machine.rest, hpc, MainPc.rest, load, List.map_append, List.sum_append,
      List.map_singleton, List.sum_singleton, Process.weight]
    omega
  | fail i command hpc hcommand =>
    have hlt := (List.getElem?_eq_some_iff.mp hcommand).1
    refine Prod.Lex.toLex_lt_toLex.mpr (Or.inr ⟨rfl, ?_⟩)
    simp only [Machine.rest, hpc, MainPc.rest]
    omega
  | forked i hpc hnone =>
    refine Prod.Lex.toLex_lt_toLex.mpr (Or.inr ⟨rfl, ?_⟩)
    simp only [Machine.rest, hpc, MainPc.rest]
    omega
  | reap k p hpc hp hended =>
    have hload := load_eraseIdx hp
    have hweight : p.weight = 1 := by rw [Process.weight, hended]
    refine Prod.Lex.toLex_lt_toLex.mpr (Or.inr ⟨rfl, ?_⟩)
    simp only [Machine.rest, hpc, MainPc.rest]
    omega
  | next hpc hnone =>
    refine Prod.Lex.toLex_lt_toLex.mpr (Or.inr ⟨rfl, ?_⟩)
    simp only [Machine.rest, hpc, MainPc.rest]
    omega

/-- A step of a child brings the rest down, unless a program works. -/
theorem rest_process (hs : (machine os w lines).Reachable s)
    (hgoes : ∀ stop, s.pc ≠ .stopped stop) {k : Nat} {ends : Bool}
    (hmove : ProcessMove os s k ends s') :
    toLex s'.rest < toLex s.rest ∨ ends = false ∧ s'.rest = s.rest := by
  have hpc : ∀ p, s.processes[k]? = some p → (∃ i, s.pc = .fork i) ∨ s.pc = .wait := by
    intro p hp
    obtain ⟨_, _, hstage⟩ := Reachable.machineInv hs
    cases hstage with
    | between _ hnone =>
      rw [hnone] at hp
      cases hp
    | within bound hwithin => exact hwithin.imp (fun h => ⟨bound, h⟩) And.left
    | stopped stop hstop => exact absurd hstop (hgoes stop)
  cases hmove with
  | overrun p stop hp =>
    refine Or.inl (Prod.Lex.toLex_lt_toLex.mpr (Or.inr ⟨rfl, ?_⟩))
    rcases hpc p hp with ⟨i, hpc⟩ | hpc <;> simp only [Machine.rest, hpc, MainPc.rest] <;> omega
  | exec p c hp hphase =>
    have hload := load_set hp { p with phase := .running }
    have hweight : p.weight = 3 := by rw [Process.weight, hphase]
    have hnew : Process.weight { p with phase := .running } = 2 := rfl
    refine Or.inl (Prod.Lex.toLex_lt_toLex.mpr (Or.inr ⟨rfl, ?_⟩))
    rcases hpc p hp with ⟨i, hpc⟩ | hpc <;> simp only [Machine.rest, hpc, MainPc.rest] <;> omega
  | work p world hends => exact Or.inr ⟨hends, rfl⟩
  | exit p world hends hp hphase =>
    have hload := load_set hp { p with phase := .ended }
    have hweight : p.weight = 2 := by rw [Process.weight, hphase]
    have hnew : Process.weight { p with phase := .ended } = 1 := rfl
    refine Or.inl (Prod.Lex.toLex_lt_toLex.mpr (Or.inr ⟨rfl, ?_⟩))
    rcases hpc p hp with ⟨i, hpc⟩ | hpc <;> simp only [Machine.rest, hpc, MainPc.rest] <;> omega

theorem ended_of_stuck (hs : (machine os w lines).Reachable s)
    (hstuck : (machine os w lines).Stuck s) :
    (∃ stop, s.pc = .stopped stop) ∨
      s.pc = .getline ∧ s.input = [] ∧
        ((∀ r ∈ s.past, r.failed = []) → s.past.map Record.text = lines) := by
  have hmain : ∀ k, stepMain os s true k Memory.fresh = none :=
    fun k => hstuck (.main true k Memory.fresh)
  have hprocess : ∀ k, stepProcess os s k s.wish.world true = none := fun k =>
    hstuck (.process k s.wish.world true)
  cases hpc : s.pc with
  | stopped stop => exact Or.inl ⟨stop, rfl⟩
  | getline =>
    right
    have hinput : s.input = [] := by
      cases hinput : s.input with
      | nil => rfl
      | cons str input =>
        have hnone := hmain 0
        simp only [stepMain, hpc, hinput] at hnone
        split at hnone <;> cases hnone
    obtain ⟨_, _, hstage⟩ := Reachable.machineInv hs
    refine ⟨rfl, hinput, ?_⟩
    cases hstage with
    | between _ _ _ hlines => rwa [hinput, List.append_nil] at hlines
    | within _ hwithin => rcases hwithin with hwithin | ⟨hwithin, _⟩ <;> simp [hpc] at hwithin
    | stopped _ hstop => simp [hpc] at hstop
  | fork i =>
    have hnone := hmain 0
    simp only [stepMain, hpc] at hnone
    split at hnone <;> cases hnone
  | wait =>
    exfalso
    have hnone := hmain 0
    cases hprocesses : s.processes with
    | nil =>
      simp only [stepMain, hpc, hprocesses] at hnone
      cases hnone
    | cons p others =>
      have hp : s.processes[0]? = some p := by rw [hprocesses]; rfl
      have hgo := hprocess 0
      simp only [stepProcess, hpc, hp] at hgo
      cases hphase : p.phase <;> simp only [hphase] at hgo
      case forked => split at hgo <;> cases hgo
      case running => cases hgo
      case ended =>
        simp only [stepMain, hpc, hprocesses, List.getElem?_cons_zero, hphase, if_true] at hnone
        cases hnone

/-- **A session ends if its programs do.**  If `execv` fails only finitely often, the session
    goes on for ever only if from some time on there is nothing but steps of programs that
    do not end.  It comes to a halt only when `exit` is read, a table is overrun or there
    is no line left; until an `execv` fails, the lines worked off are those of the input. -/
theorem session_ends (os : Os W) (w : W) (lines : List (List UInt8)) :
    (¬ ∃ r : (machine os w lines).InfiniteRun, (∃ i, ∀ j, i ≤ j → ¬ (r.action j).Fails) ∧
      r.FairTo (fun a => ¬ a.Works) fun _ => False) ∧
    ∀ s, (machine os w lines).Reachable s → (machine os w lines).Stuck s →
      (∃ stop, s.pc = .stopped stop) ∨
        s.pc = .getline ∧ s.input = [] ∧
          ((∀ r ∈ s.past, r.failed = []) → s.past.map Record.text = lines) := by
  refine ⟨?_, fun s hs hstuck => ended_of_stuck hs hstuck⟩
  refine System.no_calmRun _ (fun s => toLex s.rest) (fun s => toLex s.rest) ?_ ?_
    (fun s a s' _ _ _ hfalse => hfalse.elim)
  · intro s a s' hs hstep hcalm hworks
    cases a with
    | main forks k mem => exact rest_main (stepMain_move hstep)
    | process k world ends =>
      obtain ⟨hgoes, hmove⟩ := stepProcess_move hstep
      exact (rest_process hs hgoes hmove).resolve_right fun h => hworks h.1
    | fail k input => exact absurd trivial hcalm
  · intro s a s' hs hstep hcalm hworks
    cases a with
    | main forks k mem => exact (rest_main (stepMain_move hstep)).le
    | process k world ends =>
      obtain ⟨hgoes, hmove⟩ := stepProcess_move hstep
      rcases rest_process hs hgoes hmove with h | ⟨_, h⟩
      · exact h.le
      · exact (congrArg toLex h).le
    | fail k input => exact absurd trivial hcalm

end Ending

end OstepProjects.Shell
