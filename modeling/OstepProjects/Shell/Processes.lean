/-
  OstepProjects/Shell/Processes.lean
  ==================================
  **The shell and its children as processes of their own.**

  For a line, `main` collects the commands that are found, forks a child for each and
  then calls `wait` until there is no child left.  The children open their files, run
  and end in any order, also while the shell is still forking; a fork may fail.  So may
  `execv`: the child then calls `exit`, which moves the position in the input that it
  shares with the shell, so that the lines that are still read can be any.  The programs
  themselves leave the input of the shell alone.

  No line is looked at before all children of the lines in front of it have ended
  (`lines_in_order`), so while a line is parsed nobody else is there, and what is
  said of `line` holds of every order in which the children run.
-/
import OstepProjects.Lib.Transition
import OstepProjects.Shell.SearchPath

namespace OstepProjects.Shell

open OstepProjects.Bytes OstepProjects.Transition

variable {W : Type}

/-! ### The processes -/

inductive Phase
  | forked
  | running
  | ended
deriving DecidableEq

/-- A child that has not been waited for. -/
structure Process where
  slot : Nat
  command : Command
  phase : Phase

def Process.started (p : Process) : Bool := p.phase ≠ .forked

/-- The history of a line: what was left in memory behind its strings, the shell before it
    and when all segments have been looked at, the slots for which a child has been forked,
    those in which `execv` has been called, each with the world at that time, those in
    which it has failed, and those waited for. -/
structure Record (W : Type) where
  text : List UInt8
  mem : Memory
  before : Wish W
  ready : Wish W
  forked : List Nat
  executed : List (Nat × W × Child)
  failed : List Nat
  reaped : List Nat

inductive MainPc
  | getline
  | fork (i : Nat)
  | wait
  | stopped (stop : Stop)

/-- The world of `wish` is that of all processes. -/
structure Machine (W : Type) where
  wish : Wish W
  input : List (List UInt8)
  pc : MainPc
  processes : List Process
  current : Record W
  past : List (Record W)

variable (os : Os W)

/-- The part of `line` in front of the forks. -/
def parse (mem : Memory) (str : List UInt8) (sh : Wish W) : Except Stop (Wish W) := do
  let fix_str_origin := cstr (inputFix (cstr str) ++ mem.fix_str_origin)
  let sh ← segment os mem 0 [] sh
  segments os mem 0 (fix_str_origin.splitOnP fun c => c == 38 || c == 10) sh

/-- A step of `main`: whether `fork` succeeds, the child that `wait` returns, and what is
    left in memory for the next line.  With no child left `wait` returns -1. -/
def stepMain (s : Machine W) (forks : Bool) (k : Nat) (mem : Memory) : Option (Machine W) :=
  match s.pc with
  | .getline =>
    match s.input with
    | [] => none
    | str :: input =>
      match parse os mem str s.wish with
      | .error stop => some { s with input, pc := .stopped stop }
      | .ok wish =>
        some { s with
          wish
          input
          pc := .fork 0
          current := ⟨str, mem, s.wish, wish, [], [], [], []⟩ }
  | .fork i =>
    match s.wish.commands[i]? with
    | none => some { s with pc := .wait }
    | some command =>
      if forks then
        some { s with
          pc := .fork (i + 1)
          processes := s.processes ++ [⟨i, command, .forked⟩]
          current := { s.current with forked := s.current.forked ++ [i] } }
      else some { s with pc := .fork (i + 1) }
  | .wait =>
    match s.processes with
    | [] => some { s with pc := .getline, wish := s.wish.clear, past := s.past ++ [s.current] }
    | _ :: _ =>
      match s.processes[k]? with
      | none => none
      | some p =>
        if p.phase = .ended then
          some { s with
            processes := s.processes.eraseIdx k
            current := { s.current with reaped := s.current.reaped ++ [p.slot] } }
        else none
  | .stopped _ => none

/-- The world after the child of slot `i` has opened its file. -/
def openedBy (sh : Wish W) (i : Nat) : W :=
  match sh.label_list i, sh.file_list i with
  | true, some file => (os.openFile sh.world file).1
  | _, _ => sh.world

/-- A step of a child: it opens its file and calls `execv`, or it is a step of the program,
    after which the world is `world`, and perhaps its last. -/
def stepProcess (s : Machine W) (k : Nat) (world : W) (ends : Bool) : Option (Machine W) :=
  match s.pc with
  | .stopped _ => none
  | _ =>
    match s.processes[k]? with
    | none => none
    | some p =>
      match p.phase with
      | .forked =>
        match child os s.wish.world s.wish p.slot p.command with
        | .error stop => some { s with pc := .stopped stop }
        | .ok c =>
          some { s with
            wish := { s.wish with world := openedBy os s.wish p.slot }
            processes := s.processes.set k { p with phase := .running }
            current := { s.current with
              executed := s.current.executed ++ [(p.slot, s.wish.world, c)] } }
      | .running =>
        some { s with
          wish := { s.wish with world }
          processes := if ends then s.processes.set k { p with phase := .ended } else s.processes }
      | .ended => none

/-- A child opens its file, `execv` fails and the child calls `exit`, after which `input` are
    the lines that the shell still reads. -/
def stepFail (s : Machine W) (k : Nat) (input : List (List UInt8)) : Option (Machine W) :=
  match s.pc with
  | .stopped _ => none
  | _ =>
    match s.processes[k]? with
    | none => none
    | some p =>
      if p.phase = .forked then
        match child os s.wish.world s.wish p.slot p.command with
        | .error stop => some { s with pc := .stopped stop }
        | .ok c =>
          some { s with
            wish := { s.wish with world := openedBy os s.wish p.slot }
            input
            processes := s.processes.set k { p with phase := .ended }
            current := { s.current with
              executed := s.current.executed ++ [(p.slot, s.wish.world, c)]
              failed := s.current.failed ++ [p.slot] } }
      else none

inductive Move (W : Type)
  | main (forks : Bool) (k : Nat) (mem : Memory)
  | process (k : Nat) (world : W) (ends : Bool)
  | fail (k : Nat) (input : List (List UInt8))

def machine (w : W) (lines : List (List UInt8)) : System (Machine W) (Move W) where
  start := ⟨start w, lines, .getline, [],
    ⟨[], Memory.fresh, start w, start w, [], [], [], []⟩, []⟩
  step s
    | .main forks k mem => stepMain os s forks k mem
    | .process k world ends => stepProcess os s k world ends
    | .fail k input => stepFail os s k input

/-! ### What a step can do -/

section Steps

variable {os} {s s' : Machine W}

inductive MainMove (os : Os W) (s : Machine W) : Machine W → Prop
  | read (str : List UInt8) (mem : Memory) (input : List (List UInt8)) (wish : Wish W)
      (hpc : s.pc = .getline) (hinput : s.input = str :: input)
      (hparse : parse os mem str s.wish = .ok wish) :
      MainMove os s { s with
        wish, input, pc := .fork 0, current := ⟨str, mem, s.wish, wish, [], [], [], []⟩ }
  | stop (str : List UInt8) (mem : Memory) (input : List (List UInt8)) (stop : Stop)
      (hpc : s.pc = .getline) (hinput : s.input = str :: input)
      (hparse : parse os mem str s.wish = .error stop) :
      MainMove os s { s with input, pc := .stopped stop }
  | fork (i : Nat) (command : Command) (hpc : s.pc = .fork i)
      (hcommand : s.wish.commands[i]? = some command) :
      MainMove os s { s with
        pc := .fork (i + 1)
        processes := s.processes ++ [⟨i, command, .forked⟩]
        current := { s.current with forked := s.current.forked ++ [i] } }
  | fail (i : Nat) (command : Command) (hpc : s.pc = .fork i)
      (hcommand : s.wish.commands[i]? = some command) :
      MainMove os s { s with pc := .fork (i + 1) }
  | forked (i : Nat) (hpc : s.pc = .fork i) (hnone : s.wish.commands.length ≤ i) :
      MainMove os s { s with pc := .wait }
  | reap (k : Nat) (p : Process) (hpc : s.pc = .wait) (hp : s.processes[k]? = some p)
      (hended : p.phase = .ended) :
      MainMove os s { s with
        processes := s.processes.eraseIdx k
        current := { s.current with reaped := s.current.reaped ++ [p.slot] } }
  | next (hpc : s.pc = .wait) (hnone : s.processes = []) :
      MainMove os s { s with
        pc := .getline, wish := s.wish.clear, past := s.past ++ [s.current] }

theorem stepMain_move {forks : Bool} {k : Nat} {mem : Memory}
    (h : stepMain os s forks k mem = some s') :
    MainMove os s s' := by
  rw [stepMain] at h
  split at h
  · rename_i hpc
    split at h
    · cases h
    · rename_i str input hinput
      split at h <;> cases h
      · rename_i stop hparse
        exact .stop str mem input stop hpc hinput hparse
      · rename_i wish hparse
        exact .read str mem input wish hpc hinput hparse
  · rename_i i hpc
    split at h
    · rename_i hnone
      cases h
      exact .forked i hpc (List.getElem?_eq_none_iff.mp hnone)
    · rename_i command hcommand
      split at h <;> cases h
      · exact .fork i command hpc hcommand
      · exact .fail i command hpc hcommand
  · rename_i hpc
    split at h
    · rename_i hnone
      cases h
      exact .next hpc hnone
    · split at h
      · cases h
      · rename_i p hp
        split at h <;> cases h
        rename_i hended
        exact .reap k p hpc hp hended
  · cases h

inductive ProcessMove (os : Os W) (s : Machine W) (k : Nat) (ends : Bool) : Machine W → Prop
  | overrun (p : Process) (stop : Stop) (hp : s.processes[k]? = some p)
      (hphase : p.phase = .forked)
      (hchild : child os s.wish.world s.wish p.slot p.command = .error stop) :
      ProcessMove os s k ends { s with pc := .stopped stop }
  | exec (p : Process) (c : Child) (hp : s.processes[k]? = some p) (hphase : p.phase = .forked)
      (hchild : child os s.wish.world s.wish p.slot p.command = .ok c) :
      ProcessMove os s k ends { s with
        wish := { s.wish with world := openedBy os s.wish p.slot }
        processes := s.processes.set k { p with phase := .running }
        current := { s.current with
          executed := s.current.executed ++ [(p.slot, s.wish.world, c)] } }
  | work (p : Process) (world : W) (hends : ends = false) (hp : s.processes[k]? = some p)
      (hphase : p.phase = .running) :
      ProcessMove os s k ends { s with wish := { s.wish with world } }
  | exit (p : Process) (world : W) (hends : ends = true) (hp : s.processes[k]? = some p)
      (hphase : p.phase = .running) :
      ProcessMove os s k ends { s with
        wish := { s.wish with world }, processes := s.processes.set k { p with phase := .ended } }

theorem stepProcess_move {k : Nat} {world : W} {ends : Bool}
    (h : stepProcess os s k world ends = some s') :
    (∀ stop, s.pc ≠ .stopped stop) ∧ ProcessMove os s k ends s' := by
  have hgoes : ∀ stop, s.pc ≠ .stopped stop := by
    intro stop hpc
    simp only [stepProcess, hpc] at h
    cases h
  refine ⟨hgoes, ?_⟩
  rw [stepProcess] at h
  split at h
  · rename_i stop hpc
    exact absurd hpc (hgoes stop)
  · split at h
    · cases h
    · rename_i p hp
      split at h
      · rename_i hphase
        split at h <;> cases h
        · rename_i stop hchild
          exact .overrun p stop hp hphase hchild
        · rename_i c hchild
          exact .exec p c hp hphase hchild
      · rename_i hphase
        cases h
        cases ends
        · exact .work p world rfl hp hphase
        · exact .exit p world rfl hp hphase
      · cases h

inductive FailMove (os : Os W) (s : Machine W) (k : Nat) (input : List (List UInt8)) :
    Machine W → Prop
  | overrun (p : Process) (stop : Stop) (hp : s.processes[k]? = some p)
      (hphase : p.phase = .forked)
      (hchild : child os s.wish.world s.wish p.slot p.command = .error stop) :
      FailMove os s k input { s with pc := .stopped stop }
  | fail (p : Process) (c : Child) (hp : s.processes[k]? = some p) (hphase : p.phase = .forked)
      (hchild : child os s.wish.world s.wish p.slot p.command = .ok c) :
      FailMove os s k input { s with
        wish := { s.wish with world := openedBy os s.wish p.slot }
        input
        processes := s.processes.set k { p with phase := .ended }
        current := { s.current with
          executed := s.current.executed ++ [(p.slot, s.wish.world, c)]
          failed := s.current.failed ++ [p.slot] } }

theorem stepFail_move {k : Nat} {input : List (List UInt8)}
    (h : stepFail os s k input = some s') :
    (∀ stop, s.pc ≠ .stopped stop) ∧ FailMove os s k input s' := by
  have hgoes : ∀ stop, s.pc ≠ .stopped stop := by
    intro stop hpc
    simp only [stepFail, hpc] at h
    cases h
  refine ⟨hgoes, ?_⟩
  rw [stepFail] at h
  split at h
  · rename_i stop hpc
    exact absurd hpc (hgoes stop)
  · split at h
    · cases h
    · rename_i p hp
      split at h
      · rename_i hphase
        split at h <;> cases h
        · rename_i stop hchild
          exact .overrun p stop hp hphase hchild
        · rename_i c hchild
          exact .fail p c hp hphase hchild
      · cases h

end Steps

/-! ### The lines of a session -/

/-- What the children of a line have been. -/
structure Record.Sound (os : Os W) (r : Record W) : Prop where
  parsed : parse os r.mem r.text r.before = .ok r.ready
  executed : ∀ e ∈ r.executed, ∃ c, r.ready.commands[e.1]? = some c ∧
    child os e.2.1 r.ready e.1 c = .ok e.2.2
  failed : ∀ i ∈ r.failed, i ∈ r.executed.map Prod.fst

/-- Each child that was forked has called `execv` once and has been waited for. -/
structure Record.Done (os : Os W) (r : Record W) : Prop extends r.Sound os where
  forked : r.forked.Sublist (List.range r.ready.commands.length)
  executed_perm : (r.executed.map Prod.fst).Perm r.forked
  reaped_perm : r.reaped.Perm r.forked

/-- The lines behind a session that begins in world `w`, and the shell after them.  The
    children leave the world as they like. -/
inductive Past (os : Os W) (w : W) : List (Record W) → Wish W → Prop
  | nil : Past os w [] (start w)
  | line {past : List (Record W)} {r : Record W} (world : W) (hpast : Past os w past r.before)
      (hdone : r.Done os) : Past os w (past ++ [r]) { r.ready.clear with world }

/-- The children and the record of the line at hand. -/
structure Linked (os : Os W) (s : Machine W) : Prop where
  sound : s.current.Sound os
  wish : s.wish = { s.current.ready with world := s.wish.world }
  commands : ∀ p ∈ s.processes, s.current.ready.commands[p.slot]? = some p.command
  forked : s.current.forked.Perm (s.current.reaped ++ s.processes.map Process.slot)
  executed : (s.current.executed.map Prod.fst).Perm
    (s.current.reaped ++ (s.processes.filter Process.started).map Process.slot)

/-- Between two lines there is no child; within a line all children are of that line.  As
    long as no `execv` has failed, the lines are those of the input. -/
inductive Stage (os : Os W) (lines : List (List UInt8)) (s : Machine W) (sh : Wish W) : Prop
  | between (hpc : s.pc = .getline) (hnone : s.processes = []) (hwish : s.wish = sh)
      (hlines : (∀ r ∈ s.past, r.failed = []) → s.past.map Record.text ++ s.input = lines)
  | within (bound : Nat)
      (hpc : s.pc = .fork bound ∨ s.pc = .wait ∧ bound = s.current.ready.commands.length)
      (hlinked : Linked os s) (hbefore : s.current.before = sh)
      (hbound : bound ≤ s.current.ready.commands.length)
      (hforked : s.current.forked.Sublist (List.range bound))
      (hlines : (∀ r ∈ s.past, r.failed = []) → s.current.failed = [] →
        s.past.map Record.text ++ s.current.text :: s.input = lines)
  | stopped (stop : Stop) (hpc : s.pc = .stopped stop) (hexit : stop = .exit → s.processes = [])

def MachineInv (os : Os W) (w : W) (lines : List (List UInt8)) (s : Machine W) : Prop :=
  ∃ sh, Past os w s.past sh ∧ Stage os lines s sh

/-- The element at an index, with what is in front of it and behind it. -/
theorem exists_split {α : Type*} {xs : List α} {k : Nat} {x : α} (h : xs[k]? = some x) :
    ∃ before behind, xs = before ++ x :: behind ∧
      (∀ y, xs.set k y = before ++ y :: behind) ∧ xs.eraseIdx k = before ++ behind := by
  obtain ⟨hk, rfl⟩ := List.getElem?_eq_some_iff.mp h
  refine ⟨xs.take k, xs.drop (k + 1), ?_, fun y => ?_, List.eraseIdx_eq_take_drop_succ ..⟩
  · rw [List.getElem_cons_drop, List.take_append_drop]
  · exact List.set_eq_take_append_cons_drop .. |>.trans (if_pos hk)

section Invariant

variable {os} {w : W} {lines : List (List UInt8)} {s s' : Machine W}

theorem child_eq_error {w : W} {sh : Wish W} {i : Nat} {c : Command} {stop : Stop}
    (h : child os w sh i c = .error stop) : stop = .overrun := by
  simp only [child] at h
  split at h <;> cases h
  rfl

theorem Linked.fork (h : Linked os s) {i : Nat} {command : Command}
    (hcommand : s.wish.commands[i]? = some command) :
    Linked os { s with
      pc := .fork (i + 1)
      processes := s.processes ++ [⟨i, command, .forked⟩]
      current := { s.current with forked := s.current.forked ++ [i] } } := by
  constructor
  case sound => exact ⟨h.sound.parsed, h.sound.executed, h.sound.failed⟩
  case wish => exact h.wish
  case commands =>
    intro p hp
    rcases List.mem_append.mp hp with hp | hp
    · exact h.commands p hp
    · rw [List.mem_singleton.mp hp]
      rw [h.wish] at hcommand
      exact hcommand
  case forked =>
    rw [List.map_append, ← List.append_assoc]
    exact h.forked.append_right [i]
  case executed =>
    have hnew : Process.started ⟨i, command, .forked⟩ = false := rfl
    rw [List.filter_append, List.filter_cons_of_neg (by simp [hnew]), List.filter_nil,
      List.append_nil]
    exact h.executed

theorem Linked.reap (h : Linked os s) {k : Nat} {p : Process} (hp : s.processes[k]? = some p)
    (hended : p.phase = .ended) :
    Linked os { s with
      processes := s.processes.eraseIdx k
      current := { s.current with reaped := s.current.reaped ++ [p.slot] } } := by
  obtain ⟨before, behind, hsplit, _, herase⟩ := exists_split hp
  have hmoved : ∀ reaped l₁ l₂ : List Nat,
      (reaped ++ (l₁ ++ p.slot :: l₂)).Perm (reaped ++ [p.slot] ++ (l₁ ++ l₂)) := by
    intro reaped l₁ l₂
    rw [List.append_assoc]
    exact List.perm_middle.append_left reaped
  constructor
  case sound => exact ⟨h.sound.parsed, h.sound.executed, h.sound.failed⟩
  case wish => exact h.wish
  case commands => exact fun q hq => h.commands q (List.mem_of_mem_eraseIdx hq)
  case forked =>
    have hforked := h.forked
    rw [hsplit, List.map_append, List.map_cons] at hforked
    simp only [herase, List.map_append]
    exact hforked.trans (hmoved ..)
  case executed =>
    have hexecuted := h.executed
    have hstarted : p.started = true := by
      rw [Process.started, hended]
      rfl
    rw [hsplit, List.filter_append, List.filter_cons_of_pos hstarted,
      List.map_append, List.map_cons] at hexecuted
    simp only [herase, List.filter_append, List.map_append]
    exact hexecuted.trans (hmoved ..)

/-- A child calls `execv`, after which it runs or has ended. -/
theorem Linked.exec (h : Linked os s) {k : Nat} {p : Process} {c : Child}
    (hp : s.processes[k]? = some p) (hphase : p.phase = .forked)
    (hchild : child os s.wish.world s.wish p.slot p.command = .ok c)
    (input : List (List UInt8)) {phase : Phase} (hne : phase ≠ .forked) {failed : List Nat}
    (hfailed : ∀ i ∈ failed, i ∈ s.current.failed ∨ i = p.slot) :
    Linked os { s with
      wish := { s.wish with world := openedBy os s.wish p.slot }
      input
      processes := s.processes.set k { p with phase }
      current := { s.current with
        executed := s.current.executed ++ [(p.slot, s.wish.world, c)]
        failed } } := by
  obtain ⟨before, behind, hsplit, hset, _⟩ := exists_split hp
  have hmem : p ∈ s.processes := List.mem_of_getElem? hp
  have hwish := h.wish
  constructor
  case sound =>
    refine ⟨h.sound.parsed, fun e he => ?_, fun i hi => ?_⟩
    · rcases List.mem_append.mp he with he | he
      · exact h.sound.executed e he
      · rw [List.mem_singleton.mp he]
        rw [hwish] at hchild
        exact ⟨p.command, h.commands p hmem, hchild⟩
    · rw [List.map_append]
      rcases hfailed i hi with hi | rfl
      · exact List.mem_append_left _ (h.sound.failed i hi)
      · exact List.mem_append_right _ (List.mem_singleton_self _)
  case wish =>
    change ({ s.wish with world := _ } : Wish W) = _
    rw [hwish]
  case commands =>
    intro q hq
    rw [hset] at hq
    have hbefore : ∀ q ∈ before ++ p :: behind, s.current.ready.commands[q.slot]? =
        some q.command := by
      rw [← hsplit]
      exact h.commands
    rcases List.mem_append.mp hq with hq | hq
    · exact hbefore q (List.mem_append_left _ hq)
    · rcases List.mem_cons.mp hq with rfl | hq
      · exact h.commands p hmem
      · exact hbefore q (List.mem_append_right _ (List.mem_cons_of_mem p hq))
  case forked =>
    have hforked := h.forked
    rw [hsplit, List.map_append, List.map_cons] at hforked
    simp only [hset, List.map_append, List.map_cons]
    exact hforked
  case executed =>
    have hexecuted := h.executed
    have hwaits : ¬ p.started = true := by simp [Process.started, hphase]
    have hruns : Process.started { p with phase } = true := by simpa [Process.started] using hne
    rw [hsplit, List.filter_append, List.filter_cons_of_neg hwaits, List.map_append] at hexecuted
    rw [hset, List.filter_append, List.filter_cons_of_pos hruns, List.map_append,
      List.map_append, List.map_cons]
    refine (hexecuted.append_right [p.slot]).trans ?_
    rw [List.append_assoc, List.append_assoc]
    refine List.Perm.append_left _ (List.Perm.append_left _ ?_)
    exact List.perm_append_singleton ..

/-- A program works or ends. -/
theorem Linked.work (h : Linked os s) {processes : List Process} (world : W)
    (hslots : processes.map Process.slot = s.processes.map Process.slot)
    (hcommands : ∀ p ∈ processes, s.current.ready.commands[p.slot]? = some p.command)
    (hstarted : (processes.filter Process.started).map Process.slot =
      (s.processes.filter Process.started).map Process.slot) :
    Linked os { s with wish := { s.wish with world }, processes } := by
  constructor
  case sound => exact h.sound
  case wish =>
    change ({ s.wish with world := _ } : Wish W) = _
    rw [h.wish]
  case commands => exact hcommands
  case forked =>
    rw [hslots]
    exact h.forked
  case executed =>
    rw [hstarted]
    exact h.executed

/-- A running program whose phase is set. -/
theorem set_running {k : Nat} {p : Process} (hp : s.processes[k]? = some p)
    (hphase : p.phase = .running) {phase : Phase} (hne : phase ≠ .forked) :
    (s.processes.set k { p with phase }).map Process.slot = s.processes.map Process.slot ∧
      ((s.processes.set k { p with phase }).filter Process.started).map Process.slot =
        (s.processes.filter Process.started).map Process.slot ∧
      ∀ q ∈ s.processes.set k { p with phase },
        ∃ q' ∈ s.processes, q'.slot = q.slot ∧ q'.command = q.command := by
  obtain ⟨before, behind, hsplit, hset, _⟩ := exists_split hp
  have hold : p.started = true := by
    rw [Process.started, hphase]
    rfl
  have hnew : Process.started { p with phase } = true := by simpa [Process.started] using hne
  rw [hset, hsplit]
  refine ⟨by simp, by simp [List.filter_append, hold, hnew], ?_⟩
  intro q hq
  rcases List.mem_append.mp hq with hq | hq
  · exact ⟨q, List.mem_append_left _ hq, rfl, rfl⟩
  · rcases List.mem_cons.mp hq with rfl | hq
    · exact ⟨p, by simp, rfl, rfl⟩
    · exact ⟨q, List.mem_append_right _ (List.mem_cons_of_mem p hq), rfl, rfl⟩

theorem machineInv_main (h : MachineInv os w lines s) (hmove : MainMove os s s') :
    MachineInv os w lines s' := by
  obtain ⟨sh, hpast, hstage⟩ := h
  cases hmove with
  | read str mem input wish hpc hinput hparse =>
    cases hstage with
    | between _ hnone hwish hlines =>
      refine ⟨sh, hpast, .within 0 (Or.inl rfl) ?_ hwish (Nat.zero_le _) (List.nil_sublist _) ?_⟩
      · rw [hnone]
        exact ⟨⟨hparse, fun e he => (by cases he), fun i hi => (by cases hi)⟩, rfl,
          fun p hp => (by cases hp), List.Perm.refl [], List.Perm.refl []⟩
      · rw [hinput] at hlines
        exact fun hpast _ => hlines hpast
    | within _ hwithin => rcases hwithin with hwithin | ⟨hwithin, _⟩ <;> simp [hpc] at hwithin
    | stopped _ hstop => simp [hpc] at hstop
  | stop str mem input stop hpc hinput hparse =>
    cases hstage with
    | between _ hnone _ _ => exact ⟨sh, hpast, .stopped stop rfl fun _ => hnone⟩
    | within _ hwithin => rcases hwithin with hwithin | ⟨hwithin, _⟩ <;> simp [hpc] at hwithin
    | stopped _ hstop => simp [hpc] at hstop
  | fork i command hpc hcommand =>
    cases hstage with
    | between hgetline => simp [hpc] at hgetline
    | within bound hwithin hlinked hbefore hbound hforked hlines =>
      obtain rfl : i = bound := by rcases hwithin with hwithin | ⟨hwithin, _⟩ <;> simp_all
      have hlt : i < s.current.ready.commands.length := by
        have hlt := (List.getElem?_eq_some_iff.mp hcommand).1
        rw [hlinked.wish] at hlt
        exact hlt
      refine ⟨sh, hpast, .within (i + 1) (Or.inl rfl) (hlinked.fork hcommand) hbefore hlt ?_ hlines⟩
      rw [List.range_succ]
      exact hforked.append (List.Sublist.refl [i])
    | stopped _ hstop => simp [hpc] at hstop
  | fail i command hpc hcommand =>
    cases hstage with
    | between hgetline => simp [hpc] at hgetline
    | within bound hwithin hlinked hbefore hbound hforked hlines =>
      obtain rfl : i = bound := by rcases hwithin with hwithin | ⟨hwithin, _⟩ <;> simp_all
      have hlt : i < s.current.ready.commands.length := by
        have hlt := (List.getElem?_eq_some_iff.mp hcommand).1
        rw [hlinked.wish] at hlt
        exact hlt
      have hmore := List.range_sublist.mpr (Nat.le_succ i)
      exact ⟨sh, hpast, .within (i + 1) (Or.inl rfl) ⟨hlinked.sound, hlinked.wish,
        hlinked.commands, hlinked.forked, hlinked.executed⟩ hbefore hlt (hforked.trans hmore)
        hlines⟩
    | stopped _ hstop => simp [hpc] at hstop
  | forked i hpc hnone =>
    cases hstage with
    | between hgetline => simp [hpc] at hgetline
    | within bound hwithin hlinked hbefore hbound hforked hlines =>
      obtain rfl : i = bound := by rcases hwithin with hwithin | ⟨hwithin, _⟩ <;> simp_all
      have hi : i = s.current.ready.commands.length := by
        rw [hlinked.wish] at hnone
        exact Nat.le_antisymm hbound hnone
      exact ⟨sh, hpast, .within i (Or.inr ⟨rfl, hi⟩) ⟨hlinked.sound, hlinked.wish,
        hlinked.commands, hlinked.forked, hlinked.executed⟩ hbefore hbound hforked hlines⟩
    | stopped _ hstop => simp [hpc] at hstop
  | reap k p hpc hp hended =>
    cases hstage with
    | between hgetline => simp [hpc] at hgetline
    | within bound hwithin hlinked hbefore hbound hforked hlines =>
      exact ⟨sh, hpast, .within bound hwithin (hlinked.reap hp hended) hbefore hbound hforked
        hlines⟩
    | stopped _ hstop => simp [hpc] at hstop
  | next hpc hnone =>
    cases hstage with
    | between hgetline => simp [hpc] at hgetline
    | within bound hwithin hlinked hbefore hbound hforked hlines =>
      obtain rfl : bound = s.current.ready.commands.length := by
        rcases hwithin with hwithin | ⟨_, hwithin⟩
        · simp [hpc] at hwithin
        · exact hwithin
      have hreaped := hlinked.forked
      have hexecuted := hlinked.executed
      rw [hnone, List.map_nil, List.append_nil] at hreaped
      rw [hnone, List.filter_nil, List.map_nil, List.append_nil] at hexecuted
      have hdone : s.current.Done os :=
        ⟨hlinked.sound, hforked, hexecuted.trans hreaped.symm, hreaped.symm⟩
      rw [← hbefore] at hpast
      refine ⟨_, hpast.line s.wish.world hdone, .between rfl hnone ?_ ?_⟩
      · rw [hlinked.wish]
        rfl
      · intro hnone
        rw [List.map_append, List.append_assoc]
        exact hlines (fun r hr => hnone r (List.mem_append_left _ hr)) (hnone _ (by simp))
    | stopped _ hstop => simp [hpc] at hstop

theorem machineInv_process (h : MachineInv os w lines s) (hgoes : ∀ stop, s.pc ≠ .stopped stop)
    {k : Nat} {ends : Bool} (hmove : ProcessMove os s k ends s') : MachineInv os w lines s' := by
  obtain ⟨sh, hpast, hstage⟩ := h
  cases hstage with
  | between _ hnone =>
    have hempty : s.processes[k]? = none := by rw [hnone]; rfl
    cases hmove with
    | overrun p _ hp | exec p _ hp | work p _ _ hp | exit p _ _ hp =>
      rw [hempty] at hp
      cases hp
  | stopped stop hpc => exact absurd hpc (hgoes stop)
  | within bound hwithin hlinked hbefore hbound hforked hlines =>
    cases hmove with
    | overrun p stop hp hphase hchild =>
      refine ⟨sh, hpast, .stopped stop rfl ?_⟩
      rw [child_eq_error hchild]
      exact fun hexit => Stop.noConfusion hexit
    | exec p c hp hphase hchild =>
      have hruns : Phase.running ≠ .forked := Phase.noConfusion
      exact ⟨sh, hpast, .within bound hwithin
        (hlinked.exec hp hphase hchild s.input hruns fun i hi => Or.inl hi) hbefore hbound
        hforked hlines⟩
    | work p world _ hp hphase =>
      exact ⟨sh, hpast, .within bound hwithin (hlinked.work world rfl hlinked.commands rfl) hbefore
        hbound hforked hlines⟩
    | exit p world _ hp hphase =>
      have hne : Phase.ended ≠ .forked := Phase.noConfusion
      obtain ⟨hslots, hstarted, hcommands⟩ := set_running hp hphase hne
      refine ⟨sh, hpast, .within bound hwithin (hlinked.work world hslots ?_ hstarted) hbefore
        hbound hforked hlines⟩
      intro q hq
      obtain ⟨q', hq', hslot, hcommand⟩ := hcommands q hq
      rw [← hslot, ← hcommand]
      exact hlinked.commands q' hq'

theorem machineInv_fail (h : MachineInv os w lines s) (hgoes : ∀ stop, s.pc ≠ .stopped stop)
    {k : Nat} {input : List (List UInt8)} (hmove : FailMove os s k input s') :
    MachineInv os w lines s' := by
  obtain ⟨sh, hpast, hstage⟩ := h
  cases hstage with
  | between _ hnone =>
    have hempty : s.processes[k]? = none := by rw [hnone]; rfl
    cases hmove with
    | overrun p _ hp | fail p _ hp =>
      rw [hempty] at hp
      cases hp
  | stopped stop hpc => exact absurd hpc (hgoes stop)
  | within bound hwithin hlinked hbefore hbound hforked hlines =>
    cases hmove with
    | overrun p stop hp hphase hchild =>
      refine ⟨sh, hpast, .stopped stop rfl ?_⟩
      rw [child_eq_error hchild]
      exact fun hexit => Stop.noConfusion hexit
    | fail p c hp hphase hchild =>
      have hends : Phase.ended ≠ .forked := Phase.noConfusion
      refine ⟨sh, hpast, .within bound hwithin
        (hlinked.exec hp hphase hchild input hends fun i hi => ?_) hbefore hbound hforked ?_⟩
      · exact (List.mem_append.mp hi).imp_right List.mem_singleton.mp
      · intro _ hnone
        simp at hnone

theorem Reachable.machineInv (hs : (machine os w lines).Reachable s) :
    MachineInv os w lines s := by
  refine System.Reaches.invariant ?_ ?_ hs
  · exact ⟨_, .nil, .between rfl rfl rfl fun _ => rfl⟩
  · intro s a s' _ h _ hstep
    cases a with
    | main forks k mem => exact machineInv_main h (stepMain_move hstep)
    | process k world ends =>
      obtain ⟨hgoes, hmove⟩ := stepProcess_move hstep
      exact machineInv_process h hgoes hmove
    | fail k input =>
      obtain ⟨hgoes, hmove⟩ := stepFail_move hstep
      exact machineInv_fail h hgoes hmove

end Invariant

/-! ### A line and its children -/

theorem line_parse (os : Os W) (mem : Memory) (after : Nat → W) (str : List UInt8) (sh : Wish W) :
    line os mem after str sh = (parse os mem str sh).bind fun sh =>
      (launch os after sh 0 sh.commands).bind fun children => .ok (sh.clear, children) := by
  simp only [line, parse, bind, Except.bind]
  cases segment os mem 0 [] sh with
  | error stop => rfl
  | ok sh => rfl

theorem launch_eq_ok {os : Os W} {after : Nat → W} {sh : Wish W} {commands : List Command}
    {children : List Child} {i : Nat} (hlength : children.length = commands.length)
    (h : ∀ j c, commands[j]? = some c →
      ∃ made, children[j]? = some made ∧ child os (after (i + j)) sh (i + j) c = .ok made) :
    launch os after sh i commands = .ok children := by
  induction commands generalizing i children with
  | nil =>
    rw [List.eq_nil_of_length_eq_zero hlength]
    rfl
  | cons c commands ih =>
    obtain ⟨made, hmade, hchild⟩ := h 0 c rfl
    obtain ⟨first, others, rfl⟩ := List.exists_cons_of_length_eq_add_one hlength
    obtain rfl : first = made := by simpa using hmade
    have hothers : launch os after sh (i + 1) commands = .ok others := by
      refine ih (by simpa using hlength) fun j c hc => ?_
      obtain ⟨made, hmade, hchild⟩ := h (j + 1) c (by simpa using hc)
      rw [← Nat.add_assoc, Nat.add_right_comm] at hchild
      exact ⟨made, by simpa using hmade, hchild⟩
    rw [launch, show child os (after i) sh i c = .ok first from hchild, ok_bind, hothers, ok_bind]
    rfl

/-- When no fork has failed, the children are those of `line`, where each opens its file in
    the world that it has found. -/
theorem Record.Done.line_eq {os : Os W} {r : Record W} (h : r.Done os)
    (hall : r.forked = List.range r.ready.commands.length) :
    ∃ after children, line os r.mem after r.text r.before = .ok (r.ready.clear, children) ∧
      (r.executed.map Prod.fst).Perm (List.range children.length) ∧
      ∀ e ∈ r.executed, children[e.1]? = some e.2.2 := by
  have hperm := h.executed_perm
  rw [hall] at hperm
  have hnodup : (r.executed.map Prod.fst).Nodup := hperm.nodup_iff.mpr List.nodup_range
  have hentry : ∀ i : Fin r.ready.commands.length, ∃ e ∈ r.executed, e.1 = i := by
    intro i
    have hmem : (i : Nat) ∈ r.executed.map Prod.fst := hperm.mem_iff.mpr (List.mem_range.mpr i.2)
    obtain ⟨e, he, hi⟩ := List.mem_map.mp hmem
    exact ⟨e, he, hi⟩
  choose entry hmem hslot using hentry
  let after : Nat → W := fun i =>
    if hi : i < r.ready.commands.length then (entry ⟨i, hi⟩).2.1 else r.ready.world
  let children := List.ofFn fun i => (entry i).2.2
  have hlaunch : launch os after r.ready 0 r.ready.commands = .ok children := by
    refine launch_eq_ok List.length_ofFn fun j c hc => ?_
    have hj := (List.getElem?_eq_some_iff.mp hc).1
    obtain ⟨c', hc', hchild⟩ := h.executed _ (hmem ⟨j, hj⟩)
    rw [hslot] at hc' hchild
    obtain rfl : c = c' := Option.some.inj (hc.symm.trans hc')
    refine ⟨(entry ⟨j, hj⟩).2.2, by simp [children, hj], ?_⟩
    rw [Nat.zero_add]
    simp only [after, dif_pos hj]
    exact hchild
  refine ⟨after, children, ?_, by rw [List.length_ofFn]; exact hperm, fun e he => ?_⟩
  · rw [line_parse, h.parsed]
    simp only [Except.bind, hlaunch]
  · have hlt : e.1 < r.ready.commands.length :=
      List.mem_range.mp (hperm.mem_iff.mp (List.mem_map_of_mem he))
    have heq : entry ⟨e.1, hlt⟩ = e :=
      List.inj_on_of_nodup_map hnodup (hmem _) he (hslot _)
    simp [children, hlt, heq]

theorem Past.done {os : Os W} {w : W} {past : List (Record W)} {sh : Wish W}
    (h : Past os w past sh) : ∀ r ∈ past, r.Done os := by
  induction h with
  | nil => exact fun r hr => (by cases hr)
  | line world _ hdone ih =>
    intro r hr
    rcases List.mem_append.mp hr with hr | hr
    · exact ih r hr
    · rw [List.mem_singleton.mp hr]
      exact hdone

/-- **One line after the other.**  In whatever order the shell and its children take their
    steps, between two lines there is no child, and within a line all children are of
    that line; each line behind begins with the shell as the one before has left it, and
    each child that was forked for it has called `execv` once and has ended.  If no fork
    failed, its children are those of `line`, with what was left in memory behind its
    strings; and until an `execv` fails the lines are those of the input in turn. -/
theorem lines_in_order {os : Os W} {w : W} {lines : List (List UInt8)} {s : Machine W}
    (hs : (machine os w lines).Reachable s) :
    (∃ sh, Past os w s.past sh ∧ Stage os lines s sh) ∧
    ∀ r ∈ s.past, r.forked = List.range r.ready.commands.length →
      ∃ after children, line os r.mem after r.text r.before = .ok (r.ready.clear, children) ∧
        (r.executed.map Prod.fst).Perm (List.range children.length) ∧
        ∀ e ∈ r.executed, children[e.1]? = some e.2.2 := by
  obtain ⟨sh, hpast, hstage⟩ := Reachable.machineInv hs
  exact ⟨⟨sh, hpast, hstage⟩, fun r hr hall => (hpast.done r hr).line_eq hall⟩

/-- Both children are started before one of them ends, the second one first. -/
def bothMoves : List (Move (List (List UInt8))) :=
  let main : Nat → Move (List (List UInt8)) := fun k => .main true k Memory.fresh
  [main 0, main 0, main 0, main 0, .process 1 bin false, .process 0 bin false,
    .process 0 bin true, .process 1 bin true, main 1, main 0, main 0]

theorem lines_in_order_both : ∃ s : Machine (List (List UInt8)),
    (machine disk bin [ascii "ls & echo hi\n"]).run
      (machine disk bin [ascii "ls & echo hi\n"]).start bothMoves = some s ∧
    s.past.length = 1 ∧
      ∃ sh, Past disk bin s.past sh ∧ Stage disk [ascii "ls & echo hi\n"] s sh := by
  have hend : ((machine disk bin [ascii "ls & echo hi\n"]).run
      (machine disk bin [ascii "ls & echo hi\n"]).start bothMoves).map
        (fun s => s.past.length) = some 1 := by decide +kernel
  obtain ⟨s, hs, hlength⟩ := Option.map_eq_some_iff.mp hend
  exact ⟨s, hs, hlength, (lines_in_order (System.Reaches.run .start hs)).1⟩

end OstepProjects.Shell
