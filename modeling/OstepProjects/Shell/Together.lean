/-
  OstepProjects/Shell/Together.lean
  =================================
  **Do the commands of a line run in parallel?**

  They do: the shell waits for no child before all of them have been forked.  So all
  children of a line can be there at the same time, and open their files in any order
  (`any_order`).
-/
import OstepProjects.Shell.Processes

namespace OstepProjects.Shell

open OstepProjects.Bytes OstepProjects.Transition

variable {W : Type}

section Together

variable {os : Os W} {w : W} {lines : List (List UInt8)}

/-- A child has been forked for each slot below `i`, and none has been started. -/
structure Forks (s t : Machine W) (str : List UInt8) (sh : Wish W) (i : Nat) : Prop where
  pc : t.pc = .fork i
  past : t.past = s.past
  text : t.current.text = str
  ready : t.current.ready = sh
  slots : t.processes.map Process.slot = List.range i
  phases : ∀ p ∈ t.processes, p.phase = .forked
  executed : t.current.executed = []

/-- All children have been forked, and those of the slots in `order` started. -/
structure Starts (s t : Machine W) (str : List UInt8) (sh : Wish W) (order : List Nat) : Prop where
  pc : t.pc = .wait
  past : t.past = s.past
  text : t.current.text = str
  ready : t.current.ready = sh
  slots : t.processes.map Process.slot = List.range sh.commands.length
  phases : ∀ p ∈ t.processes, p.phase = if p.slot ∈ order then .running else .forked
  executed : t.current.executed.map Prod.fst = order

theorem Reachable.linked {s : Machine W} (hs : (machine os w lines).Reachable s)
    (hpc : (∃ i, s.pc = .fork i) ∨ s.pc = .wait) : Linked os s := by
  obtain ⟨sh, _, hstage⟩ := Reachable.machineInv hs
  cases hstage with
  | between hgetline => simp [hgetline] at hpc
  | within _ _ hlinked => exact hlinked
  | stopped _ hstop => simp [hstop] at hpc

theorem Forks.all {s t : Machine W} {str : List UInt8} {sh : Wish W} {i : Nat}
    (ht : (machine os w lines).Reachable t) (h : Forks s t str sh i) {m : Nat}
    (hm : i + m = sh.commands.length) :
    ∃ t', (machine os w lines).Reachable t' ∧ Forks s t' str sh sh.commands.length := by
  induction m generalizing t i with
  | zero =>
    rw [← hm]
    exact ⟨t, ht, h⟩
  | succ m ih =>
    have hlt : i < t.wish.commands.length := by
      rw [(Reachable.linked ht (Or.inl ⟨i, h.pc⟩)).wish, h.ready]
      change i < sh.commands.length
      omega
    have hcommand := List.getElem?_eq_getElem hlt
    have hstep : stepMain os t true 0 Memory.fresh = some { t with
        pc := .fork (i + 1)
        processes := t.processes ++ [⟨i, t.wish.commands[i], .forked⟩]
        current := { t.current with forked := t.current.forked ++ [i] } } := by
      simp only [stepMain, h.pc, hcommand, if_true]
    have hforks : Forks s { t with
        pc := .fork (i + 1)
        processes := t.processes ++ [⟨i, t.wish.commands[i], .forked⟩]
        current := { t.current with forked := t.current.forked ++ [i] } } str sh (i + 1) := by
      refine ⟨rfl, h.past, h.text, h.ready, ?_, ?_, h.executed⟩
      · simp [h.slots, List.range_succ]
      · intro p hp
        rcases List.mem_append.mp hp with hp | hp
        · exact h.phases p hp
        · rw [List.mem_singleton.mp hp]
    exact ih (ht.step (a := .main true 0 Memory.fresh) trivial hstep) hforks (by omega)

/-- One more child is started. -/
theorem Starts.next {s t : Machine W} {str : List UInt8} {sh : Wish W} {order : List Nat}
    (ht : (machine os w lines).Reachable t) (h : Starts s t str sh order)
    (hroom : ∀ c ∈ sh.commands, c.parameter.length < MAX_PARAMETER) {i : Nat}
    (hi : i < sh.commands.length) (hnew : i ∉ order) :
    ∃ t', (machine os w lines).Reachable t' ∧ Starts s t' str sh (order ++ [i]) := by
  have hlinked := Reachable.linked ht (Or.inr h.pc)
  obtain ⟨p, hp, hslot⟩ : ∃ p, t.processes[i]? = some p ∧ p.slot = i := by
    have hget : (t.processes.map Process.slot)[i]? = some i := by
      rw [h.slots]
      exact List.getElem?_range hi
    rw [List.getElem?_map] at hget
    exact Option.map_eq_some_iff.mp hget
  have hmem : p ∈ t.processes := List.mem_of_getElem? hp
  have hphase : p.phase = .forked := by
    rw [h.phases p hmem, hslot, if_neg hnew]
  have hcommand := hlinked.commands p hmem
  rw [h.ready] at hcommand
  obtain ⟨c, hchild⟩ : ∃ c, child os t.wish.world t.wish p.slot p.command = .ok c :=
    ⟨_, if_pos (hroom _ (List.mem_of_getElem? hcommand))⟩
  have hstep : stepProcess os t i t.wish.world false = some { t with
      wish := { t.wish with world := openedBy os t.wish p.slot }
      processes := t.processes.set i { p with phase := .running }
      current := { t.current with
        executed := t.current.executed ++ [(p.slot, t.wish.world, c)] } } := by
    simp only [stepProcess, h.pc, hp, hphase, hchild]
  obtain ⟨before, behind, hsplit, hset, _⟩ := exists_split hp
  have hslots := h.slots
  rw [hsplit, List.map_append, List.map_cons, hslot] at hslots
  have hother : ∀ q ∈ before ++ behind, q ∈ t.processes ∧ q.slot ≠ i := by
    have hnodup : (before.map Process.slot ++ i :: behind.map Process.slot).Nodup := by
      rw [hslots]
      exact List.nodup_range
    have hout := (List.nodup_middle.mp hnodup).notMem
    rw [← List.map_append] at hout
    intro q hq
    refine ⟨?_, fun heq => hout (heq ▸ List.mem_map_of_mem hq)⟩
    rw [hsplit]
    exact List.perm_middle.mem_iff.mpr (List.mem_cons_of_mem p hq)
  refine ⟨_, ht.step (a := .process i t.wish.world false) trivial hstep, h.pc, h.past, h.text,
    h.ready, ?_, ?_, ?_⟩
  · simp only [hset, List.map_append, List.map_cons, hslot]
    exact hslots
  · intro q hq
    simp only [hset] at hq
    rcases List.mem_cons.mp (List.perm_middle.mem_iff.mp hq) with rfl | hq
    · simp [hslot]
    · obtain ⟨hq, hne⟩ := hother q hq
      rw [h.phases q hq]
      simp [hne]
  · simp [h.executed, hslot]

theorem Starts.all {s t : Machine W} {str : List UInt8} {sh : Wish W} {started : List Nat}
    (ht : (machine os w lines).Reachable t) (h : Starts s t str sh started)
    (hroom : ∀ c ∈ sh.commands, c.parameter.length < MAX_PARAMETER) {order : List Nat}
    (hnodup : (started ++ order).Nodup) (horder : ∀ i ∈ order, i < sh.commands.length) :
    ∃ t', (machine os w lines).Reachable t' ∧ Starts s t' str sh (started ++ order) := by
  induction order generalizing t started with
  | nil =>
    rw [List.append_nil]
    exact ⟨t, ht, h⟩
  | cons i order ih =>
    have hnew : i ∉ started := fun hi =>
      (List.nodup_append.mp hnodup).2.2 i hi i (List.mem_cons_self ..) rfl
    obtain ⟨t', ht', h'⟩ := h.next ht hroom (horder i (List.mem_cons_self ..)) hnew
    rw [List.append_cons] at hnodup ⊢
    exact ih ht' h' hnodup fun j hj => horder j (List.mem_cons_of_mem i hj)

/-- **The children of a line run together.**  From every state between two lines, if the
    argument tables have room, all commands of the next line can be running at once, and
    their children can have opened their files in any order. -/
theorem any_order {s : Machine W} (hs : (machine os w lines).Reachable s)
    (hpc : s.pc = .getline) {str : List UInt8} {input : List (List UInt8)}
    (hinput : s.input = str :: input) {mem : Memory} {sh : Wish W}
    (hparse : parse os mem str s.wish = .ok sh)
    (hroom : ∀ c ∈ sh.commands, c.parameter.length < MAX_PARAMETER) {order : List Nat}
    (horder : order.Perm (List.range sh.commands.length)) :
    ∃ t, (machine os w lines).Reachable t ∧ t.past = s.past ∧ t.current.text = str ∧
      t.current.executed.map Prod.fst = order ∧
      t.processes.map Process.slot = List.range sh.commands.length ∧
      ∀ p ∈ t.processes, p.phase = .running := by
  have hread : stepMain os s true 0 mem = some { s with
      wish := sh, input, pc := .fork 0, current := ⟨str, mem, s.wish, sh, [], [], [], []⟩ } := by
    simp only [stepMain, hpc, hinput, hparse]
  obtain ⟨_, _, hstage⟩ := Reachable.machineInv hs
  have hnone : s.processes = [] := by
    cases hstage with
    | between _ hnone => exact hnone
    | within _ hwithin => rcases hwithin with hwithin | ⟨hwithin, _⟩ <;> simp [hpc] at hwithin
    | stopped _ hstop => simp [hpc] at hstop
  have hbegin : Forks s { s with
      wish := sh, input, pc := .fork 0, current := ⟨str, mem, s.wish, sh, [], [], [], []⟩ }
      str sh 0 :=
    ⟨rfl, rfl, rfl, rfl, by simp [hnone], by simp [hnone], rfl⟩
  obtain ⟨t, ht, hforks⟩ :=
    hbegin.all (hs.step (a := .main true 0 mem) trivial hread) (Nat.zero_add _)
  have hlast : stepMain os t true 0 Memory.fresh = some { t with pc := .wait } := by
    have hend : t.wish.commands[sh.commands.length]? = none := by
      rw [(Reachable.linked ht (Or.inl ⟨_, hforks.pc⟩)).wish, hforks.ready]
      exact List.getElem?_eq_none (le_refl _)
    simp only [stepMain, hforks.pc, hend]
  have hstart : Starts s { t with pc := .wait } str sh [] :=
    ⟨rfl, hforks.past, hforks.text, hforks.ready, hforks.slots, by simpa using hforks.phases,
      by simp [hforks.executed]⟩
  have hnodup : ([] ++ order).Nodup := horder.nodup_iff.mpr List.nodup_range
  obtain ⟨t', ht', hall⟩ :=
    hstart.all (ht.step (a := .main true 0 Memory.fresh) trivial hlast) hroom hnodup
    fun i hi => List.mem_range.mp (horder.mem_iff.mp hi)
  refine ⟨t', ht', hall.past, hall.text, hall.executed, hall.slots, fun p hp => ?_⟩
  have hslot : p.slot ∈ order := by
    rw [horder.mem_iff, ← hall.slots]
    exact List.mem_map_of_mem hp
  rw [hall.phases p hp, List.nil_append, if_pos hslot]

theorem any_order_both : ∃ sh t,
    parse disk Memory.fresh (ascii "ls & echo hi\n") (start bin) = .ok sh ∧
    (machine disk bin [ascii "ls & echo hi\n"]).Reachable t ∧
    t.current.executed.map Prod.fst = [1, 0] ∧ t.processes.map Process.slot = [0, 1] ∧
    ∀ p ∈ t.processes, p.phase = .running := by
  have hparse : ((parse disk Memory.fresh (ascii "ls & echo hi\n")
      (start bin)).toOption.map fun sh => sh.commands.map fun c => c.parameter.length) =
        some [1, 2] := by decide +kernel
  obtain ⟨sh, hok, hlengths⟩ := Option.map_eq_some_iff.mp hparse
  have hsh : parse disk Memory.fresh (ascii "ls & echo hi\n") (start bin) = .ok sh := by
    cases hx : parse disk Memory.fresh (ascii "ls & echo hi\n") (start bin) with
    | error stop =>
      rw [hx] at hok
      cases hok
    | ok sh' =>
      rw [hx] at hok
      exact congrArg Except.ok (Option.some.inj hok)
  have hlength : sh.commands.length = 2 := by simpa using congrArg List.length hlengths
  have hroom : ∀ c ∈ sh.commands, c.parameter.length < MAX_PARAMETER := by
    intro c hc
    have hmem : c.parameter.length ∈ [1, 2] := by
      rw [← hlengths]
      exact List.mem_map_of_mem hc
    rcases List.mem_cons.mp hmem with h | h
    · rw [h]
      decide
    · rw [List.mem_singleton.mp h]
      decide
  have horder : [1, 0].Perm (List.range sh.commands.length) := by
    rw [hlength]
    decide
  obtain ⟨t, ht, _, _, hexecuted, hslots, hphases⟩ := any_order .start rfl rfl hsh hroom horder
  rw [hlength] at hslots
  exact ⟨sh, t, hsh, ht, hexecuted, hslots, hphases⟩

end Together

end OstepProjects.Shell
