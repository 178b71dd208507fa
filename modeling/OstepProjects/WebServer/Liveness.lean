/-
  OstepProjects/WebServer/Liveness.lean
  =====================================
  **The FIFO server serves every connection it accepts.**

  `fifo_safe` says that nobody sleeps in vain and that the connections are taken in the
  order of `accept`.  Here it is proved that they are taken at all.  `request_handle`
  reads from the client, and comes back only when the client sends a whole request.  When
  nobody can move but the master at `accept` and workers that wait for their clients,
  every connection has been taken, unless all workers wait, and closed but for those
  waited for (`fifo_quiescent`).  In a run that goes on for ever all connections accepted
  up to any time are taken and closed, provided that the handlers return and that a
  thread that can move again and again does (`fifo_no_starvation`).

  The argument is the same in both modes up to the order: the mutex is released again and
  again, so a worker that is awake gets to its test, and while the buffer is not empty
  some worker is awake (`get_leadsTo`).
-/
import OstepProjects.Lib.Fairness
import OstepProjects.WebServer.Fifo
import Mathlib.Algebra.BigOperators.Fin

namespace OstepProjects.WebServer

open OstepProjects.Transition OstepProjects.CircularQueue

variable {C I B : Type*} {n : Nat} {S : Schedule C I B} {s s' : State C I B n}

/-! ### What a thread can do -/

/-- The steps of a worker. -/
inductive WorkerMove (S : Schedule C I B) (s : State C I B n) (w : Fin n) : State C I B n → Prop
  | acquire (hpc : s.workers w = .lock ∨ s.workers w = .woken) (hfree : s.mutex = none) :
      WorkerMove S s w { s.setWorker w .critical with mutex := some (.worker w) }
  | sleep (hpc : s.workers w = .critical) (hempty : S.count s.buffer = 0) :
      WorkerMove S s w { s.setWorker w .asleep with mutex := none }
  | get (hpc : s.workers w = .critical) (hpos : 0 < S.count s.buffer) :
      WorkerMove S s w { s.setWorker w (.unlock (S.get s.buffer).1) with
        buffer := (S.get s.buffer).2
        master := s.master.signalEmpty
        taken := s.taken ++ [(w, (S.get s.buffer).1)] }
  | release (item : I) (hpc : s.workers w = .unlock item) :
      WorkerMove S s w { s.setWorker w (.handle item) with mutex := none }
  | handle (item : I) (hpc : s.workers w = .handle item) :
      WorkerMove S s w { s.setWorker w (.close item) with handled := s.handled ++ [(w, item)] }
  | close (item : I) (hpc : s.workers w = .close item) :
      WorkerMove S s w { s.setWorker w .lock with closed := s.closed ++ [(w, item)] }

theorem stepWorker_move {w : Fin n} (h : stepWorker S s w = some s') : WorkerMove S s w s' := by
  cases hpc : s.workers w <;> simp only [stepWorker, hpc] at h
  case lock | woken =>
    split at h <;> cases h
    rename_i hfree
    exact .acquire (by simp [hpc]) hfree
  case critical =>
    split at h <;> cases h
    · rename_i hempty
      exact .sleep hpc hempty
    · rename_i hpos
      exact .get hpc (Nat.pos_of_ne_zero hpos)
  case asleep => cases h
  case unlock item => cases h; exact .release item hpc
  case handle item => cases h; exact .handle item hpc
  case close item => cases h; exact .close item hpc

/-- The steps of the master; `put` leaves `workers` to the signal. -/
inductive MasterMove (S : Schedule C I B) (s : State C I B n) (conn : C) : State C I B n → Prop
  | accept (hpc : s.master = .accept) :
      MasterMove S s conn { s with master := .lock conn, accepted := s.accepted ++ [conn] }
  | acquire (held : C) (hpc : s.master = .lock held ∨ s.master = .woken held)
      (hfree : s.mutex = none) :
      MasterMove S s conn { s with master := .critical held, mutex := some .master }
  | sleep (held : C) (hpc : s.master = .critical held) (hfull : S.count s.buffer = S.limit) :
      MasterMove S s conn { s with master := .asleep held, mutex := none }
  | put (held : C) (workers : Fin n → WorkerPc I) (hpc : s.master = .critical held)
      (hroom : S.count s.buffer ≠ S.limit)
      (hwoken : ∀ w, workers w = s.workers w ∨
        (s.workers w).Asleep = true ∧ workers w = .woken)
      (hsignal : (∃ w, (s.workers w).Asleep = true ∧
          workers = Function.update s.workers w .woken) ∨
        (∀ w, (s.workers w).Asleep = false) ∧ workers = s.workers) :
      MasterMove S s conn { s with
        master := .unlock
        buffer := S.put s.buffer (S.entry held)
        puts := s.puts ++ [S.entry held]
        workers := workers }
  | release (hpc : s.master = .unlock) :
      MasterMove S s conn { s with master := .accept, mutex := none }

/-- The signal wakes a sleeper if there is one. -/
theorem signalFull_wakes {wake : Option (Fin n)} (h : s.signalFull wake = some s') :
    (∃ w, (s.workers w).Asleep = true ∧ s'.workers = Function.update s.workers w .woken) ∨
      (∀ w, (s.workers w).Asleep = false) ∧ s'.workers = s.workers := by
  cases wake with
  | none =>
    simp only [State.signalFull] at h
    split at h <;> cases h
    rename_i hawake
    exact Or.inr ⟨hawake, rfl⟩
  | some w =>
    simp only [State.signalFull] at h
    split at h <;> cases h
    rename_i hasleep
    exact Or.inl ⟨w, hasleep, rfl⟩

theorem stepMaster_move (hn : 0 < n) {conn : C} {wake : Option (Fin n)}
    (h : stepMaster S s conn wake = some s') : MasterMove S s conn s' := by
  cases hpc : s.master <;> simp only [stepMaster, hpc] at h
  case accept => cases h; exact .accept hpc
  case lock held | woken held =>
    split at h <;> cases h
    rename_i hfree
    exact .acquire held (by simp [hpc]) hfree
  case critical held =>
    split at h
    · rename_i hfull
      cases h
      exact .sleep held hpc hfull
    · rename_i hroom
      obtain ⟨hworkers, _, heq⟩ := signalFull_cases hn h
      have hsignal := signalFull_wakes h
      rw [heq]
      exact .put held _ hpc hroom hworkers hsignal
  case asleep => cases h
  case unlock => cases h; exact .release hpc

/-- Some worker can be woken, or nobody is asleep. -/
theorem signalFull_enabled (s : State C I B n) : ∃ wake s', s.signalFull wake = some s' := by
  by_cases hawake : ∀ w, (s.workers w).Asleep = false
  · exact ⟨none, s, if_pos hawake⟩
  · obtain ⟨w, hw⟩ := not_forall.mp hawake
    exact ⟨some w, _, if_pos (by simpa using hw)⟩

/-- The master has a connection or the mutex in hand, and can go on. -/
structure MasterReady (s : State C I B n) : Prop where
  busy : s.master ≠ .accept
  awake : s.master.Asleep = false
  free : s.master.Holds = true ∨ s.mutex = none

/-- The step can be taken then, so fairness (`Fair`) asks for nothing impossible. -/
theorem stepMaster_enabled (S : Schedule C I B) (conn : C) (h : MasterReady s) :
    ∃ wake s', stepMaster S s conn wake = some s' := by
  obtain ⟨_, hsleep, hmutex⟩ := h
  cases hpc : s.master <;> simp only [hpc, MasterPc.Holds, MasterPc.Asleep] at hsleep hmutex <;>
    simp only [stepMaster, hpc]
  case lock | woken =>
    rw [if_pos (by simpa using hmutex)]
    exact ⟨none, _, rfl⟩
  case critical held =>
    by_cases hfull : S.count s.buffer = S.limit
    · simp only [if_pos hfull]
      exact ⟨none, _, rfl⟩
    · simp only [if_neg hfull]
      exact signalFull_enabled _
  case accept | unlock => exact ⟨none, _, rfl⟩
  case asleep => cases hsleep

theorem stepWorker_enabled {w : Fin n} (hsleep : (s.workers w).Asleep = false)
    (hmutex : (s.workers w).Holds = true ∨ s.mutex = none ∨ (s.workers w).holding ≠ []) :
    (stepWorker S s w).isSome := by
  cases hpc : s.workers w <;>
    simp only [hpc, WorkerPc.Holds, WorkerPc.Asleep, WorkerPc.holding] at hsleep hmutex <;>
    simp only [stepWorker, hpc]
  case lock | woken =>
    rw [if_pos (by simpa using hmutex)]
    rfl
  case critical => split <;> rfl
  case asleep => cases hsleep
  all_goals rfl

/-! ### One connection after the other -/

/-- One slot and one worker; descriptor 7 is used again and again. -/
def servedSeven (k : Nat) : State Nat Nat (Queue Nat) 1 where
  mutex := none
  buffer := ⟨fun _ => 7, 0, 0, 0⟩
  master := .accept
  workers _ := .lock
  accepted := List.replicate k 7
  puts := List.replicate k 7
  taken := List.replicate k (⟨0, Nat.one_pos⟩, 7)
  handled := List.replicate k (⟨0, Nat.one_pos⟩, 7)
  closed := List.replicate k (⟨0, Nat.one_pos⟩, 7)

/-- The master accepts and puts the connection, the worker serves it. -/
def serveSeven : List (Action Nat 1) :=
  List.replicate 4 (.master 7 none) ++ List.replicate 5 (.worker ⟨0, Nat.one_pos⟩)

theorem update_worker {α : Type*} (f : Fin 1 → α) (x : α) : Function.update f 0 x = fun _ => x := by
  funext w
  rw [Subsingleton.elim w 0, Function.update_self]

theorem run_serveSeven (k : Nat) : (system (fifo 1 fun _ => 7) 1).run (servedSeven k) serveSeven =
    some (servedSeven (k + 1)) := by
  simp [serveSeven, List.replicate, System.run, system, stepMaster, stepWorker, servedSeven, fifo,
    State.signalFull, State.setWorker, WorkerPc.Asleep, update_worker, Queue.put, Queue.get,
    Queue.front, MasterPc.signalEmpty]
  exact ⟨(List.replicate_succ' ..).symm, (List.replicate_succ' ..).symm⟩

/-! ### Sleepers -/

/-- Whether the worker is on its way to the test of `count`. -/
def WorkerPc.tests : WorkerPc I → Nat
  | .lock | .critical | .woken => 1
  | _ => 0

def testing (workers : Fin n → WorkerPc I) : Nat := ∑ w, (workers w).tests

theorem testing_update (workers : Fin n → WorkerPc I) (w : Fin n) (x : WorkerPc I) :
    testing (Function.update workers w x) + (workers w).tests = testing workers + x.tests := by
  have hrest : ∑ v ∈ Finset.univ.erase w, (Function.update workers w x v).tests =
      ∑ v ∈ Finset.univ.erase w, (workers v).tests := by
    apply Finset.sum_congr rfl
    intro v hv
    rw [Function.update_of_ne (Finset.ne_of_mem_erase hv)]
  rw [testing, testing, ← Finset.add_sum_erase _ _ (Finset.mem_univ w),
    ← Finset.add_sum_erase _ _ (Finset.mem_univ w), hrest, Function.update_self]
  omega

/-- While a worker is asleep, there is a worker on its way to the test for every item in the
    buffer. -/
def SleepInv (S : Schedule C I B) (s : State C I B n) : Prop :=
  (∃ w, (s.workers w).Asleep = true) → S.count s.buffer ≤ testing s.workers

theorem asleep_of_update {workers : Fin n → WorkerPc I} {w : Fin n} {x : WorkerPc I}
    (hx : x.Asleep = false) (h : ∃ v, (Function.update workers w x v).Asleep = true) :
    ∃ v, (workers v).Asleep = true := by
  obtain ⟨v, hv⟩ := h
  by_cases hvw : v = w
  · rw [hvw, Function.update_self, hx] at hv
    cases hv
  · rw [Function.update_of_ne hvw] at hv
    exact ⟨v, hv⟩

/-- A worker goes on; it takes an item out of the buffer if it has been on its way to the test
    and is not any more. -/
theorem SleepInv.move (h : SleepInv S s) (w : Fin n) {x : WorkerPc I} {buffer : B}
    (hx : x.Asleep = false)
    (hcount : S.count buffer + (s.workers w).tests ≤ S.count s.buffer + x.tests)
    (hasleep : ∃ v, (Function.update s.workers w x v).Asleep = true) :
    S.count buffer ≤ testing (Function.update s.workers w x) := by
  have htesting := testing_update s.workers w x
  have hle := h (asleep_of_update hx hasleep)
  omega

theorem sleepInv_master (hS : S.Counts) (hn : 0 < n) {conn : C} {wake : Option (Fin n)}
    (h : SleepInv S s) (hstep : stepMaster S s conn wake = some s') : SleepInv S s' := by
  cases stepMaster_move hn hstep with
  | put held workers _ _ _ hsignal =>
    intro hasleep
    change S.count (S.put s.buffer _) ≤ testing workers
    rw [hS.put]
    rcases hsignal with ⟨w, hw, rfl⟩ | ⟨hawake, rfl⟩
    · have htesting := testing_update s.workers w .woken
      have hle := h ⟨w, hw⟩
      have hzero : (s.workers w).tests = 0 := by
        cases hpc : s.workers w <;> rw [hpc] at hw <;> first | rfl | cases hw
      have hone : (WorkerPc.woken : WorkerPc I).tests = 1 := rfl
      omega
    · obtain ⟨w, hw⟩ := hasleep
      have hw' : (s.workers w).Asleep = true := hw
      rw [hawake w] at hw'
      cases hw'
  | _ => exact h

theorem sleepInv_worker (hS : S.Counts) {w : Fin n} (h : SleepInv S s)
    (hstep : stepWorker S s w = some s') : SleepInv S s' := by
  cases stepWorker_move hstep with
  | acquire hpc _ =>
    refine h.move w rfl ?_
    rcases hpc with hpc | hpc <;> rw [hpc] <;> exact le_refl _
  | sleep _ hempty =>
    intro _
    change S.count s.buffer ≤ _
    rw [hempty]
    exact Nat.zero_le _
  | get hpc _ =>
    refine h.move w rfl ?_
    rw [hpc, hS.get]
    change S.count s.buffer - 1 + 1 ≤ S.count s.buffer
    omega
  | release item hpc | handle item hpc =>
    refine h.move w rfl ?_
    rw [hpc]
    exact le_refl _
  | close item hpc =>
    refine h.move w rfl ?_
    rw [hpc]
    exact Nat.le_succ _

theorem Reachable.sleepInv (hS : S.Counts) (hn : 0 < n) (hs : (system S n).Reachable s) :
    SleepInv S s := by
  refine System.Reaches.invariant ?_ ?_ hs
  · rintro ⟨_, hw⟩
    cases hw
  · intro s a s' _ h _ hstep
    cases a with
    | master conn wake => exact sleepInv_master hS hn h hstep
    | worker w => exact sleepInv_worker hS h hstep

/-! ### At rest -/

/-- Nobody can move but the master, who waits for a connection, and workers in
    `request_handle`, who may wait for their clients. -/
structure AtRest (S : Schedule C I B) (s : State C I B n) : Prop where
  master : s.master = .accept
  workers : ∀ w, stepWorker S s w = none ∨ ∃ item, s.workers w = .handle item

theorem AtRest.worker (h : AtRest S s) (hserver : ServerInv S s) (w : Fin n) :
    s.workers w = .asleep ∨ ∃ item, s.workers w = .handle item := by
  have hstop : ∀ v, (¬ ∃ item, s.workers v = .handle item) → (s.workers v).Asleep = false →
      ((s.workers v).Holds = true ∨ s.mutex = none ∨ (s.workers v).holding ≠ []) → False := by
    intro v hhandle hawake hmutex
    have hsome := stepWorker_enabled (S := S) hawake hmutex
    rw [(h.workers v).resolve_right hhandle] at hsome
    cases hsome
  have hfree : s.mutex = none := by
    cases hmutex : s.mutex with
    | none => rfl
    | some t =>
      exfalso
      cases t with
      | master =>
        have hholds := hserver.lock.mp hmutex
        rw [h.master] at hholds
        cases hholds
      | worker v =>
        have hholds := (hserver.worker v).lock.mp hmutex
        refine hstop v ?_ ?_ (Or.inl hholds)
        · rintro ⟨item, hpc⟩
          rw [hpc] at hholds
          cases hholds
        · cases hpc : s.workers v <;> rw [hpc] at hholds <;> first | rfl | cases hholds
  by_contra hne
  obtain ⟨hasleep, hhandle⟩ := not_or.mp hne
  refine hstop w hhandle ?_ (Or.inr (Or.inl hfree))
  cases hpc : s.workers w <;> first | rfl | exact absurd hpc hasleep

/-- A worker that has nothing in hand has seen the buffer empty. -/
theorem AtRest.empty (h : AtRest S s) (hserver : ServerInv S s) (hsleep : SleepInv S s)
    {w : Fin n} (hw : ¬ ∃ item, s.workers w = .handle item) : S.count s.buffer = 0 := by
  have hasleep := (h.worker hserver w).resolve_right hw
  have hnone : testing s.workers = 0 := by
    apply Finset.sum_eq_zero
    intro v _
    rcases h.worker hserver v with hv | ⟨item, hv⟩ <;> rw [hv] <;> rfl
  have hle := hsleep ⟨w, by rw [hasleep]; rfl⟩
  rwa [hnone, Nat.le_zero] at hle

/-- Nobody can move but the master, who waits for a connection. -/
structure Quiescent (S : Schedule C I B) (s : State C I B n) : Prop where
  master : s.master = .accept
  workers : ∀ w, stepWorker S s w = none

theorem AtRest.quiescent (h : AtRest S s) (hreturned : ∀ w item, s.workers w ≠ .handle item) :
    Quiescent S s where
  master := h.master
  workers w := (h.workers w).resolve_right fun ⟨item, hpc⟩ => hreturned w item hpc

theorem Quiescent.asleep (h : Quiescent S s) (hserver : ServerInv S s) (w : Fin n) :
    (s.workers w).Asleep = true := by
  have hrest : AtRest S s := ⟨h.master, fun w => Or.inl (h.workers w)⟩
  rcases hrest.worker hserver w with hpc | ⟨item, hpc⟩
  · rw [hpc]
    rfl
  · have hstep := h.workers w
    rw [stepWorker, hpc] at hstep
    cases hstep

/-- Nobody has anything in hand. -/
theorem Quiescent.idle (h : Quiescent S s) (hserver : ServerInv S s) (w : Fin n) :
    (s.workers w).holding = [] ∧ (s.workers w).closing = [] := by
  have hsleep := h.asleep hserver w
  cases hpc : s.workers w <;> rw [hpc] at hsleep <;> first | exact ⟨rfl, rfl⟩ | cases hsleep

theorem Quiescent.empty (h : Quiescent S s) (hserver : ServerInv S s) : S.count s.buffer = 0 := by
  by_contra hpos
  obtain ⟨w, hw⟩ := hserver.busy (Nat.pos_of_ne_zero hpos)
  rw [h.asleep hserver w] at hw
  cases hw

/-- **Nothing is left behind.**  When nobody can move but the master waiting for a
    connection and workers whose handlers have not returned, every connection accepted so
    far has been taken, in the order of `accept`, unless every worker is in a handler;
    and each worker has handled and closed what it took, but for the connection whose
    handler it is in. -/
theorem fifo_quiescent {buffer_num : Nat} (junk : Nat → Nat) (hb : 1 ≤ buffer_num) (hn : 1 ≤ n)
    {s : State Nat Nat (Queue Nat) n} (hs : (system (fifo buffer_num junk) n).Reachable s)
    (hrest : AtRest (fifo buffer_num junk) s) :
    ((∀ w, ∃ conn, s.workers w = .handle conn) ∨ s.taken.map Prod.snd = s.accepted) ∧
      ∀ w, ofWorker s.handled w = ofWorker s.closed w ∧
        (ofWorker s.taken w = ofWorker s.closed w ∨
          ∃ conn, s.workers w = .handle conn ∧
            ofWorker s.taken w = ofWorker s.closed w ++ [conn]) := by
  have hS := fifo_counts buffer_num junk
  have hserver := Reachable.serverInv hS hn hs
  obtain ⟨queued, hholds, hputs⟩ := Reachable.fifoInv hb hn hs
  constructor
  · rw [or_iff_not_imp_left]
    intro hfree
    obtain ⟨w, hw⟩ := not_forall.mp hfree
    have hempty : s.buffer.size = 0 :=
      hrest.empty hserver (Reachable.sleepInv hS hn hs) hw
    have hnone : queued = [] := by
      rw [← List.length_eq_zero_iff, hholds.length_eq, hempty]
    have haccepted := hserver.puts
    rw [hrest.master, hputs, hnone] at haccepted
    simpa [fifo, MasterPc.pending] using haccepted.symm
  · intro w
    have hinv := hserver.worker w
    rcases hrest.worker hserver w with hpc | ⟨conn, hpc⟩
    · rw [hinv.handled, hinv.taken, hpc]
      simp [WorkerPc.closing, WorkerPc.holding]
    · rw [hinv.handled, hinv.taken, hpc]
      simp [WorkerPc.closing, WorkerPc.holding]

/-- Descriptor 7 has been served and the worker has gone to sleep. -/
def restedSeven : State Nat Nat (Queue Nat) 1 :=
  { servedSeven 1 with workers := fun _ => .asleep }

theorem restedSeven_reachable : (system (fifo 1 fun _ => 7) 1).Reachable restedSeven := by
  have hserved : (system (fifo 1 fun _ => 7) 1).Reachable (servedSeven 1) :=
    System.Reaches.start.run (run_serveSeven 0)
  have hsleep : (system (fifo 1 fun _ => 7) 1).run (servedSeven 1) [.worker 0, .worker 0] =
      some restedSeven := by
    simp [System.run, system, stepWorker, servedSeven, restedSeven, fifo, State.setWorker,
      update_worker]
  exact hserved.run hsleep

theorem fifo_quiescent_seven :
    ((∀ w, ∃ conn, restedSeven.workers w = .handle conn) ∨
        restedSeven.taken.map Prod.snd = restedSeven.accepted) ∧
      ∀ w, ofWorker restedSeven.handled w = ofWorker restedSeven.closed w ∧
        (ofWorker restedSeven.taken w = ofWorker restedSeven.closed w ∨
          ∃ conn, restedSeven.workers w = .handle conn ∧
            ofWorker restedSeven.taken w = ofWorker restedSeven.closed w ++ [conn]) :=
  fifo_quiescent (fun _ => 7) (le_refl 1) (le_refl 1) restedSeven_reachable
    ⟨rfl, fun _ => Or.inl rfl⟩

/-! ### Fair runs -/

def Action.thread : Action C n → Thread n
  | .master _ _ => .master
  | .worker w => .worker w

def MasterTakes (s : State C I B n) (a : Action C n) : Prop :=
  s.master ≠ .accept ∧ a.thread = .master

/-- A thread that can move again and again does, and so does a worker in a handler; nobody has
    to connect. -/
structure Fair (r : (system S n).InfiniteRun) : Prop where
  master : r.StrongFair MasterReady MasterTakes
  worker : ∀ w, r.StrongFair (fun s => (stepWorker S s w).isSome) fun _ a => a = .worker w

/-- The same without a word about handlers, which may take as long as they like. -/
structure FairThreads (r : (system S n).InfiniteRun) : Prop where
  master : r.StrongFair MasterReady MasterTakes
  worker : ∀ w, r.StrongFair
    (fun s => (stepWorker S s w).isSome ∧ ¬ ∃ item, s.workers w = .handle item)
    fun _ a => a = .worker w

/-- Every call of `request_handle` comes back. -/
def HandlersReturn (r : (system S n).InfiniteRun) : Prop :=
  ∀ i w item, (r.state i).workers w = .handle item → ∃ j, i ≤ j ∧ r.action j = .worker w

theorem FairThreads.fair {r : (system S n).InfiniteRun} (h : FairThreads r)
    (hreturn : HandlersReturn r) : Fair r where
  master := h.master
  worker w hoften i := by
    by_cases hhandle : ∃ j, i ≤ j ∧ ∃ item, (r.state j).workers w = .handle item
    · obtain ⟨j, hij, item, hpc⟩ := hhandle
      obtain ⟨k, hjk, hk⟩ := hreturn j w item hpc
      exact ⟨k, hij.trans hjk, hk⟩
    · refine h.worker w ?_ i
      intro k
      obtain ⟨j, hj, hsome⟩ := hoften (max i k)
      exact ⟨j, (le_max_right i k).trans hj, hsome, fun hitem =>
        hhandle ⟨j, (le_max_left i k).trans hj, hitem⟩⟩

/-- Statements that are still to be executed up to the next test of the count. -/
def WorkerPc.rank : WorkerPc I → Nat
  | .asleep => 0
  | .critical => 1
  | .lock | .woken => 2
  | .close _ => 3
  | .handle _ => 4
  | .unlock _ => 5

def MasterPc.rank : MasterPc C → Nat
  | .lock _ | .woken _ => 2
  | .critical _ => 1
  | _ => 0

/-- Statements that the holder of the mutex executes before the one that gives it back. -/
def WorkerPc.holdRank : WorkerPc I → Nat
  | .critical => 1
  | _ => 0

def MasterPc.holdRank : MasterPc C → Nat
  | .critical _ => 1
  | _ => 0

section Frames

variable {a : Action C n}

theorem worker_frame (hn : 0 < n) (h : (system S n).step s a = some s') {w : Fin n}
    (ha : a ≠ .worker w) :
    s'.workers w = s.workers w ∨ (s.workers w).Asleep = true ∧ s'.workers w = .woken := by
  cases a with
  | master conn wake =>
    cases stepMaster_move hn h with
    | put held workers _ _ hwoken => exact hwoken w
    | _ => exact Or.inl rfl
  | worker v =>
    have hvw : w ≠ v := fun heq => ha (by rw [heq])
    left
    cases stepWorker_move h with
    | _ => exact Function.update_of_ne hvw ..

theorem WorkerPc.awake_of_holds {x : WorkerPc I} (h : x.Holds = true) : x.Asleep = false := by
  cases x <;> first | rfl | cases h

theorem WorkerPc.awake_of_holding {x : WorkerPc I} {item : I} (h : x.holding = [item]) :
    x.Asleep = false := by
  cases x <;> first | rfl | cases h

theorem MasterPc.awake_of_holds {pc : MasterPc C} (h : pc.Holds = true) : pc.Asleep = false := by
  cases pc <;> first | rfl | cases h

/-- A worker that is awake is moved by its own steps only. -/
theorem awake_frame (hn : 0 < n) (h : (system S n).step s a = some s') {w : Fin n}
    (ha : a ≠ .worker w) (hawake : (s.workers w).Asleep = false) :
    s'.workers w = s.workers w :=
  (worker_frame hn h ha).resolve_right fun hasleep => by rw [hawake] at hasleep; cases hasleep.1

/-- The master is moved by its own steps, or woken. -/
theorem master_frame {v : Fin n} (h : (system S n).step s (.worker v) = some s')
    (hawake : s.master.Asleep = false) : s'.master = s.master := by
  cases stepWorker_move h with
  | get hpc hpos =>
    change s.master.signalEmpty = s.master
    cases hpc : s.master <;> rw [hpc] at hawake <;> first | rfl | cases hawake
  | _ => rfl

/-- A thread that holds the mutex loses it by its own steps only. -/
theorem mutex_frame (hn : 0 < n) (hserver : ServerInv S s) (h : (system S n).step s a = some s')
    {t : Thread n} (hmutex : s.mutex = some t) (ha : a.thread ≠ t) : s'.mutex = some t := by
  have hmaster : s.master.Holds = true → a.thread = .master → False := by
    intro hholds heq
    have hlock := hserver.lock.mpr hholds
    rw [hmutex, Option.some.injEq] at hlock
    exact ha (heq.trans hlock.symm)
  have hworker : ∀ w, (s.workers w).Holds = true → a.thread = .worker w → False := by
    intro w hholds heq
    have hlock := (hserver.worker w).lock.mpr hholds
    rw [hmutex, Option.some.injEq] at hlock
    exact ha (heq.trans hlock.symm)
  cases a with
  | master conn wake =>
    cases stepMaster_move hn h with
    | accept hpc => exact hmutex
    | acquire held hpc hfree => rw [hmutex] at hfree; cases hfree
    | sleep held hpc => exact (hmaster (by rw [hpc]; rfl) rfl).elim
    | put held workers hpc => exact (hmaster (by rw [hpc]; rfl) rfl).elim
    | release hpc => exact (hmaster (by rw [hpc]; rfl) rfl).elim
  | worker v =>
    cases stepWorker_move h with
    | acquire hpc hfree => rw [hmutex] at hfree; cases hfree
    | sleep hpc => exact (hworker v (by rw [hpc]; rfl) rfl).elim
    | get hpc => exact (hworker v (by rw [hpc]; rfl) rfl).elim
    | release item hpc => exact (hworker v (by rw [hpc]; rfl) rfl).elim
    | handle item hpc => exact hmutex
    | close item hpc => exact hmutex

/-- An item is taken, or none is and the count does not fall. -/
theorem taken_step (hS : S.Counts) (hn : 0 < n) (h : (system S n).step s a = some s') :
    (∃ e, s'.taken = s.taken ++ [e]) ∨
      s'.taken = s.taken ∧ S.count s.buffer ≤ S.count s'.buffer := by
  cases a with
  | master conn wake =>
    right
    cases stepMaster_move hn h with
    | put held workers _ _ hwoken =>
      refine ⟨rfl, ?_⟩
      rw [hS.put]
      exact Nat.le_succ _
    | _ => exact ⟨rfl, le_refl _⟩
  | worker v =>
    cases stepWorker_move h with
    | get hpc hpos => exact Or.inl ⟨_, rfl⟩
    | _ => exact Or.inr ⟨rfl, le_refl _⟩

theorem taken_prefix (hS : S.Counts) (hn : 0 < n) (h : (system S n).step s a = some s') :
    s.taken <+: s'.taken := by
  rcases taken_step hS hn h with ⟨e, he⟩ | ⟨heq, _⟩
  · rw [he]
    exact List.prefix_append _ _
  · rw [heq]

theorem accepted_prefix (hn : 0 < n) (h : (system S n).step s a = some s') :
    s.accepted <+: s'.accepted := by
  cases a with
  | master conn wake =>
    cases stepMaster_move hn h with
    | accept => exact List.prefix_append _ _
    | _ => exact List.prefix_refl _
  | worker v =>
    cases stepWorker_move h with
    | _ => exact List.prefix_refl _

theorem puts_prefix (hn : 0 < n) (h : (system S n).step s a = some s') : s.puts <+: s'.puts := by
  cases a with
  | master conn wake =>
    cases stepMaster_move hn h with
    | put => exact List.prefix_append _ _
    | _ => exact List.prefix_refl _
  | worker v =>
    cases stepWorker_move h with
    | _ => exact List.prefix_refl _

theorem closed_frame (hn : 0 < n) (h : (system S n).step s a = some s') {w : Fin n}
    (ha : a ≠ .worker w) : ofWorker s'.closed w = ofWorker s.closed w := by
  cases a with
  | master conn wake =>
    cases stepMaster_move hn h with
    | _ => rfl
  | worker v =>
    have hvw : w ≠ v := fun heq => ha (by rw [heq])
    cases stepWorker_move h with
    | close item hpc => exact ofWorker_append_of_ne _ hvw item
    | _ => rfl

theorem closed_prefix (hn : 0 < n) (h : (system S n).step s a = some s') (w : Fin n) :
    ofWorker s.closed w <+: ofWorker s'.closed w := by
  by_cases ha : a = .worker w
  · subst ha
    cases stepWorker_move h with
    | close item hpc =>
      rw [ofWorker_append_self]
      exact List.prefix_append _ _
    | _ => exact List.prefix_refl _
  · rw [closed_frame hn h ha]

end Frames

section Progress

variable {r : (system S n).InfiniteRun}

theorem worker_releases (hS : S.Counts) (hn : 0 < n) (hfair : Fair r) (w : Fin n) :
    r.LeadsTo (fun s => s.mutex = some (.worker w)) fun s => s.mutex = none := by
  have halways : r.Often fun _ _ => True := fun i => ⟨i, le_refl i, trivial⟩
  refine (hfair.worker w).leadsTo (fun s => (s.workers w).holdRank) halways ?_ ?_
  · intro s hs hmutex _
    have hholds := ((Reachable.serverInv hS hn hs).worker w).lock.mp hmutex
    exact stepWorker_enabled (WorkerPc.awake_of_holds hholds) (Or.inl hholds)
  · intro s a s' hs hmutex hstep
    have hserver := Reachable.serverInv hS hn hs
    have hholds := (hserver.worker w).lock.mp hmutex
    by_cases ha : a = .worker w
    · subst ha
      cases stepWorker_move hstep with
      | acquire hpc hfree => rw [hmutex] at hfree; cases hfree
      | sleep hpc => exact Or.inl rfl
      | get hpc =>
        refine Or.inr ⟨hmutex, ?_, fun _ => ?_⟩ <;>
          simp [State.setWorker, hpc, WorkerPc.holdRank]
      | release item hpc => exact Or.inl rfl
      | handle item hpc => rw [hpc] at hholds; cases hholds
      | close item hpc => rw [hpc] at hholds; cases hholds
    · right
      have hthread : a.thread ≠ .worker w := by
        cases a with
        | master conn wake => exact fun h => by cases h
        | worker v => exact fun h => ha (by cases h; rfl)
      refine ⟨mutex_frame hn hserver hstep hmutex hthread, ?_, fun h => absurd h ha⟩
      rw [awake_frame hn hstep ha (WorkerPc.awake_of_holds hholds)]

theorem master_releases (hS : S.Counts) (hn : 0 < n) (hfair : Fair r) :
    r.LeadsTo (fun s => s.mutex = some .master) fun s => s.mutex = none := by
  have halways : r.Often fun _ _ => True := fun i => ⟨i, le_refl i, trivial⟩
  refine hfair.master.leadsTo (fun s => s.master.holdRank) halways ?_ ?_
  · intro s hs hmutex _
    have hholds := (Reachable.serverInv hS hn hs).lock.mp hmutex
    refine ⟨?_, MasterPc.awake_of_holds hholds, Or.inl hholds⟩
    intro hpc
    rw [hpc] at hholds
    cases hholds
  · intro s a s' hs hmutex hstep
    have hserver := Reachable.serverInv hS hn hs
    have hholds := hserver.lock.mp hmutex
    cases a with
    | master conn wake =>
      cases stepMaster_move hn hstep with
      | accept hpc => rw [hpc] at hholds; cases hholds
      | acquire held hpc hfree => rw [hmutex] at hfree; cases hfree
      | sleep held hpc => exact Or.inl rfl
      | put held workers hpc =>
        refine Or.inr ⟨hmutex, ?_, fun _ => ?_⟩ <;> simp [hpc, MasterPc.holdRank]
      | release hpc => exact Or.inl rfl
    | worker v =>
      right
      refine ⟨mutex_frame hn hserver hstep hmutex (fun h => by cases h), ?_,
        fun h => by cases h.2⟩
      rw [master_frame hstep (MasterPc.awake_of_holds hholds)]

/-- **The mutex is free again and again.** -/
theorem mutex_often (hS : S.Counts) (hn : 0 < n) (hfair : Fair r) :
    r.Often fun s _ => s.mutex = none := by
  intro i
  cases hmutex : (r.state i).mutex with
  | none => exact ⟨i, le_refl i, hmutex⟩
  | some t =>
    cases t with
    | master => exact master_releases hS hn hfair i hmutex
    | worker w => exact worker_releases hS hn hfair w i hmutex

/-- **While something is in the buffer, something will be taken.** -/
theorem get_leadsTo (hS : S.Counts) (hn : 0 < n) (hfair : Fair r) (k : Nat) :
    r.LeadsTo (fun s => s.taken.length = k ∧ 0 < S.count s.buffer) fun s => k < s.taken.length := by
  intro i hi
  obtain ⟨w, hw⟩ := (Reachable.serverInv hS hn (r.reachable i)).busy hi.2
  -- a worker that is awake gets to the critical section and finds the buffer not empty
  refine (hfair.worker w).leadsTo
    (P := fun s => s.taken.length = k ∧ 0 < S.count s.buffer ∧ (s.workers w).Asleep = false)
    (Q := fun s => k < s.taken.length)
    (fun s => (s.workers w).rank) (mutex_often hS hn hfair) ?_ ?_ i ⟨hi.1, hi.2, hw⟩
  · rintro s _ ⟨_, _, hawake⟩ hfree
    exact stepWorker_enabled hawake (Or.inr (Or.inl hfree))
  · rintro s a s' hs ⟨hk, hpos, hawake⟩ hstep
    rcases taken_step hS hn hstep with ⟨e, he⟩ | ⟨heq, hcount⟩
    · left
      rw [he, List.length_append, hk]
      exact Nat.lt_succ_self k
    · right
      by_cases ha : a = .worker w
      · subst ha
        have hself : ∀ x, (s.setWorker w x).workers w = x := fun x => Function.update_self ..
        rw [heq]
        cases stepWorker_move hstep with
        | acquire hpc =>
          refine ⟨⟨hk, hpos, ?_⟩, ?_⟩ <;> rcases hpc with hpc | hpc <;>
            simp [hself, hpc, WorkerPc.rank, WorkerPc.Asleep]
        | sleep hpc hempty => omega
        | get hpc => simp at heq
        | release item hpc | handle item hpc | close item hpc =>
          refine ⟨⟨hk, hpos, ?_⟩, ?_⟩ <;> simp [hself, hpc, WorkerPc.rank, WorkerPc.Asleep]
      · rw [heq, awake_frame hn hstep ha hawake]
        exact ⟨⟨hk, hpos.trans_le hcount, hawake⟩, le_refl _, fun h => absurd h ha⟩

/-- A worker closes the connection it has taken. -/
theorem close_leadsTo (hn : 0 < n) (hfair : Fair r) (w : Fin n) (log : List I) (item : I) :
    r.LeadsTo (fun s => ofWorker s.closed w = log ∧ (s.workers w).holding = [item])
      fun s => ofWorker s.closed w = log ++ [item] := by
  have halways : r.Often fun _ _ => True := fun i => ⟨i, le_refl i, trivial⟩
  refine (hfair.worker w).leadsTo (fun s => (s.workers w).rank) halways ?_ ?_
  · rintro s _ ⟨_, hholding⟩ _
    exact stepWorker_enabled (WorkerPc.awake_of_holding hholding)
      (Or.inr (Or.inr (by rw [hholding]; simp)))
  · rintro s a s' hs ⟨hlog, hholding⟩ hstep
    by_cases ha : a = .worker w
    · subst ha
      have hself : ∀ x, (s.setWorker w x).workers w = x := fun x => Function.update_self ..
      cases stepWorker_move hstep with
      | acquire hpc =>
        rcases hpc with hpc | hpc <;> rw [hpc] at hholding <;> cases hholding
      | sleep hpc | get hpc => rw [hpc] at hholding; cases hholding
      | release item' hpc | handle item' hpc =>
        rw [hpc] at hholding
        refine Or.inr ⟨⟨hlog, ?_⟩, ?_⟩
        · rw [← hholding, hself]
          rfl
        · simp [hself, hpc, WorkerPc.rank]
      | close item' hpc =>
        rw [hpc] at hholding
        left
        rw [ofWorker_append_self, hlog]
        exact congrArg (log ++ ·) hholding
    · right
      rw [closed_frame hn hstep ha, awake_frame hn hstep ha (WorkerPc.awake_of_holding hholding)]
      exact ⟨⟨hlog, hholding⟩, le_refl _, fun h => absurd h ha⟩

/-- The master holds a connection, there is room for it, and it need not sleep. -/
def HasRoom (S : Schedule C I B) (k : Nat) (s : State C I B n) : Prop :=
  s.puts.length = k ∧ s.master.pending ≠ [] ∧ s.master.Asleep = false ∧
    S.count s.buffer < S.limit

/-- A worker puts nothing, and lets the master's connection be. -/
theorem worker_puts {v : Fin n} (h : (system S n).step s (.worker v) = some s') :
    s'.puts = s.puts ∧ s'.master.pending = s.master.pending := by
  cases stepWorker_move h with
  | get hpc hpos => exact ⟨rfl, s.master.pending_signalEmpty⟩
  | _ => exact ⟨rfl, rfl⟩

theorem worker_count (hS : S.Counts) {v : Fin n} (h : (system S n).step s (.worker v) = some s') :
    S.count s'.buffer ≤ S.count s.buffer := by
  cases stepWorker_move h with
  | get hpc hpos =>
    rw [hS.get]
    exact Nat.sub_le _ _
  | _ => exact le_refl _

theorem ready_of_pending (hpending : s.master.pending ≠ []) (hawake : s.master.Asleep = false)
    (hfree : s.mutex = none) : MasterReady s := by
  refine ⟨fun hpc => ?_, hawake, Or.inr hfree⟩
  rw [hpc] at hpending
  exact hpending rfl

/-- With room in the buffer the connection is put. -/
theorem room_leadsTo (hS : S.Counts) (hn : 0 < n) (hfair : Fair r) (k : Nat) :
    r.LeadsTo (HasRoom S k) fun s => k < s.puts.length := by
  refine hfair.master.leadsTo (fun s => s.master.rank) (mutex_often hS hn hfair) ?_ ?_
  · rintro s _ ⟨_, hpending, hawake, _⟩ hfree
    exact ready_of_pending hpending hawake hfree
  · rintro s a s' hs ⟨hk, hpending, hawake, hroom⟩ hstep
    cases a with
    | master conn wake =>
      cases stepMaster_move hn hstep with
      | accept hpc | release hpc => rw [hpc] at hpending; exact absurd rfl hpending
      | acquire held hpc =>
        right
        refine ⟨⟨hk, by simp [MasterPc.pending], rfl, hroom⟩, ?_⟩
        rcases hpc with hpc | hpc <;> simp [hpc, MasterPc.rank]
      | sleep held hpc hfull => omega
      | put held workers hpc =>
        left
        simp [hk]
    | worker v =>
      right
      have hcount := worker_count hS hstep
      obtain ⟨hputs, hheld⟩ := worker_puts hstep
      rw [HasRoom, hputs, hheld, master_frame hstep hawake]
      exact ⟨⟨hk, hpending, hawake, by omega⟩, le_refl _, fun h => by cases h.2⟩

/-- A master that sleeps is woken when a worker takes something, and finds room. -/
theorem asleep_leadsTo (hS : S.Counts) (hn : 0 < n) (hlimit : 0 < S.limit) (hfair : Fair r)
    (k : Nat) :
    r.LeadsTo (fun s => s.puts.length = k ∧ s.master.Asleep = true) (HasRoom S k) := by
  rintro i ⟨hk, hasleep⟩
  have hfull := (Reachable.serverInv hS hn (r.reachable i)).full hasleep
  obtain ⟨m, hm⟩ : ∃ m, (r.state i).taken.length = m := ⟨_, rfl⟩
  have hget := get_leadsTo hS hn hfair m
  refine System.InfiniteRun.LeadsTo.exit
    (P := fun s => s.taken.length = m ∧ s.puts.length = k ∧ s.master.Asleep = true)
    (Q := HasRoom S k) ?_ ?_ i ⟨hm, hk, hasleep⟩
  · rintro j ⟨hmj, _, hasleepj⟩
    have hfullj := (Reachable.serverInv hS hn (r.reachable j)).full hasleepj
    obtain ⟨l, hjl, hl⟩ := hget j ⟨hmj, by omega⟩
    exact ⟨l, hjl, fun h => by omega⟩
  · rintro s a s' hs ⟨hms, hks, hsleeps⟩ hstep
    have hfulls := (Reachable.serverInv hS hn hs).full hsleeps
    cases a with
    | master conn wake =>
      exfalso
      cases stepMaster_move hn hstep with
      | accept hpc | sleep held hpc | put held workers hpc | release hpc =>
        rw [hpc] at hsleeps
        cases hsleeps
      | acquire held hpc => rcases hpc with hpc | hpc <;> rw [hpc] at hsleeps <;> cases hsleeps
    | worker v =>
      cases stepWorker_move hstep with
      | get hpc hpos =>
        right
        refine ⟨hks, ?_, s.master.asleep_signalEmpty, ?_⟩
        · rw [MasterPc.pending_signalEmpty]
          cases hmaster : s.master <;> rw [hmaster] at hsleeps <;>
            first | exact List.cons_ne_nil _ _ | cases hsleeps
        · rw [hS.get]
          omega
      | _ => exact Or.inl ⟨hms, hks, hsleeps⟩

/-- **What is accepted is put into the buffer.** -/
theorem put_leadsTo (hS : S.Counts) (hn : 0 < n) (hlimit : 0 < S.limit) (hfair : Fair r) (k : Nat) :
    r.LeadsTo (fun s => s.puts.length = k ∧ s.master.pending ≠ []) fun s => k < s.puts.length := by
  have hwoken := (asleep_leadsTo hS hn hlimit hfair k).trans (room_leadsTo hS hn hfair k)
  -- an awake master puts the connection or goes to sleep
  have hawake : r.LeadsTo
      (fun s => s.puts.length = k ∧ s.master.pending ≠ [] ∧ s.master.Asleep = false)
      (fun s => k < s.puts.length ∨ s.puts.length = k ∧ s.master.Asleep = true) := by
    refine hfair.master.leadsTo (fun s => s.master.rank) (mutex_often hS hn hfair) ?_ ?_
    · rintro s _ ⟨_, hpending, hawake⟩ hfree
      exact ready_of_pending hpending hawake hfree
    · rintro s a s' hs ⟨hk, hpending, hawake⟩ hstep
      cases a with
      | master conn wake =>
        cases stepMaster_move hn hstep with
        | accept hpc | release hpc => rw [hpc] at hpending; exact absurd rfl hpending
        | acquire held hpc =>
          right
          refine ⟨⟨hk, by simp [MasterPc.pending], rfl⟩, ?_⟩
          rcases hpc with hpc | hpc <;> simp [hpc, MasterPc.rank]
        | sleep held hpc hfull => exact Or.inl (Or.inr ⟨hk, rfl⟩)
        | put held workers hpc => exact Or.inl (Or.inl (by simp [hk]))
      | worker v =>
        right
        obtain ⟨hputs, hheld⟩ := worker_puts hstep
        rw [hputs, hheld, master_frame hstep hawake]
        exact ⟨⟨hk, hpending, hawake⟩, le_refl _, fun h => by cases h.2⟩
  have hput := hawake.trans ((System.InfiniteRun.leadsTo_of_imp fun _ h => h).or hwoken)
  rintro i ⟨hk, hpending⟩
  cases hsleep : (r.state i).master.Asleep with
  | true => exact hwoken i ⟨hk, hsleep⟩
  | false => exact hput i ⟨hk, hpending, hsleep⟩

/-- Every worker closes what it has taken by now. -/
theorem closed_eventually (hS : S.Counts) (hn : 0 < n) (hfair : Fair r) (i : Nat) :
    ∃ j, i ≤ j ∧ ∀ w, ofWorker (r.state i).taken w <+: ofWorker (r.state j).closed w := by
  have hone : ∀ w, ∃ j, i ≤ j ∧ ofWorker (r.state i).taken w <+: ofWorker (r.state j).closed w := by
    intro w
    have htaken := ((Reachable.serverInv hS hn (r.reachable i)).worker w).taken
    rw [htaken]
    cases hholding : ((r.state i).workers w).holding with
    | nil => exact ⟨i, le_refl i, by rw [List.append_nil]⟩
    | cons item rest =>
      have hrest : rest = [] := by
        cases hpc : (r.state i).workers w <;> rw [hpc] at hholding <;> cases hholding <;> rfl
      subst hrest
      obtain ⟨j, hij, hj⟩ := close_leadsTo hn hfair w _ item i ⟨rfl, hholding⟩
      exact ⟨j, hij, by rw [hj]⟩
  choose j hij hj using hone
  refine ⟨max i (Finset.univ.sup j), le_max_left _ _, fun w => (hj w).trans ?_⟩
  have hle : j w ≤ Finset.univ.sup j := Finset.le_sup (f := j) (Finset.mem_univ w)
  exact r.log_mono (fun s => ofWorker s.closed w) (fun s a s' h => closed_prefix hn h w)
    (hle.trans (le_max_right _ _))

end Progress

/-! ### The FIFO server -/

section Fifo

variable {buffer_num : Nat} {junk : Nat → Nat} {r : (system (fifo buffer_num junk) n).InfiniteRun}

/-- As many connections as have been put are taken. -/
theorem taken_eventually (hb : 1 ≤ buffer_num) (hn : 1 ≤ n) (hfair : Fair r) {i k : Nat}
    (hk : k ≤ (r.state i).puts.length) : ∃ j, i ≤ j ∧ k ≤ (r.state j).taken.length := by
  have hS := fifo_counts buffer_num junk
  induction k with
  | zero => exact ⟨i, le_refl i, Nat.zero_le _⟩
  | succ k ih =>
    obtain ⟨j, hij, hj⟩ := ih (by omega)
    rcases Nat.lt_or_ge k (r.state j).taken.length with hlt | hge
    · exact ⟨j, hij, hlt⟩
    · have hlength : (r.state j).taken.length = k := Nat.le_antisymm hge hj
      obtain ⟨queued, hholds, hputs⟩ := Reachable.fifoInv hb hn (r.reachable j)
      have hgrow := (r.log_mono State.puts (fun s a s' h => puts_prefix hn h) hij).length_le
      have hpos : 0 < (r.state j).buffer.size := by
        have hsum := congrArg List.length hputs
        rw [List.length_append, List.length_map, hlength] at hsum
        have hsize := hholds.length_eq
        omega
      obtain ⟨l, hjl, hl⟩ := get_leadsTo hS hn hfair k j ⟨hlength, hpos⟩
      exact ⟨l, hij.trans hjl, hl⟩

/-- **No starvation in FIFO mode.**  In a run that goes on for ever, in which the threads are
    scheduled fairly and every handler returns, the connections accepted up to a time are
    all taken later, in the order of `accept`, and closed by the workers that took them. -/
theorem fifo_no_starvation {buffer_num : Nat} (junk : Nat → Nat) (hb : 1 ≤ buffer_num) (hn : 1 ≤ n)
    (r : (system (fifo buffer_num junk) n).InfiniteRun) (hthreads : FairThreads r)
    (hreturn : HandlersReturn r) (i : Nat) :
    ∃ j, i ≤ j ∧ ∃ served : List (Fin n × Nat), served.map Prod.snd = (r.state i).accepted ∧
      served <+: (r.state j).taken ∧ ∀ w, ofWorker served w <+: ofWorker (r.state j).closed w := by
  have hfair := hthreads.fair hreturn
  have hS := fifo_counts buffer_num junk
  have hentry : ∀ l : List Nat, l.map (fifo buffer_num junk).entry = l := List.map_id
  have haccepted : ∀ m, (r.state m).accepted = (r.state m).puts ++ (r.state m).master.pending := by
    intro m
    have h := (Reachable.serverInv hS hn (r.reachable m)).puts
    rwa [hentry, hentry] at h
  -- the connection that the master holds, if any, is put
  obtain ⟨j, hij, hj⟩ : ∃ j, i ≤ j ∧ (r.state i).accepted.length ≤ (r.state j).puts.length := by
    rw [haccepted i]
    cases hpending : (r.state i).master.pending with
    | nil => exact ⟨i, le_refl i, by simp⟩
    | cons conn rest =>
      have hrest : rest = [] := by
        cases hpc : (r.state i).master <;> rw [hpc] at hpending <;> cases hpending <;> rfl
      obtain ⟨j, hij, hj⟩ := put_leadsTo hS hn hb hfair _ i ⟨rfl, by rw [hpending]; simp⟩
      refine ⟨j, hij, ?_⟩
      rw [hrest, List.length_append, List.length_singleton]
      exact hj
  obtain ⟨k, hjk, hk⟩ := taken_eventually hb hn hfair hj
  obtain ⟨l, hkl, hl⟩ := closed_eventually hS hn hfair k
  obtain ⟨queued, _, hputs⟩ := Reachable.fifoInv hb hn (r.reachable k)
  refine ⟨l, (hij.trans hjk).trans hkl, (r.state k).taken.take (r.state i).accepted.length,
    ?_, ?_, ?_⟩
  · have hprefix := r.log_mono State.accepted (fun s a s' h => accepted_prefix hn h)
      (hij.trans hjk)
    rw [haccepted k, hputs, List.append_assoc] at hprefix
    rw [List.map_take]
    rw [List.prefix_iff_eq_take] at hprefix
    rw [List.take_append_of_le_length (by rw [List.length_map]; exact hk)] at hprefix
    exact hprefix.symm
  · exact (List.take_prefix _ _).trans
      (r.log_mono State.taken (fun s a s' h => taken_prefix hS hn h) hkl)
  · intro w
    refine List.IsPrefix.trans ?_ (hl w)
    have hfilter := (List.take_prefix (r.state i).accepted.length (r.state k).taken).filter
      (fun e => decide (e.1 = w))
    exact hfilter.map Prod.snd

end Fifo

/-! ### A run that goes on for ever -/

def sevenForEver : (system (fifo 1 fun _ => 7) 1).InfiniteRun :=
  .ofCycle servedSeven serveSeven rfl (Nat.succ_pos 8) run_serveSeven

theorem sevenForEver_often (w : Fin 1) : sevenForEver.Often fun _ a => a = .worker w := by
  refine System.InfiniteRun.ofCycle_often rfl _ run_serveSeven (m := 4) (by decide) ?_
  intro k s _
  rw [Subsingleton.elim w 0]
  rfl

theorem sevenForEver_fair : FairThreads sevenForEver where
  master _ := by
    refine System.InfiniteRun.ofCycle_often rfl _ run_serveSeven (m := 1) (by decide) ?_
    intro k s hs
    have hmaster : s.master = .lock 7 := by
      change some _ = some s at hs
      rw [Option.some.injEq] at hs
      rw [← hs]
    exact ⟨by rw [hmaster]; exact fun h => (by cases h), rfl⟩
  worker w _ := sevenForEver_often w

theorem sevenForEver_return : HandlersReturn sevenForEver :=
  fun i w _ _ => sevenForEver_often w i

theorem fifo_no_starvation_seven : ∃ j, 5 ≤ j ∧ ∃ served : List (Fin 1 × Nat),
    served.map Prod.snd = (sevenForEver.state 5).accepted ∧
    served <+: (sevenForEver.state j).taken ∧
    ∀ w, ofWorker served w <+: ofWorker (sevenForEver.state j).closed w :=
  fifo_no_starvation (fun _ => 7) (le_refl 1) (le_refl 1) sevenForEver sevenForEver_fair
    sevenForEver_return 5

end OstepProjects.WebServer
