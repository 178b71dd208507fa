/-
  OstepProjects/WebServer/Wserver.lean
  ====================================
  **The master and the workers of `wserver.c`.**

  The master accepts connections and puts them into a buffer; the workers take them
  out, handle and close them.  The two scheduling modes run the same loops and differ
  in what is put (`entry`), in the buffer operations and in the count at which the
  master waits; `Schedule` collects these.

  `mutex` is taken and released in steps of their own.  What a thread does while it
  holds it, up to a wait or to the unlock, is one step: the buffer, `count` and both
  condition variables are used nowhere else.  `pthread_cond_wait` releases the mutex
  and sleeps at once, a woken thread takes the mutex again and repeats its test, and
  a signal wakes one sleeper if there is one.  `request_handle` is a step that the
  client can put off for as long as it likes; a worker whose handler never returns does
  not take that step.

  The invariants here hold in both modes: who holds the mutex, that nobody is asleep
  in vain, and what became of every item put into the buffer.
-/
import OstepProjects.Lib.Transition
import Mathlib.Data.List.Basic
import Mathlib.Logic.Function.Basic

namespace OstepProjects.WebServer

open OstepProjects.Transition

/-- What the loops of a mode do with connections of type `C`, items of type `I` and
    the buffer. -/
structure Schedule (C I B : Type*) where
  empty : B
  count : B → Nat
  limit : Nat
  entry : C → I
  put : B → I → B
  get : B → I × B

inductive MasterPc (C : Type*)
  | accept
  | lock (conn : C)
  | critical (conn : C)
  | asleep (conn : C)
  | woken (conn : C)
  | unlock

inductive WorkerPc (I : Type*)
  | lock | critical | asleep | woken
  | unlock (item : I)
  | handle (item : I)
  | close (item : I)

inductive Thread (n : Nat)
  | master
  | worker (w : Fin n)
deriving DecidableEq

/-- The logs are histories: the connections accepted, the items put, and the items
    taken, handled and closed with the worker that did it. -/
structure State (C I B : Type*) (n : Nat) where
  mutex : Option (Thread n)
  buffer : B
  master : MasterPc C
  workers : Fin n → WorkerPc I
  accepted : List C
  puts : List I
  taken : List (Fin n × I)
  handled : List (Fin n × I)
  closed : List (Fin n × I)

variable {C I B : Type*} {n : Nat}

def State.start (S : Schedule C I B) : State C I B n where
  mutex := none
  buffer := S.empty
  master := .accept
  workers _ := .lock
  accepted := []
  puts := []
  taken := []
  handled := []
  closed := []

/-! ### Steps -/

def State.setWorker (s : State C I B n) (w : Fin n) (x : WorkerPc I) : State C I B n :=
  { s with workers := Function.update s.workers w x }

def WorkerPc.Asleep : WorkerPc I → Bool
  | .asleep => true
  | _ => false

/-- `pthread_cond_signal(&full)`, waking the sleeper `wake`. -/
def State.signalFull (s : State C I B n) : Option (Fin n) → Option (State C I B n)
  | some w => if (s.workers w).Asleep then some (s.setWorker w .woken) else none
  | none => if ∀ w, (s.workers w).Asleep = false then some s else none

/-- `pthread_cond_signal(&empty)`; only the master waits on it. -/
def MasterPc.signalEmpty : MasterPc C → MasterPc C
  | .asleep conn => .woken conn
  | pc => pc

/-- A step of the loop in `main`; `conn` is what `accept` returns and `wake` the
    worker that the signal wakes. -/
def stepMaster (S : Schedule C I B) (s : State C I B n) (conn : C) (wake : Option (Fin n)) :
    Option (State C I B n) :=
  match s.master with
  | .accept => some { s with master := .lock conn, accepted := s.accepted ++ [conn] }
  | .lock conn | .woken conn =>
    if s.mutex = none then some { s with master := .critical conn, mutex := some .master }
    else none
  | .critical conn =>
    if S.count s.buffer = S.limit then some { s with master := .asleep conn, mutex := none }
    else
      { s with
        master := .unlock
        buffer := S.put s.buffer (S.entry conn)
        puts := s.puts ++ [S.entry conn] }.signalFull wake
  | .asleep _ => none
  | .unlock => some { s with master := .accept, mutex := none }

/-- A step of `thread_consumer` or `thread_consumer_sff`. -/
def stepWorker (S : Schedule C I B) (s : State C I B n) (w : Fin n) : Option (State C I B n) :=
  match s.workers w with
  | .lock | .woken =>
    if s.mutex = none then some { s.setWorker w .critical with mutex := some (.worker w) }
    else none
  | .critical =>
    if S.count s.buffer = 0 then some { s.setWorker w .asleep with mutex := none }
    else
      let (item, buffer) := S.get s.buffer
      some { s.setWorker w (.unlock item) with
        buffer := buffer
        master := s.master.signalEmpty
        taken := s.taken ++ [(w, item)] }
  | .asleep => none
  | .unlock item => some { s.setWorker w (.handle item) with mutex := none }
  | .handle item =>
    some { s.setWorker w (.close item) with handled := s.handled ++ [(w, item)] }
  | .close item => some { s.setWorker w .lock with closed := s.closed ++ [(w, item)] }

inductive Action (C : Type*) (n : Nat)
  | master (conn : C) (wake : Option (Fin n))
  | worker (w : Fin n)

def system (S : Schedule C I B) (n : Nat) : System (State C I B n) (Action C n) where
  start := .start S
  step s
    | .master conn wake => stepMaster S s conn wake
    | .worker w => stepWorker S s w

/-! ### Who holds the mutex -/

def MasterPc.Holds : MasterPc C → Bool
  | .critical _ | .unlock => true
  | _ => false

def WorkerPc.Holds : WorkerPc I → Bool
  | .critical | .unlock _ => true
  | _ => false

def MasterPc.Asleep : MasterPc C → Bool
  | .asleep _ => true
  | _ => false

/-- The connection that is accepted and not put yet. -/
def MasterPc.pending : MasterPc C → List C
  | .lock conn | .critical conn | .asleep conn | .woken conn => [conn]
  | _ => []

@[simp] theorem MasterPc.holds_signalEmpty (pc : MasterPc C) : pc.signalEmpty.Holds = pc.Holds := by
  cases pc <;> rfl

@[simp] theorem MasterPc.asleep_signalEmpty (pc : MasterPc C) : pc.signalEmpty.Asleep = false := by
  cases pc <;> rfl

@[simp] theorem MasterPc.pending_signalEmpty (pc : MasterPc C) :
    pc.signalEmpty.pending = pc.pending := by
  cases pc <;> rfl

/-- The item that is taken and not closed yet, and the one that is handled and not
    closed yet. -/
def WorkerPc.holding : WorkerPc I → List I
  | .unlock item | .handle item | .close item => [item]
  | _ => []

def WorkerPc.closing : WorkerPc I → List I
  | .close item => [item]
  | _ => []

/-- The entries of a log that belong to a worker. -/
def ofWorker (log : List (Fin n × I)) (w : Fin n) : List I :=
  (log.filter fun e => e.1 = w).map Prod.snd

theorem ofWorker_append_self (log : List (Fin n × I)) (w : Fin n) (item : I) :
    ofWorker (log ++ [(w, item)]) w = ofWorker log w ++ [item] := by
  simp [ofWorker]

theorem ofWorker_append_of_ne (log : List (Fin n × I)) {v w : Fin n} (h : v ≠ w) (item : I) :
    ofWorker (log ++ [(w, item)]) v = ofWorker log v := by
  simp [ofWorker, Ne.symm h]

/-- The buffer operations count. -/
structure Schedule.Counts (S : Schedule C I B) : Prop where
  empty : S.count S.empty = 0
  put : ∀ b i, S.count (S.put b i) = S.count b + 1
  get : ∀ b, S.count (S.get b).2 = S.count b - 1

/-- One worker and what it shares. -/
structure WorkerInv (mutex : Option (Thread n)) (taken handled closed : List (Fin n × I))
    (w : Fin n) (x : WorkerPc I) : Prop where
  lock : mutex = some (.worker w) ↔ x.Holds = true
  taken : ofWorker taken w = ofWorker closed w ++ x.holding
  handled : ofWorker handled w = ofWorker closed w ++ x.closing

structure ServerInv (S : Schedule C I B) (s : State C I B n) : Prop where
  lock : s.mutex = some .master ↔ s.master.Holds = true
  worker : ∀ w, WorkerInv s.mutex s.taken s.handled s.closed w (s.workers w)
  puts : s.accepted.map S.entry = s.puts ++ s.master.pending.map S.entry
  count_le : S.count s.buffer ≤ S.limit
  full : s.master.Asleep = true → S.count s.buffer = S.limit
  busy : 0 < S.count s.buffer → ∃ w, (s.workers w).Asleep = false

theorem serverInv_start {S : Schedule C I B} (hS : S.Counts) :
    ServerInv S (State.start S : State C I B n) where
  lock := by simp [State.start, MasterPc.Holds]
  worker w := by constructor <;> simp [State.start, WorkerPc.Holds, WorkerPc.holding,
    WorkerPc.closing]
  puts := by simp [State.start, MasterPc.pending]
  count_le := by
    change S.count S.empty ≤ S.limit
    rw [hS.empty]
    exact Nat.zero_le _
  full h := by cases h
  busy h := by
    change 0 < S.count S.empty at h
    rw [hS.empty] at h
    exact absurd h (lt_irrefl 0)

section Steps

variable {S : Schedule C I B} {s s' : State C I B n}

/-- A worker without the mutex does not depend on who has it. -/
theorem WorkerInv.frame {mutex mutex' : Option (Thread n)} {taken handled closed : List (Fin n × I)}
    {w : Fin n} {x : WorkerPc I} (h : WorkerInv mutex taken handled closed w x)
    (hout : x.Holds = false) (hmutex : mutex' ≠ some (.worker w)) :
    WorkerInv mutex' taken handled closed w x :=
  ⟨by simp [hmutex, hout], h.taken, h.handled⟩

theorem ServerInv.worker_out (h : ServerInv S s) {t : Option (Thread n)} (hmutex : s.mutex = t)
    {w : Fin n} (hne : t ≠ some (.worker w)) : (s.workers w).Holds = false := by
  by_contra hc
  have hlock := (h.worker w).lock.mpr (by simpa using hc)
  exact hne (hmutex.symm.trans hlock)

theorem ServerInv.master_out (h : ServerInv S s) {t : Option (Thread n)} (hmutex : s.mutex = t)
    (hne : t ≠ some .master) : s.master.Holds = false := by
  by_contra hc
  have hlock := h.lock.mpr (by simpa using hc)
  exact hne (hmutex.symm.trans hlock)

/-- Waking a sleeper changes nothing that its invariant says. -/
theorem WorkerInv.wake {mutex : Option (Thread n)} {taken handled closed : List (Fin n × I)}
    {w : Fin n} {x : WorkerPc I} (h : WorkerInv mutex taken handled closed w x)
    (hx : x.Asleep = true) : WorkerInv mutex taken handled closed w .woken := by
  cases x with
  | asleep => exact ⟨h.lock, h.taken, h.handled⟩
  | _ => cases hx

/-- After a signal some worker is not asleep. -/
theorem signalFull_cases (hn : 0 < n) {wake : Option (Fin n)} (h : s.signalFull wake = some s') :
    (∀ w, s'.workers w = s.workers w ∨ (s.workers w).Asleep = true ∧ s'.workers w = .woken) ∧
      (∃ w, (s'.workers w).Asleep = false) ∧ s' = { s with workers := s'.workers } := by
  cases wake with
  | none =>
    simp only [State.signalFull] at h
    split at h <;> cases h
    rename_i hawake
    exact ⟨fun _ => Or.inl rfl, ⟨⟨0, hn⟩, hawake _⟩, rfl⟩
  | some w =>
    simp only [State.signalFull] at h
    split at h <;> cases h
    rename_i hasleep
    have hself : (s.setWorker w .woken).workers w = .woken := Function.update_self ..
    refine ⟨?_, ⟨w, by rw [hself]; rfl⟩, rfl⟩
    intro v
    by_cases hvw : v = w
    · rw [hvw, hself]
      exact Or.inr ⟨hasleep, rfl⟩
    · exact Or.inl (Function.update_of_ne hvw ..)

theorem signalFull_accepted {wake : Option (Fin n)} (h : s.signalFull wake = some s') :
    s'.accepted = s.accepted := by
  cases wake <;> simp only [State.signalFull] at h <;> split at h <;> cases h <;> rfl

theorem stepMaster_accepted {conn : C} {wake : Option (Fin n)} (hm : s.master ≠ .accept)
    (hs : stepMaster S s conn wake = some s') : s'.accepted = s.accepted := by
  cases hx : s.master <;> simp only [stepMaster, hx] at hs
  case accept => exact absurd hx hm
  case critical =>
    split at hs
    · cases hs
      rfl
    · have haccepted := signalFull_accepted hs
      exact haccepted
  case lock | woken =>
    split at hs <;> cases hs
    rfl
  all_goals
    cases hs
    try rfl

theorem stepWorker_accepted {w : Fin n} (hs : stepWorker S s w = some s') :
    s'.accepted = s.accepted := by
  cases hx : s.workers w <;> simp only [stepWorker, hx] at hs
  case lock | woken | critical =>
    split at hs <;> cases hs
    all_goals rfl
  all_goals
    cases hs
    try rfl

theorem serverInv_master (hS : S.Counts) (hn : 0 < n) (h : ServerInv S s) {conn : C}
    {wake : Option (Fin n)} (hs : stepMaster S s conn wake = some s') : ServerInv S s' := by
  have hputs := h.puts
  have hlock := h.lock
  cases hm : s.master <;> simp only [stepMaster, hm] at hs <;> rw [hm] at hputs hlock
  case accept =>
    cases hs
    refine ⟨hlock, h.worker, ?_, h.count_le, fun hc => (by cases hc), h.busy⟩
    rw [List.map_append, hputs]
    simp [MasterPc.pending]
  case lock conn | woken conn =>
    split at hs <;> cases hs
    rename_i hfree
    refine ⟨by simp [MasterPc.Holds], ?_, hputs, h.count_le, fun hc => (by cases hc),
      h.busy⟩
    intro w
    exact (h.worker w).frame (h.worker_out hfree (by simp)) (by simp)
  case critical conn =>
    have hmutex : s.mutex = some .master := hlock.mpr rfl
    split at hs
    · rename_i hfull
      cases hs
      refine ⟨by simp [MasterPc.Holds], ?_, hputs, h.count_le, fun _ => hfull, h.busy⟩
      intro w
      exact (h.worker w).frame (h.worker_out hmutex (by simp)) (by simp)
    · rename_i hnotfull
      obtain ⟨hworkers, hawake, heq⟩ := signalFull_cases hn hs
      have hcount := h.count_le
      rw [heq]
      refine ⟨hlock, ?_, ?_, ?_, fun hc => (by cases hc), fun _ => hawake⟩
      · intro w
        rcases hworkers w with hsame | ⟨hasleep, hwoken⟩
        · rw [hsame]
          exact h.worker w
        · rw [hwoken]
          exact (h.worker w).wake hasleep
      · change s.accepted.map S.entry = _
        rw [hputs]
        simp [MasterPc.pending]
      · simp only [hS.put]
        omega
  case asleep => cases hs
  case unlock =>
    cases hs
    have hmutex : s.mutex = some .master := hlock.mpr rfl
    refine ⟨by simp [MasterPc.Holds], ?_, hputs, h.count_le, fun hc => (by cases hc),
      h.busy⟩
    intro w
    exact (h.worker w).frame (h.worker_out hmutex (by simp)) (by simp)

/-- What holds of the new state of one worker and of all others holds of all. -/
theorem forall_setWorker (P : Fin n → WorkerPc I → Prop) {w : Fin n} {x : WorkerPc I}
    (hw : P w x) (h : ∀ v, v ≠ w → P v (s.workers v)) (v : Fin n) :
    P v ((s.setWorker w x).workers v) :=
  (Function.forall_update_iff s.workers P).mpr ⟨hw, h⟩ v

/-- Some worker is awake after worker `w` has moved to an awake state. -/
theorem exists_awake {w : Fin n} {x : WorkerPc I} (hx : x.Asleep = false) :
    ∃ v, ((s.setWorker w x).workers v).Asleep = false :=
  ⟨w, by rw [State.setWorker]; simpa using hx⟩

/-- A worker gives the mutex back. -/
theorem ServerInv.release (h : ServerInv S s) {w : Fin n} {x : WorkerPc I}
    (hmutex : s.mutex = some (.worker w)) (hx : WorkerInv none s.taken s.handled s.closed w x)
    (hbusy : 0 < S.count s.buffer → ∃ v, ((s.setWorker w x).workers v).Asleep = false) :
    ServerInv S { s.setWorker w x with mutex := none } := by
  have hmaster := h.master_out hmutex (by simp)
  refine ⟨by simp [State.setWorker, hmaster],
    forall_setWorker (WorkerInv none s.taken s.handled s.closed) hx ?_,
    h.puts, h.count_le, h.full, hbusy⟩
  intro v hv
  exact (h.worker v).frame (h.worker_out hmutex (by simpa using Ne.symm hv)) (by simp)

/-- A worker takes the item that `get` gives and wakes the master. -/
theorem ServerInv.get (hS : S.Counts) (h : ServerInv S s) {w : Fin n}
    (hcritical : s.workers w = .critical) :
    ServerInv S { s.setWorker w (.unlock (S.get s.buffer).1) with
      buffer := (S.get s.buffer).2
      master := s.master.signalEmpty
      taken := s.taken ++ [(w, (S.get s.buffer).1)] } := by
  have hw := h.worker w
  rw [hcritical] at hw
  refine ⟨?_, forall_setWorker (WorkerInv s.mutex (s.taken ++ [(w, (S.get s.buffer).1)])
    s.handled s.closed) ?_ ?_, ?_, ?_, ?_, fun _ => exists_awake rfl⟩
  · rw [s.master.holds_signalEmpty]
    exact h.lock
  · refine ⟨hw.lock, ?_, hw.handled⟩
    rw [ofWorker_append_self, hw.taken]
    simp [WorkerPc.holding]
  · intro v hv
    have hv' := h.worker v
    exact ⟨hv'.lock, by rw [ofWorker_append_of_ne _ hv]; exact hv'.taken, hv'.handled⟩
  · rw [s.master.pending_signalEmpty]
    exact h.puts
  · have hcount := h.count_le
    dsimp only
    rw [hS.get]
    omega
  · intro hc
    rw [s.master.asleep_signalEmpty] at hc
    cases hc

theorem serverInv_worker (hS : S.Counts) (h : ServerInv S s) {w : Fin n}
    (hs : stepWorker S s w = some s') : ServerInv S s' := by
  have hw := h.worker w
  cases hx : s.workers w <;> simp only [stepWorker, hx] at hs <;> rw [hx] at hw
  case lock | woken =>
    split at hs <;> cases hs
    rename_i hfree
    refine ⟨?_, forall_setWorker (WorkerInv (some (.worker w)) s.taken s.handled s.closed) ?_ ?_,
      h.puts, h.count_le, h.full, fun _ => exists_awake rfl⟩
    · have hmaster := h.master_out hfree (by simp)
      change some (Thread.worker w) = some .master ↔ s.master.Holds = true
      simp [hmaster]
    · exact ⟨by simp [WorkerPc.Holds], hw.taken, hw.handled⟩
    · intro v hv
      exact (h.worker v).frame (h.worker_out hfree (by simp)) (by simpa using Ne.symm hv)
  case critical =>
    split at hs
    · rename_i hzero
      cases hs
      refine h.release (hw.lock.mpr rfl) ⟨by simp [WorkerPc.Holds], hw.taken, hw.handled⟩ ?_
      intro hpos
      omega
    · cases hs
      exact h.get hS hx
  case asleep => cases hs
  case unlock item =>
    cases hs
    exact h.release (hw.lock.mpr rfl) ⟨by simp [WorkerPc.Holds], hw.taken, hw.handled⟩
      fun _ => exists_awake rfl
  case handle item =>
    cases hs
    refine ⟨h.lock, forall_setWorker (WorkerInv s.mutex s.taken (s.handled ++ [(w, item)])
      s.closed) ?_ ?_, h.puts, h.count_le, h.full, fun _ => exists_awake rfl⟩
    · refine ⟨hw.lock, hw.taken, ?_⟩
      rw [ofWorker_append_self, hw.handled]
      simp [WorkerPc.closing]
    · intro v hv
      have hv' := h.worker v
      exact ⟨hv'.lock, hv'.taken, by rw [ofWorker_append_of_ne _ hv]; exact hv'.handled⟩
  case close item =>
    cases hs
    refine ⟨h.lock, forall_setWorker (WorkerInv s.mutex s.taken s.handled
      (s.closed ++ [(w, item)])) ?_ ?_, h.puts, h.count_le, h.full, fun _ => exists_awake rfl⟩
    · refine ⟨hw.lock, ?_, ?_⟩
      · rw [ofWorker_append_self, hw.taken]
        simp [WorkerPc.holding]
      · rw [ofWorker_append_self, hw.handled]
        simp [WorkerPc.closing]
    · intro v hv
      have hv' := h.worker v
      exact ⟨hv'.lock, by rw [ofWorker_append_of_ne _ hv]; exact hv'.taken,
        by rw [ofWorker_append_of_ne _ hv]; exact hv'.handled⟩

end Steps

theorem Reachable.serverInv {S : Schedule C I B} (hS : S.Counts) (hn : 0 < n)
    {s : State C I B n} (hs : (system S n).Reachable s) : ServerInv S s := by
  refine System.Reaches.invariant (serverInv_start hS) ?_ hs
  intro s a s' _ h _ hstep
  cases a with
  | master conn wake => exact serverInv_master hS hn h hstep
  | worker w => exact serverInv_worker hS h hstep

/-- **No lost wake-up.**  With a positive limit the master and all workers are never
    asleep together, and while anything is in the buffer some worker is not asleep. -/
theorem ServerInv.not_all_asleep {S : Schedule C I B} {s : State C I B n} (h : ServerInv S s)
    (hlimit : 0 < S.limit) :
    ¬ (s.master.Asleep = true ∧ ∀ w, (s.workers w).Asleep = true) := by
  rintro ⟨hmaster, hworkers⟩
  obtain ⟨w, hw⟩ := h.busy (by rw [h.full hmaster]; exact hlimit)
  rw [hworkers w] at hw
  cases hw

end OstepProjects.WebServer
