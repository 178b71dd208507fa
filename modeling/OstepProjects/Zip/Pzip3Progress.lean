/-
  OstepProjects/Zip/Pzip3Progress.lean
  ====================================
  **When the threads of `pzip3.c` can get stuck.**

  The producer sets `isComplete` and broadcasts `fill` without the lock.  A consumer
  that has found the queue empty and the flag still clear can be overtaken by both
  before it sleeps; nobody signals `fill` afterwards, so it sleeps for ever.
  `pzip3_hangs` is such a run.  It is the only way to hang: in every run in which
  the last broadcast is not taken while a consumer stands between that test and its
  wait, a state in which some thread has not returned has a step (`not_stuck`).

  The argument uses what a step does to the lock, the flag, the size of the queue
  and the program counters; `ConsumerSpec` and `ProducerSpec` say this once for all
  statements, and `SyncInv` is proved from them.
-/
import OstepProjects.Zip.Pzip3

namespace OstepProjects.Pzip3

open OstepProjects.Transition OstepProjects.CircularQueue

variable {n : Nat}

/-! ### Classes of statements -/

/-- Statements of the producer that are executed with the lock held. -/
def ProducerPc.Holds : ProducerPc → Bool
  | .testFull | .broadcastFill | .waitEmpty | .unlockFull | .put | .unlockPut => true
  | _ => false

/-- Statements that take the lock, and statements that release it. -/
def ProducerPc.Acquires : ProducerPc → Bool
  | .lockFull | .woken | .lockPut => true
  | _ => false

def ProducerPc.Releases : ProducerPc → Bool
  | .waitEmpty | .unlockFull | .unlockPut => true
  | _ => false

/-- `isComplete` has been set. -/
def ProducerPc.Done : ProducerPc → Bool
  | .broadcastDone | .returned => true
  | _ => false

def ConsumerPc.Holds : ConsumerPc → Bool
  | .testEmpty | .signalFirst | .waitFill | .testDone | .unlockReturn | .get | .testSignal
  | .signalEmpty | .unlockGet => true
  | _ => false

def ConsumerPc.Acquires : ConsumerPc → Bool
  | .lock | .woken => true
  | _ => false

def ConsumerPc.Releases : ConsumerPc → Bool
  | .waitFill | .unlockReturn | .unlockGet => true
  | _ => false

/-- The test of the wait loop came out true and the consumer does not sleep yet. -/
def ConsumerPc.BeforeWait : ConsumerPc → Bool
  | .signalFirst | .waitFill => true
  | _ => false

/-- Asleep on `fill`, or bound to be. -/
def ConsumerPc.Idle : ConsumerPc → Bool
  | .signalFirst | .waitFill | .asleep => true
  | _ => false

/-- A page has been taken and `empty` has not been signalled yet. -/
def ConsumerPc.Took : ConsumerPc → Bool
  | .testSignal | .signalEmpty => true
  | _ => false

/-- On the way out, or out. -/
def ConsumerPc.Leaves : ConsumerPc → Bool
  | .unlockReturn | .returned => true
  | _ => false

/-! ### What a statement does to the synchronisation -/

/-- The statement of a consumer after `pc`, from what the tests read. -/
def ConsumerPc.next (empty complete : Bool) : ConsumerPc → ConsumerPc
  | .lock | .woken => .testEmpty
  | .testEmpty => if empty && !complete then .signalFirst else .testDone
  | .signalFirst => .waitFill
  | .waitFill | .asleep => .asleep
  | .testDone => if complete && empty then .unlockReturn else .get
  | .unlockReturn | .returned => .returned
  | .get => .testSignal
  | .testSignal => if complete then .unlockGet else .signalEmpty
  | .signalEmpty => .unlockGet
  | .unlockGet => .position
  | .position => .store
  | .store => .loopTest
  | .loopTest => if complete && empty then .returned else .lock

structure ConsumerSpec (s s' : State n) (c : Fin n) : Prop where
  awake : (s.consumers c).pc ≠ .asleep ∧ (s.consumers c).pc ≠ .returned
  next : (s'.consumers c).pc = (s.consumers c).pc.next (s.queue.size == 0) s.isComplete
  others : ∀ d, d ≠ c → s'.consumers d = s.consumers d
  free : (s.consumers c).pc.Acquires = true → s.lock = none
  lock : s'.lock =
    if (s.consumers c).pc.Acquires then some (.consumer c)
    else if (s.consumers c).pc.Releases then none else s.lock
  flag : s'.isComplete = s.isComplete
  size : s'.queue.size =
    if (s.consumers c).pc = .get then s.queue.size - 1 else s.queue.size
  signal : s'.producer.pc =
    if ((s.consumers c).pc = .signalFirst ∨ (s.consumers c).pc = .signalEmpty) ∧
      s.producer.pc = .asleep then .woken else s.producer.pc

theorem stepConsumer_spec {s s' : State n} {c : Fin n} (h : stepConsumer s c = some s') :
    ConsumerSpec s s' c := by
  have hothers : ∀ (x : Consumer) (d : Fin n), d ≠ c →
      Function.update s.consumers c x d = s.consumers d := fun x d hd =>
    Function.update_of_ne hd x s.consumers
  cases hpc : (s.consumers c).pc <;> simp only [stepConsumer, hpc] at h
  case signalFirst | signalEmpty =>
    cases h
    by_cases hp : s.producer.pc = .asleep
    · constructor <;> simp [hpc, hp, State.signalEmpty, State.goto, State.gotoConsumer,
        State.setConsumer, ConsumerPc.next, ConsumerPc.Acquires, ConsumerPc.Releases]
      exact hothers _
    · constructor <;> simp [hpc, hp, State.signalEmpty, State.gotoConsumer,
        State.setConsumer, ConsumerPc.next, ConsumerPc.Acquires, ConsumerPc.Releases]
      exact hothers _
  case asleep | returned => cases h
  case lock | woken | testEmpty | testDone | testSignal | loopTest =>
    split at h <;> cases h
    all_goals
      constructor <;> simp_all [State.gotoConsumer, State.setConsumer, ConsumerPc.next,
        ConsumerPc.Acquires, ConsumerPc.Releases]
  all_goals
    cases h
    constructor <;> simp [hpc, State.gotoConsumer, State.setConsumer, ConsumerPc.next,
      ConsumerPc.Acquires, ConsumerPc.Releases, Queue.get]
    exact hothers _

/-- The statements of the producer that may follow `pc`. -/
def ProducerPc.Next (full : Bool) (pc pc' : ProducerPc) : Prop :=
  match pc with
  | .openFile => pc' = .openFile ∨ pc' = .countPages ∨ pc' = .setComplete
  | .countPages => pc' = .recordPages
  | .recordPages => pc' = .mapFile
  | .mapFile | .signalFill => pc' = .pageTest
  | .pageTest => pc' = .lockFull ∨ pc' = .openFile
  | .lockFull | .woken => pc' = .testFull
  | .testFull => pc' = if full then .broadcastFill else .unlockFull
  | .broadcastFill => pc' = .waitEmpty
  | .waitEmpty | .asleep => pc' = .asleep
  | .unlockFull => pc' = .fillTemp
  | .fillTemp => pc' = .lockPut
  | .lockPut => pc' = .put
  | .put => pc' = .unlockPut
  | .unlockPut => pc' = .signalFill
  | .setComplete => pc' = .broadcastDone
  | .broadcastDone | .returned => pc' = .returned

structure ProducerSpec (s s' : State n) : Prop where
  awake : s.producer.pc ≠ .asleep ∧ s.producer.pc ≠ .returned
  next : s.producer.pc.Next (s.queue.size == q_capacity) s'.producer.pc
  wakes : ∀ d, s'.consumers d = s.consumers d ∨
    ((s.consumers d).pc = .asleep ∧ (s'.consumers d).pc = .woken)
  broadcast : s.producer.pc = .broadcastFill ∨ s.producer.pc = .broadcastDone →
    ∀ d, (s'.consumers d).pc ≠ .asleep
  free : s.producer.pc.Acquires = true → s.lock = none
  lock : s'.lock =
    if s.producer.pc.Acquires then some .producer
    else if s.producer.pc.Releases then none else s.lock
  flag : s'.isComplete = (s.isComplete || s.producer.pc == .setComplete)
  size : s'.queue.size = if s.producer.pc = .put then s.queue.size + 1 else s.queue.size

theorem wake_cases (x : Consumer) : x.wake = x ∨ (x.pc = .asleep ∧ x.wake.pc = .woken) := by
  by_cases h : x.pc = .asleep
  · exact Or.inr ⟨h, by rw [Consumer.wake, if_pos h]⟩
  · exact Or.inl (by rw [Consumer.wake, if_neg h])

theorem wake_pc_ne (x : Consumer) : x.wake.pc ≠ .asleep := by
  rcases wake_cases x with h | ⟨_, h⟩
  · intro hx
    rw [h] at hx
    rw [Consumer.wake, if_pos hx] at h
    rw [← h] at hx
    cases hx
  · rw [h]
    intro hx; cases hx

/-- A signal leaves a consumer alone or wakes it. -/
theorem signalFill_cases {s t : State n} {wake : Option (Fin n)} (h : s.signalFill wake = some t) :
    (∀ d, t.consumers d = s.consumers d ∨
      ((s.consumers d).pc = .asleep ∧ (t.consumers d).pc = .woken)) ∧
      t = { s with consumers := t.consumers } := by
  cases wake with
  | none =>
    simp only [State.signalFill] at h
    split at h
    · cases h
      exact ⟨fun _ => Or.inl rfl, rfl⟩
    · cases h
  | some c =>
    simp only [State.signalFill] at h
    split at h
    · cases h
      refine ⟨?_, rfl⟩
      intro d
      simp only [State.setConsumer]
      by_cases hd : d = c
      · subst hd
        rw [Function.update_self]
        exact wake_cases _
      · exact Or.inl (Function.update_of_ne hd _ _)
    · cases h

theorem stepProducer_spec {cfg : Config} {s s' : State n} {wake : Option (Fin n)}
    (h : stepProducer cfg s wake = some s') : ProducerSpec s s' := by
  cases hpc : s.producer.pc <;> simp only [stepProducer, hpc] at h
  case signalFill =>
    obtain ⟨t, ht, rfl⟩ := Option.map_eq_some_iff.mp h
    obtain ⟨hwakes, heq⟩ := signalFill_cases ht
    rw [heq]
    constructor <;> simp [hpc, ProducerPc.Next, ProducerPc.Acquires, ProducerPc.Releases]
    exact hwakes
  case broadcastFill | broadcastDone =>
    cases h
    constructor <;> simp [hpc, State.broadcastFill, State.goto, ProducerPc.Next,
      ProducerPc.Acquires, ProducerPc.Releases]
    · exact fun d => wake_cases (s.consumers d)
    · exact fun d => wake_pc_ne (s.consumers d)
  case asleep | returned => cases h
  case openFile =>
    split at h
    · split at h <;> cases h
      all_goals
        constructor <;> simp [hpc, State.goto, ProducerPc.Next, ProducerPc.Acquires,
          ProducerPc.Releases]
    · cases h
      constructor <;> simp [hpc, State.goto, ProducerPc.Next, ProducerPc.Acquires,
        ProducerPc.Releases]
  case pageTest | lockFull | testFull | woken | lockPut =>
    split at h <;> cases h
    all_goals
      constructor <;> simp_all [State.goto, ProducerPc.Next, ProducerPc.Acquires,
        ProducerPc.Releases]
  all_goals
    cases h
    constructor <;> simp [hpc, State.goto, ProducerPc.Next, ProducerPc.Acquires,
      ProducerPc.Releases, Queue.put]

/-! ### The invariant of the synchronisation -/

structure SyncInv (s : State n) : Prop where
  lockP : s.lock = some .producer ↔ s.producer.pc.Holds = true
  lockC : ∀ c, s.lock = some (.consumer c) ↔ (s.consumers c).pc.Holds = true
  flag : s.isComplete = s.producer.pc.Done
  full : s.producer.pc = .broadcastFill ∨ s.producer.pc = .waitEmpty →
    s.queue.size = q_capacity
  idle : s.producer.pc = .waitEmpty ∨ s.producer.pc = .asleep →
    ∀ c, (s.consumers c).pc.Idle = false
  asleep : s.producer.pc = .asleep →
    s.queue.size = q_capacity ∨ ∃ c, (s.consumers c).pc.Took = true
  leaves : ∀ c, (s.consumers c).pc.Leaves = true → s.isComplete = true

theorem syncInv_start (cfg : Config) : SyncInv (State.start cfg n) := by
  constructor <;> simp [State.start, ProducerPc.Holds, ConsumerPc.Holds, ProducerPc.Done,
    ConsumerPc.Leaves]

/-- Two threads do not hold the lock at once. -/
theorem SyncInv.consumer_unique {s : State n} (h : SyncInv s) {c d : Fin n}
    (hc : (s.consumers c).pc.Holds = true) (hd : (s.consumers d).pc.Holds = true) : d = c := by
  have hlock := (h.lockC d).mpr hd
  rw [(h.lockC c).mpr hc] at hlock
  cases hlock; rfl

theorem SyncInv.not_both {s : State n} (h : SyncInv s) {c : Fin n}
    (hp : s.producer.pc.Holds = true) : (s.consumers c).pc.Holds = false := by
  by_contra hc
  have hlock := (h.lockC c).mpr (by simpa using hc)
  rw [h.lockP.mpr hp] at hlock
  cases hlock

theorem holds_of_took {pc : ConsumerPc} (h : pc.Took = true) : pc.Holds = true := by
  cases pc <;> first | rfl | cases h

theorem ConsumerPc.holds_next (pc : ConsumerPc) (e f : Bool) :
    (pc.next e f).Holds = (pc.Acquires || (pc.Holds && !pc.Releases)) := by
  cases pc <;> cases e <;> cases f <;> rfl

theorem ConsumerPc.idle_next {pc : ConsumerPc} {e f : Bool} (h : (pc.next e f).Idle = true) :
    pc.Idle = true ∨ (pc = .testEmpty ∧ e = true ∧ f = false) := by
  cases pc <;> cases e <;> cases f <;> simp_all [ConsumerPc.next, ConsumerPc.Idle]

theorem ConsumerPc.leaves_next {pc : ConsumerPc} {e f : Bool} (h : (pc.next e f).Leaves = true) :
    pc.Leaves = true ∨ f = true := by
  cases pc <;> cases e <;> cases f <;> simp_all [ConsumerPc.next, ConsumerPc.Leaves]

theorem ConsumerPc.took_next {pc : ConsumerPc} {e : Bool} (h : pc.Took = true) :
    pc = .signalEmpty ∨ (pc.next e false).Took = true := by
  cases pc <;> simp_all [ConsumerPc.next, ConsumerPc.Took]

theorem ConsumerPc.holds_of_releases {pc : ConsumerPc} (h : pc.Releases = true) :
    pc.Holds = true := by
  cases pc <;> simp_all [ConsumerPc.Holds, ConsumerPc.Releases]

section Consumer

variable {s s' : State n} {c : Fin n}

/-- Before a consumer moves, the lock is free if it takes it and its own if it
    releases it. -/
theorem ConsumerSpec.lock_before (spec : ConsumerSpec s s' c) (h : SyncInv s) :
    (s.lock = none ∧ (s.consumers c).pc.Acquires = true) ∨
    (s.lock = some (.consumer c) ∧ (s.consumers c).pc.Acquires = false ∧
      (s.consumers c).pc.Releases = true) ∨
    (s'.lock = s.lock ∧ (s.consumers c).pc.Acquires = false ∧
      (s.consumers c).pc.Releases = false) := by
  have hlock := spec.lock
  cases ha : (s.consumers c).pc.Acquires with
  | true => exact Or.inl ⟨spec.free ha, rfl⟩
  | false =>
    cases hr : (s.consumers c).pc.Releases with
    | true =>
      refine Or.inr (Or.inl ⟨?_, rfl, rfl⟩)
      exact (h.lockC c).mpr (ConsumerPc.holds_of_releases hr)
    | false =>
      refine Or.inr (Or.inr ⟨?_, rfl, rfl⟩)
      simpa [ha, hr] using hlock

/-- The step of a consumer does not move the producer to a statement at which it
    holds the lock, or away from one. -/
theorem ConsumerSpec.producer_holds (spec : ConsumerSpec s s' c) :
    s'.producer.pc.Holds = s.producer.pc.Holds := by
  rw [spec.signal]
  split
  · rename_i hsig
    rw [hsig.2]; rfl
  · rfl

theorem ConsumerSpec.producer_eq (spec : ConsumerSpec s s' c) (hw : s'.producer.pc ≠ .woken) :
    s'.producer.pc = s.producer.pc := by
  have hsig := spec.signal
  split at hsig
  · exact absurd hsig hw
  · exact hsig

theorem ConsumerSpec.lockP (spec : ConsumerSpec s s' c) (h : SyncInv s) :
    s'.lock = some .producer ↔ s'.producer.pc.Holds = true := by
  rw [spec.producer_holds, ← h.lockP, spec.lock]
  rcases spec.lock_before h with ⟨hl, ha⟩ | ⟨hl, ha, hr⟩ | ⟨hl, ha, hr⟩
  · simp [hl, ha]
  · simp [hl, ha, hr]
  · simp [ha, hr]

theorem ConsumerSpec.lockC (spec : ConsumerSpec s s' c) (h : SyncInv s) (d : Fin n) :
    s'.lock = some (.consumer d) ↔ (s'.consumers d).pc.Holds = true := by
  by_cases hd : d = c
  · subst hd
    rw [spec.next, ConsumerPc.holds_next, spec.lock]
    rcases spec.lock_before h with ⟨hl, ha⟩ | ⟨hl, ha, hr⟩ | ⟨hl, ha, hr⟩
    · simp [ha]
    · simp [ha, hr]
    · simp only [ha, hr, Bool.false_eq_true, if_false, Bool.not_false, Bool.and_true,
        Bool.false_or]
      exact h.lockC d
  · rw [spec.others d hd, ← h.lockC d, spec.lock]
    rcases spec.lock_before h with ⟨hl, ha⟩ | ⟨hl, ha, hr⟩ | ⟨hl, ha, hr⟩
    · simp [hl, ha, Ne.symm hd]
    · simp [hl, ha, hr, Ne.symm hd]
    · simp [ha, hr]

/-- A consumer that is about to find the queue empty cannot do so while the producer
    waits for a free slot. -/
theorem SyncInv.no_new_idle (h : SyncInv s)
    (hp : s.producer.pc = .waitEmpty ∨ s.producer.pc = .asleep)
    (hpc : (s.consumers c).pc = .testEmpty) : s.queue.size ≠ 0 := by
  have hc : (s.consumers c).pc.Holds = true := by rw [hpc]; rfl
  rcases hp with hp | hp
  · have hnot : (s.consumers c).pc.Holds = false := h.not_both (by rw [hp]; rfl)
    rw [hc] at hnot; cases hnot
  · rcases h.asleep hp with hsize | ⟨d, hd⟩
    · rw [hsize]; decide
    · have heq := h.consumer_unique hc (holds_of_took hd)
      subst heq
      rw [hpc] at hd; cases hd

theorem syncInv_consumer (h : SyncInv s) (hs : stepConsumer s c = some s') : SyncInv s' := by
  have spec := stepConsumer_spec hs
  constructor
  case lockP => exact spec.lockP h
  case lockC => exact spec.lockC h
  case flag =>
    rw [spec.flag, h.flag, spec.signal]
    split
    · rename_i hsig
      rw [hsig.2]; rfl
    · rfl
  case full =>
    intro hp
    have hpe := spec.producer_eq (by rcases hp with hp | hp <;> rw [hp] <;> decide)
    rw [hpe] at hp
    have hnot : (s.consumers c).pc.Holds = false :=
      h.not_both (by rcases hp with hp | hp <;> rw [hp] <;> rfl)
    rw [spec.size, if_neg (by intro hget; rw [hget] at hnot; cases hnot)]
    exact h.full hp
  case idle =>
    intro hp d
    have hpe := spec.producer_eq (by rcases hp with hp | hp <;> rw [hp] <;> decide)
    rw [hpe] at hp
    by_cases hd : d = c
    · subst hd
      rw [spec.next]
      by_contra hidle
      rcases ConsumerPc.idle_next (by simpa using hidle) with hold | ⟨hpc, hempty, _⟩
      · rw [h.idle hp d] at hold; cases hold
      · exact h.no_new_idle hp hpc (by simpa using hempty)
    · rw [spec.others d hd]
      exact h.idle hp d
  case asleep =>
    intro hp
    have hpe := spec.producer_eq (by rw [hp]; decide)
    have hp0 : s.producer.pc = .asleep := by rw [← hpe, hp]
    have hflag : s.isComplete = false := by rw [h.flag, hp0]; rfl
    have hsig : (s.consumers c).pc ≠ .signalEmpty := by
      intro hpc
      have hsignal := spec.signal
      rw [if_pos ⟨Or.inr hpc, hp0⟩, hp] at hsignal
      cases hsignal
    rcases h.asleep hp0 with hsize | ⟨d, hd⟩
    · by_cases hget : (s.consumers c).pc = .get
      · refine Or.inr ⟨c, ?_⟩
        rw [spec.next, hget]; rfl
      · apply Or.inl
        rw [spec.size, if_neg hget, hsize]
    · refine Or.inr ⟨d, ?_⟩
      by_cases hdc : d = c
      · subst hdc
        rw [spec.next, hflag]
        exact (ConsumerPc.took_next hd).resolve_left hsig
      · rw [spec.others d hdc]
        exact hd
  case leaves =>
    intro d hd
    rw [spec.flag]
    by_cases hdc : d = c
    · subst hdc
      rw [spec.next] at hd
      rcases ConsumerPc.leaves_next hd with hold | hflag
      · exact h.leaves d hold
      · exact hflag
    · rw [spec.others d hdc] at hd
      exact h.leaves d hd

end Consumer

section Producer

variable {s s' : State n}

theorem ProducerPc.holds_next {full : Bool} {pc pc' : ProducerPc} (h : pc.Next full pc') :
    pc'.Holds = (pc.Acquires || (pc.Holds && !pc.Releases)) := by
  cases pc <;> simp only [ProducerPc.Next] at h
  case openFile => rcases h with rfl | rfl | rfl <;> rfl
  case pageTest => rcases h with rfl | rfl <;> rfl
  case testFull => cases full <;> subst h <;> rfl
  all_goals subst h; rfl

theorem ProducerPc.done_next {full : Bool} {pc pc' : ProducerPc} (h : pc.Next full pc') :
    pc'.Done = (pc.Done || pc == .setComplete) := by
  cases pc <;> simp only [ProducerPc.Next] at h
  case openFile => rcases h with rfl | rfl | rfl <;> rfl
  case pageTest => rcases h with rfl | rfl <;> rfl
  case testFull => cases full <;> subst h <;> rfl
  all_goals subst h; rfl

theorem ProducerPc.next_broadcastFill {full : Bool} {pc : ProducerPc}
    (h : pc.Next full .broadcastFill) : pc = .testFull ∧ full = true := by
  cases pc <;> cases full <;> simp_all [ProducerPc.Next]

theorem ProducerPc.next_waitEmpty {full : Bool} {pc : ProducerPc} (h : pc.Next full .waitEmpty) :
    pc = .broadcastFill := by
  cases pc <;> cases full <;> simp_all [ProducerPc.Next]

theorem ProducerPc.next_asleep {full : Bool} {pc : ProducerPc} (h : pc.Next full .asleep) :
    pc = .waitEmpty ∨ pc = .asleep := by
  cases pc <;> cases full <;> simp_all [ProducerPc.Next]

theorem ProducerPc.holds_of_releases {pc : ProducerPc} (h : pc.Releases = true) :
    pc.Holds = true := by
  cases pc <;> simp_all [ProducerPc.Holds, ProducerPc.Releases]

/-- A class of statements that `asleep` and `woken` do not enter is not changed by a
    wake-up. -/
theorem ProducerSpec.class_eq (spec : ProducerSpec s s') (P : ConsumerPc → Bool)
    (hP : P .asleep = P .woken) (d : Fin n) : P (s'.consumers d).pc = P (s.consumers d).pc := by
  rcases spec.wakes d with heq | ⟨hpc, hpc'⟩
  · rw [heq]
  · rw [hpc, hpc', hP]

theorem ProducerSpec.lock_cases (spec : ProducerSpec s s') (h : SyncInv s) :
    (s.lock = none ∧ s'.lock = some .producer ∧ s'.producer.pc.Holds = true) ∨
    (s.lock = some .producer ∧ s'.lock = none ∧ s'.producer.pc.Holds = false) ∨
    (s'.lock = s.lock ∧ s'.producer.pc.Holds = s.producer.pc.Holds) := by
  have hlock := spec.lock
  have hholds := ProducerPc.holds_next spec.next
  cases ha : s.producer.pc.Acquires with
  | true =>
    simp only [ha, if_true, Bool.true_or] at hlock hholds
    exact Or.inl ⟨spec.free ha, hlock, hholds⟩
  | false =>
    cases hr : s.producer.pc.Releases with
    | true =>
      simp only [ha, hr, if_true, Bool.false_eq_true, if_false, Bool.not_true, Bool.and_false,
        Bool.or_self] at hlock hholds
      exact Or.inr (Or.inl ⟨h.lockP.mpr (ProducerPc.holds_of_releases hr), hlock, hholds⟩)
    | false =>
      simp only [ha, hr, Bool.false_eq_true, if_false, Bool.not_false, Bool.and_true,
        Bool.false_or] at hlock hholds
      exact Or.inr (Or.inr ⟨hlock, hholds⟩)

theorem syncInv_producer {cfg : Config} {wake : Option (Fin n)} (h : SyncInv s)
    (hs : stepProducer cfg s wake = some s') : SyncInv s' := by
  have spec := stepProducer_spec hs
  constructor
  case lockP =>
    rcases spec.lock_cases h with ⟨_, hl', hh⟩ | ⟨_, hl', hh⟩ | ⟨hl', hh⟩
    · simp [hl', hh]
    · simp [hl', hh]
    · rw [hl', hh]
      exact h.lockP
  case lockC =>
    intro d
    rw [spec.class_eq ConsumerPc.Holds rfl d, ← h.lockC d]
    rcases spec.lock_cases h with ⟨hl, hl', _⟩ | ⟨hl, hl', _⟩ | ⟨hl', _⟩ <;> simp_all
  case flag => rw [spec.flag, h.flag, ProducerPc.done_next spec.next]
  case full =>
    rintro (hp | hp)
    · have hnext := spec.next
      rw [hp] at hnext
      obtain ⟨hpc, hfull⟩ := ProducerPc.next_broadcastFill hnext
      rw [spec.size, if_neg (by rw [hpc]; decide)]
      simpa using hfull
    · have hnext := spec.next
      rw [hp] at hnext
      have hpc := ProducerPc.next_waitEmpty hnext
      rw [spec.size, if_neg (by rw [hpc]; decide)]
      exact h.full (Or.inl hpc)
  case idle =>
    rintro (hp | hp) d
    · have hnext := spec.next
      rw [hp] at hnext
      have hpc := ProducerPc.next_waitEmpty hnext
      have hawake := spec.broadcast (Or.inl hpc) d
      have hholds : (s.consumers d).pc.Holds = false := h.not_both (by rw [hpc]; rfl)
      rw [← spec.class_eq ConsumerPc.Holds rfl d] at hholds
      cases hd : (s'.consumers d).pc <;> simp_all [ConsumerPc.Idle, ConsumerPc.Holds]
    · have hnext := spec.next
      rw [hp] at hnext
      have hpc := (ProducerPc.next_asleep hnext).resolve_right spec.awake.1
      have hidle := h.idle (Or.inl hpc) d
      rcases spec.wakes d with heq | ⟨_, hd⟩
      · rw [heq]; exact hidle
      · rw [hd]; rfl
  case asleep =>
    intro hp
    have hnext := spec.next
    rw [hp] at hnext
    have hpc := (ProducerPc.next_asleep hnext).resolve_right spec.awake.1
    apply Or.inl
    rw [spec.size, if_neg (by rw [hpc]; decide)]
    exact h.full (Or.inr hpc)
  case leaves =>
    intro d hd
    rw [spec.class_eq ConsumerPc.Leaves rfl d] at hd
    rw [spec.flag, h.leaves d hd]
    rfl

end Producer

/-! ### After the last broadcast -/

/-- The guard on a step: the last broadcast is not taken while a consumer has passed
    the test of its wait loop and does not sleep yet. -/
def LastBroadcastSeen (s : State n) : Action n → Prop
  | .producer _ =>
    s.producer.pc = .broadcastDone → ∀ c, (s.consumers c).pc.BeforeWait = false
  | .consumer _ => True

structure ProgressInv (s : State n) : Prop where
  sync : SyncInv s
  awake : s.producer.pc = .returned → ∀ c, (s.consumers c).pc.Idle = false

theorem ProducerPc.next_returned {full : Bool} {pc : ProducerPc} (h : pc.Next full .returned) :
    pc = .broadcastDone ∨ pc = .returned := by
  cases pc <;> cases full <;> simp_all [ProducerPc.Next]

theorem ConsumerPc.idle_eq (pc : ConsumerPc) : pc.Idle = (pc.BeforeWait || pc == .asleep) := by
  cases pc <;> rfl

theorem progressInv_step {cfg : Config} {s s' : State n} {a : Action n} (h : ProgressInv s)
    (hguard : LastBroadcastSeen s a) (hs : (system cfg n).step s a = some s') :
    ProgressInv s' := by
  cases a with
  | producer wake =>
    refine ⟨syncInv_producer h.sync hs, ?_⟩
    intro hp c
    have spec := stepProducer_spec hs
    have hnext := spec.next
    rw [hp] at hnext
    have hpc := (ProducerPc.next_returned hnext).resolve_right spec.awake.2
    have hbefore := hguard hpc c
    rw [← spec.class_eq ConsumerPc.BeforeWait rfl c] at hbefore
    have hasleep := spec.broadcast (Or.inr hpc) c
    rw [ConsumerPc.idle_eq, hbefore]
    simpa using hasleep
  | consumer c =>
    refine ⟨syncInv_consumer h.sync hs, ?_⟩
    intro hp d
    have spec := stepConsumer_spec hs
    have hpc : s.producer.pc = .returned := by
      rw [← spec.producer_eq (by rw [hp]; decide), hp]
    by_cases hdc : d = c
    · subst hdc
      rw [spec.next]
      by_contra hidle
      rcases ConsumerPc.idle_next (by simpa using hidle) with hold | ⟨_, _, hflag⟩
      · rw [h.awake hpc d] at hold; cases hold
      · rw [h.sync.flag, hpc] at hflag; cases hflag
    · rw [spec.others d hdc]
      exact h.awake hpc d

theorem Reaches.progressInv {cfg : Config} {s : State n}
    (hs : (system cfg n).Reaches LastBroadcastSeen s) : ProgressInv s := by
  refine System.Reaches.invariant ?_ ?_ hs
  · refine ⟨syncInv_start cfg, ?_⟩
    intro hp
    cases hp
  · intro s a s' _ h hguard hstep
    exact progressInv_step h hguard hstep

/-! ### Which threads can move -/

theorem stepConsumer_enabled (s : State n) (c : Fin n) (hsleep : (s.consumers c).pc ≠ .asleep)
    (hret : (s.consumers c).pc ≠ .returned)
    (hlock : (s.consumers c).pc.Acquires = true → s.lock = none) :
    ∃ s', stepConsumer s c = some s' := by
  cases hpc : (s.consumers c).pc <;> simp only [stepConsumer, hpc]
  case asleep => exact absurd hpc hsleep
  case returned => exact absurd hpc hret
  case lock | woken =>
    rw [if_pos (hlock (by rw [hpc]; rfl))]
    exact ⟨_, rfl⟩
  case testEmpty | testDone | testSignal | loopTest => split <;> exact ⟨_, rfl⟩
  all_goals exact ⟨_, rfl⟩

theorem signalFill_enabled (s : State n) : ∃ wake t, s.signalFill wake = some t := by
  by_cases h : ∃ c, (s.consumers c).pc = .asleep
  · obtain ⟨c, hc⟩ := h
    exact ⟨some c, _, if_pos hc⟩
  · exact ⟨none, s, if_pos fun c hc => h ⟨c, hc⟩⟩

theorem stepProducer_enabled (cfg : Config) (s : State n) (hsleep : s.producer.pc ≠ .asleep)
    (hret : s.producer.pc ≠ .returned)
    (hlock : s.producer.pc.Acquires = true → s.lock = none) :
    ∃ wake s', stepProducer cfg s wake = some s' := by
  cases hpc : s.producer.pc <;> simp only [stepProducer, hpc]
  case asleep => exact absurd hpc hsleep
  case returned => exact absurd hpc hret
  case signalFill =>
    obtain ⟨wake, t, ht⟩ := signalFill_enabled s
    exact ⟨wake, _, by rw [ht]; rfl⟩
  case lockFull | woken | lockPut =>
    rw [if_pos (hlock (by rw [hpc]; rfl))]
    exact ⟨none, _, rfl⟩
  case openFile =>
    split
    · split <;> exact ⟨none, _, rfl⟩
    · exact ⟨none, _, rfl⟩
  case pageTest | testFull => split <;> exact ⟨none, _, rfl⟩
  all_goals exact ⟨none, _, rfl⟩

theorem ProducerPc.not_acquires {pc : ProducerPc} (h : pc.Holds = true) : pc.Acquires = false := by
  cases pc <;> first | rfl | cases h

theorem ConsumerPc.not_acquires {pc : ConsumerPc} (h : pc.Holds = true) : pc.Acquires = false := by
  cases pc <;> first | rfl | cases h

/-- The thread that holds the lock can move; with the lock free, every thread that is
    not asleep and has not returned can. -/
theorem ProgressInv.enabled (cfg : Config) {s : State n} (h : ProgressInv s) (hn : 0 < n)
    {t : Thread n} (ht : ¬ s.Returned t) : ∃ a s', (system cfg n).step s a = some s' := by
  have hconsumer : ∀ c, (s.consumers c).pc ≠ .asleep → (s.consumers c).pc ≠ .returned →
      ((s.consumers c).pc.Acquires = true → s.lock = none) →
      ∃ a s', (system cfg n).step s a = some s' := fun c h1 h2 h3 =>
    ⟨.consumer c, stepConsumer_enabled s c h1 h2 h3⟩
  have hproducer : s.producer.pc ≠ .asleep → s.producer.pc ≠ .returned →
      (s.producer.pc.Acquires = true → s.lock = none) →
      ∃ a s', (system cfg n).step s a = some s' := fun h1 h2 h3 => by
    obtain ⟨wake, hwake⟩ := stepProducer_enabled cfg s h1 h2 h3
    exact ⟨.producer wake, hwake⟩
  cases hlock : s.lock with
  | some u =>
    cases u with
    | producer =>
      have hholds := h.sync.lockP.mp hlock
      refine hproducer ?_ ?_ ?_ <;> intro hpc
      · rw [hpc] at hholds; cases hholds
      · rw [hpc] at hholds; cases hholds
      · rw [ProducerPc.not_acquires hholds] at hpc
        cases hpc
    | consumer c =>
      have hholds := (h.sync.lockC c).mp hlock
      refine hconsumer c ?_ ?_ ?_ <;> intro hpc
      · rw [hpc] at hholds; cases hholds
      · rw [hpc] at hholds; cases hholds
      · rw [ConsumerPc.not_acquires hholds] at hpc
        cases hpc
  | none =>
    by_cases hsleep : s.producer.pc = .asleep
    · by_cases hall : ∀ c, (s.consumers c).pc = .returned
      · have hleft := h.sync.leaves ⟨0, hn⟩ (by rw [hall]; rfl)
        rw [h.sync.flag, hsleep] at hleft
        cases hleft
      · obtain ⟨c, hc⟩ := not_forall.mp hall
        refine hconsumer c ?_ hc (fun _ => hlock)
        intro hpc
        have hidle := h.sync.idle (Or.inr hsleep) c
        rw [hpc] at hidle; cases hidle
    · by_cases hret : s.producer.pc = .returned
      · cases t with
        | producer => exact absurd hret ht
        | consumer c =>
          refine hconsumer c ?_ ht (fun _ => hlock)
          intro hpc
          have hidle := h.awake hret c
          rw [hpc] at hidle; cases hidle
      · exact hproducer hsleep hret (fun _ => hlock)

/-- **No hang.**  In a run that never takes the last broadcast between a consumer's
    test and its wait, some thread can move until all have returned, and no consumer
    sleeps once the producer has returned. -/
theorem not_stuck (cfg : Config) (hn : 0 < n) {s : State n}
    (hs : (system cfg n).Reaches LastBroadcastSeen s) :
    ((∃ t, ¬ s.Returned t) → ¬ (system cfg n).Stuck s) ∧
    (s.producer.pc = .returned → ∀ c, (s.consumers c).pc ≠ .asleep) := by
  have hinv := Reaches.progressInv hs
  constructor
  · rintro ⟨t, ht⟩ hstuck
    obtain ⟨a, s', hstep⟩ := hinv.enabled cfg hn ht
    rw [hstuck a] at hstep
    cases hstep
  · intro hret c hpc
    have hidle := hinv.awake hret c
    rw [hpc] at hidle; cases hidle

instance : ∀ (s : State n) (a : Action n), Decidable (LastBroadcastSeen s a)
  | s, .producer _ => inferInstanceAs
      (Decidable (s.producer.pc = .broadcastDone → ∀ c, (s.consumers c).pc.BeforeWait = false))
  | _, .consumer _ => isTrue trivial

/-- One file of one byte, pages of 4096 bytes. -/
def oneByte : Config where
  page_size := 4096
  files := [[97]]
  junk := fun _ => 0

/-- The producer puts its only page; the consumer takes and stores it, comes back and
    finds the queue empty. -/
def untilEmpty : List (Action 1) :=
  List.replicate 14 (.producer none) ++ List.replicate 12 (.consumer ⟨0, Nat.one_pos⟩)

/-- The consumer goes to sleep before the producer finishes. -/
def sleepFirst : List (Action 1) :=
  untilEmpty ++ List.replicate 2 (.consumer ⟨0, Nat.one_pos⟩) ++ List.replicate 3 (.producer none)

/-- The producer finishes before the consumer goes to sleep. -/
def finishFirst : List (Action 1) :=
  untilEmpty ++ List.replicate 3 (.producer none) ++ List.replicate 2 (.consumer ⟨0, Nat.one_pos⟩)

theorem not_stuck_sleepFirst : ∃ s,
    (system oneByte 1).runIf LastBroadcastSeen (.start oneByte 1) sleepFirst = some s ∧
    s.producer.pc = .returned ∧ ¬ (system oneByte 1).Stuck s ∧
    ∀ c, (s.consumers c).pc ≠ .asleep := by
  obtain ⟨s, hs⟩ := Option.isSome_iff_exists.mp
    (by decide : ((system oneByte 1).runIf LastBroadcastSeen (.start oneByte 1) sleepFirst).isSome)
  have hpcs : ((system oneByte 1).runIf LastBroadcastSeen (.start oneByte 1) sleepFirst).map
      (fun s => (s.producer.pc, (s.consumers 0).pc)) = some (.returned, .woken) := by decide
  simp only [hs, Option.map_some, Option.some.injEq, Prod.mk.injEq] at hpcs
  obtain ⟨hret, hwoken⟩ := hpcs
  have h := not_stuck oneByte Nat.one_pos (System.Reaches.runIf .start hs)
  refine ⟨s, hs, hret, h.1 ⟨.consumer 0, ?_⟩, h.2 hret⟩
  intro hc
  rw [State.Returned, hwoken] at hc; cases hc

/-- **The lost wake-up.**  The consumer finds the queue empty and the flag clear, the
    producer sets the flag, broadcasts and returns, and the consumer goes to sleep. -/
theorem pzip3_hangs : ∃ s : State 1, (system oneByte 1).Reachable s ∧
    s.producer.pc = .returned ∧ (s.consumers 0).pc = .asleep ∧
    (∃ t, ¬ s.Returned t) ∧ (system oneByte 1).Stuck s := by
  obtain ⟨s, hs⟩ := Option.isSome_iff_exists.mp
    (by decide : ((system oneByte 1).run (.start oneByte 1) finishFirst).isSome)
  have hpcs : ((system oneByte 1).run (.start oneByte 1) finishFirst).map
      (fun s => (s.producer.pc, (s.consumers 0).pc)) = some (.returned, .asleep) := by decide
  simp only [hs, Option.map_some, Option.some.injEq, Prod.mk.injEq] at hpcs
  obtain ⟨hret, hsleep⟩ := hpcs
  refine ⟨s, System.Reaches.run .start hs, hret, hsleep, ⟨.consumer 0, ?_⟩, ?_⟩
  · intro h
    rw [State.Returned, hsleep] at h; cases h
  · intro a
    cases a with
    | producer wake => simp only [system, stepProducer, hret]
    | consumer c =>
      have hc : c = 0 := Subsingleton.elim c 0
      subst hc
      simp only [system, stepConsumer, hsleep]

/-- Once the producer has returned, a consumer that is asleep on `fill`, or bound to
    be, never returns: taking the last broadcast while a consumer stands before its
    wait always loses that consumer. -/
theorem lost_forever {cfg : Config} {s s' : State n} {c : Fin n} {as : List (Action n)}
    (hret : s.producer.pc = .returned) (hidle : (s.consumers c).pc.Idle = true)
    (hrun : (system cfg n).run s as = some s') :
    s'.producer.pc = .returned ∧ (s'.consumers c).pc.Idle = true := by
  induction as generalizing s with
  | nil =>
    cases hrun
    exact ⟨hret, hidle⟩
  | cons a as ih =>
    obtain ⟨t, hstep, hrest⟩ := Option.bind_eq_some_iff.mp hrun
    cases a with
    | producer wake => exact absurd hret (stepProducer_spec hstep).awake.2
    | consumer d =>
      have spec := stepConsumer_spec hstep
      refine ih ?_ ?_ hrest
      · rw [spec.signal, if_neg (by rw [hret]; rintro ⟨_, h⟩; cases h), hret]
      · by_cases hcd : c = d
        · subst hcd
          rw [spec.next]
          cases hpc : (s.consumers c).pc <;> rw [hpc] at hidle <;> first | rfl | cases hidle
        · rw [spec.others c hcd]
          exact hidle

end OstepProjects.Pzip3
