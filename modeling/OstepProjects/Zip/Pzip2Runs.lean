/-
  OstepProjects/Zip/Pzip2Runs.lean
  ================================
  **`pzip2` writes what `wzip` writes, or has compressed nothing at all.**

  The draws of indices are a ticket counter: the counters, the indices held by threads
  and the calls of `compress` made so far are a reachable state of `Lib.Tickets`
  (`tickets_reachable`), so no buffer is compressed twice and none that was drawn is
  forgotten.  The entries of `bufferlist` are the pieces of the files in order, each
  with its result once its index is in `compressLog` (`StoredInv`).

  What is left is the test for the end, which a thread may have begun while
  `handleFile` was still counting.  The thread that drew the last index cannot have:
  it tests with values read after its draw (`FreshInv`).  When all threads have
  returned, either everything has been handed out, or nobody ever drew an index.
-/
import OstepProjects.Lib.Tickets
import OstepProjects.Zip.Pzip2

namespace OstepProjects.Pzip2

open OstepProjects.Transition OstepProjects.Zip OstepProjects.RunLength

variable {n : Nat} {cfg : Config}

/-! ### What a statement does -/

def CthreadPc.Holds : CthreadPc → Bool
  | .test | .take | .advance | .unlock => true
  | _ => false

/-- The statement that follows: `draws` says that an index is left, `equal` what the
    comparison has found. -/
def CthreadPc.next (draws ready listFirst equal finish : Bool) : CthreadPc → CthreadPc
  | .lock => .test
  | .test => if draws then .take else .unlock
  | .take => .advance
  | .advance => .unlock
  | .unlock => if ready then .compress else .readFirst
  | .compress => .readFirst
  | .readFirst => if listFirst then .readIndex else .readListsize
  | .readIndex => afterTest equal
  | .readListsize => afterTest equal
  | .testFinish => if finish then .returned else .lock
  | .returned => .returned

/-- What the comparison finds, once its second side is read. -/
def Cthread.equal (x : Cthread) (index listsize : Int) : Bool :=
  if x.pc = .readIndex then index == x.seen else x.seen == listsize

/-- What a statement of `compressText` does. -/
structure CthreadSpec (s s' : State n) (t : Fin n) (listFirst : Bool) : Prop where
  handler : s'.handler = s.handler
  finish : s'.handleFile_finish = s.handleFile_finish
  listsize : s'.listsize = s.listsize
  totalFileSize : s'.totalFileSize = s.totalFileSize
  count : s'.count = s.count
  running : (s.cthreads t).pc ≠ .returned
  free : (s.cthreads t).pc = .lock → s.mutex = none
  pc : (s'.cthreads t).pc = (s.cthreads t).pc.next (decide (s.index_cthread < s.count))
    (s.cthreads t).cthread_ready listFirst
    ((s.cthreads t).equal s.index_cthread s.listsize.toInt) s.handleFile_finish
  do_index : (s'.cthreads t).do_index =
    if (s.cthreads t).pc = .take then s.index_cthread else (s.cthreads t).do_index
  ready : (s'.cthreads t).cthread_ready = if (s.cthreads t).pc = .advance then true
    else if (s.cthreads t).pc = .compress then false else (s.cthreads t).cthread_ready
  seen : (s'.cthreads t).seen = if (s.cthreads t).pc = .readFirst
    then (if listFirst then s.listsize.toInt else s.index_cthread) else (s.cthreads t).seen
  others : ∀ u, u ≠ t → s'.cthreads u = s.cthreads u
  mutex : s'.mutex = if (s.cthreads t).pc = .lock then some t
    else if (s.cthreads t).pc = .unlock then none else s.mutex
  index : s'.index_cthread =
    if (s.cthreads t).pc = .advance then s.index_cthread + 1 else s.index_cthread
  takeLog : s'.takeLog = if (s.cthreads t).pc = .advance then s.takeLog ++ [t] else s.takeLog
  compressLog : s'.compressLog = if (s.cthreads t).pc = .compress
    then s.compressLog ++ [(s.cthreads t).do_index] else s.compressLog
  bufferlist : s'.bufferlist = if (s.cthreads t).pc = .compress
    then compressBuffer s.bufferlist (s.cthreads t).do_index else s.bufferlist

theorem stepCthread_spec {s s' : State n} {t : Fin n} {listFirst : Bool}
    (h : stepCthread s t listFirst = some s') : CthreadSpec s s' t listFirst := by
  have hothers : ∀ (x : Cthread) (u : Fin n), u ≠ t →
      Function.update s.cthreads t x u = s.cthreads u := fun x u hu => Function.update_of_ne hu ..
  cases hpc : (s.cthreads t).pc <;> simp only [stepCthread, hpc] at h
  case lock =>
    rw [Option.ite_none_right_eq_some] at h
    obtain ⟨hfree, hs⟩ := h
    cases hs
    constructor <;> simp [State.gotoCthread, State.setCthread, hpc, hfree, CthreadPc.next]
    exact hothers _
  case returned => cases h
  case test | readFirst | testFinish =>
    split at h <;> cases h
    all_goals
      constructor <;> simp_all [State.gotoCthread, State.setCthread, CthreadPc.next]
  all_goals
    cases h
    constructor <;>
      simp_all [State.gotoCthread, State.setCthread, CthreadPc.next, Cthread.equal]

/-- Statements of `handleFile` before the list of buffers is allocated. -/
def HandlerPc.Counting : HandlerPc → Bool
  | .countTest | .roundUp | .addQuotient | .allocate => true
  | _ => false

/-- What a statement of `handleFile` does to the data of the other threads. -/
structure HandlerSpec (cfg : Config) (s s' : State n) : Prop where
  cthreads : s'.cthreads = s.cthreads
  mutex : s'.mutex = s.mutex
  index : s'.index_cthread = s.index_cthread
  takeLog : s'.takeLog = s.takeLog
  compressLog : s'.compressLog = s.compressLog
  count : s'.count = if s.handler.pc = .advance then s.count + 1 else s.count
  listsize : s.handler.pc.Counting = false → s'.listsize = s.listsize
  finish : s'.handleFile_finish = true ↔
    s.handler.pc = .finish ∨ s.handleFile_finish = true
  bufferlist : s'.bufferlist = if s.handler.pc = .fill
    then Function.update s.bufferlist s.count (some (s.handler.buff cfg)) else s.bufferlist
  counting : s'.handler.pc.Counting = true → s.handler.pc.Counting = true
  advance : s'.handler.pc = .advance ↔ s.handler.pc = .fill

theorem stepHandler_spec {s s' : State n} (h : stepHandler cfg s = some s') :
    HandlerSpec cfg s s' := by
  cases hpc : s.handler.pc <;> simp only [stepHandler, hpc] at h
  case returned => cases h
  case countTest | openFile | bufferTest =>
    split at h <;> cases h
    all_goals constructor <;> simp_all [State.goto, HandlerPc.Counting]
  all_goals
    cases h
    constructor <;> simp_all [State.goto, HandlerPc.Counting]

/-! ### The lock -/

structure SyncInv (s : State n) : Prop where
  mutex : ∀ t, s.mutex = some t ↔ (s.cthreads t).pc.Holds = true
  ready : ∀ t, (s.cthreads t).cthread_ready = true →
    (s.cthreads t).pc = .unlock ∨ (s.cthreads t).pc = .compress
  compresses : ∀ t, (s.cthreads t).pc = .compress → (s.cthreads t).cthread_ready = true
  below : ∀ t, (s.cthreads t).pc = .take ∨ (s.cthreads t).pc = .advance →
    s.index_cthread < s.count
  drawn : ∀ t, (s.cthreads t).pc = .advance → (s.cthreads t).do_index = s.index_cthread

theorem syncInv_start : SyncInv (State.start n) := by
  constructor <;> simp [State.start, CthreadPc.Holds]

/-- Two threads do not hold the lock at once. -/
theorem SyncInv.unique {s : State n} (h : SyncInv s) {t u : Fin n}
    (ht : (s.cthreads t).pc.Holds = true) (hu : (s.cthreads u).pc.Holds = true) : u = t := by
  have hmutex := (h.mutex u).mpr hu
  rw [(h.mutex t).mpr ht] at hmutex
  cases hmutex
  rfl

section Next

variable {pc : CthreadPc} {draws ready listFirst equal finish : Bool}

theorem CthreadPc.holds_next : (pc.next draws ready listFirst equal finish).Holds =
    (pc == .lock || (pc.Holds && pc != .unlock)) := by
  cases pc <;> simp only [CthreadPc.next, afterTest]
  case test => cases draws <;> rfl
  case unlock => cases ready <;> rfl
  case readFirst => cases listFirst <;> rfl
  case readIndex | readListsize => cases equal <;> rfl
  case testFinish => cases finish <;> rfl
  all_goals rfl

theorem CthreadPc.next_compress (h : pc.next draws ready listFirst equal finish = .compress) :
    pc = .unlock ∧ ready = true := by
  cases pc <;> simp only [CthreadPc.next, afterTest] at h <;> try split at h
  all_goals simp_all

theorem CthreadPc.next_take (h : pc.next draws ready listFirst equal finish = .take) :
    pc = .test ∧ draws = true := by
  cases pc <;> simp only [CthreadPc.next, afterTest] at h <;> try split at h
  all_goals simp_all

theorem CthreadPc.next_advance (h : pc.next draws ready listFirst equal finish = .advance) :
    pc = .take := by
  cases pc <;> simp only [CthreadPc.next, afterTest] at h <;> try split at h
  all_goals simp_all

end Next

theorem syncInv_cthread {s s' : State n} {t : Fin n} {listFirst : Bool} (h : SyncInv s)
    (hs : stepCthread s t listFirst = some s') : SyncInv s' := by
  have spec := stepCthread_spec hs
  -- another thread that holds the lock sees the index it has tested
  have hindex : ∀ u, u ≠ t → (s.cthreads u).pc.Holds = true →
      s'.index_cthread = s.index_cthread := by
    intro u hu hholds
    rw [spec.index, if_neg]
    intro hpc
    exact hu (h.unique (by rw [hpc]; rfl) hholds)
  constructor
  case mutex =>
    intro u
    rw [spec.mutex]
    by_cases hut : u = t
    · subst hut
      rw [spec.pc, CthreadPc.holds_next]
      have hold := h.mutex u
      by_cases hlock : (s.cthreads u).pc = .lock
      · simp [hlock]
      · by_cases hunlock : (s.cthreads u).pc = .unlock
        · simp [hunlock]
        · simp [hlock, hunlock, hold]
    · rw [spec.others u hut, ← h.mutex u]
      by_cases hlock : (s.cthreads t).pc = .lock
      · have hfree := spec.free hlock
        simp [hlock, hfree, Ne.symm hut]
      · by_cases hunlock : (s.cthreads t).pc = .unlock
        · have hheld := (h.mutex t).mpr (by rw [hunlock]; rfl)
          simp [hunlock, hheld, Ne.symm hut]
        · simp [hlock, hunlock]
  case ready =>
    intro u hu
    by_cases hut : u = t
    · subst hut
      rw [spec.ready] at hu
      rw [spec.pc]
      by_cases hadvance : (s.cthreads u).pc = .advance
      · exact Or.inl (by rw [hadvance]; rfl)
      · by_cases hcompress : (s.cthreads u).pc = .compress
        · simp [hcompress] at hu
        · rw [if_neg hadvance, if_neg hcompress] at hu
          have hunlock := (h.ready u hu).resolve_right hcompress
          exact Or.inr (by rw [hunlock, hu]; rfl)
    · rw [spec.others u hut] at hu ⊢
      exact h.ready u hu
  case compresses =>
    intro u hu
    by_cases hut : u = t
    · subst hut
      rw [spec.pc] at hu
      obtain ⟨hpc, hready⟩ := CthreadPc.next_compress hu
      simp [spec.ready, hpc, hready]
    · rw [spec.others u hut] at hu ⊢
      exact h.compresses u hu
  case below =>
    intro u hu
    rw [spec.count]
    by_cases hut : u = t
    · subst hut
      rw [spec.pc] at hu
      rcases hu with htake | hadvance
      · obtain ⟨hpc, hlt⟩ := CthreadPc.next_take htake
        rw [spec.index, if_neg (by rw [hpc]; decide)]
        exact of_decide_eq_true hlt
      · have hpc := CthreadPc.next_advance hadvance
        rw [spec.index, if_neg (by rw [hpc]; decide)]
        exact h.below u (Or.inl hpc)
    · rw [spec.others u hut] at hu
      have hholds : (s.cthreads u).pc.Holds = true := by
        rcases hu with hpc | hpc <;> rw [hpc] <;> rfl
      rw [hindex u hut hholds]
      exact h.below u hu
  case drawn =>
    intro u hu
    by_cases hut : u = t
    · subst hut
      rw [spec.pc] at hu
      have hpc := CthreadPc.next_advance hu
      rw [spec.do_index, if_pos hpc, spec.index, if_neg (by rw [hpc]; decide)]
    · rw [spec.others u hut] at hu ⊢
      rw [hindex u hut (by rw [hu]; rfl)]
      exact h.drawn u hu

theorem syncInv_handler {s s' : State n} (h : SyncInv s) (hs : stepHandler cfg s = some s') :
    SyncInv s' := by
  have spec := stepHandler_spec hs
  have hcount : s.count ≤ s'.count := by
    rw [spec.count]
    split
    · exact Nat.le_succ _
    · exact le_refl _
  constructor
  case mutex => exact fun t => by rw [spec.mutex, spec.cthreads]; exact h.mutex t
  case ready => exact fun t => by rw [spec.cthreads]; exact h.ready t
  case compresses => exact fun t => by rw [spec.cthreads]; exact h.compresses t
  case below =>
    intro t ht
    rw [spec.cthreads] at ht
    rw [spec.index]
    exact (h.below t ht).trans_le hcount
  case drawn => exact fun t => by rw [spec.cthreads, spec.index]; exact h.drawn t

theorem syncInv {s : State n} (hs : (system cfg n).Reachable s) : SyncInv s := by
  refine hs.invariant (P := SyncInv) syncInv_start ?_
  intro s a s' _ h _ hstep
  cases a with
  | handler => exact syncInv_handler h hstep
  | cthread t listFirst => exact syncInv_cthread h hstep

/-! ### Indices are tickets -/

/-- The index a thread has drawn and not yet compressed. -/
def Cthread.holding (x : Cthread) : Option Nat := if x.cthread_ready then some x.do_index else none

def State.tickets (s : State n) : Tickets.State (Fin n) where
  count := s.count
  next := s.index_cthread
  holding t := (s.cthreads t).holding
  done := s.compressLog

theorem tickets_holding {s s' : State n} {t : Fin n} {listFirst : Bool}
    (spec : CthreadSpec s s' t listFirst) :
    s'.tickets.holding = Function.update s.tickets.holding t (s'.cthreads t).holding := by
  funext u
  by_cases hut : u = t
  · subst hut
    rw [Function.update_self]
    rfl
  · rw [Function.update_of_ne hut]
    exact congrArg Cthread.holding (spec.others u hut)

/-- A statement of `compressText` draws an index, finishes one, or leaves the tickets
    alone. -/
theorem tickets_cthread {s s' : State n} {t : Fin n} {listFirst : Bool} (h : SyncInv s)
    (hs : stepCthread s t listFirst = some s') :
    s'.tickets = s.tickets ∨ ∃ b, Tickets.step s.tickets b = some s'.tickets := by
  have spec := stepCthread_spec hs
  have hfinal : s'.tickets = ⟨s'.count, s'.index_cthread,
      Function.update s.tickets.holding t (s'.cthreads t).holding, s'.compressLog⟩ := by
    rw [← tickets_holding spec]
    rfl
  rw [hfinal]
  by_cases hadvance : (s.cthreads t).pc = .advance
  · right
    have hready : (s.cthreads t).cthread_ready = false := by
      by_contra hne
      rcases h.ready t (by simpa using hne) with hpc | hpc <;> rw [hadvance] at hpc <;> cases hpc
    have hnew : (s'.cthreads t).holding = some s.index_cthread := by
      simp [Cthread.holding, spec.ready, spec.do_index, hadvance, h.drawn t hadvance]
    have hfree : s.tickets.holding t = none := by simp [State.tickets, Cthread.holding, hready]
    have hlt : s.tickets.next < s.tickets.count := h.below t (Or.inr hadvance)
    refine ⟨.draw t, ?_⟩
    rw [hnew, Tickets.step, if_pos ⟨hlt, hfree⟩]
    simp [State.tickets, spec.count, spec.index, spec.compressLog, hadvance]
  · by_cases hcompress : (s.cthreads t).pc = .compress
    · right
      have hready := h.compresses t hcompress
      refine ⟨.finish t, ?_⟩
      simp [Tickets.step, State.tickets, Cthread.holding, hready, spec.count, spec.index,
        spec.compressLog, spec.ready, hcompress]
    · left
      have hsame : (s'.cthreads t).holding = s.tickets.holding t := by
        have htake : (s.cthreads t).pc = .take → (s.cthreads t).cthread_ready = false := by
          intro hpc
          by_contra hne
          rcases h.ready t (by simpa using hne) with hpc' | hpc' <;> rw [hpc] at hpc' <;>
            cases hpc'
        simp only [Cthread.holding, State.tickets, spec.ready, spec.do_index, if_neg hadvance,
          if_neg hcompress]
        by_cases hpc : (s.cthreads t).pc = .take
        · simp [htake hpc]
        · rw [if_neg hpc]
      rw [hsame, Function.update_eq_self, spec.count, spec.index, spec.compressLog,
        if_neg hadvance, if_neg hcompress]
      rfl

theorem tickets_handler {s s' : State n} (hs : stepHandler cfg s = some s') :
    s'.tickets = s.tickets ∨ ∃ b, Tickets.step s.tickets b = some s'.tickets := by
  have spec := stepHandler_spec hs
  by_cases hadvance : s.handler.pc = .advance
  · right
    refine ⟨.publish, ?_⟩
    simp [Tickets.step, State.tickets, spec.count, spec.index, spec.cthreads, spec.compressLog,
      hadvance]
  · left
    simp [State.tickets, spec.count, spec.index, spec.cthreads, spec.compressLog, hadvance]

/-- **The threads hand out tickets.** -/
theorem tickets_reachable {s : State n} (hs : (system cfg n).Reachable s) :
    (Tickets.system (Fin n)).Reachable s.tickets := by
  refine hs.simulates State.tickets rfl ?_
  intro s a s' hr _ hstep
  cases a with
  | handler => exact tickets_handler hstep
  | cthread t listFirst => exact tickets_cthread (syncInv hr) hstep

theorem ticketInv {s : State n} (hs : (system cfg n).Reachable s) :
    Tickets.TicketInv s.tickets :=
  Tickets.ticketInv (tickets_reachable hs)

/-! ### What `handleFile` puts into the list -/

/-- The buffers of one file. -/
def Config.fileEntries (cfg : Config) (bytes : List UInt8) : List Entry :=
  (fileBuffers cfg.quotient bytes.length).map fun b => ⟨b.size, bytes.drop b.content.toNat, none⟩

/-- The buffers of the files before `i`. -/
def Config.entriesBefore (cfg : Config) (i : Nat) : List Entry :=
  (cfg.files.take i).flatMap cfg.fileEntries

def Config.entries (cfg : Config) : List Entry := cfg.files.flatMap cfg.fileEntries

/-- The sizes of the files before `i`. -/
def Config.sizesBefore (cfg : Config) (i : Nat) : List Nat := (cfg.files.take i).map List.length

theorem take_succ_of_lt {i : Nat} (hi : i < cfg.numOfFile) :
    cfg.files.take (i + 1) = cfg.files.take i ++ [cfg.file i] := by
  have hget : cfg.files[i]? = some (cfg.file i) := by
    rw [Config.file, List.getD_eq_getElem?_getD, List.getElem?_eq_getElem hi]
    rfl
  rw [List.take_add_one, hget]
  rfl

theorem entriesBefore_succ {i : Nat} (hi : i < cfg.numOfFile) :
    cfg.entriesBefore (i + 1) = cfg.entriesBefore i ++ cfg.fileEntries (cfg.file i) := by
  rw [Config.entriesBefore, take_succ_of_lt hi, List.flatMap_append, List.flatMap_singleton]
  rfl

theorem entriesBefore_numOfFile : cfg.entriesBefore cfg.numOfFile = cfg.entries := by
  rw [Config.entriesBefore, Config.numOfFile, List.take_length, Config.entries]

theorem entriesBefore_prefix (cfg : Config) (i : Nat) : cfg.entriesBefore i <+: cfg.entries := by
  rw [Config.entries, ← List.take_append_drop i cfg.files, List.flatMap_append]
  exact List.prefix_append _ _

theorem sizesBefore_succ {i : Nat} (hi : i < cfg.numOfFile) :
    cfg.sizesBefore (i + 1) = cfg.sizesBefore i ++ [cfg.st_size i] := by
  rw [Config.sizesBefore, take_succ_of_lt hi, List.map_append]
  rfl

theorem sizesBefore_numOfFile : cfg.sizesBefore cfg.numOfFile = cfg.files.map List.length := by
  rw [Config.sizesBefore, Config.numOfFile, List.take_length]

theorem length_fileEntries (bytes : List UInt8) : (cfg.fileEntries bytes).length =
    (numOfBuffer cfg.quotient (toInt bytes.length)).toNat := by
  rw [Config.fileEntries, List.length_map, length_fileBuffers]

/-- The file that `handleFile` divides, and how far it has come. -/
structure InFile (cfg : Config) (h : Handler) (count : Nat) : Prop where
  lt : h.i < cfg.numOfFile
  size : h.size = toInt (cfg.st_size h.i)
  numOfBuffer : h.numOfBuffer = Zip.numOfBuffer cfg.quotient h.size
  le : h.j ≤ h.numOfBuffer.toNat
  count : count = (cfg.entriesBefore h.i).length + h.j

/-- The next buffer is the next piece of the file. -/
theorem InFile.buff {h : Handler} {count : Nat} (hin : InFile cfg h count)
    (hj : (h.j : Int) < h.numOfBuffer) : cfg.entries[count]? = some (h.buff cfg) := by
  have hlt : h.j < (Zip.numOfBuffer cfg.quotient (toInt (cfg.st_size h.i))).toNat := by
    rw [← hin.size, ← hin.numOfBuffer]
    omega
  have hpiece : (cfg.fileEntries (cfg.file h.i))[h.j]? = some (h.buff cfg) := by
    rw [Config.fileEntries, ← Config.st_size, fileBuffers, List.getElem?_map, List.getElem?_map,
      List.getElem?_range hlt]
    simp only [Handler.buff, Option.map_some, hin.size, hin.numOfBuffer]
  have hbefore : (cfg.entriesBefore (h.i + 1))[count]? = some (h.buff cfg) := by
    rw [entriesBefore_succ hin.lt, List.getElem?_append_right (by rw [hin.count]; omega), hin.count,
      Nat.add_sub_cancel_left, hpiece]
  obtain ⟨rest, hrest⟩ := entriesBefore_prefix cfg (h.i + 1)
  rw [← hrest, List.getElem?_append_left (List.getElem?_eq_some_iff.mp hbefore).1, hbefore]

/-- The files before `i` have been counted. -/
structure Counted (cfg : Config) (i : Nat) (listsize totalFileSize : Int32) : Prop where
  listsize : listsize = Zip.listsize cfg.quotient (cfg.sizesBefore i)
  total : totalFileSize = Int32.ofNat (cfg.sizesBefore i).sum

theorem counted_zero : Counted cfg 0 0 0 := ⟨rfl, rfl⟩

/-- The two additions of the first loop count the buffers of one file. -/
theorem Counted.succ {i : Nat} {listsize totalFileSize : Int32}
    (h : Counted cfg i listsize totalFileSize) (hi : i < cfg.numOfFile) :
    Counted cfg (i + 1)
      ((if cfg.quotient.div (toInt (cfg.st_size i)) >
          ((toInt (cfg.st_size i)).tdiv BUFFER_SIZE : Int) then listsize + 1 else listsize) +
        Int32.ofInt ((toInt (cfg.st_size i)).tdiv BUFFER_SIZE))
      (totalFileSize + Int32.ofInt (toInt (cfg.st_size i))) where
  listsize := by
    rw [sizesBefore_succ hi, Zip.listsize, List.foldl_append, ← Zip.listsize, ← h.listsize]
    rfl
  total := by
    have hsize : Int32.ofInt (toInt (cfg.st_size i)) = Int32.ofNat (cfg.st_size i) := by
      rw [toInt, Int32.ofInt_toInt]
      rfl
    rw [sizesBefore_succ hi, List.sum_append, List.sum_singleton, Int32.ofNat_add, ← h.total, hsize]

def HandlerInv (cfg : Config) (h : Handler) (listsize totalFileSize : Int32) (count : Nat) : Prop :=
  match h.pc with
  | .countTest => Counted cfg h.i listsize totalFileSize ∧ h.i ≤ cfg.numOfFile ∧ count = 0
  | .roundUp => Counted cfg h.i listsize totalFileSize ∧ h.i < cfg.numOfFile ∧ count = 0
  | .addQuotient =>
    Counted cfg (h.i + 1) (listsize + Int32.ofInt (h.size.tdiv BUFFER_SIZE)) totalFileSize ∧
      h.i < cfg.numOfFile ∧ count = 0
  | .allocate => Counted cfg cfg.numOfFile listsize totalFileSize ∧ count = 0
  | .openFile => Counted cfg cfg.numOfFile listsize totalFileSize ∧ h.i ≤ cfg.numOfFile ∧
      count = (cfg.entriesBefore h.i).length
  | .bufferTest => Counted cfg cfg.numOfFile listsize totalFileSize ∧ InFile cfg h count
  | .fill | .advance => Counted cfg cfg.numOfFile listsize totalFileSize ∧ InFile cfg h count ∧
      (h.j : Int) < h.numOfBuffer
  | .finish | .returned => Counted cfg cfg.numOfFile listsize totalFileSize ∧
      count = cfg.entries.length

/-- The invariant on a state. -/
def Filled (cfg : Config) (s : State n) : Prop :=
  HandlerInv cfg s.handler s.listsize s.totalFileSize s.count

theorem InFile.withPc {h : Handler} {count : Nat} (hin : InFile cfg h count) (pc : HandlerPc) :
    InFile cfg { h with pc := pc } count :=
  ⟨hin.lt, hin.size, hin.numOfBuffer, hin.le, hin.count⟩

theorem filled_handler {s s' : State n} (h : Filled cfg s) (hs : stepHandler cfg s = some s') :
    Filled cfg s' := by
  simp only [Filled, HandlerInv] at h
  cases hpc : s.handler.pc <;> simp only [stepHandler, hpc] at hs h
  case countTest =>
    obtain ⟨hcounted, hle, hcount⟩ := h
    split at hs <;> cases hs
    · rename_i hi
      exact ⟨hcounted, hi, hcount⟩
    · rename_i hi
      have heq : s.handler.i = cfg.numOfFile := Nat.le_antisymm hle (Nat.le_of_not_lt hi)
      rw [heq] at hcounted
      exact ⟨hcounted, hcount⟩
  case roundUp =>
    cases hs
    exact ⟨h.1.succ h.2.1, h.2.1, h.2.2⟩
  case addQuotient =>
    cases hs
    exact ⟨h.1, h.2.1, h.2.2⟩
  case allocate =>
    cases hs
    exact ⟨h.1, Nat.zero_le _, h.2⟩
  case openFile =>
    obtain ⟨hcounted, hle, hcount⟩ := h
    split at hs <;> cases hs
    · rename_i hi
      exact ⟨hcounted, hi, rfl, rfl, Nat.zero_le _, hcount⟩
    · rename_i hi
      have heq : s.handler.i = cfg.numOfFile := Nat.le_antisymm hle (Nat.le_of_not_lt hi)
      rw [heq, entriesBefore_numOfFile] at hcount
      exact ⟨hcounted, hcount⟩
  case bufferTest =>
    obtain ⟨hcounted, hin⟩ := h
    split at hs <;> cases hs
    · rename_i hj
      exact ⟨hcounted, hin.withPc _, hj⟩
    · rename_i hj
      refine ⟨hcounted, hin.lt, ?_⟩
      have hle := hin.le
      have hall : s.handler.j = (cfg.fileEntries (cfg.file s.handler.i)).length := by
        rw [length_fileEntries, ← Config.st_size, ← hin.size, ← hin.numOfBuffer]
        omega
      rw [hin.count, entriesBefore_succ hin.lt, List.length_append, ← hall]
  case fill =>
    cases hs
    exact ⟨h.1, h.2.1.withPc _, h.2.2⟩
  case advance =>
    obtain ⟨hcounted, hin, hj⟩ := h
    cases hs
    refine ⟨hcounted, hin.lt, hin.size, hin.numOfBuffer, ?_, ?_⟩
    · change s.handler.j + 1 ≤ s.handler.numOfBuffer.toNat
      omega
    · change s.count + 1 = (cfg.entriesBefore s.handler.i).length + (s.handler.j + 1)
      rw [hin.count, Nat.add_assoc]
  case finish =>
    cases hs
    exact h
  case returned => cases hs

theorem filled_start : Filled cfg (State.start n) := ⟨counted_zero, Nat.zero_le _, rfl⟩

theorem filled {s : State n} (hs : (system cfg n).Reachable s) : Filled cfg s := by
  refine hs.invariant (P := Filled cfg) filled_start ?_
  intro s a s' _ h _ hstep
  cases a with
  | handler => exact filled_handler h hstep
  | cthread t listFirst =>
    have spec := stepCthread_spec hstep
    rw [Filled, spec.handler, spec.listsize, spec.totalFileSize, spec.count]
    exact h

theorem Filled.counting {s : State n} (h : Filled cfg s) (hpc : s.handler.pc.Counting = true) :
    s.count = 0 := by
  simp only [Filled, HandlerInv] at h
  cases hpc' : s.handler.pc <;> rw [hpc'] at hpc <;> simp only [hpc'] at h
  case countTest | roundUp | addQuotient => exact h.2.2
  case allocate => exact h.2
  all_goals cases hpc

theorem Filled.counted {s : State n} (h : Filled cfg s) (hpc : s.handler.pc.Counting = false) :
    Counted cfg cfg.numOfFile s.listsize s.totalFileSize := by
  simp only [Filled, HandlerInv] at h
  cases hpc' : s.handler.pc <;> rw [hpc'] at hpc <;> simp only [hpc'] at h
  case countTest | roundUp | addQuotient | allocate => cases hpc
  all_goals exact h.1

/-! ### The results in the list -/

/-- How many entries of `bufferlist` have been filled. -/
def State.stored (s : State n) : Nat :=
  if s.handler.pc = .advance then s.count + 1 else s.count

/-- The entry at `k`, with its result if it has been compressed. -/
def Config.entryAt (cfg : Config) (compressLog : List Nat) (k : Nat) : Option Entry :=
  cfg.entries[k]?.map fun b =>
    { b with result := if k ∈ compressLog then some (compress b.text) else none }

def StoredInv (cfg : Config) (s : State n) : Prop :=
  ∀ k < s.stored, s.bufferlist k = cfg.entryAt s.compressLog k

theorem storedInv_handler {s s' : State n} (hin : Filled cfg s)
    (htickets : Tickets.TicketInv s.tickets) (h : StoredInv cfg s)
    (hs : stepHandler cfg s = some s') : StoredInv cfg s' := by
  have spec := stepHandler_spec hs
  intro k hk
  rw [spec.bufferlist, spec.compressLog]
  by_cases hfill : s.handler.pc = .fill
  · rw [if_pos hfill]
    rw [State.stored, if_pos (spec.advance.mpr hfill), spec.count, if_neg (by rw [hfill]; decide)]
      at hk
    by_cases hlast : k = s.count
    · have hbuff : cfg.entries[s.count]? = some (s.handler.buff cfg) := by
        simp only [Filled, HandlerInv, hfill] at hin
        exact hin.2.1.buff hin.2.2
      have hfresh : s.count ∉ s.compressLog := by
        intro hmem
        have hlt := htickets.done_lt s.count hmem
        have hle := htickets.next_le
        exact absurd (hlt.trans_le hle) (lt_irrefl _)
      rw [hlast, Function.update_self, Config.entryAt, hbuff, Option.map_some, if_neg hfresh]
      rfl
    · rw [Function.update_of_ne hlast]
      exact h k (by rw [State.stored, hfill]; simp; omega)
  · rw [if_neg hfill]
    apply h k
    rw [State.stored, if_neg fun hpc => hfill (spec.advance.mp hpc), spec.count] at hk
    exact hk

theorem storedInv_cthread {s s' : State n} {t : Fin n} {listFirst : Bool} (h : StoredInv cfg s)
    (hs : stepCthread s t listFirst = some s') : StoredInv cfg s' := by
  have spec := stepCthread_spec hs
  intro k hk
  rw [State.stored, spec.handler, spec.count] at hk
  have hold := h k hk
  rw [spec.bufferlist, spec.compressLog]
  by_cases hcompress : (s.cthreads t).pc = .compress
  · rw [if_pos hcompress, if_pos hcompress, compressBuffer]
    by_cases hself : k = (s.cthreads t).do_index
    · subst hself
      rw [Function.update_self, hold, Config.entryAt, Config.entryAt, Option.map_map]
      simp [Function.comp_def, Entry.text]
    · rw [Function.update_of_ne hself, hold, Config.entryAt, Config.entryAt]
      simp [hself]
  · rw [if_neg hcompress, if_neg hcompress]
    exact hold

theorem storedInv_start : StoredInv cfg (State.start n) :=
  fun k hk => absurd hk (Nat.not_lt_zero k)

theorem storedInv {s : State n} (hs : (system cfg n).Reachable s) : StoredInv cfg s := by
  refine hs.invariant (P := StoredInv cfg) storedInv_start ?_
  intro s a s' hr h _ hstep
  cases a with
  | handler => exact storedInv_handler (filled hr) (ticketInv hr) h hstep
  | cthread t listFirst => exact storedInv_cthread h hstep

/-! ### The thread that drew the last index -/

/-- A test that has begun after the last draw. -/
def Cthread.Fresh (x : Cthread) (index listsize : Int) : Prop :=
  match x.pc with
  | .readIndex => x.seen = listsize
  | .readListsize => x.seen = index
  | .testFinish | .returned => index = listsize
  | _ => True

structure FreshInv (s : State n) : Prop where
  length : s.takeLog.length = s.index_cthread
  fresh : ∀ t, s.takeLog.getLast? = some t →
    (s.cthreads t).Fresh s.index_cthread s.listsize.toInt

/-- A thread that begins its test after the last draw, or goes on with it, has fresh
    values. -/
theorem Cthread.Fresh.next {x x' : Cthread} {index listsize : Int} {draws finish listFirst : Bool}
    (h : x.Fresh index listsize) (hrunning : x.pc ≠ .returned)
    (hpc : x'.pc = x.pc.next draws x.cthread_ready listFirst (x.equal index listsize) finish)
    (hseen : x'.seen = if x.pc = .readFirst then (if listFirst then listsize else index)
      else x.seen) : x'.Fresh index listsize := by
  unfold Cthread.Fresh at h ⊢
  cases hx : x.pc <;> simp only [hx, CthreadPc.next] at h hpc hseen hrunning
  case readFirst =>
    cases listFirst <;> simp_all
  case readIndex | readListsize =>
    cases heq : x.equal index listsize <;> simp_all [afterTest, Cthread.equal]
  case test =>
    cases draws <;> simp_all
  case unlock =>
    cases hready : x.cthread_ready <;> simp_all
  case testFinish =>
    cases finish <;> simp_all
  case returned => exact absurd rfl hrunning
  all_goals simp_all

theorem freshInv_cthread {s s' : State n} {t : Fin n} {listFirst : Bool} (h : FreshInv s)
    (hs : stepCthread s t listFirst = some s') : FreshInv s' := by
  have spec := stepCthread_spec hs
  by_cases hadvance : (s.cthreads t).pc = .advance
  · have htake := spec.takeLog
    have hindex := spec.index
    rw [if_pos hadvance] at htake hindex
    constructor
    · rw [htake, hindex, List.length_append, h.length, List.length_singleton]
    · intro u hu
      rw [htake, List.getLast?_concat, Option.some.injEq] at hu
      subst hu
      have hpc := spec.pc
      rw [hadvance] at hpc
      simp [Cthread.Fresh, hpc, CthreadPc.next]
  · have htake := spec.takeLog
    have hindex := spec.index
    rw [if_neg hadvance] at htake hindex
    constructor
    · rw [htake, hindex, h.length]
    · intro u hu
      rw [htake] at hu
      have hold := h.fresh u hu
      rw [hindex, spec.listsize]
      by_cases hut : u = t
      · subst hut
        exact hold.next spec.running spec.pc spec.seen
      · rw [spec.others u hut]
        exact hold

theorem freshInv_handler {s s' : State n} (hin : Filled cfg s)
    (htickets : Tickets.TicketInv s.tickets) (h : FreshInv s)
    (hs : stepHandler cfg s = some s') : FreshInv s' := by
  have spec := stepHandler_spec hs
  constructor
  · rw [spec.takeLog, spec.index, h.length]
  · intro t ht
    rw [spec.takeLog] at ht
    have hdrawn : s.takeLog.length ≠ 0 := by
      intro hzero
      rw [List.length_eq_zero_iff.mp hzero] at ht
      cases ht
    -- somebody has drawn, so there is a buffer, and the counting is over
    have hcounting : s.handler.pc.Counting = false := by
      by_contra hne
      have hcount := hin.counting (by simpa using hne)
      have hle : s.index_cthread ≤ s.count := htickets.next_le
      rw [← h.length] at hle
      omega
    rw [spec.cthreads, spec.index, spec.listsize hcounting]
    exact h.fresh t ht

theorem freshInv {s : State n} (hs : (system cfg n).Reachable s) : FreshInv s := by
  refine hs.invariant (P := FreshInv) ⟨rfl, fun t ht => by cases ht⟩ ?_
  intro s a s' hr h _ hstep
  cases a with
  | handler => exact freshInv_handler (filled hr) (ticketInv hr) h hstep
  | cthread t listFirst => exact freshInv_cthread h hstep

/-! ### All or nothing -/

theorem sum_ceil_le (sizes : List Nat) :
    (sizes.map fun k => (k + 10485759) / 10485760).sum ≤ sizes.sum := by
  induction sizes with
  | nil => exact le_refl 0
  | cons k sizes ih =>
    have hle : (k + 10485759) / 10485760 ≤ k := by omega
    rw [List.map_cons, List.sum_cons, List.sum_cons]
    exact Nat.add_le_add hle ih

/-- Every file fits in an `int`, and so does the number of buffers. -/
theorem length_entries (hlen : cfg.files.flatten.length < 2 ^ 31) {listsize totalFileSize : Int32}
    (h : Counted cfg cfg.numOfFile listsize totalFileSize) :
    listsize.toInt = cfg.entries.length ∧ totalFileSize.toInt = cfg.files.flatten.length := by
  have hsum : (cfg.files.map List.length).sum = cfg.files.flatten.length :=
    List.length_flatten.symm
  have hfits : ∀ k ∈ cfg.files.map List.length, k < 2 ^ 31 := by
    intro k hk
    have := List.single_le_sum (by simp) k hk
    omega
  obtain ⟨hlength, hnumber⟩ := length_handleFile cfg.quotient hfits
  have hentries : cfg.entries.length =
      (handleFile cfg.quotient (cfg.files.map List.length)).length := by
    rw [Config.entries, handleFile, List.flatMap_map, List.length_flatMap, List.length_flatMap]
    congr 1
    exact List.map_congr_left fun bytes _ => List.length_map ..
  have hsmall : cfg.entries.length ≤ cfg.files.flatten.length := by
    rw [hentries, hlength, ← hsum]
    exact sum_ceil_le _
  constructor
  · rw [h.listsize, sizesBefore_numOfFile, listsize_eq, hnumber, ← hentries]
    exact Int32.toInt_ofNat_of_lt (by omega)
  · rw [h.total, sizesBefore_numOfFile, hsum]
    exact Int32.toInt_ofNat_of_lt hlen

theorem flatten_pieces (bytes : List UInt8) (size k : Nat) :
    ((List.range k).map fun j => (bytes.drop (j * size)).take size).flatten =
      bytes.take (k * size) := by
  induction k with
  | zero => simp
  | succ k ih =>
    rw [List.range_succ, List.map_append, List.flatten_append, ih, List.map_singleton,
      List.flatten_singleton, Nat.succ_mul, List.take_add]

theorem bufferSize_toNat : BUFFER_SIZE.toNat = 10485760 := by
  rw [BUFFER_SIZE]
  omega

/-- The texts of the buffers of a file are its consecutive pieces. -/
theorem texts_fileEntries (cfg : Config) {bytes : List UInt8} (hlen : bytes.length < 2 ^ 31)
    {k : Nat} (hk : (bytes.length + 10485759) / 10485760 = k + 1) :
    (cfg.fileEntries bytes).map Entry.text =
      ((List.range k).map fun j => (bytes.drop (j * BUFFER_SIZE.toNat)).take BUFFER_SIZE.toNat) ++
        [bytes.drop (k * BUFFER_SIZE.toNat)] := by
  have hnumber := numOfBuffer_of_lt cfg.quotient hlen
  rw [hk] at hnumber
  have hoffset : ∀ j : Nat, ((j : Int) * BUFFER_SIZE).toNat = j * BUFFER_SIZE.toNat := by
    intro j
    rw [bufferSize_toNat, BUFFER_SIZE]
    omega
  have hrest : (toInt bytes.length - k * BUFFER_SIZE).toNat =
      bytes.length - k * BUFFER_SIZE.toNat := by
    rw [toInt_of_lt hlen, bufferSize_toNat, BUFFER_SIZE]
    omega
  have hwhole : (bytes.drop (k * BUFFER_SIZE.toNat)).take (bytes.length - k * BUFFER_SIZE.toNat) =
      bytes.drop (k * BUFFER_SIZE.toNat) := List.take_of_length_le (by rw [List.length_drop])
  rw [Config.fileEntries, fileBuffers_eq cfg.quotient hnumber, List.map_append, List.map_append,
    List.map_map, List.map_map, List.map_singleton, List.map_singleton]
  refine congrArg₂ (· ++ ·) ?_ ?_
  · apply List.map_congr_left
    intro j _
    rw [Function.comp_apply, Function.comp_apply, Entry.text, hoffset]
  · rw [Entry.text, hoffset, hrest, hwhole]

/-- They make up the file, and none of them is empty. -/
theorem flatten_fileEntries {bytes : List UInt8} (hlen : bytes.length < 2 ^ 31) :
    ((cfg.fileEntries bytes).map Entry.text).flatten = bytes ∧
      ∀ b ∈ cfg.fileEntries bytes, b.text ≠ [] := by
  rcases Nat.eq_zero_or_pos bytes.length with hzero | hpos
  · have hnumber := numOfBuffer_of_lt cfg.quotient hlen
    rw [hzero] at hnumber
    have hnone : cfg.fileEntries bytes = [] := by
      rw [Config.fileEntries, hzero, fileBuffers_of_nonpos cfg.quotient hnumber.le, List.map_nil]
    rw [hnone, List.length_eq_zero_iff.mp hzero]
    simp
  · obtain ⟨k, hk⟩ : ∃ k, (bytes.length + 10485759) / 10485760 = k + 1 :=
      ⟨(bytes.length + 10485759) / 10485760 - 1, by omega⟩
    have htexts := texts_fileEntries cfg hlen hk
    constructor
    · rw [htexts, List.flatten_append, flatten_pieces, List.flatten_singleton,
        List.take_append_drop]
    · intro b hb
      have htext : b.text ∈ (cfg.fileEntries bytes).map Entry.text := List.mem_map_of_mem hb
      rw [htexts, List.mem_append, List.mem_map, List.mem_singleton] at htext
      rw [← List.length_pos_iff]
      rcases htext with ⟨j, hj, heq⟩ | heq
      · have hlt := List.mem_range.mp hj
        rw [← heq, List.length_take, List.length_drop, bufferSize_toNat]
        omega
      · rw [heq, List.length_drop, bufferSize_toNat]
        omega

/-- The texts of all buffers are the files laid end to end. -/
theorem flatten_entries (cfg : Config) (hlen : cfg.files.flatten.length < 2 ^ 31) :
    (cfg.entries.map Entry.text).flatten = cfg.files.flatten ∧
      ∀ b ∈ cfg.entries, b.text ≠ [] := by
  have hfile : ∀ bytes ∈ cfg.files, bytes.length < 2 ^ 31 := fun bytes hb =>
    (List.sublist_flatten_of_mem hb).length_le.trans_lt hlen
  constructor
  · rw [Config.entries, List.map_flatMap, List.flatMap_def, List.flatten_flatten, List.map_map]
    congr 1
    refine (List.map_congr_left fun bytes hb => ?_).trans (List.map_id _)
    exact (flatten_fileEntries (hfile bytes hb)).1
  · intro b hb
    obtain ⟨bytes, hmem, hb⟩ := List.mem_flatMap.mp hb
    exact (flatten_fileEntries (hfile bytes hmem)).2 b hb

/-- With every entry compressed the results are those of the texts in order. -/
theorem results_eq {s : State n} (hstored : StoredInv cfg s) (hcount : s.count = cfg.entries.length)
    (hlist : s.listsize.toInt = cfg.entries.length)
    (hall : ∀ k < cfg.entries.length, k ∈ s.compressLog) :
    s.results = (cfg.entries.map Entry.text).map compress := by
  apply List.ext_getElem?
  intro k
  rw [State.results, hlist, Int.toNat_natCast, List.getElem?_map, List.getElem?_map,
    List.getElem?_map]
  rcases lt_or_ge k cfg.entries.length with hk | hk
  · have hlt : k < s.stored := by
      rw [State.stored]
      split <;> omega
    rw [List.getElem?_range hk, Option.map_some, hstored k hlt, Config.entryAt,
      List.getElem?_eq_getElem hk]
    simp [hall k hk]
  · rw [List.getElem?_eq_none (by simpa using hk), List.getElem?_eq_none hk]
    rfl

section Returned

variable {cfg : Config} {s : State n} (hs : (system cfg n).Reachable s) (hret : s.AllReturned)

include hs hret

theorem State.AllReturned.count_eq : s.count = cfg.entries.length := by
  have hfilled := filled hs
  simp only [Filled, HandlerInv, hret.handler] at hfilled
  exact hfilled.2

/-- What was drawn has been compressed. -/
theorem State.AllReturned.compressed : s.compressLog.Perm (List.range s.index_cthread) := by
  refine Tickets.done_perm (ticketInv hs) fun t => ?_
  have hnot : (s.cthreads t).cthread_ready = false := by
    by_contra hne
    rcases (syncInv hs).ready t (by simpa using hne) with hpc | hpc <;>
      rw [hret.cthreads t] at hpc <;> cases hpc
  simp [State.tickets, Cthread.holding, hnot]

/-- Once an index has been drawn, all buffers are compressed, and `output` writes the runs. -/
theorem State.AllReturned.written_of_drawn (hlen : cfg.files.flatten.length < 2 ^ 31)
    (hdrawn : s.index_cthread ≠ 0) :
    s.compressLog.Perm (List.range s.count) ∧
      s.written = (runs cfg.files.flatten).map record := by
  have hstored := storedInv hs
  have hfresh := freshInv hs
  have hcount := hret.count_eq hs
  have hperm := hret.compressed hs
  have hcounted := (filled hs).counted (by rw [hret.handler]; rfl)
  obtain ⟨hlist, _⟩ := length_entries hlen hcounted
  obtain ⟨hflat, hnonempty⟩ := flatten_entries cfg hlen
  rcases List.eq_nil_or_concat s.takeLog with hnil | ⟨before, t, hlast⟩
  · exact absurd (by rw [← hfresh.length, hnil, List.length_nil]) hdrawn
  · rw [List.concat_eq_append] at hlast
    have hindex : (s.index_cthread : Int) = s.listsize.toInt := by
      have h := hfresh.fresh t (by rw [hlast, List.getLast?_concat])
      simpa [Cthread.Fresh, hret.cthreads t] using h
    have heq : s.index_cthread = s.count := by
      rw [hlist] at hindex
      omega
    rw [heq] at hperm
    have hresults := results_eq hstored hcount hlist fun k hk =>
      hperm.mem_iff.mpr (List.mem_range.mpr (hcount ▸ hk))
    have hshort : ∀ xs ∈ cfg.entries.map Entry.text, ∀ r ∈ runs xs, r.1 < 2 ^ 31 := by
      intro xs hxs r hr
      have hrun := le_length_of_mem_runs hr
      have hpiece := (List.sublist_flatten_of_mem hxs).length_le
      rw [hflat] at hpiece
      omega
    refine ⟨hperm, ?_⟩
    rw [State.written, hresults, output_compress ?_ hshort, hflat]
    intro xs hxs
    obtain ⟨b, hb, rfl⟩ := List.mem_map.mp hxs
    exact hnonempty b hb

end Returned

/-- **All or nothing.**  When all threads have returned, in whatever order they ran,
    either every buffer has been compressed once and `output` writes the records of
    `wzip`, within the memory it allocates for them; or no index was ever drawn, and no
    buffer has a result. -/
theorem all_or_nothing (cfg : Config) (hlen : cfg.files.flatten.length < 2 ^ 31)
    (hne : cfg.files.flatten ≠ []) {s : State n} (hs : (system cfg n).Reachable s)
    (hret : s.AllReturned) :
    (s.compressLog.Perm (List.range s.count) ∧ s.written = records cfg.files ∧
      (s.written.length : Int) ≤ s.totalFileSize.toInt) ∨
    (s.index_cthread = 0 ∧ 0 < s.count ∧
      ∀ k < s.count, ∃ b, s.bufferlist k = some b ∧ b.result = none) := by
  have hcount := hret.count_eq hs
  have hcounted := (filled hs).counted (by rw [hret.handler]; rfl)
  obtain ⟨_, htotal⟩ := length_entries hlen hcounted
  obtain ⟨hflat, _⟩ := flatten_entries cfg hlen
  by_cases hzero : s.index_cthread = 0
  · right
    have hperm := hret.compressed hs
    rw [hzero, List.range_zero, List.perm_nil] at hperm
    refine ⟨hzero, ?_, ?_⟩
    · rw [hcount, List.length_pos_iff]
      intro hnone
      rw [hnone] at hflat
      exact hne hflat.symm
    · intro k hk
      have hentry := storedInv hs k (by rw [State.stored, hret.handler]; exact hk)
      rw [Config.entryAt, List.getElem?_eq_getElem (hcount ▸ hk), hperm] at hentry
      exact ⟨_, hentry, rfl⟩
  · left
    obtain ⟨hperm, hwritten⟩ := hret.written_of_drawn hs hlen hzero
    refine ⟨hperm, ?_, ?_⟩
    · rw [hwritten, records_eq_runs hne]
      intro r hr
      have hrun := le_length_of_mem_runs hr
      omega
    · rw [hwritten, htotal, List.length_map]
      exact_mod_cast length_runs_le cfg.files.flatten

/-- One file of one byte. -/
def oneByte : Config where
  quotient := .exact
  files := [[97]]

/-- `handleFile` runs to its end, then one thread after the other. -/
def inTurn : List (Action NUM_THREADS) :=
  List.replicate 12 .handler ++ (List.finRange NUM_THREADS).flatMap fun t =>
    List.replicate (if t.val = 0 then 9 else 6) (.cthread t false)

theorem inTurn_ends : ∃ s,
    (system oneByte NUM_THREADS).run (.start NUM_THREADS) inTurn = some s ∧ s.AllReturned ∧
    s.index_cthread = 1 := by
  obtain ⟨s, hs⟩ := Option.isSome_iff_exists.mp
    (by decide +kernel : ((system oneByte NUM_THREADS).run (.start NUM_THREADS) inTurn).isSome)
  have hfinal : ((system oneByte NUM_THREADS).run (.start NUM_THREADS) inTurn).map
      (fun s => (s.handler.pc, (List.finRange NUM_THREADS).map fun t => (s.cthreads t).pc,
        s.index_cthread)) = some (.returned, List.replicate 8 .returned, 1) := by decide +kernel
  simp only [hs, Option.map_some, Option.some.injEq, Prod.mk.injEq] at hfinal
  obtain ⟨hhandler, hthreads, hindex⟩ := hfinal
  have hall : ∀ t, (s.cthreads t).pc = .returned := fun t =>
    List.eq_of_mem_replicate (hthreads ▸ List.mem_map_of_mem (List.mem_finRange t))
  exact ⟨s, hs, ⟨hhandler, hall⟩, hindex⟩

theorem all_or_nothing_inTurn : ∃ s,
    (system oneByte NUM_THREADS).run (.start NUM_THREADS) inTurn = some s ∧
    s.compressLog.Perm (List.range s.count) ∧ s.written = records [[97]] := by
  obtain ⟨s, hs, hret, hindex⟩ := inTurn_ends
  refine ⟨s, hs, ?_⟩
  rcases all_or_nothing oneByte (by decide) (by decide) (System.Reaches.run .start hs) hret
    with h | h
  · exact ⟨h.1, h.2.1⟩
  · rw [hindex] at h
    exact absurd h.1 (by decide)

end OstepProjects.Pzip2
