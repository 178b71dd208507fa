/-
  OstepProjects/Zip/Pzip3.lean
  ============================
  **The threads of `pzip3.c`.**

  One producer cuts the files into pages and puts them into a circular queue of ten
  slots; the consumers take pages, compress them and store the result in the slot
  of `out` that `calculateOutputPosition` names.  The queue is guarded by `lock`,
  with the condition variables `empty` (only the producer waits on it) and `fill`
  (only consumers wait on it).

  Every statement of the two thread functions that touches shared data is one step;
  the program counters name the statement to be executed next.
  `pthread_cond_wait` releases the lock and sleeps in one step, a woken thread has to
  take the lock again before it goes on, and a signal or a broadcast reaches only
  threads that are asleep.  Which sleeper a signal wakes is part of the action.

  The contents of the files stand for the mapped memory; that `open`, `fstat` and
  `mmap` succeed is taken for granted, a failure of one of them ends the process.
-/
import OstepProjects.Lib.Transition
import OstepProjects.Lib.CircularQueue
import OstepProjects.Zip.Chunks

namespace OstepProjects.Pzip3

open OstepProjects.Transition OstepProjects.CircularQueue OstepProjects.Zip

def q_capacity : Nat := 10

/-- The slots `main` allocates for `out`. -/
def outCapacity : Nat := 512000 * 2

/-- `struct buffer`; `address` is the mapped memory from the start of the page on. -/
structure Buffer where
  address : List UInt8
  file_number : Nat
  page_number : Nat
  last_page_size : Nat
deriving DecidableEq, Repr, Inhabited

/-- The arguments of a run, and what `malloc` left in `pages_per_file`. -/
structure Config where
  page_size : Nat
  files : List (List UInt8)
  junk : Nat → Nat

/-- `num_files` -/
def Config.num_files (cfg : Config) : Nat := cfg.files.length

def Config.file (cfg : Config) (i : Nat) : List UInt8 := cfg.files.getD i []

/-- `sb.st_size` of file `i`. -/
def Config.st_size (cfg : Config) (i : Nat) : Nat := (cfg.file i).length

/-! ### Step 4 of the producer -/

/-- `((double)sb.st_size/page_size) > pages_in_file`, in exact arithmetic. -/
def notAligned (page_size st_size : Nat) : Prop := st_size / page_size * page_size < st_size

instance (page_size st_size : Nat) : Decidable (notAligned page_size st_size) :=
  inferInstanceAs (Decidable (_ < _))

/-- `pages_in_file` -/
def pagesInFile (page_size st_size : Nat) : Nat :=
  if notAligned page_size st_size then st_size / page_size + 1 else st_size / page_size

/-- `last_page_size` -/
def lastPageSize (page_size st_size : Nat) : Nat :=
  if notAligned page_size st_size then st_size % page_size else page_size

/-! ### Threads and states -/

/-- The statement the producer executes next. -/
inductive ProducerPc
  | openFile | countPages | recordPages | mapFile | pageTest
  | lockFull | testFull | broadcastFill | waitEmpty | asleep | woken | unlockFull
  | fillTemp | lockPut | put | unlockPut | signalFill
  | setComplete | broadcastDone | returned
deriving DecidableEq, Repr

/-- The statement a consumer executes next. -/
inductive ConsumerPc
  | lock | testEmpty | signalFirst | waitFill | asleep | woken
  | testDone | unlockReturn | get | testSignal | signalEmpty | unlockGet
  | position | store | loopTest | returned
deriving DecidableEq, Repr

structure Producer where
  pc : ProducerPc
  i : Nat
  j : Nat
  pages_in_file : Nat
  last_page_size : Nat
  map : List UInt8
  temp : Buffer

structure Consumer where
  pc : ConsumerPc
  temp : Buffer
  position : Nat

inductive Thread (n : Nat)
  | producer
  | consumer (c : Fin n)
deriving DecidableEq

/-- The shared data and the threads.  `putLog` and `getLog` are histories of the
    calls of `put` and `get`; no step reads them. -/
structure State (n : Nat) where
  lock : Option (Thread n)
  isComplete : Bool
  total_pages : Nat
  pages_per_file : Nat → Nat
  queue : Queue Buffer
  out : Nat → Option Output
  producer : Producer
  consumers : Fin n → Consumer
  putLog : List Buffer
  getLog : List Buffer

variable {n : Nat}

/-- The first thread to be created is the producer; a consumer that does not exist
    yet is one that has not moved. -/
def State.start (cfg : Config) (n : Nat) : State n where
  lock := none
  isComplete := false
  total_pages := 0
  pages_per_file := cfg.junk
  queue := ⟨fun _ => default, 0, 0, 0⟩
  out := fun _ => none
  producer := ⟨.openFile, 0, 0, 0, 0, [], default⟩
  consumers := fun _ => ⟨.lock, default, 0⟩
  putLog := []
  getLog := []

/-- A thread has executed its `return`. -/
def State.Returned (s : State n) : Thread n → Prop
  | .producer => s.producer.pc = .returned
  | .consumer c => (s.consumers c).pc = .returned

def State.AllReturned (s : State n) : Prop := ∀ t, s.Returned t

def State.goto (s : State n) (pc : ProducerPc) : State n :=
  { s with producer := { s.producer with pc := pc } }

def State.setConsumer (s : State n) (c : Fin n) (x : Consumer) : State n :=
  { s with consumers := Function.update s.consumers c x }

def State.gotoConsumer (s : State n) (c : Fin n) (pc : ConsumerPc) : State n :=
  s.setConsumer c { s.consumers c with pc := pc }

/-- A sleeping consumer that is woken. -/
def Consumer.wake (x : Consumer) : Consumer :=
  if x.pc = .asleep then { x with pc := .woken } else x

/-- `pthread_cond_broadcast(&fill)` -/
def State.broadcastFill (s : State n) : State n :=
  { s with consumers := fun c => (s.consumers c).wake }

/-- `pthread_cond_signal(&fill)`, waking the sleeper `wake`; with nobody asleep the
    signal is lost. -/
def State.signalFill (s : State n) : Option (Fin n) → Option (State n)
  | some c =>
    if (s.consumers c).pc = .asleep then some (s.setConsumer c (s.consumers c).wake) else none
  | none => if ∀ c, (s.consumers c).pc ≠ .asleep then some s else none

/-- `pthread_cond_signal(&empty)` -/
def State.signalEmpty (s : State n) : State n :=
  if s.producer.pc = .asleep then s.goto .woken else s

/-- `calculateOutputPosition` -/
def calculateOutputPosition (pages_per_file : Nat → Nat) (temp : Buffer) : Nat :=
  ((List.range temp.file_number).map pages_per_file).sum + temp.page_number

/-- `RLECompress(temp)`: the loops of `Zip.RLECompress` on the bytes of the page. -/
def compressPage (temp : Buffer) : Output :=
  RLECompress (temp.address.take temp.last_page_size)

/-! ### Steps -/

/-- One statement of `producer`.  `wake` is the consumer that `pthread_cond_signal`
    wakes and matters at `signalFill` only. -/
def stepProducer (cfg : Config) (s : State n) (wake : Option (Fin n)) : Option (State n) :=
  let p := s.producer
  match p.pc with
  | .openFile =>
    if p.i < cfg.num_files then
      if cfg.st_size p.i = 0 then some { s with producer := { p with i := p.i + 1 } }
      else some (s.goto .countPages)
    else some (s.goto .setComplete)
  | .countPages =>
    let pages_in_file := pagesInFile cfg.page_size (cfg.st_size p.i)
    some { s with
      total_pages := s.total_pages + pages_in_file
      producer := { p with
        pc := .recordPages
        pages_in_file := pages_in_file
        last_page_size := lastPageSize cfg.page_size (cfg.st_size p.i) } }
  | .recordPages =>
    some { s with
      pages_per_file := Function.update s.pages_per_file p.i p.pages_in_file
      producer := { p with pc := .mapFile } }
  | .mapFile => some { s with producer := { p with pc := .pageTest, map := cfg.file p.i, j := 0 } }
  | .pageTest =>
    if p.j < p.pages_in_file then some (s.goto .lockFull)
    else some { s with producer := { p with pc := .openFile, i := p.i + 1 } }
  | .lockFull =>
    if s.lock = none then some { s.goto .testFull with lock := some .producer } else none
  | .testFull =>
    if s.queue.size = q_capacity then some (s.goto .broadcastFill) else some (s.goto .unlockFull)
  | .broadcastFill => some (s.broadcastFill.goto .waitEmpty)
  | .waitEmpty => some { s.goto .asleep with lock := none }
  | .asleep => none
  | .woken =>
    if s.lock = none then some { s.goto .testFull with lock := some .producer } else none
  | .unlockFull => some { s.goto .fillTemp with lock := none }
  | .fillTemp =>
    some { s with producer := { p with
      pc := .lockPut
      temp :=
        { address := p.map
          file_number := p.i
          page_number := p.j
          last_page_size :=
            if p.j = p.pages_in_file - 1 then p.last_page_size else cfg.page_size }
      map := p.map.drop cfg.page_size } }
  | .lockPut => if s.lock = none then some { s.goto .put with lock := some .producer } else none
  | .put =>
    some { s.goto .unlockPut with
      queue := s.queue.put q_capacity p.temp
      putLog := s.putLog ++ [p.temp] }
  | .unlockPut => some { s.goto .signalFill with lock := none }
  | .signalFill =>
    (s.signalFill wake).map fun s => { s with producer := { p with pc := .pageTest, j := p.j + 1 } }
  | .setComplete => some { s.goto .broadcastDone with isComplete := true }
  | .broadcastDone => some (s.broadcastFill.goto .returned)
  | .returned => none

/-- One statement of `consumer`. -/
def stepConsumer (s : State n) (c : Fin n) : Option (State n) :=
  let x := s.consumers c
  match x.pc with
  | .lock =>
    if s.lock = none then
      some { s.gotoConsumer c .testEmpty with lock := some (.consumer c) }
    else none
  | .testEmpty =>
    if s.queue.size = 0 ∧ s.isComplete = false then some (s.gotoConsumer c .signalFirst)
    else some (s.gotoConsumer c .testDone)
  | .signalFirst => some (s.signalEmpty.gotoConsumer c .waitFill)
  | .waitFill => some { s.gotoConsumer c .asleep with lock := none }
  | .asleep => none
  | .woken =>
    if s.lock = none then
      some { s.gotoConsumer c .testEmpty with lock := some (.consumer c) }
    else none
  | .testDone =>
    if s.isComplete = true ∧ s.queue.size = 0 then some (s.gotoConsumer c .unlockReturn)
    else some (s.gotoConsumer c .get)
  | .unlockReturn => some { s.gotoConsumer c .returned with lock := none }
  | .get =>
    some { s.setConsumer c { x with pc := .testSignal, temp := s.queue.front } with
      queue := s.queue.get q_capacity
      getLog := s.getLog ++ [s.queue.front] }
  | .testSignal =>
    if s.isComplete = false then some (s.gotoConsumer c .signalEmpty)
    else some (s.gotoConsumer c .unlockGet)
  | .signalEmpty => some (s.signalEmpty.gotoConsumer c .unlockGet)
  | .unlockGet => some { s.gotoConsumer c .position with lock := none }
  | .position =>
    some (s.setConsumer c { x with
      pc := .store
      position := calculateOutputPosition s.pages_per_file x.temp })
  | .store =>
    some { s.gotoConsumer c .loopTest with
      out := Function.update s.out x.position (some (compressPage x.temp)) }
  | .loopTest =>
    if s.isComplete = true ∧ s.queue.size = 0 then some (s.gotoConsumer c .returned)
    else some (s.gotoConsumer c .lock)
  | .returned => none

/-- Which thread moves. -/
inductive Action (n : Nat)
  | producer (wake : Option (Fin n))
  | consumer (c : Fin n)
deriving DecidableEq

def system (cfg : Config) (n : Nat) : System (State n) (Action n) where
  start := .start cfg n
  step s
    | .producer wake => stepProducer cfg s wake
    | .consumer c => stepConsumer s c

/-- The records `printOutput` writes after all threads have been joined. -/
def State.printed (s : State n) : List Record :=
  printOutput ((List.range s.total_pages).map fun i => (s.out i).getD [])

end OstepProjects.Pzip3
