/-
  OstepProjects/Zip/Pzip2.lean
  ============================
  **The threads of `pzip2.c`.**

  One thread (`handleFile`) counts the buffers of all files, allocates a list for
  them and fills it; the others (`compressText`) draw the index of the next buffer
  under `mutex` and compress that buffer outside of it.  There is no condition
  variable: a thread that finds nothing to draw tests whether everything has been
  handed out and otherwise tries again.

  That test reads `index_cthread`, `listsize` and `handleFile_finish` without the
  lock, one after the other.  Every read and every write of a shared variable is a
  step here, and the order in which the two sides of `index_cthread == listsize` are
  read, which C leaves open, is part of the action.

  The contents of the files stand for the mapped memory; that `stat`, `open`, `mmap`
  and `malloc` succeed is taken for granted.
-/
import OstepProjects.Lib.Transition
import OstepProjects.Zip.Buffers
import OstepProjects.Zip.Chunks

namespace OstepProjects.Pzip2

open OstepProjects.Transition OstepProjects.Zip

def NUM_THREADS : Nat := 8

/-- The operands, and the floating division of the machine. -/
structure Config where
  quotient : Quotient
  files : List (List UInt8)

def Config.numOfFile (cfg : Config) : Nat := cfg.files.length

/-- What `filePath[i]` contains. -/
def Config.file (cfg : Config) (i : Nat) : List UInt8 := cfg.files.getD i []

/-- `st.st_size` of file `i`. -/
def Config.st_size (cfg : Config) (i : Nat) : Nat := (cfg.file i).length

/-- `struct buffer`; `content` is the mapped memory from the start of the buffer on, and
    `result` stands for `numOfResultset` and `result`, which `malloc` leaves undefined. -/
structure Entry where
  size : Int
  content : List UInt8
  result : Option Output
deriving DecidableEq, Repr

/-- The bytes `textString[0], ..., textString[max - 1]` that `compress` reads. -/
def Entry.text (b : Entry) : List UInt8 := b.content.take b.size.toNat

/-- The statement `handleFile` executes next. -/
inductive HandlerPc
  | countTest | roundUp | addQuotient | allocate
  | openFile | bufferTest | fill | advance | finish | returned
deriving DecidableEq, Repr

/-- The statement `compressText` executes next. -/
inductive CthreadPc
  | lock | test | take | advance | unlock | compress
  | readFirst | readIndex | readListsize | testFinish | returned
deriving DecidableEq, Repr

structure Handler where
  pc : HandlerPc
  i : Nat
  j : Nat
  size : Int
  numOfBuffer : Int
deriving DecidableEq, Repr

/-- `seen` is the side of the comparison that has been read. -/
structure Cthread where
  pc : CthreadPc
  do_index : Nat
  cthread_ready : Bool
  seen : Int
deriving DecidableEq, Repr

/-- The shared data and the threads.  `takeLog` and `compressLog` are histories of the
    draws and of the calls of `compress`; no step reads them. -/
structure State (n : Nat) where
  mutex : Option (Fin n)
  handleFile_finish : Bool
  listsize : Int32
  index_cthread : Nat
  totalFileSize : Int32
  count : Nat
  bufferlist : Nat → Option Entry
  handler : Handler
  cthreads : Fin n → Cthread
  takeLog : List (Fin n)
  compressLog : List Nat

variable {n : Nat}

def State.start (n : Nat) : State n where
  mutex := none
  handleFile_finish := false
  listsize := 0
  index_cthread := 0
  totalFileSize := 0
  count := 0
  bufferlist := fun _ => none
  handler := ⟨.countTest, 0, 0, 0, 0⟩
  cthreads := fun _ => ⟨.lock, 0, false, 0⟩
  takeLog := []
  compressLog := []

/-- Every thread has executed its `return`. -/
structure State.AllReturned (s : State n) : Prop where
  handler : s.handler.pc = .returned
  cthreads : ∀ t, (s.cthreads t).pc = .returned

def State.goto (s : State n) (pc : HandlerPc) : State n :=
  { s with handler := { s.handler with pc := pc } }

def State.setCthread (s : State n) (t : Fin n) (x : Cthread) : State n :=
  { s with cthreads := Function.update s.cthreads t x }

def State.gotoCthread (s : State n) (t : Fin n) (pc : CthreadPc) : State n :=
  s.setCthread t { s.cthreads t with pc := pc }

/-! ### Steps -/

/-- The buffer that the body of the inner loop of `handleFile` puts together. -/
def Handler.buff (cfg : Config) (h : Handler) : Entry where
  size := if (h.j : Int) = h.numOfBuffer - 1 then h.size - h.j * BUFFER_SIZE else BUFFER_SIZE
  content := (cfg.file h.i).drop (h.j * BUFFER_SIZE).toNat
  result := none

/-- One statement of `handleFile`: the first loop up to `addQuotient`, then the second. -/
def stepHandler (cfg : Config) (s : State n) : Option (State n) :=
  let h := s.handler
  match h.pc with
  | .countTest =>
    if h.i < cfg.numOfFile then some (s.goto .roundUp) else some (s.goto .allocate)
  | .roundUp =>
    let size := toInt (cfg.st_size h.i)
    some { s with
      totalFileSize := s.totalFileSize + Int32.ofInt size
      listsize :=
        if cfg.quotient.div size > (size.tdiv BUFFER_SIZE : Int) then s.listsize + 1
        else s.listsize
      handler := { h with pc := .addQuotient, size := size } }
  | .addQuotient =>
    some { s with
      listsize := s.listsize + Int32.ofInt (h.size.tdiv BUFFER_SIZE)
      handler := { h with pc := .countTest, i := h.i + 1 } }
  | .allocate => some { s with handler := { h with pc := .openFile, i := 0 } }
  | .openFile =>
    if h.i < cfg.numOfFile then
      let size := toInt (cfg.st_size h.i)
      some { s with handler := { h with
        pc := .bufferTest
        j := 0
        size := size
        numOfBuffer := numOfBuffer cfg.quotient size } }
    else some (s.goto .finish)
  | .bufferTest =>
    if (h.j : Int) < h.numOfBuffer then some (s.goto .fill)
    else some { s with handler := { h with pc := .openFile, i := h.i + 1 } }
  | .fill =>
    some { s.goto .advance with
      bufferlist := Function.update s.bufferlist s.count (some (h.buff cfg)) }
  | .advance =>
    some { s with count := s.count + 1, handler := { h with pc := .bufferTest, j := h.j + 1 } }
  | .finish => some { s.goto .returned with handleFile_finish := true }
  | .returned => none

/-- `compress(bufferIndex)`: the result is stored beside the text. -/
def compressBuffer (bufferlist : Nat → Option Entry) (bufferIndex : Nat) : Nat → Option Entry :=
  Function.update bufferlist bufferIndex
    ((bufferlist bufferIndex).map fun b => { b with result := some (compress b.text) })

/-- What follows the comparison of `index_cthread` and `listsize`. -/
def afterTest (equal : Bool) : CthreadPc := if equal then .testFinish else .lock

/-- One statement of `compressText`.  `listFirst` says which side of the comparison is
    read first and matters at `readFirst` only. -/
def stepCthread (s : State n) (t : Fin n) (listFirst : Bool) : Option (State n) :=
  let x := s.cthreads t
  match x.pc with
  | .lock =>
    if s.mutex = none then some { s.gotoCthread t .test with mutex := some t } else none
  | .test =>
    if s.index_cthread < s.count then some (s.gotoCthread t .take)
    else some (s.gotoCthread t .unlock)
  | .take => some (s.setCthread t { x with pc := .advance, do_index := s.index_cthread })
  | .advance =>
    some { s.setCthread t { x with pc := .unlock, cthread_ready := true } with
      index_cthread := s.index_cthread + 1
      takeLog := s.takeLog ++ [t] }
  | .unlock =>
    some { s.gotoCthread t (if x.cthread_ready then .compress else .readFirst) with mutex := none }
  | .compress =>
    some { s.setCthread t { x with pc := .readFirst, cthread_ready := false } with
      bufferlist := compressBuffer s.bufferlist x.do_index
      compressLog := s.compressLog ++ [x.do_index] }
  | .readFirst =>
    if listFirst then some (s.setCthread t { x with pc := .readIndex, seen := s.listsize.toInt })
    else some (s.setCthread t { x with pc := .readListsize, seen := s.index_cthread })
  | .readIndex => some (s.gotoCthread t (afterTest (s.index_cthread == x.seen)))
  | .readListsize => some (s.gotoCthread t (afterTest (x.seen == s.listsize.toInt)))
  | .testFinish =>
    if s.handleFile_finish then some (s.gotoCthread t .returned) else some (s.gotoCthread t .lock)
  | .returned => none

/-- Which thread moves. -/
inductive Action (n : Nat)
  | handler
  | cthread (t : Fin n) (listFirst : Bool)
deriving DecidableEq

def system (cfg : Config) (n : Nat) : System (State n) (Action n) where
  start := .start n
  step s
    | .handler => stepHandler cfg s
    | .cthread t listFirst => stepCthread s t listFirst

/-- The results in `bufferlist[0], ..., bufferlist[listsize - 1]`. -/
def State.results (s : State n) : List Output :=
  (List.range s.listsize.toInt.toNat).map fun i => ((s.bufferlist i).bind (·.result)).getD []

/-- The records `output` writes after all threads have been joined. -/
def State.written (s : State n) : List Record := output s.results

end OstepProjects.Pzip2
