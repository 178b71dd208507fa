/-
  OstepProjects/MapReduce/Mapreduce.lean
  ======================================
  **`MR_Run` of `mapreduce.c` and its threads.**

  The main thread starts one mapper for each file, joins them, sorts the emitted
  pairs into partitions by insertion, starts one reducer thread for each partition
  and joins those.  The mappers share `all_data` and `map_count` under `mutex`; a
  reducer thread and the `get_next` it hands to `reduce` share the cursor
  `part_count` of their partition.

  A mapper is given by the `MR_Emit` calls it makes, a reducer by whether it calls
  `get_next` again after the answers it has got.  What `malloc` leaves in the arrays
  is a parameter.
-/
import OstepProjects.Lib.CString
import OstepProjects.Lib.InsertionSort
import OstepProjects.Lib.Transition

namespace OstepProjects.MapReduce

open OstepProjects.CString OstepProjects.InsertionSort OstepProjects.Transition

structure map_data where
  key : CString
  value : CString
  part_number : Nat
deriving DecidableEq

structure Globals where
  all_data : Nat → map_data
  map_count : Nat
  part_data : Nat → Nat → map_data
  part_num : Nat → Nat
  part_count : Nat → Nat

/-- The slots of `all_data`, and of each `part_data[i]`. -/
def all_data_slots : Nat := 1000000

def part_data_slots : Nat := 100000

abbrev Partitioner := CString → Nat → Nat

/-- Whether `reduce(key, ...)` calls `get_next` again after these answers. -/
abbrev Reducer := CString → List (Option CString) → Bool

/-! ### The functions -/

/-- The assignments of `MR_Emit` to `all_data[map_count]`. -/
def emitStore (g : Globals) (key value : CString) : Globals :=
  { g with
    all_data := Function.update g.all_data g.map_count
      { g.all_data g.map_count with key := key, value := value } }

def get_next (g : Globals) (key : CString) (partition_number : Nat) : Option CString × Globals :=
  let cursor := g.part_count partition_number
  let data := g.part_data partition_number cursor
  if cursor < g.part_num partition_number ∧ strcmp data.key key = 0 then
    (some data.value,
      { g with part_count := Function.update g.part_count partition_number (cursor + 1) })
  else (none, g)

def MR_Sortadd (part_list : Nat → map_data) (new_data : map_data) (index_num : Nat) :
    Nat → map_data :=
  sift (fun x y => strcmp x.key y.key < 0) (Function.update part_list index_num new_data)
    index_num

/-- The body of the loop of `MR_Run` over `all_data`. -/
def partitionEntry (partition : Partitioner) (num_partition : Nat) (g : Globals) (i : Nat) :
    Globals :=
  let part_index := partition (g.all_data i).key num_partition
  let data := { g.all_data i with part_number := part_index }
  { g with
    all_data := Function.update g.all_data i data
    part_data := Function.update g.part_data part_index
      (MR_Sortadd (g.part_data part_index) data (g.part_num part_index))
    part_num := Function.update g.part_num part_index (g.part_num part_index + 1) }

/-! ### Threads and states -/

/-- The arguments of `MR_Run` with `m` files and `r` reducers, and what `malloc` leaves. -/
structure Config (m r : Nat) where
  num_mappers : Nat
  calls : Fin m → List (CString × CString)
  reduce : Reducer
  partition : Partitioner
  all_junk : Nat → map_data
  part_junk : Nat → Nat → map_data

inductive MainPc
  | checkArguments | joinMappers | allocate
  | partitionLoop (i : Nat)
  | joinReducers | returned
  | exited (message : String)
deriving DecidableEq

/-- The statement of `MR_Emit` a mapper executes next; at `lock` it is between two
    calls. -/
inductive MapPc
  | lock | store | count | unlock | returned
deriving DecidableEq

/-- `todo` holds the calls still to be made, the current one included. -/
structure MapThread where
  pc : MapPc
  todo : List (CString × CString)

/-- A reducer thread: at the loop test of `MR_reduce`, before the call of `reduce`, or
    inside it with the answers of `get_next` so far. -/
inductive ReduceThread
  | test
  | call
  | running (key : CString) (answers : List (Option CString))
  | returned
deriving DecidableEq

/-- `emitted` and `delivered` are histories: the pairs in the order of the critical
    sections, and the finished calls of `reduce` with the values they got. -/
structure State (m r : Nat) where
  main : MainPc
  globals : Globals
  mutex : Option (Fin m)
  mappers : Fin m → MapThread
  reducers : Fin r → ReduceThread
  emitted : List (Fin m × CString × CString)
  delivered : Fin r → List (CString × List CString)

variable {m r : Nat}

/-- The globals of a process that has just been started. -/
def Globals.initial (junk : map_data) : Globals where
  all_data _ := junk
  map_count := 0
  part_data _ _ := junk
  part_num _ := 0
  part_count _ := 0

/-- The call of `MR_Run` with the globals `g`. -/
def State.start (cfg : Config m r) (g : Globals) : State m r where
  main := .checkArguments
  globals := g
  mutex := none
  mappers t := ⟨.lock, cfg.calls t⟩
  reducers _ := .test
  emitted := []
  delivered _ := []

/-! ### Steps -/

def stepMain (cfg : Config m r) (s : State m r) : Option (State m r) :=
  match s.main with
  | .checkArguments =>
    if m ≤ cfg.num_mappers then
      some { s with
        main := .joinMappers
        globals := { s.globals with all_data := cfg.all_junk } }
    else
      some { s with
        main :=
          .exited ("Mappers number should be larger than file number:" ++ toString m ++ "\n") }
  | .joinMappers =>
    if ∀ t, (s.mappers t).pc = .returned then some { s with main := .allocate } else none
  | .allocate =>
    some { s with
      main := .partitionLoop 0
      globals := { s.globals with
        part_data := cfg.part_junk
        part_num := fun _ => 0
        part_count := fun _ => 0 } }
  | .partitionLoop i =>
    if i < s.globals.map_count then
      some { s with
        main := .partitionLoop (i + 1)
        globals := partitionEntry cfg.partition r s.globals i }
    else some { s with main := .joinReducers }
  | .joinReducers =>
    if ∀ p, s.reducers p = .returned then some { s with main := .returned } else none
  | .returned | .exited _ => none

def State.setMapper (s : State m r) (t : Fin m) (x : MapThread) : State m r :=
  { s with mappers := Function.update s.mappers t x }

def State.setReducer (s : State m r) (p : Fin r) (x : ReduceThread) : State m r :=
  { s with reducers := Function.update s.reducers p x }

/-- One statement of a mapper thread, which runs while the main thread joins it. -/
def stepMapper (s : State m r) (t : Fin m) : Option (State m r) :=
  if s.main = .joinMappers then
    match (s.mappers t).pc, (s.mappers t).todo with
    | .lock, [] => some (s.setMapper t ⟨.returned, []⟩)
    | .lock, todo =>
      if s.mutex = none then some { s.setMapper t ⟨.store, todo⟩ with mutex := some t }
      else none
    | .store, (key, value) :: todo =>
      some { s.setMapper t ⟨.count, (key, value) :: todo⟩ with
        globals := emitStore s.globals key value }
    | .count, pair :: todo =>
      some { s.setMapper t ⟨.unlock, pair :: todo⟩ with
        globals := { s.globals with map_count := s.globals.map_count + 1 }
        emitted := s.emitted ++ [(t, pair)] }
    | .unlock, todo => some { s.setMapper t ⟨.lock, todo.tail⟩ with mutex := none }
    | _, _ => none
  else none

/-- One statement of `MR_reduce` for partition `p`, or one call of `get_next`. -/
def stepReducer (cfg : Config m r) (s : State m r) (p : Fin r) : Option (State m r) :=
  if s.main = .joinReducers then
    match s.reducers p with
    | .test =>
      if s.globals.part_count p < s.globals.part_num p then some (s.setReducer p .call)
      else some (s.setReducer p .returned)
    | .call =>
      some (s.setReducer p (.running (s.globals.part_data p (s.globals.part_count p)).key []))
    | .running key answers =>
      if cfg.reduce key answers then
        let (value, globals) := get_next s.globals key p
        some { s.setReducer p (.running key (answers ++ [value])) with globals := globals }
      else
        some { s.setReducer p .test with
          delivered := Function.update s.delivered p
            (s.delivered p ++ [(key, answers.reduceOption)]) }
    | .returned => none
  else none

/-- Which thread moves. -/
inductive Action (m r : Nat)
  | main
  | mapper (t : Fin m)
  | reducer (p : Fin r)

def system (cfg : Config m r) (g : Globals) : System (State m r) (Action m r) where
  start := .start cfg g
  step s
    | .main => stepMain cfg s
    | .mapper t => stepMapper s t
    | .reducer p => stepReducer cfg s p

end OstepProjects.MapReduce
