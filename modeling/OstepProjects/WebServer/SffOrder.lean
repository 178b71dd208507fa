/-
  OstepProjects/WebServer/SffOrder.lean
  =====================================
  **The order in which `get_sff` hands out what `put_sff` has stored.**

  `putSff` and `getSff` check every index against the size `buffer_num` of the array
  `infor_buffer`.  Called with room in the buffer, respectively with a record in it,
  they fail nowhere and do what the server's operations do (`putSff_eq`, `getSff_eq`);
  the buffer is then a queue that serves small files first and equal sizes in order
  of arrival (`sff_order`).
-/
import OstepProjects.Lib.StableQueue
import OstepProjects.WebServer.Sff

namespace OstepProjects.WebServer

open OstepProjects.InsertionSort OstepProjects.StableQueue

/-! ### The operations with their index checks -/

section Checked

variable (buffer_num : Nat)

/-- Read `infor_buf[i]`; `none` outside the array. -/
def cell (infor_buf : Nat → Option RequestInfor) (i : Nat) : Option (Option RequestInfor) :=
  if i < buffer_num then some (infor_buf i) else none

/-- Write `infor_buf[i]`. -/
def setCell (infor_buf : Nat → Option RequestInfor) (i : Nat) (infor : Option RequestInfor) :
    Option (Nat → Option RequestInfor) :=
  if i < buffer_num then some (Function.update infor_buf i infor) else none

def putSffLoop (infor_buf : Nat → Option RequestInfor) :
    Nat → Option (Nat → Option RequestInfor)
  | 0 => some infor_buf
  | i + 1 => do
    let infor ← ← cell buffer_num infor_buf (i + 1)
    let left ← ← cell buffer_num infor_buf i
    if infor.sbuf.st_size < left.sbuf.st_size then
      let temp ← cell buffer_num infor_buf i
      let moved ← setCell buffer_num infor_buf i (← cell buffer_num infor_buf (i + 1))
      putSffLoop (← setCell buffer_num moved (i + 1) temp) i
    else putSffLoop infor_buf i

/-- `put_sff`; `none` when an index is out of bounds or a NULL record is dereferenced. -/
def putSff (b : SffBuffer) (infor : Option RequestInfor) : Option SffBuffer := do
  let count := b.count + 1
  let stored ← setCell buffer_num b.infor_buf (count - 1) infor
  let infor_buf ← putSffLoop buffer_num stored (count - 1)
  return ⟨infor_buf, count⟩

/-- The loop of `get_sff` up to `i = m`. -/
def getSffLoop (infor_buf : Nat → Option RequestInfor) : Nat → Option (Nat → Option RequestInfor)
  | 0 => some infor_buf
  | m + 1 => do
    let shifted ← getSffLoop infor_buf m
    setCell buffer_num shifted m (← cell buffer_num shifted (m + 1))

def getSff (b : SffBuffer) : Option (Option RequestInfor × SffBuffer) := do
  let infor ← cell buffer_num b.infor_buf 0
  let infor_buf ← getSffLoop buffer_num b.infor_buf (b.count - 1)
  return (infor, ⟨infor_buf, b.count - 1⟩)

end Checked

section Bounds

variable {buffer_num : Nat}

theorem cell_eq (infor_buf : Nat → Option RequestInfor) {i : Nat} (h : i < buffer_num) :
    cell buffer_num infor_buf i = some (infor_buf i) := if_pos h

theorem setCell_eq (infor_buf : Nat → Option RequestInfor) {i : Nat} (h : i < buffer_num)
    (infor : Option RequestInfor) :
    setCell buffer_num infor_buf i infor = some (Function.update infor_buf i infor) := if_pos h

theorem putSffLoop_eq (infor_buf : Nat → Option RequestInfor) {i : Nat} (h : i < buffer_num) :
    putSffLoop buffer_num infor_buf i = putLoop infor_buf i := by
  induction i generalizing infor_buf with
  | zero => rfl
  | succ i ih =>
    have hleft : i < buffer_num := Nat.lt_of_succ_lt h
    have hsucc := cell_eq infor_buf h
    have hcell := cell_eq infor_buf hleft
    simp only [putSffLoop, putLoop, hsucc, hcell, setCell_eq _ h, setCell_eq _ hleft,
      Option.bind_eq_bind, Option.bind_some, ih _ hleft]
    apply congrArg
    funext infor
    apply congrArg
    funext left
    by_cases hlt : infor.sbuf.st_size < left.sbuf.st_size
    · rw [if_pos hlt, if_pos hlt, swap, Function.update_comm (Nat.succ_ne_self i).symm]
    · rw [if_neg hlt, if_neg hlt]

/-- With room in the buffer `put_sff` stays inside the array. -/
theorem putSff_eq {b : SffBuffer} (h : b.count < buffer_num) (infor : Option RequestInfor) :
    putSff buffer_num b infor = b.put infor := by
  simp only [putSff, SffBuffer.put, Nat.add_sub_cancel, setCell_eq _ h, putSffLoop_eq _ h,
    Option.bind_eq_bind, Option.bind_some]

theorem getSffLoop_eq (infor_buf : Nat → Option RequestInfor) {m : Nat} (h : m < buffer_num) :
    getSffLoop buffer_num infor_buf m = some (getLoop infor_buf m) := by
  induction m with
  | zero => rfl
  | succ m ih =>
    have hm : m < buffer_num := Nat.lt_of_succ_lt h
    simp only [getSffLoop, getLoop, ih hm, cell_eq _ h, setCell_eq _ hm, Option.bind_eq_bind,
      Option.bind_some]

/-- With a record in the buffer `get_sff` stays inside the array. -/
theorem getSff_eq {b : SffBuffer} (hpos : 0 < b.count) (hle : b.count ≤ buffer_num) :
    getSff buffer_num b = some b.get := by
  have hlast : b.count - 1 < buffer_num := by omega
  simp only [getSff, SffBuffer.get, getSffLoop_eq _ hlast, cell_eq _ (hpos.trans_le hle),
    Option.bind_eq_bind, Option.bind_some]
  rfl

end Bounds

/-! ### Sequences of calls -/

section Calls

variable (buffer_num : Nat)

/-- The condition under which the server makes the call. -/
def Allowed (b : SffBuffer) : Call RequestInfor → Prop
  | .put _ => b.count < buffer_num
  | .get => 0 < b.count

/-- One call, with the record that it returns. -/
def call (b : SffBuffer) : Call RequestInfor → Option (SffBuffer × List (Option RequestInfor))
  | .put infor => do return (← putSff buffer_num b (some infor), [])
  | .get => do
    let (infor, b) ← getSff buffer_num b
    return (b, [infor])

/-- The calls in order, with all records returned. -/
def runCalls (b : SffBuffer) :
    List (Call RequestInfor) → Option (SffBuffer × List (Option RequestInfor))
  | [] => some (b, [])
  | c :: calls => do
    let (b, answers) ← call buffer_num b c
    let (b, more) ← runCalls b calls
    return (b, answers ++ more)

/-- Every call is allowed where it is made. -/
def AllAllowed (b : SffBuffer) : List (Call RequestInfor) → Prop
  | [] => True
  | c :: calls => Allowed buffer_num b c ∧
      match call buffer_num b c with
      | none => True
      | some (b', _) => AllAllowed b' calls

instance (b : SffBuffer) (c : Call RequestInfor) : Decidable (Allowed buffer_num b c) :=
  match c with
  | .put _ => inferInstanceAs (Decidable (b.count < buffer_num))
  | .get => inferInstanceAs (Decidable (0 < b.count))

instance allAllowedDecidable (b : SffBuffer) (calls : List (Call RequestInfor)) :
    Decidable (AllAllowed buffer_num b calls) :=
  match calls with
  | [] => isTrue trivial
  | c :: calls =>
    let next : Decidable (match call buffer_num b c with
        | none => True
        | some (b', _) => AllAllowed buffer_num b' calls) :=
      match call buffer_num b c with
      | none => isTrue trivial
      | some (b', _) => allAllowedDecidable b' calls
    @instDecidableAnd _ _ inferInstance next

end Calls

def fileSizeOf (infor : RequestInfor) : Nat := infor.sbuf.st_size

/-- The buffer holds the records `queued`, which are those of `pending`, the list in
    order of arrival. -/
structure Holding (buffer_num : Nat) (b : SffBuffer) (queued pending : List RequestInfor) :
    Prop where
  buffer : Queued b queued
  order : Sorts fileSizeOf queued pending
  count_le : b.count ≤ buffer_num

section Runs

variable {buffer_num : Nat} {b : SffBuffer} {queued pending : List RequestInfor}

theorem call_put (h : Holding buffer_num b queued pending) (infor : RequestInfor)
    (hroom : b.count < buffer_num) :
    ∃ b' queued', call buffer_num b (.put infor) = some (b', []) ∧
      Holding buffer_num b' queued' (pending ++ [infor]) := by
  obtain ⟨b', hput, hqueued⟩ := h.buffer.put infor
  refine ⟨b', _, ?_, hqueued, h.order.put (fun _ _ => Iff.rfl) infor, ?_⟩
  · simp only [call, putSff_eq hroom, hput, Option.bind_eq_bind, Option.bind_some]
    rfl
  · have hcount := h.buffer.count
    have hcount' := hqueued.count
    rw [length_insertLast] at hcount'
    omega

theorem call_get (h : Holding buffer_num b queued pending) (hpos : 0 < b.count) :
    ∃ b' infor queued' rest, call buffer_num b .get = some (b', [some infor]) ∧
      IsNext fileSizeOf pending infor rest ∧ Holding buffer_num b' queued' rest := by
  cases queued with
  | nil =>
    have hempty : b.count = 0 := h.buffer.count
    omega
  | cons infor queued =>
    obtain ⟨hfirst, hqueued⟩ := h.buffer.get
    obtain ⟨rest, hnext, horder⟩ := h.order.take
    refine ⟨b.get.2, infor, queued, rest, ?_, hnext, hqueued, horder, ?_⟩
    · simp only [call, getSff_eq hpos h.count_le, hfirst, Option.bind_eq_bind, Option.bind_some]
      rfl
    · exact (Nat.sub_le _ _).trans h.count_le

/-- A run of allowed calls after the calls `done`. -/
theorem runCalls_served {done calls : List (Call RequestInfor)} {answers : List RequestInfor}
    (h : Holding buffer_num b queued pending) (hserved : Served fileSizeOf done answers pending)
    (hallowed : AllAllowed buffer_num b calls) :
    ∃ b' more queued' pending', runCalls buffer_num b calls = some (b', more.map some) ∧
      Holding buffer_num b' queued' pending' ∧
      Served fileSizeOf (done ++ calls) (answers ++ more) pending' := by
  induction calls generalizing b queued pending done answers with
  | nil =>
    refine ⟨b, [], queued, pending, rfl, h, ?_⟩
    rw [List.append_nil, List.append_nil]
    exact hserved
  | cons c calls ih =>
    obtain ⟨hc, hrest⟩ := hallowed
    cases c with
    | put infor =>
      obtain ⟨b', queued', hcall, hholding⟩ := call_put h infor hc
      simp only [hcall] at hrest
      obtain ⟨b'', more, queued'', pending', hrun, hend, hserved'⟩ :=
        ih hholding (hserved.put infor) hrest
      refine ⟨b'', more, queued'', pending', ?_, hend, ?_⟩
      · simp only [runCalls, hcall, hrun, Option.bind_eq_bind, Option.bind_some]
        rfl
      · rwa [List.append_cons]
    | get =>
      obtain ⟨b', infor, queued', rest, hcall, hnext, hholding⟩ := call_get h hc
      simp only [hcall] at hrest
      obtain ⟨b'', more, queued'', pending', hrun, hend, hserved'⟩ :=
        ih hholding (hserved.get hnext) hrest
      refine ⟨b'', infor :: more, queued'', pending', ?_, hend, ?_⟩
      · simp only [runCalls, hcall, hrun, Option.bind_eq_bind, Option.bind_some]
        rfl
      · rwa [List.append_cons, List.append_cons answers]

end Runs

/-- **Smallest file first.**  Every sequence of allowed calls from the empty buffer runs
    inside the array; the records in the buffer are sorted by file size and are those put
    and not taken, and each `get_sff` has returned the earliest of the smallest records
    then pending. -/
theorem sff_order (buffer_num : Nat) (junk : Nat → Option RequestInfor)
    (calls : List (Call RequestInfor)) (hallowed : AllAllowed buffer_num ⟨junk, 0⟩ calls) :
    ∃ (b : SffBuffer) (answers queued pending : List RequestInfor),
      runCalls buffer_num ⟨junk, 0⟩ calls = some (b, answers.map some) ∧
      b.count ≤ buffer_num ∧ b.count = queued.length ∧
      (∀ i (hi : i < queued.length), b.infor_buf i = some queued[i]) ∧
      queued.Pairwise (fun x y => x.sbuf.st_size ≤ y.sbuf.st_size) ∧
      queued.Perm pending ∧ (putted calls).Perm (answers ++ pending) ∧
      Served (fun infor => infor.sbuf.st_size) calls answers pending := by
  have hstart : Holding buffer_num ⟨junk, 0⟩ [] [] :=
    ⟨⟨begins_nil junk, rfl, List.Pairwise.nil⟩, Sorts.nil _, Nat.zero_le _⟩
  obtain ⟨b, answers, queued, pending, hrun, hholding, hserved⟩ :=
    runCalls_served hstart Served.start hallowed
  refine ⟨b, answers, queued, pending, hrun, hholding.count_le, hholding.buffer.count, ?_,
    hholding.buffer.sorted, hholding.order.perm, Served.perm _ hserved, hserved⟩
  intro i hi
  exact hholding.buffer.begins i _ (by simp [hi])

/-- A record of the connection on descriptor `fd` for a file of the given size. -/
def sized (fd st_size : Nat) : RequestInfor where
  sbuf := ⟨0o100644, st_size⟩
  buf := []
  filename := []
  cgiargs := []
  is_static := true
  fd

/-- Two slots: the smaller of two files goes first, and of two equal ones the earlier. -/
theorem sff_order_two : ∃ (b : SffBuffer) (answers queued pending : List RequestInfor),
    runCalls 2 ⟨fun _ => none, 0⟩
      [.put (sized 4 9), .put (sized 5 7), .get, .put (sized 6 9), .get, .get] =
        some (b, answers.map some) ∧
    Served (fun infor => infor.sbuf.st_size)
      [.put (sized 4 9), .put (sized 5 7), .get, .put (sized 6 9), .get, .get] answers pending ∧
    queued.Perm pending ∧ b.count = queued.length ∧
    answers.map RequestInfor.fd = [5, 4, 6] := by
  have hrun : (runCalls 2 ⟨fun _ => none, 0⟩
      [.put (sized 4 9), .put (sized 5 7), .get, .put (sized 6 9), .get, .get]).map
        (fun r => r.2.map fun infor => infor.map RequestInfor.fd) =
      some [some 5, some 4, some 6] := by decide +kernel
  obtain ⟨b, answers, queued, pending, hcalls, _, hcount, _, _, hperm, _, hserved⟩ :=
    sff_order 2 (fun _ => none)
      [.put (sized 4 9), .put (sized 5 7), .get, .put (sized 6 9), .get, .get] (by decide +kernel)
  refine ⟨b, answers, queued, pending, hcalls, hserved, hperm, hcount, ?_⟩
  rw [hcalls] at hrun
  simp only [Option.map_some, Option.some.injEq, List.map_map] at hrun
  apply List.map_injective_iff.mpr (Option.some_injective Nat)
  rw [List.map_map]
  exact hrun

end OstepProjects.WebServer
