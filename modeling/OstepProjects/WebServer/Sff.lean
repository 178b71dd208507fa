/-
  OstepProjects/WebServer/Sff.lean
  ================================
  **SFF mode: smallest file first.**

  The master runs `fileSize` on a connection and puts the record into the buffer,
  which `put_sff` keeps sorted by file size; a worker takes the first record, runs
  `requestHandleInfor` on it and closes its descriptor.

  The state holds, besides what both modes have, the open sockets by descriptor and
  the responses of the closed ones.  The server crashes when it dereferences a NULL
  record, and when a handler does not come back.
-/
import OstepProjects.Lib.InsertionSort
import OstepProjects.WebServer.CompleteRequest
import OstepProjects.WebServer.Wserver

namespace OstepProjects.WebServer

open OstepProjects.Transition OstepProjects.InsertionSort

variable {n : Nat}

/-! ### The buffer -/

/-- The array `infor_buffer` and `count`; an empty slot or a NULL record is `none`. -/
structure SffBuffer where
  infor_buf : Nat → Option RequestInfor
  count : Nat

/-- The loop of `put_sff`, which swaps on without stopping at the first smaller
    neighbour; `none` when it dereferences a NULL record. -/
def putLoop (infor_buf : Nat → Option RequestInfor) : Nat → Option (Nat → Option RequestInfor)
  | 0 => some infor_buf
  | i + 1 => do
    let infor ← infor_buf (i + 1)
    let left ← infor_buf i
    putLoop (if infor.sbuf.st_size < left.sbuf.st_size then swap infor_buf (i + 1) i
      else infor_buf) i

def SffBuffer.put (b : SffBuffer) (infor : Option RequestInfor) : Option SffBuffer := do
  let infor_buf ← putLoop (Function.update b.infor_buf b.count infor) b.count
  return ⟨infor_buf, b.count + 1⟩

/-- The loop of `get_sff` up to `i = m`. -/
def getLoop (infor_buf : Nat → Option RequestInfor) : Nat → (Nat → Option RequestInfor)
  | 0 => infor_buf
  | m + 1 => Function.update (getLoop infor_buf m) m (getLoop infor_buf m (m + 1))

def SffBuffer.get (b : SffBuffer) : Option RequestInfor × SffBuffer :=
  (b.infor_buf 0, ⟨getLoop b.infor_buf (b.count - 1), b.count - 1⟩)

/-- The records in the buffer, in ascending order of their file sizes. -/
structure Queued (b : SffBuffer) (queued : List RequestInfor) : Prop where
  begins : Begins b.infor_buf (queued.map some)
  count : b.count = queued.length
  sorted : queued.Pairwise fun x y => x.sbuf.st_size ≤ y.sbuf.st_size

abbrev smaller (x y : RequestInfor) : Prop := x.sbuf.st_size < y.sbuf.st_size

theorem putLoop_begins {a : Nat → Option RequestInfor} {xs : List RequestInfor} {x : RequestInfor}
    (hsorted : xs.Pairwise fun x y => x.sbuf.st_size ≤ y.sbuf.st_size)
    (h : Begins a (xs.map some)) (hx : a xs.length = some x) :
    ∃ a', putLoop a xs.length = some a' ∧ Begins a' ((insertLast smaller xs x).map some) ∧
      ∀ k, xs.length < k → a' k = a k := by
  induction xs using List.reverseRecOn generalizing a x with
  | nil => exact ⟨a, rfl, begins_concat.mpr ⟨begins_nil a, hx⟩, fun _ _ => rfl⟩
  | append_singleton xs y ih =>
    obtain ⟨hxs, _, hle⟩ := List.pairwise_append.mp hsorted
    rw [List.map_append, List.map_singleton, begins_concat, List.length_map] at h
    obtain ⟨hbegins, hy⟩ := h
    rw [List.length_append, List.length_singleton] at hx ⊢
    simp only [putLoop, hx, hy, Option.bind_eq_bind, Option.bind_some]
    rw [insertLast_concat]
    by_cases hxy : smaller x y
    · rw [if_pos hxy, if_pos hxy]
      have hkeep : Begins (swap a (xs.length + 1) xs.length) (xs.map some) :=
        (hbegins.update (by simp) _).update (by simp) _
      have hmoved : swap a (xs.length + 1) xs.length xs.length = some x := by
        rw [swap, Function.update_self, hx]
      obtain ⟨a', hrun, hbegins', hsame⟩ := ih hxs hkeep hmoved
      refine ⟨a', hrun, ?_, ?_⟩
      · rw [List.map_append, List.map_singleton, begins_concat]
        refine ⟨hbegins', ?_⟩
        rw [List.length_map, length_insertLast, hsame _ (Nat.lt_succ_self _), swap,
          Function.update_of_ne (by omega), Function.update_self, hy]
      · intro k hk
        rw [hsame k (by omega), swap, Function.update_of_ne (by omega),
          Function.update_of_ne (by omega)]
    · rw [if_neg hxy, if_neg hxy]
      obtain ⟨a', hrun, hbegins', hsame⟩ := ih hxs hbegins hy
      have hlast : insertLast smaller xs y = xs ++ [y] :=
        insertLast_of_forall_not_lt smaller fun z hz =>
          Nat.not_lt.mpr (hle z hz y (List.mem_singleton_self y))
      rw [hlast] at hbegins'
      refine ⟨a', hrun, ?_, fun k hk => hsame k (by omega)⟩
      rw [List.map_append, List.map_singleton, begins_concat]
      refine ⟨hbegins', ?_⟩
      rw [List.length_map, List.length_append, List.length_singleton,
        hsame _ (Nat.lt_succ_self _), hx]

/-- `put_sff` of a record into a buffer without NULL records. -/
theorem Queued.put {b : SffBuffer} {queued : List RequestInfor} (h : Queued b queued)
    (infor : RequestInfor) :
    ∃ b', b.put (some infor) = some b' ∧ Queued b' (insertLast smaller queued infor) := by
  have hkeep : Begins (Function.update b.infor_buf b.count (some infor)) (queued.map some) :=
    h.begins.update (by rw [h.count, List.length_map]) _
  have hlast : Function.update b.infor_buf b.count (some infor) queued.length = some infor := by
    rw [h.count, Function.update_self]
  obtain ⟨infor_buf, hrun, hbegins, _⟩ := putLoop_begins h.sorted hkeep hlast
  refine ⟨⟨infor_buf, b.count + 1⟩, ?_, hbegins, ?_, ?_⟩
  · rw [← h.count] at hrun
    simp only [SffBuffer.put, hrun, Option.bind_eq_bind, Option.bind_some]
    rfl
  · rw [length_insertLast, h.count]
  · exact pairwise_insertLast smaller (fun r => r.sbuf.st_size) (fun _ _ => Iff.rfl) infor h.sorted

theorem getLoop_apply (a : Nat → Option RequestInfor) (m k : Nat) :
    getLoop a m k = if k < m then a (k + 1) else a k := by
  induction m generalizing k with
  | zero => rfl
  | succ m ih =>
    rw [getLoop]
    by_cases hkm : k = m
    · rw [hkm, Function.update_self, ih, if_neg (by omega), if_pos (Nat.lt_succ_self m)]
    · rw [Function.update_of_ne hkm, ih]
      by_cases hlt : k < m
      · rw [if_pos hlt, if_pos (by omega)]
      · rw [if_neg hlt, if_neg (by omega)]

/-- `get_sff` takes the first record. -/
theorem Queued.get {b : SffBuffer} {queued : List RequestInfor} {infor : RequestInfor}
    (h : Queued b (infor :: queued)) :
    b.get.1 = some infor ∧ Queued b.get.2 queued := by
  have hcount : b.count = queued.length + 1 := h.count
  refine ⟨h.begins 0 _ rfl, ?_, ?_, (List.pairwise_cons.mp h.sorted).2⟩
  · intro k x hk
    have hlt : k < queued.length := by simpa using (List.getElem?_eq_some_iff.mp hk).1
    simp only [SffBuffer.get, getLoop_apply, hcount, Nat.add_sub_cancel, if_pos hlt]
    exact h.begins (k + 1) x (by simpa using hk)
  · simp only [SffBuffer.get, hcount, Nat.add_sub_cancel]

/-! ### The server -/

structure OpenSocket where
  conn : Connection
  socket : Socket

structure SffState (n : Nat) where
  server : State Connection (Option RequestInfor) SffBuffer n
  sockets : Nat → Option OpenSocket
  responses : List (Connection × List UInt8)
  crashed : Bool

def SffState.crash (s : SffState n) : SffState n := { s with crashed := true }

/-- The sockets after a handler has run on descriptor `fd`. -/
def SffState.setSocket (s : SffState n) (fd : Nat) (socket : Socket) : Nat → Option OpenSocket :=
  Function.update s.sockets fd ((s.sockets fd).map fun o => { o with socket })

/-- What `fileSize` gives for a connection, and its socket afterwards. -/
def Connection.record (host : Host) (conn : Connection) : Option (Option RequestInfor × Socket) :=
  (fileSize host conn.stack conn.fd).run ⟨conn.request.bytes, []⟩

section Server

variable (host : Host) (buffer_num : Nat) (junk : Nat → Option RequestInfor)

/-- The SFF branch of `main`, with `thread_consumer_sff` as the worker.  `junk` is what
    the array `infor_buffer` holds at the start.  Where `fileSize` or `put_sff` does not
    come back, the step is a crash instead. -/
def sff : Schedule Connection (Option RequestInfor) SffBuffer where
  empty := ⟨junk, 0⟩
  count b := b.count
  limit := buffer_num - 1
  entry conn := (conn.record host).bind Prod.fst
  put b infor := (b.put infor).getD ⟨b.infor_buf, b.count + 1⟩
  get := SffBuffer.get

/-- `accept` gives a descriptor that is not open. -/
def stepMasterSff (s : SffState n) (conn : Connection) (wake : Option (Fin n)) :
    Option (SffState n) :=
  let server := stepMaster (sff host buffer_num junk) s.server conn wake
  match s.server.master with
  | .accept =>
    if (s.sockets conn.fd).isNone then
      server.map fun server =>
        { s with
          server
          sockets := Function.update s.sockets conn.fd
            (some ⟨conn, ⟨conn.request.bytes, []⟩⟩) }
    else none
  | .critical conn =>
    if s.server.buffer.count = buffer_num - 1 then server.map fun server => { s with server }
    else
      match conn.record host with
      | none => some s.crash
      | some (infor, socket) =>
        match s.server.buffer.put infor with
        | none => some s.crash
        | some _ =>
          server.map fun server => { s with server, sockets := s.setSocket conn.fd socket }
  | _ => server.map fun server => { s with server }

/-- `infor->fd` is read before the handler is called. -/
def stepWorkerSff (s : SffState n) (w : Fin n) : Option (SffState n) :=
  let server := stepWorker (sff host buffer_num junk) s.server w
  match s.server.workers w with
  | .handle infor =>
    match infor with
    | none => some s.crash
    | some infor =>
      match (s.sockets infor.fd).bind fun o => (requestHandleInfor host infor).run o.socket with
      | none => some s.crash
      | some ((), socket) =>
        server.map fun server => { s with server, sockets := s.setSocket infor.fd socket }
  | .close infor =>
    match infor with
    | none => some s.crash
    | some infor =>
      match s.sockets infor.fd with
      | none => some s.crash
      | some o =>
        server.map fun server =>
          { s with
            server
            sockets := Function.update s.sockets infor.fd none
            responses := s.responses ++ [(o.conn, o.socket.output)] }
  | _ => server.map fun server => { s with server }

def sffServer (n : Nat) : System (SffState n) (Action Connection n) where
  start := ⟨.start (sff host buffer_num junk), fun _ => none, [], false⟩
  step s a :=
    if s.crashed then none
    else
      match a with
      | .master conn wake => stepMasterSff host buffer_num junk s conn wake
      | .worker w => stepWorkerSff host buffer_num junk s w

end Server

end OstepProjects.WebServer
