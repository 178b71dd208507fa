/-
  OstepProjects/WebServer/Sequential.lean
  =======================================
  **The server with a buffer and workers does what the sequential one does.**

  `sequential` is the loop of the server in `src`, which accepts, handles and closes one
  connection after the other.  `fifoServer` is FIFO mode of `src_multi` with its open
  sockets: the workers handle and close the descriptors that they take.

  Descriptors are used again after they have been closed.  While one is open it is
  with the master, in the buffer or with one worker (`SocketInv`), so the handlers do
  not write to each other's sockets.  Whatever the threads do, the sequential server
  could have sent the same responses to the same connections, one after the other
  (`fifo_refines_sequential`).  So it is in SFF mode as long as the requests are servable
  (`sff_refines_sequential`).  The clients are those that send a whole request
  (`Connection`), so that a handler has all that it reads.
-/
import OstepProjects.Lib.Ledger
import OstepProjects.WebServer.Liveness
import OstepProjects.WebServer.SffBlocking

namespace OstepProjects.WebServer

open OstepProjects.Transition OstepProjects.CircularQueue OstepProjects.Ledger

variable {n : Nat}

/-! ### The open sockets -/

abbrev Sockets := Nat → Option OpenSocket

def Connection.opened (conn : Connection) : OpenSocket := ⟨conn, ⟨conn.request.bytes, []⟩⟩

/-- `accept` gives a descriptor that is not open. -/
def Sockets.accept (sockets : Sockets) (conn : Connection) : Option Sockets :=
  if (sockets conn.fd).isNone then some (Function.update sockets conn.fd (some conn.opened))
  else none

/-- `request_handle` on a descriptor. -/
def Sockets.handle (host : Host) (sockets : Sockets) (fd : Nat) : Option Sockets := do
  let o ← sockets fd
  let ((), socket) ← (requestHandle host o.conn.stack).run o.socket
  return Function.update sockets fd (some { o with socket })

/-! ### The sequential server -/

inductive LoopPc
  | accept
  | handle (conn_fd : Nat)
  | close (conn_fd : Nat)

structure LoopState where
  pc : LoopPc
  sockets : Sockets
  accepted : List Connection
  responses : List (Connection × List UInt8)
  crashed : Bool

/-- The loop in `main` of `src/wserver.c`. -/
def stepLoop (host : Host) (s : LoopState) (conn : Connection) : Option LoopState :=
  match s.pc with
  | .accept => (s.sockets.accept conn).map fun sockets =>
      { s with pc := .handle conn.fd, sockets, accepted := s.accepted ++ [conn] }
  | .handle conn_fd =>
    match s.sockets.handle host conn_fd with
    | none => some { s with crashed := true }
    | some sockets => some { s with pc := .close conn_fd, sockets }
  | .close conn_fd =>
    match s.sockets conn_fd with
    | none => some { s with crashed := true }
    | some o =>
      some { s with
        pc := .accept
        sockets := Function.update s.sockets conn_fd none
        responses := s.responses ++ [(o.conn, o.socket.output)] }

def sequential (host : Host) : System LoopState Connection where
  start := ⟨.accept, fun _ => none, [], [], false⟩
  step s conn := if s.crashed then none else stepLoop host s conn

/-! ### The server with workers -/

structure FifoState (n : Nat) where
  server : State Connection Nat (Queue Nat) n
  sockets : Sockets
  responses : List (Connection × List UInt8)
  crashed : Bool

section Server

variable (host : Host) (buffer_num : Nat) (junk : Nat → Nat)

/-- As `fifo`, with the connections of which the descriptors are put. -/
def fifoMode : Schedule Connection Nat (Queue Nat) where
  empty := ⟨junk, 0, 0, 0⟩
  count buffer := buffer.size
  limit := buffer_num
  entry conn := conn.fd
  put buffer value := buffer.put buffer_num value
  get buffer := (buffer.front, buffer.get buffer_num)

/-- The FIFO branch of `main`. -/
def stepMasterFifo (s : FifoState n) (conn : Connection) (wake : Option (Fin n)) :
    Option (FifoState n) := do
  let server ← stepMaster (fifoMode buffer_num junk) s.server conn wake
  match s.server.master with
  | .accept => (s.sockets.accept conn).map fun sockets => { s with server, sockets }
  | _ => some { s with server }

/-- `thread_consumer`. -/
def stepWorkerFifo (s : FifoState n) (w : Fin n) : Option (FifoState n) := do
  let server ← stepWorker (fifoMode buffer_num junk) s.server w
  match s.server.workers w with
  | .handle tmp =>
    match s.sockets.handle host tmp with
    | none => some { s with crashed := true }
    | some sockets => some { s with server, sockets }
  | .close tmp =>
    match s.sockets tmp with
    | none => some { s with crashed := true }
    | some o =>
      some { s with
        server
        sockets := Function.update s.sockets tmp none
        responses := s.responses ++ [(o.conn, o.socket.output)] }
  | _ => some { s with server }

def fifoServer (n : Nat) : System (FifoState n) (Action Connection n) where
  start := ⟨.start (fifoMode buffer_num junk), fun _ => none, [], false⟩
  step s a :=
    if s.crashed then none
    else
      match a with
      | .master conn wake => stepMasterFifo buffer_num junk s conn wake
      | .worker w => stepWorkerFifo host buffer_num junk s w

end Server

theorem fifoMode_counts (buffer_num : Nat) (junk : Nat → Nat) :
    (fifoMode buffer_num junk).Counts where
  empty := rfl
  put _ _ := rfl
  get _ := rfl

/-- What the handler writes to a connection. -/
def Answers (host : Host) (conn : Connection) (out : List UInt8) : Prop :=
  ∃ rest, (requestHandle host conn.stack).run conn.opened.socket = some ((), ⟨rest, out⟩)

theorem Sockets.accept_some {sockets sockets' : Sockets} {conn : Connection}
    (h : sockets.accept conn = some sockets') :
    sockets conn.fd = none ∧ sockets' = Function.update sockets conn.fd (some conn.opened) := by
  simp only [Sockets.accept, Option.ite_none_right_eq_some, Option.isNone_iff_eq_none,
    Option.some.injEq] at h
  exact ⟨h.1, h.2.symm⟩

theorem Sockets.handle_some {host : Host} {sockets sockets' : Sockets} {fd : Nat}
    (h : sockets.handle host fd = some sockets') :
    ∃ o socket, sockets fd = some o ∧
      (requestHandle host o.conn.stack).run o.socket = some ((), socket) ∧
      sockets' = Function.update sockets fd (some { o with socket }) := by
  simp only [Sockets.handle, Option.bind_eq_bind, Option.bind_eq_some_iff, Option.pure_def,
    Option.some.injEq] at h
  obtain ⟨o, hopen, ⟨⟨⟩, socket⟩, hrun, heq⟩ := h
  exact ⟨o, socket, hopen, hrun, heq.symm⟩

/-! ### Runs of the sequential server -/

theorem Answers.handle {host : Host} {conn : Connection} {out : List UInt8}
    (h : Answers host conn out) {sockets : Sockets} (hopen : sockets conn.fd = some conn.opened) :
    ∃ rest, sockets.handle host conn.fd =
      some (Function.update sockets conn.fd (some ⟨conn, ⟨rest, out⟩⟩)) := by
  obtain ⟨rest, hrun⟩ := h
  have hstack : (requestHandle host conn.opened.conn.stack).run conn.opened.socket =
      some ((), ⟨rest, out⟩) := hrun
  refine ⟨rest, ?_⟩
  simp only [Sockets.handle, hopen, Option.bind_eq_bind, Option.bind_some, hstack]
  rfl

/-- A connection is accepted, handled and closed. -/
theorem run_sequential {host : Host} {s : LoopState} (hpc : s.pc = .accept)
    (halive : s.crashed = false) {conn : Connection} {out : List UInt8}
    (hfree : s.sockets conn.fd = none) (h : Answers host conn out) :
    (sequential host).run s [conn, conn, conn] =
      some { s with
        accepted := s.accepted ++ [conn]
        responses := s.responses ++ [(conn, out)] } := by
  obtain ⟨pc, sockets, accepted, responses, crashed⟩ := s
  obtain rfl : pc = .accept := hpc
  obtain rfl : crashed = false := halive
  have haccept : sockets.accept conn =
      some (Function.update sockets conn.fd (some conn.opened)) := if_pos (by simpa using hfree)
  obtain ⟨rest, hhandle⟩ := h.handle (Function.update_self conn.fd (some conn.opened) sockets)
  have hclosed : Function.update sockets conn.fd none = sockets := by
    rw [← hfree]
    exact Function.update_eq_self conn.fd sockets
  simp [System.run, sequential, stepLoop, haccept, hhandle, hclosed]

/-- It serves any connections, one after the other. -/
theorem sequential_reachable {host : Host} {served : List (Connection × List UInt8)}
    (h : ∀ e ∈ served, Answers host e.1 e.2) :
    (sequential host).Reachable
      ⟨.accept, fun _ => none, served.map Prod.fst, served, false⟩ := by
  induction served using List.reverseRecOn with
  | nil => exact .start
  | append_singleton served e ih =>
    have hs := ih fun e' he' => h e' (List.mem_append_left _ he')
    have hrun := run_sequential (s := ⟨.accept, fun _ => none, served.map Prod.fst, served, false⟩)
      rfl rfl rfl (h e (by simp))
    rw [List.map_append]
    exact hs.run hrun

/-! ### Who has which descriptor -/

/-- The descriptors at each place; `queued` are those in the buffer. -/
def holders (server : State Connection Nat (Queue Nat) n) (queued : List Nat) : Place n → List Nat
  | .master => server.master.pending.map Connection.fd
  | .buffer => queued
  | .worker w => (server.workers w).holding

structure SocketInv (host : Host) (buffer_num : Nat) (s : FifoState n)
    (place : Nat → Option (Place n)) (queued : List Nat) : Prop where
  queue : Holds buffer_num s.server.buffer queued
  nodup : queued.Nodup
  placed : ∀ p fd, fd ∈ holders s.server queued p ↔ place fd = some p
  opened : ∀ fd, (s.sockets fd).isSome ↔ (place fd).isSome
  named : ∀ fd o, s.sockets fd = some o → o.conn.fd = fd
  fresh : ∀ fd o, s.sockets fd = some o → (∀ w, fd ∉ (s.server.workers w).closing) →
    o = o.conn.opened
  answered : ∀ w, ∀ fd ∈ (s.server.workers w).closing, ∀ o, s.sockets fd = some o →
    Answers host o.conn o.socket.output
  responses : ∀ e ∈ s.responses, Answers host e.1 e.2
  balanced : Balanced Connection.fd (fun fd => (s.sockets fd).map OpenSocket.conn)
    s.server.accepted (s.responses.map Prod.fst)

/-- A descriptor goes from one place to another; `none` is not open. -/
theorem placed_move {place : Nat → Option (Place n)} {before behind : Place n → List Nat}
    (h : ∀ p fd, fd ∈ before p ↔ place fd = some p) {fd : Nat} {p q : Option (Place n)}
    (hfd : place fd = p) (hne : p ≠ q)
    (hkeep : ∀ r, p ≠ some r → q ≠ some r → behind r = before r)
    (hleave : ∀ r, p = some r → ∀ x, x ∈ behind r ↔ x ∈ before r ∧ x ≠ fd)
    (hjoin : ∀ r, q = some r → ∀ x, x ∈ behind r ↔ x ∈ before r ∨ x = fd) :
    ∀ r x, x ∈ behind r ↔ Function.update place fd q x = some r := by
  intro r x
  have hupdate : Function.update place fd q x = some r ↔
      x = fd ∧ q = some r ∨ x ≠ fd ∧ x ∈ before r := by
    by_cases hx : x = fd
    · rw [hx, Function.update_self]
      simp
    · rw [Function.update_of_ne hx, h]
      simp [hx]
  rw [hupdate]
  by_cases hp : p = some r
  · have hq : q ≠ some r := fun hq => hne (hp.trans hq.symm)
    rw [hleave r hp]
    simp [hq, and_comm]
  · have hout : x ∈ before r → x ≠ fd := by
      rintro hmem rfl
      exact hp (hfd.symm.trans ((h r x).mp hmem))
    by_cases hq : q = some r
    · rw [hjoin r hq]
      simp only [hq, and_true]
      exact or_comm.trans (or_congr_right (iff_and_self.mpr hout))
    · rw [hkeep r hp hq]
      simp only [hq, and_false, false_or]
      exact iff_and_self.mpr hout

section Steps

variable {host : Host} {buffer_num : Nat} {junk : Nat → Nat} {s s' : FifoState n}
  {place : Nat → Option (Place n)} {queued : List Nat}

/-- A step that moves no descriptor. -/
theorem SocketInv.of_same (h : SocketInv host buffer_num s place queued)
    (hbuffer : s'.server.buffer = s.server.buffer)
    (hpending : s'.server.master.pending = s.server.master.pending)
    (hworkers : ∀ w, (s'.server.workers w).holding = (s.server.workers w).holding ∧
      (s'.server.workers w).closing = (s.server.workers w).closing)
    (haccepted : s'.server.accepted = s.server.accepted) (hsockets : s'.sockets = s.sockets)
    (hresponses : s'.responses = s.responses) : SocketInv host buffer_num s' place queued := by
  constructor
  case queue =>
    rw [hbuffer]
    exact h.queue
  case nodup => exact h.nodup
  case placed =>
    intro p fd
    rw [← h.placed]
    cases p with
    | master => simp only [holders, hpending]
    | buffer => rfl
    | worker w => simp only [holders, (hworkers w).1]
  case opened =>
    rw [hsockets]
    exact h.opened
  case named =>
    rw [hsockets]
    exact h.named
  case fresh =>
    intro fd o ho hout
    rw [hsockets] at ho
    refine h.fresh fd o ho fun w => ?_
    rw [← (hworkers w).2]
    exact hout w
  case answered =>
    intro w fd hfd
    rw [(hworkers w).2] at hfd
    rw [hsockets]
    exact h.answered w fd hfd
  case responses =>
    rw [hresponses]
    exact h.responses
  case balanced =>
    rw [hsockets, haccepted, hresponses]
    exact h.balanced

/-- Two workers do not have the same descriptor. -/
theorem SocketInv.holding_eq (h : SocketInv host buffer_num s place queued) {v w : Fin n}
    {fd : Nat} (hv : fd ∈ (s.server.workers v).holding)
    (hw : fd ∈ (s.server.workers w).holding) : v = w := by
  have hplace := ((h.placed (.worker v) fd).mp hv).symm.trans ((h.placed (.worker w) fd).mp hw)
  cases hplace
  rfl

theorem WorkerPc.closing_subset {I : Type*} (x : WorkerPc I) : ∀ i ∈ x.closing, i ∈ x.holding := by
  cases x <;> simp [WorkerPc.closing, WorkerPc.holding]

theorem conns_update (sockets : Sockets) (fd : Nat) (o : Option OpenSocket) :
    (fun x => (Function.update sockets fd o x).map OpenSocket.conn) =
      Function.update (fun x => (sockets x).map OpenSocket.conn) fd (o.map OpenSocket.conn) :=
  Function.comp_update (Option.map OpenSocket.conn) sockets fd o

/-- The state after the master has accepted a connection. -/
def FifoState.accept (s : FifoState n) (conn : Connection) : FifoState n :=
  { s with
    server := { s.server with master := .lock conn, accepted := s.server.accepted ++ [conn] }
    sockets := Function.update s.sockets conn.fd (some conn.opened) }

theorem SocketInv.accept (h : SocketInv host buffer_num s place queued)
    (hpc : s.server.master = .accept) {conn : Connection} (hfree : s.sockets conn.fd = none) :
    SocketInv host buffer_num (s.accept conn) (Function.update place conn.fd (some .master))
      queued := by
  have hnowhere : place conn.fd = none := by
    have hopen := (h.opened conn.fd).mpr.mt (by rw [hfree]; exact Bool.false_ne_true)
    simpa using hopen
  have hother : ∀ w, ∀ fd ∈ (s.server.workers w).closing, fd ≠ conn.fd := by
    rintro w fd hfd rfl
    have hplace := (h.placed (.worker w) conn.fd).mp ((s.server.workers w).closing_subset _ hfd)
    rw [hnowhere] at hplace
    cases hplace
  constructor
  case queue => exact h.queue
  case nodup => exact h.nodup
  case placed =>
    refine placed_move h.placed hnowhere (by simp) ?_ (fun r hr => by cases hr) ?_
    · intro r _ hr
      cases r with
      | master => exact absurd rfl hr
      | buffer | worker w => rfl
    · intro r hr x
      obtain rfl : Place.master = r := Option.some.inj hr
      simp [holders, FifoState.accept, MasterPc.pending, hpc]
  case opened =>
    intro fd
    by_cases hfd : fd = conn.fd
    · simp [FifoState.accept, hfd]
    · simp only [FifoState.accept, Function.update_of_ne hfd]
      exact h.opened fd
  case named =>
    intro fd o ho
    by_cases hfd : fd = conn.fd
    · simp only [FifoState.accept, hfd, Function.update_self, Option.some.injEq] at ho
      rw [← ho, hfd]
      rfl
    · simp only [FifoState.accept, Function.update_of_ne hfd] at ho
      exact h.named fd o ho
  case fresh =>
    intro fd o ho hout
    by_cases hfd : fd = conn.fd
    · simp only [FifoState.accept, hfd, Function.update_self, Option.some.injEq] at ho
      rw [← ho]
      rfl
    · simp only [FifoState.accept, Function.update_of_ne hfd] at ho
      exact h.fresh fd o ho hout
  case answered =>
    intro w fd hfd o ho
    simp only [FifoState.accept, Function.update_of_ne (hother w fd hfd)] at ho
    exact h.answered w fd hfd o ho
  case responses => exact h.responses
  case balanced =>
    simp only [FifoState.accept, conns_update]
    exact h.balanced.come (by rw [hfree]; rfl)

/-- The state after the master has put a descriptor and woken a worker. -/
def FifoState.put (s : FifoState n) (buffer_num : Nat) (conn : Connection)
    (workers : Fin n → WorkerPc Nat) : FifoState n :=
  { s with
    server := { s.server with
      master := .unlock
      buffer := s.server.buffer.put buffer_num conn.fd
      puts := s.server.puts ++ [conn.fd]
      workers } }

theorem SocketInv.put (h : SocketInv host buffer_num s place queued) {conn : Connection}
    (hpc : s.server.master = .critical conn) (hroom : s.server.buffer.size < buffer_num)
    {workers : Fin n → WorkerPc Nat} (hworkers : ∀ w, workers w = s.server.workers w ∨
      (s.server.workers w).Asleep = true ∧ workers w = .woken) :
    SocketInv host buffer_num (s.put buffer_num conn workers)
      (Function.update place conn.fd (some .buffer)) (queued ++ [conn.fd]) := by
  have hplace : place conn.fd = some .master := by
    rw [← h.placed]
    simp [holders, hpc, MasterPc.pending]
  have hkept : ∀ w, (workers w).holding = (s.server.workers w).holding ∧
      (workers w).closing = (s.server.workers w).closing := by
    intro w
    rcases hworkers w with heq | ⟨hsleep, heq⟩
    · rw [heq]
      exact ⟨rfl, rfl⟩
    · rw [heq]
      cases hw : s.server.workers w <;> rw [hw] at hsleep <;>
        first | exact ⟨rfl, rfl⟩ | cases hsleep
  constructor
  case queue => exact put_holds h.queue hroom conn.fd
  case nodup =>
    rw [List.nodup_append]
    refine ⟨h.nodup, List.nodup_singleton _, ?_⟩
    rintro fd hfd fd' hfd' rfl
    rw [List.mem_singleton] at hfd'
    have hqueued := (h.placed .buffer fd).mp hfd
    rw [hfd', hplace] at hqueued
    cases hqueued
  case placed =>
    refine placed_move h.placed hplace (by simp) ?_ ?_ ?_
    · intro r hmaster hbuffer
      cases r with
      | master => exact absurd rfl hmaster
      | buffer => exact absurd rfl hbuffer
      | worker w => exact (hkept w).1
    · intro r hr x
      obtain rfl : Place.master = r := Option.some.inj hr
      simp [holders, FifoState.put, MasterPc.pending, hpc]
    · intro r hr x
      obtain rfl : Place.buffer = r := Option.some.inj hr
      simp [holders]
  case opened =>
    intro fd
    by_cases hfd : fd = conn.fd
    · rw [hfd, Function.update_self]
      exact (h.opened conn.fd).trans (by simp [hplace])
    · rw [Function.update_of_ne hfd]
      exact h.opened fd
  case named => exact h.named
  case fresh =>
    intro fd o ho hout
    refine h.fresh fd o ho fun w => ?_
    rw [← (hkept w).2]
    exact hout w
  case answered =>
    intro w fd hfd
    refine h.answered w fd ?_
    rw [← (hkept w).2]
    exact hfd
  case responses => exact h.responses
  case balanced => exact h.balanced

/-- The state after a worker has taken a descriptor and signalled. -/
def FifoState.get (s : FifoState n) (buffer_num : Nat) (w : Fin n) : FifoState n :=
  { s with
    server := { s.server.setWorker w (.unlock s.server.buffer.front) with
      buffer := s.server.buffer.get buffer_num
      master := s.server.master.signalEmpty
      taken := s.server.taken ++ [(w, s.server.buffer.front)] } }

theorem SocketInv.get {tmp : Nat} {w : Fin n}
    (h : SocketInv host buffer_num s place (tmp :: queued))
    (hpc : s.server.workers w = .critical) :
    SocketInv host buffer_num (s.get buffer_num w) (Function.update place tmp (some (.worker w)))
      queued := by
  have hplace : place tmp = some .buffer :=
    (h.placed .buffer tmp).mp (List.mem_cons_self ..)
  have hfront : s.server.buffer.front = tmp := front_eq h.queue
  have hself : (s.get buffer_num w).server.workers w = .unlock tmp := by
    rw [← hfront]
    exact Function.update_self ..
  have hothers : ∀ v, v ≠ w → (s.get buffer_num w).server.workers v = s.server.workers v :=
    fun v hv => Function.update_of_ne hv ..
  have hclosing : ∀ v, ((s.get buffer_num w).server.workers v).closing =
      (s.server.workers v).closing := by
    intro v
    by_cases hv : v = w
    · rw [hv, hself, hpc]
      rfl
    · rw [hothers v hv]
  constructor
  case queue => exact get_holds h.queue
  case nodup => exact h.nodup.of_cons
  case placed =>
    refine placed_move h.placed hplace (by simp) ?_ ?_ ?_
    · intro r hbuffer hworker
      cases r with
      | master => simp [holders, FifoState.get]
      | buffer => exact absurd rfl hbuffer
      | worker v =>
        have hv : v ≠ w := by
          rintro rfl
          exact hworker rfl
        simp only [holders, hothers v hv]
    · intro r hr x
      obtain rfl : Place.buffer = r := Option.some.inj hr
      have hout := (List.nodup_cons.mp h.nodup).1
      simp only [holders, List.mem_cons]
      exact ⟨fun hx => ⟨Or.inr hx, fun heq => hout (heq ▸ hx)⟩, fun hx => hx.1.resolve_left hx.2⟩
    · intro r hr x
      obtain rfl : Place.worker w = r := Option.some.inj hr
      simp [holders, hself, hpc, WorkerPc.holding]
  case opened =>
    intro fd
    by_cases hfd : fd = tmp
    · rw [hfd, Function.update_self]
      exact (h.opened tmp).trans (by simp [hplace])
    · rw [Function.update_of_ne hfd]
      exact h.opened fd
  case named => exact h.named
  case fresh =>
    intro fd o ho hout
    refine h.fresh fd o ho fun v => ?_
    rw [← hclosing]
    exact hout v
  case answered =>
    intro v fd hfd
    refine h.answered v fd ?_
    rw [← hclosing]
    exact hfd
  case responses => exact h.responses
  case balanced => exact h.balanced

/-- The state after a worker has handled a descriptor, of which the socket is `o` then. -/
def FifoState.handle (s : FifoState n) (w : Fin n) (tmp : Nat) (o : OpenSocket) : FifoState n :=
  { s with
    server := { s.server.setWorker w (.close tmp) with
      handled := s.server.handled ++ [(w, tmp)] }
    sockets := Function.update s.sockets tmp (some o) }

theorem SocketInv.handle {tmp : Nat} {w : Fin n} (h : SocketInv host buffer_num s place queued)
    (hpc : s.server.workers w = .handle tmp) {o : OpenSocket} {socket : Socket}
    (hopen : s.sockets tmp = some o)
    (hrun : (requestHandle host o.conn.stack).run o.socket = some ((), socket)) :
    SocketInv host buffer_num (s.handle w tmp { o with socket }) place queued := by
  have hholding : tmp ∈ (s.server.workers w).holding := by simp [hpc, WorkerPc.holding]
  have hself : (s.handle w tmp { o with socket }).server.workers w = .close tmp :=
    Function.update_self ..
  have hothers : ∀ v, v ≠ w →
      (s.handle w tmp { o with socket }).server.workers v = s.server.workers v :=
    fun v hv => Function.update_of_ne hv ..
  have hnoone : ∀ v, tmp ∉ (s.server.workers v).closing := by
    intro v hv
    obtain rfl : v = w := h.holding_eq ((s.server.workers v).closing_subset _ hv) hholding
    rw [hpc] at hv
    cases hv
  have hfresh : o = o.conn.opened := h.fresh tmp o hopen hnoone
  constructor
  case queue => exact h.queue
  case nodup => exact h.nodup
  case placed =>
    intro p fd
    rw [← h.placed]
    cases p with
    | master | buffer => rfl
    | worker v =>
      by_cases hv : v = w
      · simp only [holders, hv, hself, hpc, WorkerPc.holding]
      · simp only [holders, hothers v hv]
  case opened =>
    intro fd
    rw [← h.opened]
    by_cases hfd : fd = tmp
    · simp [FifoState.handle, hfd, hopen]
    · simp only [FifoState.handle, Function.update_of_ne hfd]
  case named =>
    intro fd o' ho
    by_cases hfd : fd = tmp
    · simp only [FifoState.handle, hfd, Function.update_self, Option.some.injEq] at ho
      rw [← ho, hfd]
      exact h.named tmp o hopen
    · simp only [FifoState.handle, Function.update_of_ne hfd] at ho
      exact h.named fd o' ho
  case fresh =>
    intro fd o' ho hout
    have hfd : fd ≠ tmp := by
      rintro rfl
      refine hout w ?_
      rw [hself]
      exact List.mem_singleton_self fd
    simp only [FifoState.handle, Function.update_of_ne hfd] at ho
    refine h.fresh fd o' ho fun v hv => ?_
    by_cases hvw : v = w
    · rw [hvw, hpc] at hv
      cases hv
    · refine hout v ?_
      rw [hothers v hvw]
      exact hv
  case answered =>
    intro v fd hfd o' ho
    by_cases hvw : v = w
    · rw [hvw, hself, WorkerPc.closing, List.mem_singleton] at hfd
      simp only [FifoState.handle, hfd, Function.update_self, Option.some.injEq] at ho
      rw [← ho]
      rw [hfresh] at hrun
      exact ⟨socket.input, hrun⟩
    · rw [hothers v hvw] at hfd
      have hne : fd ≠ tmp := by
        rintro rfl
        exact hnoone v hfd
      simp only [FifoState.handle, Function.update_of_ne hne] at ho
      exact h.answered v fd hfd o' ho
  case responses => exact h.responses
  case balanced =>
    have hconn : (s.sockets tmp).map OpenSocket.conn = some o.conn := by
      rw [hopen]
      rfl
    have hsame : Function.update (fun x => (s.sockets x).map OpenSocket.conn) tmp (some o.conn) =
        fun x => (s.sockets x).map OpenSocket.conn := by
      rw [← hconn]
      exact Function.update_eq_self tmp _
    simp only [FifoState.handle, conns_update]
    rw [Option.map_some, hsame]
    exact h.balanced

/-- The state after a worker has closed a descriptor. -/
def FifoState.close (s : FifoState n) (w : Fin n) (tmp : Nat) (o : OpenSocket) : FifoState n :=
  { s with
    server := { s.server.setWorker w .lock with closed := s.server.closed ++ [(w, tmp)] }
    sockets := Function.update s.sockets tmp none
    responses := s.responses ++ [(o.conn, o.socket.output)] }

theorem SocketInv.close {tmp : Nat} {w : Fin n} (h : SocketInv host buffer_num s place queued)
    (hpc : s.server.workers w = .close tmp) {o : OpenSocket} (hopen : s.sockets tmp = some o) :
    SocketInv host buffer_num (s.close w tmp o) (Function.update place tmp none) queued := by
  have hholding : tmp ∈ (s.server.workers w).holding := by simp [hpc, WorkerPc.holding]
  have hplace : place tmp = some (.worker w) := (h.placed (.worker w) tmp).mp hholding
  have hclosing : tmp ∈ (s.server.workers w).closing := by simp [hpc, WorkerPc.closing]
  have hself : (s.close w tmp o).server.workers w = .lock := Function.update_self ..
  have hothers : ∀ v, v ≠ w → (s.close w tmp o).server.workers v = s.server.workers v :=
    fun v hv => Function.update_of_ne hv ..
  constructor
  case queue => exact h.queue
  case nodup => exact h.nodup
  case placed =>
    refine placed_move h.placed hplace (by simp) ?_ ?_ (fun r hr => by cases hr)
    · intro r hworker _
      cases r with
      | master | buffer => rfl
      | worker v =>
        have hv : v ≠ w := by
          rintro rfl
          exact hworker rfl
        simp only [holders, hothers v hv]
    · intro r hr x
      obtain rfl : Place.worker w = r := Option.some.inj hr
      simp [holders, hself, hpc, WorkerPc.holding]
  case opened =>
    intro fd
    by_cases hfd : fd = tmp
    · simp [FifoState.close, hfd]
    · simp only [FifoState.close, Function.update_of_ne hfd]
      exact h.opened fd
  case named =>
    intro fd o' ho
    by_cases hfd : fd = tmp
    · simp [FifoState.close, hfd] at ho
    · simp only [FifoState.close, Function.update_of_ne hfd] at ho
      exact h.named fd o' ho
  case fresh =>
    intro fd o' ho hout
    have hfd : fd ≠ tmp := by
      rintro rfl
      simp [FifoState.close] at ho
    simp only [FifoState.close, Function.update_of_ne hfd] at ho
    refine h.fresh fd o' ho fun v hv => ?_
    by_cases hvw : v = w
    · rw [hvw, hpc, WorkerPc.closing, List.mem_singleton] at hv
      exact hfd hv
    · refine hout v ?_
      rw [hothers v hvw]
      exact hv
  case answered =>
    intro v fd hfd o' ho
    have hvw : v ≠ w := by
      rintro rfl
      rw [hself] at hfd
      cases hfd
    have hne : fd ≠ tmp := by
      rintro rfl
      simp [FifoState.close] at ho
    rw [hothers v hvw] at hfd
    simp only [FifoState.close, Function.update_of_ne hne] at ho
    exact h.answered v fd hfd o' ho
  case responses =>
    intro e he
    rcases List.mem_append.mp he with he | he
    · exact h.responses e he
    · rw [List.mem_singleton.mp he]
      exact h.answered w tmp hclosing o hopen
  case balanced =>
    have hnamed : o.conn.fd = tmp := h.named tmp o hopen
    have hgo := h.balanced.go (v := o.conn) (by rw [hnamed, hopen]; rfl)
    simp only [FifoState.close, conns_update, List.map_append]
    rw [hnamed] at hgo
    exact hgo

/-- No worker but `w` does anything, and `w` has nothing before or after. -/
theorem setWorker_idle {server : State Connection Nat (Queue Nat) n} {w : Fin n}
    {x : WorkerPc Nat} (hholding : (server.workers w).holding = x.holding)
    (hclosing : (server.workers w).closing = x.closing) :
    ∀ v, ((server.setWorker w x).workers v).holding = (server.workers v).holding ∧
      ((server.setWorker w x).workers v).closing = (server.workers v).closing := by
  intro v
  by_cases hv : v = w
  · simp only [State.setWorker, hv, Function.update_self]
    exact ⟨hholding.symm, hclosing.symm⟩
  · simp only [State.setWorker, Function.update_of_ne hv, and_self]

theorem socketInv_master (hn : 0 < n) (hserver : ServerInv (fifoMode buffer_num junk) s.server)
    (h : SocketInv host buffer_num s place queued) {conn : Connection} {wake : Option (Fin n)}
    (hs : stepMasterFifo buffer_num junk s conn wake = some s') :
    ∃ place queued, SocketInv host buffer_num s' place queued := by
  simp only [stepMasterFifo, Option.bind_eq_bind, Option.bind_eq_some_iff] at hs
  obtain ⟨server, hstep, hs⟩ := hs
  cases stepMaster_move hn hstep with
  | accept hpc =>
    simp only [hpc, Option.map_eq_some_iff] at hs
    obtain ⟨sockets, haccept, rfl⟩ := hs
    obtain ⟨hfree, rfl⟩ := Sockets.accept_some haccept
    exact ⟨_, _, h.accept hpc hfree⟩
  | acquire held hpc hfree =>
    refine ⟨place, queued, ?_⟩
    rcases hpc with hpc | hpc <;> simp only [hpc, Option.some.injEq] at hs <;> subst hs <;>
      exact h.of_same rfl (by rw [hpc]; rfl) (fun _ => ⟨rfl, rfl⟩) rfl rfl rfl
  | sleep held hpc hfull =>
    simp only [hpc, Option.some.injEq] at hs
    subst hs
    exact ⟨_, _, h.of_same rfl (by rw [hpc]; rfl) (fun _ => ⟨rfl, rfl⟩) rfl rfl rfl⟩
  | put held workers hpc hroom hwoken =>
    simp only [hpc, Option.some.injEq] at hs
    subst hs
    have hlt : s.server.buffer.size < buffer_num := Nat.lt_of_le_of_ne hserver.count_le hroom
    exact ⟨_, _, h.put hpc hlt hwoken⟩
  | release hpc =>
    simp only [hpc, Option.some.injEq] at hs
    subst hs
    exact ⟨_, _, h.of_same rfl (by rw [hpc]; rfl) (fun _ => ⟨rfl, rfl⟩) rfl rfl rfl⟩

theorem socketInv_worker (h : SocketInv host buffer_num s place queued) {w : Fin n}
    (hs : stepWorkerFifo host buffer_num junk s w = some s') :
    (∃ place queued, SocketInv host buffer_num s' place queued) ∧
      (s'.server = s.server ∨
        stepWorker (fifoMode buffer_num junk) s.server w = some s'.server) := by
  simp only [stepWorkerFifo, Option.bind_eq_bind, Option.bind_eq_some_iff] at hs
  obtain ⟨server, hstep, hs⟩ := hs
  have hcrash : ∃ place queued, SocketInv host buffer_num { s with crashed := true } place queued :=
    ⟨place, queued, h.of_same rfl rfl (fun _ => ⟨rfl, rfl⟩) rfl rfl rfl⟩
  cases stepWorker_move hstep with
  | acquire hpc hfree =>
    have hidle : (s.server.workers w).holding = [] ∧ (s.server.workers w).closing = [] := by
      rcases hpc with hpc | hpc <;> rw [hpc] <;> exact ⟨rfl, rfl⟩
    rcases hpc with hpc | hpc <;> simp only [hpc, Option.some.injEq] at hs <;> subst hs <;>
      exact ⟨⟨_, _, h.of_same rfl rfl (setWorker_idle hidle.1 hidle.2) rfl rfl rfl⟩, Or.inr hstep⟩
  | sleep hpc hempty =>
    simp only [hpc, Option.some.injEq] at hs
    subst hs
    exact ⟨⟨_, _, h.of_same rfl rfl (setWorker_idle (by rw [hpc]; rfl) (by rw [hpc]; rfl))
      rfl rfl rfl⟩, Or.inr hstep⟩
  | get hpc hpos =>
    simp only [hpc, Option.some.injEq] at hs
    subst hs
    obtain ⟨rest, hrest⟩ := exists_cons h.queue hpos
    rw [hrest] at h
    exact ⟨⟨_, _, h.get hpc⟩, Or.inr hstep⟩
  | release item hpc =>
    simp only [hpc, Option.some.injEq] at hs
    subst hs
    exact ⟨⟨_, _, h.of_same rfl rfl (setWorker_idle (by rw [hpc]; rfl) (by rw [hpc]; rfl))
      rfl rfl rfl⟩, Or.inr hstep⟩
  | handle item hpc =>
    simp only [hpc] at hs
    split at hs
    · cases hs
      exact ⟨hcrash, Or.inl rfl⟩
    · rename_i sockets hhandle
      obtain ⟨o, socket, hopen, hrun, rfl⟩ := Sockets.handle_some hhandle
      cases hs
      exact ⟨⟨_, _, h.handle hpc hopen hrun⟩, Or.inr hstep⟩
  | close item hpc =>
    simp only [hpc] at hs
    split at hs
    · cases hs
      exact ⟨hcrash, Or.inl rfl⟩
    · rename_i o hopen
      cases hs
      exact ⟨⟨_, _, h.close hpc hopen⟩, Or.inr hstep⟩

end Steps

theorem Reachable.socketInv {host : Host} {buffer_num : Nat} {junk : Nat → Nat}
    (hb : 0 < buffer_num) (hn : 0 < n) {s : FifoState n}
    (hs : (fifoServer host buffer_num junk n).Reachable s) :
    ServerInv (fifoMode buffer_num junk) s.server ∧
      ∃ place queued, SocketInv host buffer_num s place queued := by
  have hS := fifoMode_counts buffer_num junk
  refine System.Reaches.invariant (P := fun s => ServerInv (fifoMode buffer_num junk) s.server ∧
    ∃ place queued, SocketInv host buffer_num s place queued) ?_ ?_ hs
  · refine ⟨serverInv_start hS, fun _ => none, [], ?_⟩
    constructor
    case queue => exact holds_empty hb junk
    case placed =>
      intro p fd
      cases p <;> simp [holders, fifoServer, State.start, MasterPc.pending, WorkerPc.holding]
    case balanced => exact balanced_nil Connection.fd
    all_goals simp [fifoServer, State.start, WorkerPc.closing]
  · rintro s a s' _ ⟨hserver, place, queued, hinv⟩ _ hstep
    simp only [fifoServer] at hstep
    split at hstep
    · cases hstep
    · cases a with
      | master conn wake =>
        refine ⟨?_, socketInv_master hn hserver hinv hstep⟩
        simp only [stepMasterFifo, Option.bind_eq_bind, Option.bind_eq_some_iff] at hstep
        obtain ⟨server, hmove, hstep⟩ := hstep
        have heq : s'.server = server := by
          split at hstep
          · obtain ⟨_, _, rfl⟩ := Option.map_eq_some_iff.mp hstep
            rfl
          · cases hstep
            rfl
        rw [heq]
        exact serverInv_master hS hn hserver hmove
      | worker w =>
        obtain ⟨hsockets, heq | hmove⟩ := socketInv_worker hinv hstep
        · rw [heq]
          exact ⟨hserver, hsockets⟩
        · exact ⟨serverInv_worker hS hserver hmove, hsockets⟩

/-! ### The refinement -/

/-- Nothing is open when no thread can move but the master that waits for a connection. -/
theorem SocketInv.closed {host : Host} {buffer_num : Nat} {junk : Nat → Nat} {s : FifoState n}
    {place : Nat → Option (Place n)} {queued : List Nat}
    (hserver : ServerInv (fifoMode buffer_num junk) s.server)
    (h : SocketInv host buffer_num s place queued)
    (hquiet : Quiescent (fifoMode buffer_num junk) s.server) : ∀ fd, s.sockets fd = none := by
  have hqueued : queued = [] := by
    rw [← List.length_eq_zero_iff, h.queue.length_eq]
    exact hquiet.empty hserver
  intro fd
  by_contra hopen
  obtain ⟨p, hp⟩ := Option.isSome_iff_exists.mp
    ((h.opened fd).mp (Option.isSome_iff_ne_none.mpr hopen))
  have hheld := (h.placed p fd).mpr hp
  cases p with
  | master =>
    rw [holders, hquiet.master] at hheld
    cases hheld
  | buffer =>
    rw [holders, hqueued] at hheld
    cases hheld
  | worker w =>
    rw [holders, (hquiet.idle hserver w).1] at hheld
    cases hheld

/-- **The sequential server could have done the same.**  In every state that the server
    reaches over connections with complete requests, whatever its threads have done, the
    sequential server can have sent the same responses, in this order, to the connections
    that are closed by now.  These and the open ones are those accepted, and nothing is
    open once all handlers have returned and nobody can move but the master, who waits
    for a connection. -/
theorem fifo_refines_sequential {host : Host} {buffer_num : Nat} {junk : Nat → Nat}
    (hb : 1 ≤ buffer_num) (hn : 1 ≤ n) {s : FifoState n}
    (hs : (fifoServer host buffer_num junk n).Reachable s) :
    ∃ t, (sequential host).Reachable t ∧ t.crashed = false ∧ t.responses = s.responses ∧
      t.accepted = s.responses.map Prod.fst ∧
      Balanced Connection.fd (fun fd => (s.sockets fd).map OpenSocket.conn) s.server.accepted
        t.accepted ∧
      (AtRest (fifoMode buffer_num junk) s.server →
        (∀ w fd, s.server.workers w ≠ .handle fd) → s.server.accepted.Perm t.accepted) := by
  obtain ⟨hserver, place, queued, hinv⟩ := Reachable.socketInv hb hn hs
  refine ⟨_, sequential_reachable hinv.responses, rfl, rfl, rfl, hinv.balanced, ?_⟩
  intro hrest hreturned
  refine hinv.balanced.perm fun fd => ?_
  rw [hinv.closed hserver (hrest.quiescent hreturned) fd]
  rfl

theorem fifo_refines_sequential_post : ∃ (s : FifoState 1) (t : LoopState),
    (fifoServer oneFile 1 (fun _ => 0) 1).run (fifoServer oneFile 1 (fun _ => 0) 1).start
      (oneByOne ⟨3, postRequest, freshStack⟩ ++ [.worker 0]) = some s ∧
    s.responses.length = 1 ∧ (sequential oneFile).Reachable t ∧ t.responses = s.responses := by
  have hend : ((fifoServer oneFile 1 (fun _ => 0) 1).run
      (fifoServer oneFile 1 (fun _ => 0) 1).start
      (oneByOne ⟨3, postRequest, freshStack⟩ ++ [.worker 0])).map (fun s => s.responses.length) =
      some 1 := by decide +kernel
  obtain ⟨s, hs, hlength⟩ := Option.map_eq_some_iff.mp hend
  obtain ⟨t, ht, _, hresponses, _⟩ :=
    fifo_refines_sequential (le_refl 1) (le_refl 1) (System.Reaches.run .start hs)
  exact ⟨s, t, hs, hlength, ht, hresponses⟩

/-! ### SFF mode -/

theorem SffInv.closed {host : Host} {buffer_num : Nat} {junk : Nat → Option RequestInfor}
    {s : SffState n} {place : Nat → Place n} {queued : List RequestInfor}
    (hserver : ServerInv (sff host buffer_num junk) s.server) (h : SffInv host s place queued)
    (hquiet : Quiescent (sff host buffer_num junk) s.server) : ∀ fd, s.sockets fd = none := by
  have hqueued : queued = [] := by
    rw [← List.length_eq_zero_iff, ← h.buffer.count]
    exact hquiet.empty hserver
  intro fd
  by_contra hopen
  have hheld := h.held fd (Option.isSome_iff_ne_none.mpr hopen)
  cases hplace : place fd <;> rw [hplace] at hheld
  case master =>
    obtain ⟨conn, hmem, _⟩ := hheld
    rw [hquiet.master] at hmem
    cases hmem
  case buffer =>
    obtain ⟨infor, hmem, _⟩ := hheld
    rw [hqueued] at hmem
    cases hmem
  case worker w =>
    obtain ⟨infor, hmem, _⟩ := hheld
    rw [(hquiet.idle hserver w).1] at hmem
    cases hmem

/-- **Smallest file first changes the order only.**  As long as the requests accepted are
    servable, the sequential server could have sent the responses of SFF mode: what
    `request_handle_infor` writes from the record is what `request_handle` writes. -/
theorem sff_refines_sequential {host : Host} {buffer_num : Nat} {junk : Nat → Option RequestInfor}
    (hn : 1 ≤ n) {s : SffState n} (hs : (sffServer host buffer_num junk n).Reaches
      (fun s a => ∀ conn, Accepts s a conn → conn.request.Servable host) s) :
    ∃ t, (sequential host).Reachable t ∧ t.crashed = s.crashed ∧ t.responses = s.responses ∧
      t.accepted = s.responses.map Prod.fst ∧
      Balanced Connection.fd (fun fd => (s.sockets fd).map OpenSocket.conn) s.server.accepted
        t.accepted ∧
      (Quiescent (sff host buffer_num junk) s.server → s.server.accepted.Perm t.accepted) := by
  obtain ⟨⟨place, queued, hinv⟩, opened, hperm, hnodup, hopened⟩ := Reaches.sffInv hn hs
  have hserver := Reachable.serverInv (sff_counts host buffer_num junk) hn
    (Reachable.server hs.reachable)
  have hanswers : ∀ e ∈ s.responses, Answers host e.1 e.2 :=
    fun e he => hinv.responses e he e.1.stack
  have hbalanced : Balanced Connection.fd (fun fd => (s.sockets fd).map OpenSocket.conn)
      s.server.accepted (s.responses.map Prod.fst) := ⟨opened, ⟨hnodup, hopened⟩, hperm⟩
  refine ⟨_, sequential_reachable hanswers, hinv.alive.symm, rfl, rfl, hbalanced, fun hquiet => ?_⟩
  refine hbalanced.perm fun fd => ?_
  rw [hinv.closed hserver hquiet fd]
  rfl

theorem sff_refines_sequential_get : ∃ (s : SffState 1) (t : LoopState),
    (sffServer oneFile 16 (fun _ => none) 1).run (sffServer oneFile 16 (fun _ => none) 1).start
      (oneByOne ⟨3, getRequest, freshStack⟩ ++ [.worker 0]) = some s ∧
    s.responses.length = 1 ∧ (sequential oneFile).Reachable t ∧ t.responses = s.responses := by
  have hend : ((sffServer oneFile 16 (fun _ => none) 1).run
      (sffServer oneFile 16 (fun _ => none) 1).start
      (oneByOne ⟨3, getRequest, freshStack⟩ ++ [.worker 0])).map (fun s => s.responses.length) =
      some 1 := by decide +kernel
  obtain ⟨s, hs, hlength⟩ := Option.map_eq_some_iff.mp hend
  obtain ⟨t, ht, _, hresponses, _⟩ :=
    sff_refines_sequential (le_refl 1) (System.Reaches.runAll .start oneByOne_servable hs)
  exact ⟨s, t, hs, hlength, ht, hresponses⟩

end OstepProjects.WebServer
