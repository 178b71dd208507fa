/-
  OstepProjects/WebServer/SffResponses.lean
  =========================================
  **What the clients of the SFF server receive.**

  Every open socket is in one place: with the master, in the buffer or with a worker
  (`SffInv`).  From this follows that the handlers of different connections do not
  write to each other's sockets, so as long as every request accepted is servable, no
  NULL record is put and no handler fails (`sff_serves`).

  A request with another method than GET, or for a file that is not found, gets its
  error response and then a NULL record, which crashes the server
  (`null_crashes`).
-/
import OstepProjects.WebServer.Sff

namespace OstepProjects.WebServer

open OstepProjects.Bytes OstepProjects.Transition OstepProjects.InsertionSort

variable {n : Nat}

/-- What `requestHandle` writes for the connection. -/
def Responds (host : Host) (conn : Connection) (out : List UInt8) : Prop :=
  ∀ stack, ∃ rest, (requestHandle host stack).run ⟨conn.request.bytes, []⟩ =
    some ((), ⟨rest, out⟩)

/-! ### The ledger of connections -/

/-- The connections accepted are those that have been closed and those that are open. -/
def Ledger (s : SffState n) : Prop :=
  ∃ opened : List Connection, s.server.accepted.Perm (s.responses.map Prod.fst ++ opened) ∧
    (opened.map fun conn => conn.fd).Nodup ∧
    ∀ conn, conn ∈ opened ↔ (s.sockets conn.fd).map OpenSocket.conn = some conn

theorem Ledger.of_same {s s' : SffState n} (h : Ledger s)
    (haccepted : s'.server.accepted = s.server.accepted) (hresponses : s'.responses = s.responses)
    (hsockets : ∀ fd, (s'.sockets fd).map OpenSocket.conn = (s.sockets fd).map OpenSocket.conn) :
    Ledger s' := by
  obtain ⟨opened, hperm, hnodup, hopened⟩ := h
  refine ⟨opened, ?_, hnodup, ?_⟩
  · rw [haccepted, hresponses]
    exact hperm
  · intro conn
    rw [hsockets]
    exact hopened conn

theorem Ledger.setSocket {s s' : SffState n} (h : Ledger s)
    (haccepted : s'.server.accepted = s.server.accepted) (hresponses : s'.responses = s.responses)
    {fd : Nat} {socket : Socket} (hsockets : s'.sockets = s.setSocket fd socket) : Ledger s' := by
  apply h.of_same haccepted hresponses
  intro fd'
  rw [hsockets, SffState.setSocket]
  by_cases hfd : fd' = fd
  · rw [hfd, Function.update_self, Option.map_map]
    rfl
  · rw [Function.update_of_ne hfd]

theorem Ledger.accept {s s' : SffState n} (h : Ledger s) {conn : Connection} {socket : Socket}
    (hfd : s.sockets conn.fd = none) (haccepted : s'.server.accepted = s.server.accepted ++ [conn])
    (hresponses : s'.responses = s.responses)
    (hsockets : s'.sockets = Function.update s.sockets conn.fd (some ⟨conn, socket⟩)) :
    Ledger s' := by
  obtain ⟨opened, hperm, hnodup, hopened⟩ := h
  have hclosed : ∀ conn' ∈ opened, conn'.fd ≠ conn.fd := by
    intro conn' hmem heq
    have hopen := (hopened conn').mp hmem
    rw [heq, hfd] at hopen
    cases hopen
  refine ⟨opened ++ [conn], ?_, ?_, ?_⟩
  · rw [haccepted, hresponses, ← List.append_assoc]
    exact hperm.append_right [conn]
  · rw [List.map_append, List.nodup_append]
    refine ⟨hnodup, List.nodup_singleton _, ?_⟩
    intro fd hmem fd' hmem' heq
    obtain ⟨conn', hconn', rfl⟩ := List.mem_map.mp hmem
    rw [List.map_singleton, List.mem_singleton] at hmem'
    exact hclosed conn' hconn' (heq.trans hmem')
  · intro conn'
    rw [hsockets, List.mem_append, List.mem_singleton]
    by_cases heq : conn'.fd = conn.fd
    · rw [heq, Function.update_self]
      constructor
      · rintro (hmem | rfl)
        · exact absurd heq (hclosed conn' hmem)
        · rfl
      · intro hsome
        exact Or.inr (Option.some.inj hsome).symm
    · rw [Function.update_of_ne heq, ← hopened conn']
      exact or_iff_left fun hconn => heq (congrArg Connection.fd hconn)

theorem Ledger.close {s s' : SffState n} (h : Ledger s) {fd : Nat} {o : OpenSocket}
    {out : List UInt8} (hfd : s.sockets fd = some o) (howner : o.conn.fd = fd)
    (haccepted : s'.server.accepted = s.server.accepted)
    (hresponses : s'.responses = s.responses ++ [(o.conn, out)])
    (hsockets : s'.sockets = Function.update s.sockets fd none) : Ledger s' := by
  obtain ⟨opened, hperm, hnodup, hopened⟩ := h
  have hmem : o.conn ∈ opened := by
    rw [hopened, howner, hfd]
    rfl
  obtain ⟨before, behind, rfl⟩ := List.append_of_mem hmem
  have hmiddle : (before ++ o.conn :: behind).Perm (o.conn :: (before ++ behind)) :=
    List.perm_middle
  rw [(hmiddle.map _).nodup_iff, List.map_cons, List.nodup_cons] at hnodup
  refine ⟨before ++ behind, ?_, hnodup.2, ?_⟩
  · rw [haccepted, hresponses, List.map_append, List.append_assoc]
    exact hperm.trans (hmiddle.append_left _)
  · intro conn
    have hother : conn ∈ before ++ behind → conn.fd ≠ fd := fun hconn heq =>
      hnodup.1 (List.mem_map.mpr ⟨conn, hconn, heq.trans howner.symm⟩)
    rw [hsockets]
    by_cases heq : conn.fd = fd
    · rw [heq, Function.update_self]
      exact ⟨fun hconn => absurd heq (hother hconn), fun hsome => (by cases hsome)⟩
    · rw [Function.update_of_ne heq, ← hopened conn, hmiddle.mem_iff, List.mem_cons]
      exact ⟨Or.inr, fun hconn => hconn.resolve_left fun hc =>
        heq ((congrArg Connection.fd hc).trans howner)⟩

/-! ### The place of a connection -/

inductive Place (n : Nat)
  | master
  | buffer
  | worker (w : Fin n)

/-- The record waits for its handler. -/
def Waiting (host : Host) (sockets : Nat → Option OpenSocket) (infor : RequestInfor) : Prop :=
  ∃ conn rest out, Recorded host conn infor out ∧ sockets infor.fd = some ⟨conn, ⟨rest, []⟩⟩

/-- The handler has written the response. -/
def Answered (host : Host) (sockets : Nat → Option OpenSocket) (infor : RequestInfor) : Prop :=
  ∃ conn rest out, Recorded host conn infor out ∧ sockets infor.fd = some ⟨conn, ⟨rest, out⟩⟩

def WorkerOk (host : Host) (place : Nat → Place n) (sockets : Nat → Option OpenSocket)
    (w : Fin n) : WorkerPc (Option RequestInfor) → Prop
  | .unlock item | .handle item => ∃ infor, item = some infor ∧ place infor.fd = .worker w ∧
      Waiting host sockets infor
  | .close item => ∃ infor, item = some infor ∧ place infor.fd = .worker w ∧
      Answered host sockets infor
  | _ => True

/-- Somebody at the place has the descriptor. -/
def HeldAt (server : State Connection (Option RequestInfor) SffBuffer n)
    (queued : List RequestInfor) (fd : Nat) : Place n → Prop
  | .master => ∃ conn ∈ server.master.pending, conn.fd = fd
  | .buffer => ∃ infor ∈ queued, infor.fd = fd
  | .worker w => ∃ infor, some infor ∈ (server.workers w).holding ∧ infor.fd = fd

structure SffInv (host : Host) (s : SffState n) (place : Nat → Place n)
    (queued : List RequestInfor) : Prop where
  alive : s.crashed = false
  pending : ∀ conn ∈ s.server.master.pending, conn.request.Servable host ∧
    place conn.fd = .master ∧ s.sockets conn.fd = some ⟨conn, ⟨conn.request.bytes, []⟩⟩
  buffer : Queued s.server.buffer queued
  nodup : (queued.map fun infor => infor.fd).Nodup
  waiting : ∀ infor ∈ queued, place infor.fd = .buffer ∧ Waiting host s.sockets infor
  worker : ∀ w, WorkerOk host place s.sockets w (s.server.workers w)
  held : ∀ fd, (s.sockets fd).isSome → HeldAt s.server queued fd (place fd)
  puts : none ∉ s.server.puts
  responses : ∀ e ∈ s.responses, Responds host e.1 e.2

/-! ### Frames -/

/-- The open sockets at place `p` stay there as they are. -/
def Keeps (place place' : Nat → Place n) (sockets sockets' : Nat → Option OpenSocket)
    (p : Place n) : Prop :=
  ∀ fd, (sockets fd).isSome → place fd = p → place' fd = p ∧ sockets' fd = sockets fd

theorem Keeps.refl (place : Nat → Place n) (sockets : Nat → Option OpenSocket) (p : Place n) :
    Keeps place place sockets sockets p :=
  fun _ _ hp => ⟨hp, rfl⟩

/-- Whoever has the descriptor still has it. -/
theorem HeldAt.frame {server server' : State Connection (Option RequestInfor) SffBuffer n}
    {queued queued' : List RequestInfor} {fd : Nat} {p : Place n} (h : HeldAt server queued fd p)
    (hmaster : ∀ conn ∈ server.master.pending, conn.fd = fd → conn ∈ server'.master.pending)
    (hbuffer : ∀ infor ∈ queued, infor.fd = fd → infor ∈ queued')
    (hworker : ∀ w, p = .worker w → ∀ infor, some infor ∈ (server.workers w).holding →
      infor.fd = fd → some infor ∈ (server'.workers w).holding) :
    HeldAt server' queued' fd p := by
  cases p with
  | master =>
    obtain ⟨conn, hmem, hconn⟩ := h
    exact ⟨conn, hmaster conn hmem hconn, hconn⟩
  | buffer =>
    obtain ⟨infor, hmem, hinfor⟩ := h
    exact ⟨infor, hbuffer infor hmem hinfor, hinfor⟩
  | worker w =>
    obtain ⟨infor, hmem, hinfor⟩ := h
    exact ⟨infor, hworker w rfl infor hmem hinfor, hinfor⟩

/-- A change to one descriptor that was closed or at another place. -/
theorem keeps_update {place : Nat → Place n} {sockets : Nat → Option OpenSocket} {p : Place n}
    {fd : Nat} (h : (sockets fd).isSome → place fd ≠ p) (q : Place n) (o : Option OpenSocket) :
    Keeps place (Function.update place fd q) sockets (Function.update sockets fd o) p := by
  intro fd' hopen hp
  by_cases hfd : fd' = fd
  · rw [hfd] at hopen hp
    exact absurd hp (h hopen)
  · rw [Function.update_of_ne hfd, Function.update_of_ne hfd]
    exact ⟨hp, rfl⟩

theorem keeps_place {place : Nat → Place n} {p : Place n} {fd : Nat} (h : place fd ≠ p)
    (q : Place n) (sockets : Nat → Option OpenSocket) :
    Keeps place (Function.update place fd q) sockets sockets p := by
  have hkeeps := keeps_update (fun _ : (sockets fd).isSome => h) q (sockets fd)
  rwa [Function.update_eq_self] at hkeeps

theorem keeps_socket {place : Nat → Place n} {p : Place n} {fd : Nat} (h : place fd ≠ p)
    (sockets : Nat → Option OpenSocket) (o : Option OpenSocket) :
    Keeps place place sockets (Function.update sockets fd o) p := by
  have hkeeps := keeps_update (fun _ : (sockets fd).isSome => h) (place fd) o
  rwa [Function.update_eq_self] at hkeeps

section Frames

variable {host : Host} {place place' : Nat → Place n} {sockets sockets' : Nat → Option OpenSocket}

theorem Waiting.frame {infor : RequestInfor} (h : Waiting host sockets infor)
    (heq : sockets' infor.fd = sockets infor.fd) : Waiting host sockets' infor := by
  obtain ⟨conn, rest, out, hrecorded, hsocket⟩ := h
  exact ⟨conn, rest, out, hrecorded, heq.trans hsocket⟩

theorem Waiting.isSome {infor : RequestInfor} (h : Waiting host sockets infor) :
    (sockets infor.fd).isSome := by
  obtain ⟨conn, rest, out, _, hsocket⟩ := h
  rw [hsocket]
  rfl

theorem Answered.frame {infor : RequestInfor} (h : Answered host sockets infor)
    (heq : sockets' infor.fd = sockets infor.fd) : Answered host sockets' infor := by
  obtain ⟨conn, rest, out, hrecorded, hsocket⟩ := h
  exact ⟨conn, rest, out, hrecorded, heq.trans hsocket⟩

theorem Answered.isSome {infor : RequestInfor} (h : Answered host sockets infor) :
    (sockets infor.fd).isSome := by
  obtain ⟨conn, rest, out, _, hsocket⟩ := h
  rw [hsocket]
  rfl

theorem WorkerOk.frame {w : Fin n} {x : WorkerPc (Option RequestInfor)}
    (h : WorkerOk host place sockets w x)
    (hkeeps : Keeps place place' sockets sockets' (.worker w)) :
    WorkerOk host place' sockets' w x := by
  cases x with
  | unlock item | handle item =>
    obtain ⟨infor, hitem, hplace, hwaiting⟩ := h
    obtain ⟨hplace', hsocket⟩ := hkeeps _ hwaiting.isSome hplace
    exact ⟨infor, hitem, hplace', hwaiting.frame hsocket⟩
  | close item =>
    obtain ⟨infor, hitem, hplace, hanswered⟩ := h
    obtain ⟨hplace', hsocket⟩ := hkeeps _ hanswered.isSome hplace
    exact ⟨infor, hitem, hplace', hanswered.frame hsocket⟩
  | _ => trivial

theorem queued_frame {queued : List RequestInfor}
    (h : ∀ infor ∈ queued, place infor.fd = .buffer ∧ Waiting host sockets infor)
    (hkeeps : Keeps place place' sockets sockets' .buffer) :
    ∀ infor ∈ queued, place' infor.fd = .buffer ∧ Waiting host sockets' infor := by
  intro infor hmem
  obtain ⟨hplace, hwaiting⟩ := h infor hmem
  obtain ⟨hplace', hsocket⟩ := hkeeps _ hwaiting.isSome hplace
  exact ⟨hplace', hwaiting.frame hsocket⟩

theorem pending_frame {pending : List Connection}
    (h : ∀ conn ∈ pending, conn.request.Servable host ∧ place conn.fd = .master ∧
      sockets conn.fd = some ⟨conn, ⟨conn.request.bytes, []⟩⟩)
    (hkeeps : Keeps place place' sockets sockets' .master) :
    ∀ conn ∈ pending, conn.request.Servable host ∧ place' conn.fd = .master ∧
      sockets' conn.fd = some ⟨conn, ⟨conn.request.bytes, []⟩⟩ := by
  intro conn hmem
  obtain ⟨hservable, hplace, hsocket⟩ := h conn hmem
  obtain ⟨hplace', heq⟩ := hkeeps _ (by rw [hsocket]; rfl) hplace
  exact ⟨hservable, hplace', heq.trans hsocket⟩

end Frames

/-! ### Steps of the master -/

section Master

variable {host : Host} {buffer_num : Nat} {junk : Nat → Option RequestInfor}
  {s s' : SffState n} {place : Nat → Place n} {queued : List RequestInfor}

theorem sffInv_accept {conn : Connection} (h : SffInv host s place queued)
    (hm : s.server.master = .accept) (hservable : conn.request.Servable host)
    (hfd : s.sockets conn.fd = none) :
    SffInv host { s with
        server := { s.server with
          master := .lock conn, accepted := s.server.accepted ++ [conn] }
        sockets := Function.update s.sockets conn.fd (some ⟨conn, ⟨conn.request.bytes, []⟩⟩) }
      (Function.update place conn.fd .master) queued := by
  have hclosed : ∀ p, (s.sockets conn.fd).isSome → place conn.fd ≠ p := by
    intro p hopen
    rw [hfd] at hopen
    cases hopen
  have hself : ∀ o : Option OpenSocket, Function.update s.sockets conn.fd o conn.fd = o :=
    fun _ => Function.update_self ..
  refine ⟨h.alive, ?_, h.buffer, h.nodup, queued_frame h.waiting (keeps_update (hclosed _) _ _),
    fun w => (h.worker w).frame (keeps_update (hclosed _) _ _), ?_, h.puts, h.responses⟩
  · intro conn' hmem
    rw [List.mem_singleton.mp hmem]
    exact ⟨hservable, Function.update_self .., hself _⟩
  · intro fd hopen
    by_cases heq : fd = conn.fd
    · rw [heq, Function.update_self]
      exact ⟨conn, List.mem_singleton_self conn, rfl⟩
    · have hopen' : (s.sockets fd).isSome := by
        rw [← Function.update_of_ne heq (some ⟨conn, ⟨conn.request.bytes, []⟩⟩) s.sockets]
        exact hopen
      rw [Function.update_of_ne heq]
      apply (h.held fd hopen').frame
      · intro conn' hmem _
        rw [hm] at hmem
        cases hmem
      · exact fun _ hmem _ => hmem
      · exact fun _ _ _ hmem _ => hmem

/-- A step that leaves the sockets, the buffer and the logs of puts as they are. -/
theorem SffInv.of_pending {server : State Connection (Option RequestInfor) SffBuffer n}
    (h : SffInv host s place queued) (hpending : server.master.pending = s.server.master.pending)
    (hbuffer : server.buffer = s.server.buffer) (hworkers : server.workers = s.server.workers)
    (hputs : server.puts = s.server.puts) : SffInv host { s with server } place queued := by
  refine ⟨h.alive, ?_, ?_, h.nodup, h.waiting, ?_, ?_, ?_, h.responses⟩
  · simpa only [hpending] using h.pending
  · simpa only [hbuffer] using h.buffer
  · simpa only [hworkers] using h.worker
  · intro fd hopen
    apply (h.held fd hopen).frame
    · intro conn hmem _
      rw [hpending]
      exact hmem
    · exact fun _ hmem _ => hmem
    · intro w _ infor hmem _
      rw [hworkers]
      exact hmem
  · simpa only [hputs] using h.puts

theorem holding_of_asleep {x : WorkerPc (Option RequestInfor)} (h : x.Asleep = true) :
    x.holding = [] := by
  cases x with
  | asleep => rfl
  | _ => cases h

theorem sffInv_put {conn : Connection} {infor : RequestInfor} {rest : List UInt8}
    {b : SffBuffer} {workers : Fin n → WorkerPc (Option RequestInfor)}
    (h : SffInv host s place queued) (hm : s.server.master = .critical conn)
    (hfd : infor.fd = conn.fd) (hwaiting : ∃ out, Recorded host conn infor out)
    (hqueued : Queued b (insertLast smaller queued infor))
    (hworkers : ∀ w, workers w = s.server.workers w ∨
      (s.server.workers w).Asleep = true ∧ workers w = .woken) :
    SffInv host { s with
        server := { s.server with
          master := .unlock
          buffer := b
          puts := s.server.puts ++ [some infor]
          workers }
        sockets := s.setSocket conn.fd ⟨rest, []⟩ }
      (Function.update place conn.fd .buffer) (insertLast smaller queued infor) := by
  have hpending : conn ∈ s.server.master.pending := by
    rw [hm]
    exact List.mem_singleton_self conn
  obtain ⟨_, hplace, hsocket⟩ := h.pending conn hpending
  have hother : ∀ p, p ≠ Place.master → (s.sockets conn.fd).isSome → place conn.fd ≠ p :=
    fun p hp _ heq => hp (heq.symm.trans hplace)
  have hset : s.setSocket conn.fd ⟨rest, []⟩ =
      Function.update s.sockets conn.fd (some ⟨conn, ⟨rest, []⟩⟩) := by
    rw [SffState.setSocket, hsocket]
    rfl
  rw [hset]
  have hfresh : ∀ infor' ∈ queued, infor'.fd ≠ conn.fd := by
    intro infor' hmem heq
    have hbuffer := (h.waiting infor' hmem).1
    rw [heq, hplace] at hbuffer
    cases hbuffer
  refine ⟨h.alive, fun _ hmem => (by cases hmem), hqueued, ?_, ?_, ?_, ?_, ?_,
    h.responses⟩
  · have hperm := (perm_insertLast smaller queued infor).map fun infor => infor.fd
    rw [hperm.nodup_iff, List.map_append, List.nodup_append]
    refine ⟨h.nodup, List.nodup_singleton _, ?_⟩
    intro fd hmem fd' hmem' heq
    obtain ⟨infor', hinfor', rfl⟩ := List.mem_map.mp hmem
    rw [List.map_singleton, List.mem_singleton, hfd] at hmem'
    exact hfresh infor' hinfor' (heq.trans hmem')
  · intro infor' hmem
    rcases (mem_insertLast smaller).mp hmem with rfl | hmem
    · obtain ⟨out, hrecorded⟩ := hwaiting
      rw [hfd]
      refine ⟨Function.update_self .., conn, rest, out, hrecorded, ?_⟩
      rw [hfd]
      exact Function.update_self ..
    · exact queued_frame h.waiting (keeps_update (hother _ (by simp)) _ _) infor' hmem
  · intro w
    rcases hworkers w with hsame | ⟨_, hwoken⟩
    · change WorkerOk _ _ _ _ (workers w)
      rw [hsame]
      exact (h.worker w).frame (keeps_update (hother _ (by simp)) _ _)
    · change WorkerOk _ _ _ _ (workers w)
      rw [hwoken]
      trivial
  · intro fd hopen
    by_cases heq : fd = conn.fd
    · rw [heq, Function.update_self]
      exact ⟨infor, (mem_insertLast smaller).mpr (Or.inl rfl), hfd⟩
    · have hopen' : (s.sockets fd).isSome := by
        rw [← Function.update_of_ne heq (some ⟨conn, ⟨rest, []⟩⟩) s.sockets]
        exact hopen
      rw [Function.update_of_ne heq]
      apply (h.held fd hopen').frame
      · intro conn' hmem hconn'
        rw [hm] at hmem
        rw [List.mem_singleton.mp hmem] at hconn'
        exact absurd hconn'.symm heq
      · intro infor' hmem _
        exact (mem_insertLast smaller).mpr (Or.inr hmem)
      · intro w _ infor' hmem _
        rcases hworkers w with hsame | ⟨hasleep, _⟩
        · change _ ∈ (workers w).holding
          rw [hsame]
          exact hmem
        · rw [holding_of_asleep hasleep] at hmem
          cases hmem
  · intro hmem
    rcases List.mem_append.mp hmem with hmem | hmem
    · exact h.puts hmem
    · cases List.mem_singleton.mp hmem

/-- A step of the master that accepts only servable requests. -/
theorem sffInv_master (hn : 0 < n) {conn : Connection} {wake : Option (Fin n)}
    (h : SffInv host s place queued)
    (hok : s.server.master = .accept → conn.request.Servable host)
    (hs : stepMasterSff host buffer_num junk s conn wake = some s') :
    ∃ place' queued', SffInv host s' place' queued' := by
  cases hm : s.server.master <;> simp only [stepMasterSff, hm] at hs
  case accept =>
    split at hs
    · rename_i hfd
      simp only [stepMaster, hm, Option.map_some, Option.some.injEq] at hs
      subst hs
      exact ⟨_, _, sffInv_accept h hm (hok hm) (Option.isNone_iff_eq_none.mp hfd)⟩
    · cases hs
  case lock conn' | woken conn' =>
    simp only [stepMaster, hm] at hs
    split at hs <;> cases hs
    refine ⟨_, _, h.of_pending ?_ rfl rfl rfl⟩
    rw [hm]
    rfl
  case critical conn' =>
    obtain ⟨hservable, _, _⟩ := h.pending conn' (by rw [hm]; exact List.mem_singleton_self _)
    obtain ⟨infor, out, hrecorded⟩ := hservable.recorded
    obtain ⟨rest, hrun⟩ := hrecorded.fileSize
    obtain ⟨b, hput, hqueued⟩ := h.buffer.put infor
    have hrecord : conn'.record host = some (some infor, ⟨rest, []⟩) := hrun
    split at hs
    · rename_i hfull
      have hlimit : (sff host buffer_num junk).count s.server.buffer =
        (sff host buffer_num junk).limit := hfull
      simp only [stepMaster, hm, if_pos hlimit, Option.map_some, Option.some.injEq] at hs
      subst hs
      refine ⟨_, _, h.of_pending ?_ rfl rfl rfl⟩
      rw [hm]
      rfl
    · rename_i hnotfull
      have hlimit : ¬ (sff host buffer_num junk).count s.server.buffer =
        (sff host buffer_num junk).limit := hnotfull
      simp only [hrecord, hput, stepMaster, hm, if_neg hlimit] at hs
      obtain ⟨server, hsignal, rfl⟩ := Option.map_eq_some_iff.mp hs
      obtain ⟨hworkers, _, heq⟩ := signalFull_cases hn hsignal
      have hentry : (sff host buffer_num junk).entry conn' = some infor := by
        simp only [sff, hrecord, Option.bind_some]
      have hbuffer : (sff host buffer_num junk).put s.server.buffer (some infor) = b := by
        simp only [sff, hput, Option.getD_some]
      rw [hentry, hbuffer] at heq
      rw [heq]
      exact ⟨_, _, sffInv_put h hm hrecorded.fd ⟨out, hrecorded⟩ hqueued hworkers⟩
  case asleep conn' =>
    simp only [stepMaster, hm, Option.map_none] at hs
    cases hs
  case unlock =>
    simp only [stepMaster, hm, Option.map_some, Option.some.injEq] at hs
    subst hs
    refine ⟨_, _, h.of_pending ?_ rfl rfl rfl⟩
    rw [hm]
    rfl

theorem ledger_master {conn : Connection} {wake : Option (Fin n)} (h : Ledger s)
    (hs : stepMasterSff host buffer_num junk s conn wake = some s') : Ledger s' := by
  by_cases haccept : s.server.master = .accept
  · simp only [stepMasterSff, haccept] at hs
    split at hs
    · rename_i hfd
      simp only [stepMaster, haccept, Option.map_some, Option.some.injEq] at hs
      subst hs
      exact h.accept (Option.isNone_iff_eq_none.mp hfd) rfl rfl rfl
    · cases hs
  · have hstep : ∀ server, stepMaster (sff host buffer_num junk) s.server conn wake = some server →
        server.accepted = s.server.accepted := fun _ => stepMaster_accepted haccept
    have hsame : (stepMaster (sff host buffer_num junk) s.server conn wake).map
        (fun server => { s with server }) = some s' → Ledger s' := by
      intro hs
      obtain ⟨server, hserver, rfl⟩ := Option.map_eq_some_iff.mp hs
      exact h.of_same (hstep _ hserver) rfl fun _ => rfl
    cases hm : s.server.master <;> simp only [stepMasterSff, hm] at hs
    case accept => exact absurd hm haccept
    case critical conn' =>
      split at hs
      · exact hsame hs
      · split at hs
        · cases hs
          exact h.of_same rfl rfl fun _ => rfl
        · split at hs
          · cases hs
            exact h.of_same rfl rfl fun _ => rfl
          · obtain ⟨server, hserver, rfl⟩ := Option.map_eq_some_iff.mp hs
            exact h.setSocket (hstep _ hserver) rfl rfl
    all_goals exact hsame hs

end Master

/-! ### Steps of a worker -/

section Worker

variable {host : Host} {buffer_num : Nat} {junk : Nat → Option RequestInfor}
  {s s' : SffState n} {place : Nat → Place n} {queued : List RequestInfor} {w : Fin n}

/-- A step of worker `w` that changes at most the sockets it has. -/
theorem SffInv.of_worker {server : State Connection (Option RequestInfor) SffBuffer n}
    {sockets : Nat → Option OpenSocket} {x : WorkerPc (Option RequestInfor)}
    (h : SffInv host s place queued) (hpending : server.master.pending = s.server.master.pending)
    (hbuffer : server.buffer = s.server.buffer) (hputs : server.puts = s.server.puts)
    (hworkers : server.workers = Function.update s.server.workers w x)
    (hholding : x.holding = (s.server.workers w).holding)
    (hkeeps : ∀ p, p ≠ .worker w → Keeps place place s.sockets sockets p)
    (hopened : ∀ fd, (sockets fd).isSome → (s.sockets fd).isSome)
    (hx : WorkerOk host place sockets w x) :
    SffInv host { s with server, sockets } place queued := by
  refine ⟨h.alive, ?_, ?_, h.nodup, queued_frame h.waiting (hkeeps _ (by simp)), ?_,
    ?_, ?_, h.responses⟩
  · change ∀ conn ∈ server.master.pending, _
    rw [hpending]
    exact pending_frame h.pending (hkeeps _ (by simp))
  · change Queued server.buffer queued
    rw [hbuffer]
    exact h.buffer
  · change ∀ v, WorkerOk host place sockets v (server.workers v)
    rw [hworkers, Function.forall_update_iff _ (WorkerOk host place sockets)]
    exact ⟨hx, fun v hvw => (h.worker v).frame (hkeeps _ (by simpa using hvw))⟩
  · intro fd hopen
    apply (h.held fd (hopened fd hopen)).frame
    · intro conn hmem _
      change conn ∈ server.master.pending
      rw [hpending]
      exact hmem
    · exact fun _ hmem _ => hmem
    · intro v _ infor hmem _
      change _ ∈ (server.workers v).holding
      rw [hworkers]
      by_cases hvw : v = w
      · rw [hvw] at hmem
        rw [hvw, Function.update_self, hholding]
        exact hmem
      · rw [Function.update_of_ne hvw]
        exact hmem
  · change none ∉ server.puts
    rw [hputs]
    exact h.puts

theorem sffInv_take {infor : RequestInfor} {rest : List RequestInfor} {b : SffBuffer}
    {server : State Connection (Option RequestInfor) SffBuffer n}
    (h : SffInv host s place (infor :: rest)) (hqueued : Queued b rest)
    (hpending : server.master.pending = s.server.master.pending)
    (hbuffer : server.buffer = b) (hputs : server.puts = s.server.puts)
    (hworkers : server.workers = Function.update s.server.workers w (.unlock (some infor)))
    (hholding : (s.server.workers w).holding = []) :
    SffInv host { s with server } (Function.update place infor.fd (.worker w)) rest := by
  obtain ⟨hplace, hwaiting⟩ := h.waiting infor (by simp)
  obtain ⟨hnotin, hnodup⟩ := List.nodup_cons.mp h.nodup
  have hother : ∀ p, p ≠ Place.buffer →
      Keeps place (Function.update place infor.fd (.worker w)) s.sockets s.sockets p :=
    fun p hp => keeps_place (fun heq => hp (heq.symm.trans hplace)) _ _
  have hrest : ∀ infor' ∈ rest, infor'.fd ≠ infor.fd :=
    fun infor' hmem heq => hnotin (List.mem_map.mpr ⟨infor', hmem, heq⟩)
  refine ⟨h.alive, ?_, ?_, hnodup, ?_, ?_, ?_, ?_, h.responses⟩
  · change ∀ conn ∈ server.master.pending, _
    rw [hpending]
    exact pending_frame h.pending (hother _ (by simp))
  · change Queued server.buffer rest
    rw [hbuffer]
    exact hqueued
  · intro infor' hmem
    obtain ⟨hplace', hwaiting'⟩ := h.waiting infor' (by simp [hmem])
    rw [Function.update_of_ne (hrest infor' hmem)]
    exact ⟨hplace', hwaiting'⟩
  · change ∀ v, WorkerOk host _ s.sockets v (server.workers v)
    rw [hworkers, Function.forall_update_iff _ (WorkerOk host _ s.sockets)]
    exact ⟨⟨infor, rfl, Function.update_self .., hwaiting⟩,
      fun v _ => (h.worker v).frame (hother _ (by simp))⟩
  · intro fd hopen
    have hheld := h.held fd hopen
    by_cases hfd : fd = infor.fd
    · rw [hfd, Function.update_self]
      refine ⟨infor, ?_, rfl⟩
      change _ ∈ (server.workers w).holding
      rw [hworkers, Function.update_self]
      exact List.mem_singleton_self _
    · rw [Function.update_of_ne hfd]
      apply hheld.frame
      · intro conn hmem _
        change conn ∈ server.master.pending
        rw [hpending]
        exact hmem
      · intro infor' hmem hinfor'
        rcases List.mem_cons.mp hmem with rfl | hmem
        · exact absurd hinfor'.symm hfd
        · exact hmem
      · intro v _ infor' hmem _
        change _ ∈ (server.workers v).holding
        rw [hworkers]
        by_cases hvw : v = w
        · rw [hvw, hholding] at hmem
          cases hmem
        · rw [Function.update_of_ne hvw]
          exact hmem
  · change none ∉ server.puts
    rw [hputs]
    exact h.puts

theorem sffInv_close {infor : RequestInfor} {conn : Connection} {out : List UInt8}
    {server : State Connection (Option RequestInfor) SffBuffer n}
    (h : SffInv host s place queued) (hplace : place infor.fd = .worker w)
    (hresponds : Responds host conn out)
    (hpending : server.master.pending = s.server.master.pending)
    (hbuffer : server.buffer = s.server.buffer) (hputs : server.puts = s.server.puts)
    (hworkers : server.workers = Function.update s.server.workers w .lock)
    (hholding : (s.server.workers w).holding = [some infor]) :
    SffInv host { s with
        server
        sockets := Function.update s.sockets infor.fd none
        responses := s.responses ++ [(conn, out)] } place queued := by
  have hother : ∀ p, p ≠ Place.worker w →
      Keeps place place s.sockets (Function.update s.sockets infor.fd none) p :=
    fun p hp => keeps_socket (fun heq => hp (heq.symm.trans hplace)) _ _
  refine ⟨h.alive, ?_, ?_, h.nodup, queued_frame h.waiting (hother _ (by simp)), ?_,
    ?_, ?_, ?_⟩
  · change ∀ conn ∈ server.master.pending, _
    rw [hpending]
    exact pending_frame h.pending (hother _ (by simp))
  · change Queued server.buffer queued
    rw [hbuffer]
    exact h.buffer
  · change ∀ v, WorkerOk host place _ v (server.workers v)
    rw [hworkers, Function.forall_update_iff _ (WorkerOk host place _)]
    exact ⟨trivial, fun v hvw => (h.worker v).frame (hother _ (by simpa using hvw))⟩
  · intro fd hopen
    have hfd : fd ≠ infor.fd := by
      intro heq
      have hclosed : Function.update s.sockets infor.fd none fd = none := by
        rw [heq, Function.update_self]
      change (Function.update s.sockets infor.fd none fd).isSome = true at hopen
      rw [hclosed] at hopen
      cases hopen
    have hopen' : (s.sockets fd).isSome := by
      rw [← Function.update_of_ne hfd none s.sockets]
      exact hopen
    apply (h.held fd hopen').frame
    · intro conn hmem _
      change conn ∈ server.master.pending
      rw [hpending]
      exact hmem
    · exact fun _ hmem _ => hmem
    · intro v _ infor' hmem hinfor'
      change _ ∈ (server.workers v).holding
      by_cases hvw : v = w
      · rw [hvw, hholding] at hmem
        rw [Option.some.inj (List.mem_singleton.mp hmem)] at hinfor'
        exact absurd hinfor'.symm hfd
      · rw [hworkers, Function.update_of_ne hvw]
        exact hmem
  · change none ∉ server.puts
    rw [hputs]
    exact h.puts
  · intro e hmem
    rcases List.mem_append.mp hmem with hmem | hmem
    · exact h.responses e hmem
    · rw [List.mem_singleton.mp hmem]
      exact hresponds

theorem sffInv_worker (h : SffInv host s place queued)
    (hs : stepWorkerSff host buffer_num junk s w = some s') :
    ∃ place' queued', SffInv host s' place' queued' := by
  have hw := h.worker w
  have hrefl : ∀ p, p ≠ Place.worker w → Keeps place place s.sockets s.sockets p :=
    fun p _ => Keeps.refl place s.sockets p
  cases hx : s.server.workers w <;> simp only [stepWorkerSff, hx] at hs <;> rw [hx] at hw
  case lock | woken =>
    simp only [stepWorker, hx] at hs
    split at hs <;> cases hs
    exact ⟨_, _, h.of_worker rfl rfl rfl rfl (by rw [hx]; rfl) hrefl (fun _ => id) trivial⟩
  case critical =>
    simp only [stepWorker, hx] at hs
    split at hs
    · cases hs
      exact ⟨_, _, h.of_worker rfl rfl rfl rfl (by rw [hx]; rfl) hrefl (fun _ => id) trivial⟩
    · rename_i hpos
      cases hs
      have hcount := h.buffer.count
      cases queued with
      | nil => exact absurd hcount hpos
      | cons infor rest =>
        obtain ⟨hget, hqueued⟩ := h.buffer.get
        have hget' : ((sff host buffer_num junk).get s.server.buffer).1 = some infor := hget
        rw [hget']
        refine ⟨_, _, sffInv_take h hqueued ?_ rfl rfl rfl (by rw [hx]; rfl)⟩
        cases s.server.master <;> rfl
  case asleep =>
    simp only [stepWorker, hx, Option.map_none] at hs
    cases hs
  case unlock item =>
    simp only [stepWorker, hx, Option.map_some, Option.some.injEq] at hs
    subst hs
    exact ⟨_, _, h.of_worker rfl rfl rfl rfl (by rw [hx]; rfl) hrefl (fun _ => id) hw⟩
  case handle item =>
    obtain ⟨infor, rfl, hplace, conn, rest, out, hrecorded, hsocket⟩ := hw
    simp only [hsocket, Option.bind_some, hrecorded.handleInfor _, List.nil_append, stepWorker,
      hx, Option.map_some, Option.some.injEq] at hs
    subst hs
    have hset : s.setSocket infor.fd ⟨rest, out⟩ =
        Function.update s.sockets infor.fd (some ⟨conn, ⟨rest, out⟩⟩) := by
      rw [SffState.setSocket, hsocket]
      rfl
    rw [hset]
    refine ⟨_, _, h.of_worker rfl rfl rfl rfl (by rw [hx]; rfl)
      (fun p hp => keeps_socket (fun heq => hp (heq.symm.trans hplace)) _ _)
      (fun fd hopen => ?_) ?_⟩
    · by_cases hfd : fd = infor.fd
      · rw [hfd, hsocket]
        rfl
      · rwa [Function.update_of_ne hfd] at hopen
    · exact ⟨infor, rfl, hplace, conn, rest, out, hrecorded, Function.update_self ..⟩
  case close item =>
    obtain ⟨infor, rfl, hplace, conn, rest, out, hrecorded, hsocket⟩ := hw
    simp only [hsocket, stepWorker, hx, Option.map_some, Option.some.injEq] at hs
    subst hs
    exact ⟨_, _, sffInv_close h hplace hrecorded.handle rfl rfl rfl rfl (by rw [hx]; rfl)⟩

theorem ledger_worker (hledger : Ledger s) (h : SffInv host s place queued)
    (hs : stepWorkerSff host buffer_num junk s w = some s') : Ledger s' := by
  have hw := h.worker w
  have hstep : ∀ server, stepWorker (sff host buffer_num junk) s.server w = some server →
      server.accepted = s.server.accepted := fun _ => stepWorker_accepted
  cases hx : s.server.workers w <;> simp only [stepWorkerSff, hx] at hs <;> rw [hx] at hw
  case handle item =>
    obtain ⟨infor, rfl, hplace, conn, rest, out, hrecorded, hsocket⟩ := hw
    simp only [hsocket, Option.bind_some, hrecorded.handleInfor _] at hs
    obtain ⟨server, hserver, rfl⟩ := Option.map_eq_some_iff.mp hs
    exact hledger.setSocket (hstep _ hserver) rfl rfl
  case close item =>
    obtain ⟨infor, rfl, hplace, conn, rest, out, hrecorded, hsocket⟩ := hw
    simp only [hsocket] at hs
    obtain ⟨server, hserver, rfl⟩ := Option.map_eq_some_iff.mp hs
    exact hledger.close hsocket hrecorded.fd.symm (hstep _ hserver) rfl rfl
  all_goals
    obtain ⟨server, hserver, rfl⟩ := Option.map_eq_some_iff.mp hs
    exact hledger.of_same (hstep _ hserver) rfl fun _ => rfl

end Worker

/-! ### Runs -/

/-- The master accepts the connection. -/
def Accepts (s : SffState n) (a : Action Connection n) (conn : Connection) : Prop :=
  s.server.master = .accept ∧ ∃ wake, a = .master conn wake

theorem sffInv_start (host : Host) (buffer_num : Nat) (junk : Nat → Option RequestInfor) :
    SffInv host (sffServer host buffer_num junk n).start (fun _ => .master) [] := by
  refine ⟨rfl, fun _ hmem => (by cases hmem), ⟨begins_nil _, rfl, List.Pairwise.nil⟩,
    List.nodup_nil, fun _ hmem => (by cases hmem), fun _ => trivial,
    fun _ hopen => (by cases hopen), fun hmem => (by cases hmem), fun _ hmem => (by cases hmem)⟩

theorem Reaches.sffInv {host : Host} {buffer_num : Nat} {junk : Nat → Option RequestInfor}
    (hn : 0 < n) {s : SffState n} (hs : (sffServer host buffer_num junk n).Reaches
      (fun s a => ∀ conn, Accepts s a conn → conn.request.Servable host) s) :
    (∃ place queued, SffInv host s place queued) ∧ Ledger s := by
  have hledger : Ledger (sffServer host buffer_num junk n).start :=
    ⟨[], List.Perm.refl _, List.nodup_nil, fun _ => by simp [sffServer]⟩
  refine System.Reaches.invariant (P := fun s => (∃ place queued, SffInv host s place queued) ∧
    Ledger s) ⟨⟨_, _, sffInv_start host buffer_num junk⟩, hledger⟩ ?_ hs
  rintro s a s' _ ⟨⟨place, queued, h⟩, hledger⟩ hok hstep
  simp only [sffServer, h.alive, Bool.false_eq_true, if_false] at hstep
  cases a with
  | master conn wake =>
    exact ⟨sffInv_master hn h (fun hm => hok conn ⟨hm, wake, rfl⟩) hstep,
      ledger_master hledger hstep⟩
  | worker w => exact ⟨sffInv_worker h hstep, ledger_worker hledger h hstep⟩

/-- **The SFF server.**  As long as only servable requests are accepted, the server does
    not crash, no NULL record is put, each connection closed has received what
    `requestHandle` writes for it, and each connection accepted has been closed once or
    is open and with the master, in the buffer or with a worker. -/
theorem sff_serves (host : Host) (buffer_num : Nat) (junk : Nat → Option RequestInfor)
    (hn : 1 ≤ n) {s : SffState n} (hs : (sffServer host buffer_num junk n).Reaches
      (fun s a => ∀ conn, Accepts s a conn → conn.request.Servable host) s) :
    s.crashed = false ∧ none ∉ s.server.puts ∧
    (∀ conn out, (conn, out) ∈ s.responses → Responds host conn out) ∧
    ∃ opened queued, s.server.accepted.Perm (s.responses.map Prod.fst ++ opened) ∧
      (opened.map fun conn => conn.fd).Nodup ∧ Queued s.server.buffer queued ∧
      ∀ conn ∈ opened, ∃ p, HeldAt s.server queued conn.fd p := by
  obtain ⟨⟨place, queued, h⟩, opened, hperm, hnodup, hopened⟩ := Reaches.sffInv hn hs
  refine ⟨h.alive, h.puts, fun conn out hmem => h.responses _ hmem, opened, queued, hperm, hnodup,
    h.buffer, fun conn hmem => ⟨place conn.fd, h.held _ ?_⟩⟩
  have hsome := (hopened conn).mp hmem
  cases hsocket : s.sockets conn.fd with
  | none =>
    rw [hsocket] at hsome
    cases hsome
  | some o => rfl

/-! ### Two requests -/

/-- A host with one file of two bytes. -/
def oneFile : Host where
  stat path := if path = ascii "./a" then some ⟨0o100644, 2⟩ else none
  openRdonly path := path == ascii "./a"
  mmap path filesize := if path = ascii "./a" ∧ filesize = 2 then some (ascii "hi") else none
  cgi _ _ := none
  path_max path sbuf h := by
    by_cases hpath : path = ascii "./a"
    · subst hpath
      decide
    · rw [if_neg hpath] at h
      cases h

def freshStack : Stack := ⟨[], [], [], []⟩

/-- One connection is accepted and put, then taken and handled by the worker. -/
def oneByOne (conn : Connection) : List (Action Connection 1) :=
  [.master conn none, .master conn none, .master conn none, .master conn none,
    .worker 0, .worker 0, .worker 0, .worker 0]

theorem getRequest_servable : getRequest.Servable oneFile := by
  refine ⟨ascii "GET", ascii "/a", [ascii "HTTP/1.0"], ⟨0o100644, 2⟩, by decide +kernel,
    by decide +kernel, by decide +kernel, ?_⟩
  unfold Host.Serves
  rw [if_pos (by decide +kernel)]
  exact fun _ _ => ⟨by decide +kernel, by decide +kernel⟩

theorem oneByOne_servable : ∀ a ∈ oneByOne ⟨3, getRequest, freshStack⟩ ++ [.worker 0],
    ∀ (s : SffState 1) (conn), Accepts s a conn → conn.request.Servable oneFile := by
  rintro a ha s conn ⟨_, wake, rfl⟩
  simp only [oneByOne, List.cons_append, List.nil_append, List.mem_cons, Action.master.injEq,
    reduceCtorEq, List.not_mem_nil, or_false, or_self] at ha
  obtain ⟨rfl, _⟩ := ha
  exact getRequest_servable

/-- A GET request is served and its connection closed. -/
theorem sff_serves_get : ∃ s : SffState 1,
    (sffServer oneFile 16 (fun _ => none) 1).run (sffServer oneFile 16 (fun _ => none) 1).start
      (oneByOne ⟨3, getRequest, freshStack⟩ ++ [.worker 0]) = some s ∧
    s.crashed = false ∧ none ∉ s.server.puts ∧ s.responses.length = 1 ∧
    ∀ conn out, (conn, out) ∈ s.responses → Responds oneFile conn out := by
  have hend : ((sffServer oneFile 16 (fun _ => none) 1).run
      (sffServer oneFile 16 (fun _ => none) 1).start
      (oneByOne ⟨3, getRequest, freshStack⟩ ++ [.worker 0])).map (fun s => s.responses.length) =
      some 1 := by decide +kernel
  obtain ⟨s, hs, hlength⟩ := Option.map_eq_some_iff.mp hend
  have hserves := sff_serves oneFile 16 (fun _ => none) (le_refl 1)
    (System.Reaches.runAll .start oneByOne_servable hs)
  exact ⟨s, hs, hserves.1, hserves.2.1, hlength, hserves.2.2.1⟩

/-- The master puts what `file_size` gives for one connection. -/
theorem master_puts {host : Host} {buffer_num : Nat} (junk : Nat → Option RequestInfor)
    (hb : 2 ≤ buffer_num) {conn : Connection} {infor : Option RequestInfor} {socket : Socket}
    (hrecord : conn.record host = some (infor, socket)) :
    ∃ sockets, (sffServer host buffer_num junk 1).run (sffServer host buffer_num junk 1).start
        [.master conn none, .master conn none, .master conn none, .master conn none] =
      some ⟨⟨none, ⟨Function.update junk 0 infor, 1⟩, .accept, fun _ => .lock, [conn], [infor], [],
        [], []⟩, sockets, [], false⟩ := by
  have hroom : ¬ 0 = buffer_num - 1 := by omega
  have hput : ((⟨junk, 0⟩ : SffBuffer).put infor) = some ⟨Function.update junk 0 infor, 1⟩ := rfl
  simp [System.run, sffServer, stepMasterSff, stepMaster, sff, State.start, State.signalFull,
    WorkerPc.Asleep, hroom, hrecord, hput]

/-- A worker that takes a NULL record reads `infor->fd`. -/
theorem worker_takes_null {host : Host} {buffer_num : Nat} (junk : Nat → Option RequestInfor)
    (accepted : List Connection) (puts : List (Option RequestInfor))
    (sockets : Nat → Option OpenSocket) :
    ∃ s : SffState 1, (sffServer host buffer_num junk 1).run
        ⟨⟨none, ⟨Function.update junk 0 none, 1⟩, .accept, fun _ => .lock, accepted, puts, [],
          [], []⟩, sockets, [], false⟩ [.worker 0, .worker 0, .worker 0, .worker 0] = some s ∧
      s.crashed = true ∧ s.server.puts = puts ∧ s.responses = [] := by
  simp [System.run, sffServer, stepWorkerSff, stepWorker, sff, State.setWorker, SffState.crash,
    SffBuffer.get, getLoop, MasterPc.signalEmpty]

/-- **A NULL record crashes the server.** -/
theorem null_crashes {host : Host} {buffer_num : Nat} (junk : Nat → Option RequestInfor)
    (hb : 2 ≤ buffer_num) {conn : Connection} {socket : Socket}
    (hnull : conn.record host = some (none, socket)) :
    ∃ s : SffState 1, (sffServer host buffer_num junk 1).run
        (sffServer host buffer_num junk 1).start (oneByOne conn) = some s ∧
      s.crashed = true ∧ s.server.puts = [none] ∧ s.responses = [] := by
  obtain ⟨sockets, hmaster⟩ := master_puts junk hb hnull
  obtain ⟨s, hworker, hcrashed⟩ := worker_takes_null junk [conn] [none] sockets
  refine ⟨s, ?_, hcrashed⟩
  have hsplit : oneByOne conn =
      [.master conn none, .master conn none, .master conn none, .master conn none] ++
        [.worker 0, .worker 0, .worker 0, .worker 0] := rfl
  rw [hsplit, System.run_append, hmaster, Option.bind_some, hworker]

/-- A POST request, which `requestHandle` answers, crashes the server. -/
theorem sff_crashes_on_post :
    ((requestHandle oneFile freshStack).run ⟨postRequest.bytes, []⟩).isSome ∧
    ∃ s : SffState 1, (sffServer oneFile 16 (fun _ => none) 1).Reachable s ∧
      s.crashed = true ∧ none ∈ s.server.puts ∧ s.responses = [] := by
  refine ⟨by decide +kernel, ?_⟩
  have hpost : ((⟨3, postRequest, freshStack⟩ : Connection).record oneFile).map Prod.fst =
      some none := by decide +kernel
  obtain ⟨⟨infor, socket⟩, hrecord, rfl⟩ := Option.map_eq_some_iff.mp hpost
  obtain ⟨s, hs, hcrashed, hputs, hresponses⟩ := null_crashes (fun _ => none)
    (by decide : 2 ≤ 16) hrecord
  exact ⟨s, System.Reaches.run .start hs, hcrashed, by simp [hputs], hresponses⟩

end OstepProjects.WebServer
