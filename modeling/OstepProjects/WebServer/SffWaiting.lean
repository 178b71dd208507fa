/-
  OstepProjects/WebServer/SffWaiting.lean
  =======================================
  **How long a request waits in SFF mode.**

  A record in the buffer is overtaken by the records in front of it and by those of
  smaller files that are put while it waits, each once, and by nothing else
  (`sff_overtaken`).  So it is taken as long as smaller files do not keep coming.  When
  they do it may never be: with three slots or more, two clients that ask for a large
  and for a small file are enough for a run in which every thread moves again and again
  and the large file is never sent (`sff_starves`).  `fifo_no_starvation` rules this out
  in FIFO mode.
-/
import OstepProjects.WebServer.Liveness
import OstepProjects.WebServer.SffBlocking

namespace OstepProjects.WebServer

open OstepProjects.Bytes OstepProjects.Transition OstepProjects.InsertionSort

variable {n : Nat} {host : Host} {buffer_num : Nat} {junk : Nat → Option RequestInfor}

/-! ### The loops in a run of the server -/

section Loops

variable {s s' : SffState n}

theorem stepMasterSff_loop {conn : Connection} {wake : Option (Fin n)}
    (hs : stepMasterSff host buffer_num junk s conn wake = some s') :
    s'.crashed = true ∨
      stepMaster (sff host buffer_num junk) s.server conn wake = some s'.server := by
  have hmap : ∀ {sockets : Nat → Option OpenSocket},
      (stepMaster (sff host buffer_num junk) s.server conn wake).map
        (fun server => { s with server, sockets }) = some s' →
      stepMaster (sff host buffer_num junk) s.server conn wake = some s'.server := by
    intro sockets h
    obtain ⟨server, hserver, rfl⟩ := Option.map_eq_some_iff.mp h
    exact hserver
  cases hm : s.server.master <;> simp only [stepMasterSff, hm] at hs
  case accept =>
    split at hs
    · exact Or.inr (hmap hs)
    · cases hs
  case critical conn' =>
    split at hs
    · exact Or.inr (hmap hs)
    · split at hs
      · cases hs
        exact Or.inl rfl
      · split at hs
        · cases hs
          exact Or.inl rfl
        · exact Or.inr (hmap hs)
  all_goals exact Or.inr (hmap hs)

theorem stepWorkerSff_loop {w : Fin n} (hs : stepWorkerSff host buffer_num junk s w = some s') :
    s'.crashed = true ∨
      stepWorker (sff host buffer_num junk) s.server w = some s'.server := by
  have hmap : ∀ {sockets : Nat → Option OpenSocket} {responses},
      (stepWorker (sff host buffer_num junk) s.server w).map
        (fun server => { s with server, sockets, responses }) = some s' →
      stepWorker (sff host buffer_num junk) s.server w = some s'.server := by
    intro sockets responses h
    obtain ⟨server, hserver, rfl⟩ := Option.map_eq_some_iff.mp h
    exact hserver
  cases hx : s.server.workers w <;> simp only [stepWorkerSff, hx] at hs
  case handle item =>
    cases item with
    | none =>
      cases hs
      exact Or.inl rfl
    | some infor =>
      simp only at hs
      split at hs
      · cases hs
        exact Or.inl rfl
      · exact Or.inr (hmap hs)
  case close item =>
    cases item with
    | none =>
      cases hs
      exact Or.inl rfl
    | some infor =>
      simp only at hs
      split at hs
      · cases hs
        exact Or.inl rfl
      · exact Or.inr (hmap hs)
  all_goals exact Or.inr (hmap hs)

/-- A step after which the server is still there is one of the loops. -/
theorem sffServer_loop {a : Action Connection n}
    (hs : (sffServer host buffer_num junk n).step s a = some s') (halive : s'.crashed = false) :
    (system (sff host buffer_num junk) n).step s.server a = some s'.server := by
  simp only [sffServer] at hs
  split at hs
  · cases hs
  · cases a with
    | master conn wake =>
      refine (stepMasterSff_loop hs).resolve_left ?_
      rw [halive]
      exact Bool.false_ne_true
    | worker w =>
      refine (stepWorkerSff_loop hs).resolve_left ?_
      rw [halive]
      exact Bool.false_ne_true

/-- Responses are only added. -/
theorem responses_prefix {a : Action Connection n}
    (hs : (sffServer host buffer_num junk n).step s a = some s') :
    s.responses <+: s'.responses := by
  have hsame : ∀ {server : Option (State Connection (Option RequestInfor) SffBuffer n)}
      {sockets : Nat → Option OpenSocket},
      server.map (fun server => { s with server, sockets }) = some s' →
      s.responses <+: s'.responses := by
    intro server sockets h
    obtain ⟨server, _, rfl⟩ := Option.map_eq_some_iff.mp h
    exact List.prefix_refl _
  have hcrash : some s.crash = some s' → s.responses <+: s'.responses := by
    intro h
    cases h
    exact List.prefix_refl _
  simp only [sffServer] at hs
  split at hs
  · cases hs
  · cases a with
    | master conn wake =>
      cases hm : s.server.master <;> simp only [stepMasterSff, hm] at hs
      case accept =>
        split at hs
        · exact hsame hs
        · cases hs
      case critical conn' =>
        split at hs
        · exact hsame hs
        · split at hs
          · exact hcrash hs
          · split at hs
            · exact hcrash hs
            · exact hsame hs
      all_goals exact hsame hs
    | worker w =>
      cases hx : s.server.workers w <;> simp only [stepWorkerSff, hx] at hs
      case handle item =>
        cases item with
        | none => exact hcrash hs
        | some infor =>
          simp only at hs
          split at hs
          · exact hcrash hs
          · exact hsame hs
      case close item =>
        cases item with
        | none => exact hcrash hs
        | some infor =>
          simp only at hs
          split at hs
          · exact hcrash hs
          · obtain ⟨server, _, rfl⟩ := Option.map_eq_some_iff.mp hs
            exact List.prefix_append _ _
      all_goals exact hsame hs

variable (r : (sffServer host buffer_num junk n).InfiniteRun)

/-- A server that crashes takes no further step. -/
theorem run_alive (i : Nat) : (r.state i).crashed = false := by
  have hstep := r.step_eq i
  simp only [sffServer] at hstep
  split at hstep
  · cases hstep
  · rename_i hcrashed
    exact eq_false_of_ne_true hcrashed

theorem run_loop (i : Nat) : (system (sff host buffer_num junk) n).step (r.state i).server
    (r.action i) = some (r.state (i + 1)).server :=
  sffServer_loop (r.step_eq i) (run_alive r (i + 1))

theorem run_start : (r.state 0).server = (system (sff host buffer_num junk) n).start :=
  congrArg SffState.server r.start_eq

/-- The run of the loops in a run of the server. -/
def loops : (system (sff host buffer_num junk) n).InfiniteRun where
  state i := (r.state i).server
  action := r.action
  start_eq := run_start r
  step_eq := run_loop r

def SffFair : Prop := Fair (loops r)

end Loops

/-! ### What a step does to the buffer -/

/-- The records in the buffer before and after a step. -/
inductive QueueMove (s s' : State Connection (Option RequestInfor) SffBuffer n)
    (queued : List RequestInfor) : List RequestInfor → Prop
  | same (hputs : s'.puts = s.puts) (htaken : s'.taken = s.taken) : QueueMove s s' queued queued
  | put (infor : RequestInfor) (hputs : s'.puts = s.puts ++ [some infor])
      (htaken : s'.taken = s.taken) : QueueMove s s' queued (insertLast smaller queued infor)
  | take (w : Fin n) (infor : RequestInfor) (rest : List RequestInfor)
      (hfirst : queued = infor :: rest) (hputs : s'.puts = s.puts)
      (htaken : s'.taken = s.taken ++ [(w, some infor)]) : QueueMove s s' queued rest

theorem queue_step {s s' : State Connection (Option RequestInfor) SffBuffer n}
    {a : Action Connection n} {queued : List RequestInfor} (hn : 0 < n)
    (hqueued : Queued s.buffer queued) (hnull : none ∉ s'.puts)
    (hstep : (system (sff host buffer_num junk) n).step s a = some s') :
    ∃ queued', Queued s'.buffer queued' ∧ QueueMove s s' queued queued' := by
  cases a with
  | master conn wake =>
    cases stepMaster_move hn hstep with
    | put held workers hpc hroom hwoken =>
      cases hentry : (sff host buffer_num junk).entry held with
      | none =>
        rw [hentry] at hnull
        exact absurd (List.mem_append_right _ (List.mem_singleton_self _)) hnull
      | some infor =>
        obtain ⟨b, hput, hqueued'⟩ := hqueued.put infor
        have hbuffer : (sff host buffer_num junk).put s.buffer (some infor) = b := by
          simp only [sff, hput, Option.getD_some]
        rw [hbuffer]
        exact ⟨_, hqueued', .put infor rfl rfl⟩
    | _ => exact ⟨queued, hqueued, .same rfl rfl⟩
  | worker w =>
    cases stepWorker_move hstep with
    | get hpc hpos =>
      cases queued with
      | nil =>
        have hcount : s.buffer.count = 0 := hqueued.count
        have hpos : 0 < s.buffer.count := hpos
        omega
      | cons infor rest =>
        obtain ⟨hfirst, hrest⟩ := hqueued.get
        have hitem : ((sff host buffer_num junk).get s.buffer).1 = some infor := hfirst
        rw [hitem]
        exact ⟨rest, hrest, .take w infor rest rfl rfl rfl⟩
    | _ => exact ⟨queued, hqueued, .same rfl rfl⟩

/-! ### Waiting -/

section Waiting

/-- The record waits behind `ahead`.  Since the state `s₀`, in which the records in front
    of it were `front`, the records `passed` have been taken and `later` put; those taken
    and those ahead now are `front` and the smaller ones of `later`. -/
structure Waits (s₀ : State Connection (Option RequestInfor) SffBuffer n)
    (front : List RequestInfor) (infor : RequestInfor)
    (s : State Connection (Option RequestInfor) SffBuffer n)
    (ahead : List RequestInfor) (passed : List (Fin n × Option RequestInfor))
    (later : List RequestInfor) : Prop where
  buffer : ∃ behind, Queued s.buffer (ahead ++ infor :: behind)
  taken : s.taken = s₀.taken ++ passed
  puts : s.puts = s₀.puts ++ later.map some
  perm : (passed.map Prod.snd ++ ahead.map some).Perm
    ((front ++ later.filter fun x => smaller x infor).map some)

/-- The record has just been taken, after `passed`. -/
structure Overtaken (s₀ : State Connection (Option RequestInfor) SffBuffer n)
    (front : List RequestInfor) (infor : RequestInfor)
    (s : State Connection (Option RequestInfor) SffBuffer n) (w : Fin n)
    (passed : List (Fin n × Option RequestInfor)) (later : List RequestInfor) : Prop where
  taken : s.taken = s₀.taken ++ passed ++ [(w, some infor)]
  puts : s.puts = s₀.puts ++ later.map some
  perm : (passed.map Prod.snd).Perm ((front ++ later.filter fun x => smaller x infor).map some)

variable {s₀ s s' : State Connection (Option RequestInfor) SffBuffer n}
  {front ahead : List RequestInfor} {infor : RequestInfor}
  {passed : List (Fin n × Option RequestInfor)} {later : List RequestInfor}

theorem waits_start {behind : List RequestInfor}
    (h : Queued s.buffer (front ++ infor :: behind)) : Waits s front infor s front [] [] :=
  ⟨⟨behind, h⟩, by simp, by simp, by simp⟩

/-- Where a record put goes, seen from one that waits. -/
theorem insertLast_waiting {behind : List RequestInfor}
    (hsorted : (ahead ++ infor :: behind).Pairwise fun x y => x.sbuf.st_size ≤ y.sbuf.st_size)
    (x : RequestInfor) :
    insertLast smaller (ahead ++ infor :: behind) x =
      if smaller x infor then insertLast smaller ahead x ++ infor :: behind
      else ahead ++ infor :: insertLast smaller behind x := by
  apply insertLast_append
  intro z hz hx
  obtain ⟨_, hbehind, _⟩ := List.pairwise_append.mp hsorted
  exact lt_of_lt_of_le hx ((List.pairwise_cons.mp hbehind).1 z hz)

/-- **One step of waiting.**  A put moves the record back by one place if it is of a
    smaller file and not at all otherwise, a get moves it forward or takes it. -/
theorem Waits.step (h : Waits s₀ front infor s ahead passed later) (hn : 0 < n)
    (hnull : none ∉ s'.puts) {a : Action Connection n}
    (hstep : (system (sff host buffer_num junk) n).step s a = some s') :
    (∃ ahead' passed' later', Waits s₀ front infor s' ahead' passed' later') ∨
      ∃ w, Overtaken s₀ front infor s' w passed later := by
  obtain ⟨behind, hqueued⟩ := h.buffer
  obtain ⟨queued', hqueued', hmove⟩ := queue_step hn hqueued hnull hstep
  cases hmove with
  | same hputs htaken =>
    exact Or.inl ⟨ahead, passed, later, ⟨behind, hqueued'⟩, htaken.trans h.taken,
      hputs.trans h.puts, h.perm⟩
  | put x hputs htaken =>
    left
    rw [insertLast_waiting hqueued.sorted] at hqueued'
    have hlater : s'.puts = s₀.puts ++ (later ++ [x]).map some := by
      rw [hputs, h.puts, List.map_append, List.append_assoc]
      rfl
    by_cases hx : smaller x infor
    · rw [if_pos hx] at hqueued'
      refine ⟨_, passed, later ++ [x], ⟨behind, hqueued'⟩, htaken.trans h.taken, hlater, ?_⟩
      have hfilter : (later ++ [x]).filter (fun y => smaller y infor) =
          later.filter (fun y => smaller y infor) ++ [x] := by
        rw [List.filter_append, List.filter_cons_of_pos (by simpa using hx), List.filter_nil]
      rw [hfilter, ← List.append_assoc, List.map_append]
      refine List.Perm.trans ?_ (h.perm.append_right _)
      rw [List.append_assoc, ← List.map_append]
      exact ((perm_insertLast smaller ahead x).map some).append_left _
    · rw [if_neg hx] at hqueued'
      refine ⟨ahead, passed, later ++ [x], ⟨_, hqueued'⟩, htaken.trans h.taken, hlater, ?_⟩
      have hfilter : (later ++ [x]).filter (fun y => smaller y infor) =
          later.filter (fun y => smaller y infor) := by
        rw [List.filter_append, List.filter_cons_of_neg (by simpa using hx), List.filter_nil,
          List.append_nil]
      rw [hfilter]
      exact h.perm
  | take w x rest hfirst hputs htaken =>
    have htaken' : s'.taken = s₀.taken ++ (passed ++ [(w, some x)]) := by
      rw [htaken, h.taken, List.append_assoc]
    cases ahead with
    | nil =>
      right
      obtain ⟨rfl, _⟩ := List.cons_eq_cons.mp hfirst
      refine ⟨w, ?_, hputs.trans h.puts, ?_⟩
      · rw [htaken', List.append_assoc]
      · have hperm := h.perm
        rwa [List.map_nil, List.append_nil] at hperm
    | cons y ahead =>
      left
      obtain ⟨rfl, hrest⟩ := List.cons_eq_cons.mp hfirst
      rw [← hrest] at hqueued'
      refine ⟨ahead, _, later, ⟨behind, hqueued'⟩, htaken', hputs.trans h.puts, ?_⟩
      have hperm := h.perm
      rw [List.map_cons, List.append_cons] at hperm
      rw [List.map_append]
      exact hperm

/-- Only so many records pass one that waits. -/
theorem Waits.length_le (h : Waits s₀ front infor s ahead passed later) {m : Nat}
    (hm : (s.puts.countP fun x => x.any fun x => smaller x infor) ≤ m) :
    s.taken.length ≤ s₀.taken.length + front.length + m := by
  have hlength := h.perm.length_eq
  have hlater : (later.filter fun x => smaller x infor).length ≤ m := by
    refine le_trans ?_ hm
    rw [← List.countP_eq_length_filter, h.puts, List.countP_append, List.countP_map]
    exact Nat.le_add_left _ _
  rw [h.taken]
  simp only [List.length_append, List.length_map] at hlength ⊢
  omega

end Waiting

/-! ### Runs without end -/

section Runs

variable {r : (system (sff host buffer_num junk) n).InfiniteRun}

/-- While there is something in the buffer, records are taken one after the other. -/
theorem taken_grows (hn : 0 < n) (hfair : Fair r) {i : Nat}
    (hpos : ∀ j, i ≤ j → 0 < (r.state j).buffer.count) (k : Nat) :
    ∃ j, i ≤ j ∧ k ≤ (r.state j).taken.length := by
  have hS := sff_counts host buffer_num junk
  induction k with
  | zero => exact ⟨i, le_refl i, Nat.zero_le _⟩
  | succ k ih =>
    obtain ⟨j, hij, hj⟩ := ih
    rcases Nat.lt_or_ge k (r.state j).taken.length with hlt | hge
    · exact ⟨j, hij, hlt⟩
    · obtain ⟨l, hjl, hl⟩ := get_leadsTo hS hn hfair k j ⟨Nat.le_antisymm hge hj, hpos j hij⟩
      exact ⟨l, hij.trans hjl, hl⟩

/-- A record is taken if only so many smaller ones are ever put. -/
theorem overtaken_eventually (hn : 0 < n) (hfair : Fair r) (hnull : ∀ j, none ∉ (r.state j).puts)
    {i : Nat} {front behind : List RequestInfor} {infor : RequestInfor}
    (hqueued : Queued (r.state i).buffer (front ++ infor :: behind)) {m : Nat}
    (hm : ∀ j, ((r.state j).puts.countP fun x => x.any fun x => smaller x infor) ≤ m) :
    ∃ j, i ≤ j ∧ ∃ w passed later,
      Overtaken (r.state i) front infor (r.state j) w passed later := by
  by_contra hnever
  -- a record that is not taken waits for ever, while more and more records pass it
  have hwaits : ∀ j, i ≤ j → ∃ ahead passed later,
      Waits (r.state i) front infor (r.state j) ahead passed later := by
    intro j hij
    induction j, hij using Nat.le_induction with
    | base => exact ⟨front, [], [], waits_start hqueued⟩
    | succ j hij ih =>
      obtain ⟨ahead, passed, later, hwait⟩ := ih
      refine (hwait.step hn (hnull (j + 1)) (r.step_eq j)).resolve_right ?_
      rintro ⟨w, htaken⟩
      exact hnever ⟨j + 1, by omega, w, passed, later, htaken⟩
  have hpos : ∀ j, i ≤ j → 0 < (r.state j).buffer.count := by
    intro j hij
    obtain ⟨ahead, passed, later, ⟨behind', hqueued'⟩, _⟩ := hwaits j hij
    rw [hqueued'.count, List.length_append, List.length_cons]
    omega
  obtain ⟨j, hij, hj⟩ := taken_grows hn hfair hpos
    ((r.state i).taken.length + front.length + m + 1)
  obtain ⟨ahead, passed, later, hwait⟩ := hwaits j hij
  have hle := hwait.length_le (hm j)
  omega

end Runs

/-- **Who overtakes whom.**  In a fair run that goes on for ever, a record of which only
    so many smaller ones are ever put is taken, after exactly the records that were in
    front of it and the smaller ones put while it waited, and its connection is closed. -/
theorem sff_overtaken {host : Host} {buffer_num : Nat} {junk : Nat → Option RequestInfor}
    (hn : 1 ≤ n) (r : (sffServer host buffer_num junk n).InfiniteRun) (hfair : SffFair r)
    (hok : ∀ i conn, Accepts (r.state i) (r.action i) conn → conn.request.Servable host)
    {i : Nat} {front behind : List RequestInfor} {infor : RequestInfor}
    (hqueued : Queued (r.state i).server.buffer (front ++ infor :: behind)) {m : Nat}
    (hm : ∀ j, ((r.state j).server.puts.countP fun x => x.any fun x => smaller x infor) ≤ m) :
    ∃ j, i ≤ j ∧ ∃ w passed later,
      Overtaken (r.state i).server front infor (r.state j).server w passed later ∧
      ∃ l, j ≤ l ∧ some infor ∈ ofWorker (r.state l).server.closed w := by
  have hnull : ∀ j, none ∉ (r.state j).server.puts := by
    intro j
    obtain ⟨⟨place, queued, h⟩, _⟩ := Reaches.sffInv hn (r.reaches hok j)
    exact h.puts
  obtain ⟨j, hij, w, passed, later, hover⟩ :=
    overtaken_eventually (r := loops r) hn hfair hnull hqueued hm
  obtain ⟨l, hjl, hclosed⟩ :=
    closed_eventually (sff_counts host buffer_num junk) hn hfair j
  refine ⟨j, hij, w, passed, later, hover, l, hjl, (hclosed w).subset ?_⟩
  have htaken : (r.state j).server.taken = _ := hover.taken
  change some infor ∈ ofWorker (r.state j).server.taken w
  rw [htaken, ofWorker_append_self]
  exact List.mem_append_right _ (List.mem_singleton_self _)

/-! ### A run in which a request starves -/

/-- The master is at `accept` and the workers before `pthread_mutex_lock`. -/
structure Idle (s : SffState n) (queued : List RequestInfor) : Prop where
  alive : s.crashed = false
  mutex : s.server.mutex = none
  master : s.server.master = .accept
  workers : s.server.workers = fun _ => .lock
  buffer : Queued s.server.buffer queued

section Rounds

variable {s : SffState n} {queued : List RequestInfor} {infor : RequestInfor} {conn : Connection}
  {out rest : List UInt8}

variable (junk)

/-- The master accepts a connection and puts its record. -/
theorem run_put (h : Idle s queued) (hroom : queued.length < buffer_num - 1)
    (hfd : s.sockets conn.fd = none) (hrecorded : Recorded host conn infor out) :
    ∃ s' rest, (sffServer host buffer_num junk n).run s (List.replicate 4 (.master conn none)) =
        some s' ∧ Idle s' (insertLast smaller queued infor) ∧
      s'.sockets = Function.update s.sockets conn.fd (some ⟨conn, ⟨rest, []⟩⟩) ∧
      s'.responses = s.responses ∧ s'.server.accepted = s.server.accepted ++ [conn] ∧
      s'.server.puts = s.server.puts ++ [some infor] := by
  obtain ⟨⟨mutex, buffer, master, workers, accepted, puts, taken, handled, closed⟩, sockets,
    responses, crashed⟩ := s
  obtain ⟨rfl, rfl, rfl, rfl, hqueued⟩ := h
  obtain ⟨rest, hrun⟩ := hrecorded.fileSize
  obtain ⟨b, hput, hqueued'⟩ := hqueued.put infor
  have hrecord : conn.record host = some (some infor, ⟨rest, []⟩) := hrun
  have hcount : ¬ buffer.count = buffer_num - 1 := by
    rw [hqueued.count]
    omega
  refine ⟨⟨⟨none, b, .accept, fun _ => .lock, accepted ++ [conn], puts ++ [some infor], taken,
    handled, closed⟩, Function.update sockets conn.fd (some ⟨conn, ⟨rest, []⟩⟩), responses, false⟩,
    rest, ?_, ⟨rfl, rfl, rfl, rfl, hqueued'⟩, rfl, rfl, rfl, rfl⟩
  simp only at hfd hput
  simp [List.replicate, System.run, sffServer, stepMasterSff, stepMaster, sff, State.signalFull,
    WorkerPc.Asleep, SffState.setSocket, hfd, hrecord, hput, hcount]

/-- A worker takes the first record, handles it and closes its connection. -/
theorem run_take (h : Idle s (infor :: queued)) (hrecorded : Recorded host conn infor out)
    (hsocket : s.sockets infor.fd = some ⟨conn, ⟨rest, []⟩⟩) (w : Fin n) :
    ∃ s', (sffServer host buffer_num junk n).run s (List.replicate 5 (.worker w)) = some s' ∧
      Idle s' queued ∧ s'.sockets = Function.update s.sockets infor.fd none ∧
      s'.responses = s.responses ++ [(conn, out)] ∧ s'.server.puts = s.server.puts := by
  obtain ⟨⟨mutex, buffer, master, workers, accepted, puts, taken, handled, closed⟩, sockets,
    responses, crashed⟩ := s
  obtain ⟨rfl, rfl, rfl, rfl, hqueued⟩ := h
  obtain ⟨hfirst, hrest⟩ := hqueued.get
  have hhandle := hrecorded.handleInfor ⟨rest, []⟩
  have hcount : ¬ buffer.count = 0 := by
    rw [hqueued.count]
    exact Nat.succ_ne_zero _
  refine ⟨⟨⟨none, buffer.get.2, .accept, fun _ => .lock, accepted, puts,
    taken ++ [(w, some infor)], handled ++ [(w, some infor)], closed ++ [(w, some infor)]⟩,
    Function.update sockets infor.fd none, responses ++ [(conn, out)], false⟩, ?_,
    ⟨rfl, rfl, rfl, rfl, hrest⟩, rfl, rfl, rfl⟩
  simp only at hsocket hfirst
  simp [List.replicate, System.run, sffServer, stepWorkerSff, stepWorker, sff, State.setWorker,
    MasterPc.signalEmpty, SffState.setSocket, hsocket, hfirst, hcount, hhandle]

/-- The records `waiting` are in the buffer, and besides them only the connection `small`
    has been accepted, and served each time. -/
structure Steady (small : Connection) (little : RequestInfor) (waiting : List RequestInfor)
    (s : SffState n) : Prop where
  idle : Idle s waiting
  closed : s.sockets small.fd = none
  puts : ∀ x ∈ s.server.puts, x = some little ∨ x ∈ waiting.map some
  responses : ∀ e ∈ s.responses, e.1 = small

/-- The connection is accepted, put and served by worker `w`. -/
def round (small : Connection) (w : Fin n) : List (Action Connection n) :=
  List.replicate 4 (.master small none) ++ List.replicate 5 (.worker w)

variable {small : Connection} {little : RequestInfor} {waiting : List RequestInfor}

/-- A record of the smallest file goes to the front. -/
theorem run_front (hroom : waiting.length < buffer_num - 1)
    (hlittle : Recorded host small little out) (hlt : ∀ x ∈ waiting, smaller little x)
    (h : Steady small little waiting s) :
    ∃ s' rest, (sffServer host buffer_num junk n).run s (List.replicate 4 (.master small none)) =
        some s' ∧ Idle s' (little :: waiting) ∧
      s'.sockets = Function.update s.sockets small.fd (some ⟨small, ⟨rest, []⟩⟩) ∧
      s'.responses = s.responses ∧ s'.server.puts = s.server.puts ++ [some little] := by
  obtain ⟨s', rest, hput, hidle, hsockets, hresponses, _, hputs⟩ :=
    run_put junk h.idle hroom h.closed hlittle
  rw [insertLast_of_forall_lt smaller hlt] at hidle
  exact ⟨s', rest, hput, hidle, hsockets, hresponses, hputs⟩

theorem run_round (hroom : waiting.length < buffer_num - 1)
    (hlittle : Recorded host small little out) (hlt : ∀ x ∈ waiting, smaller little x)
    (h : Steady small little waiting s) (w : Fin n) :
    ∃ s', (sffServer host buffer_num junk n).run s (round small w) = some s' ∧
      Steady small little waiting s' ∧ s'.responses.length = s.responses.length + 1 := by
  obtain ⟨s₁, rest, hput, hidle, hsockets, hresponses, hputs⟩ :=
    run_front junk hroom hlittle hlt h
  have hsocket : s₁.sockets little.fd = some ⟨small, ⟨rest, []⟩⟩ := by
    rw [hsockets, hlittle.fd, Function.update_self]
  obtain ⟨s₂, htake, hidle', hsockets', hresponses', hputs'⟩ :=
    run_take junk hidle hlittle hsocket w
  refine ⟨s₂, ?_, ⟨hidle', ?_, ?_, ?_⟩, ?_⟩
  · rw [round, System.run_append, hput, Option.bind_some, htake]
  · rw [hsockets', hlittle.fd, Function.update_self]
  · rw [hputs', hputs]
    intro x hx
    rcases List.mem_append.mp hx with hx | hx
    · exact h.puts x hx
    · exact Or.inl (List.mem_singleton.mp hx)
  · rw [hresponses', hresponses]
    intro e he
    rcases List.mem_append.mp he with he | he
    · exact h.responses e he
    · rw [List.mem_singleton.mp he]
  · rw [hresponses', hresponses, List.length_append, List.length_singleton]

/-- Every worker serves it once. -/
theorem run_rounds (hroom : waiting.length < buffer_num - 1)
    (hlittle : Recorded host small little out) (hlt : ∀ x ∈ waiting, smaller little x)
    (ws : List (Fin n)) (h : Steady small little waiting s) :
    ∃ s', (sffServer host buffer_num junk n).run s (ws.flatMap (round small)) = some s' ∧
      Steady small little waiting s' ∧
      s'.responses.length = s.responses.length + ws.length := by
  induction ws generalizing s with
  | nil => exact ⟨s, rfl, h, rfl⟩
  | cons w ws ih =>
    obtain ⟨s₁, hround, hsteady, hlength⟩ := run_round junk hroom hlittle hlt h w
    obtain ⟨s₂, hrounds, hsteady', hlength'⟩ := ih hsteady
    refine ⟨s₂, ?_, hsteady', ?_⟩
    · rw [List.flatMap_cons, System.run_append, hround, Option.bind_some, hrounds]
    · rw [hlength', hlength, List.length_cons]
      omega

theorem accept_step (h : Idle s queued) {s' : SffState n}
    (hstep : (sffServer host buffer_num junk n).step s (.master conn none) = some s') :
    s'.server.master = .lock conn := by
  simp only [sffServer, h.alive, Bool.false_eq_true, if_false, stepMasterSff, h.master,
    stepMaster] at hstep
  split at hstep <;> cases hstep
  rfl

/-- One round with each worker. -/
def rounds (small : Connection) : List (Action Connection n) :=
  (List.finRange n).flatMap (round small)

theorem rounds_eq (hn : 0 < n) (small : Connection) : ∃ rest : List (Action Connection n),
    rounds small = List.replicate 4 (.master small none) ++ (.worker ⟨0, hn⟩ :: rest) := by
  cases n with
  | zero => omega
  | succ m =>
    refine ⟨List.replicate 4 (.worker 0) ++
      ((List.finRange m).map Fin.succ).flatMap (round small), ?_⟩
    rw [rounds, List.finRange_succ, List.flatMap_cons, round, List.append_assoc]
    rfl

theorem worker_mem_rounds (small : Connection) (w : Fin n) : Action.worker w ∈ rounds small :=
  List.mem_flatMap.mpr ⟨w, List.mem_finRange w, by simp [round]⟩

/-- **The rounds can go on for ever,** in a run that is fair. -/
theorem exists_rounds (hn : 0 < n) (hroom : waiting.length < buffer_num - 1)
    (hlittle : Recorded host small little out) (hlt : ∀ x ∈ waiting, smaller little x)
    {as : List (Action Connection n)} (h : Steady small little waiting s)
    (hs : (sffServer host buffer_num junk n).run (sffServer host buffer_num junk n).start as =
      some s) :
    ∃ r : (sffServer host buffer_num junk n).InfiniteRun, SffFair r ∧ r.state as.length = s ∧
      (∀ i, ∃ j, i ≤ j ∧ i ≤ (r.state j).responses.length ∧
        Steady small little waiting (r.state j)) ∧
      (r.Often fun s _ => Queued s.server.buffer (little :: waiting)) ∧
      ∀ i, r.action i ∈ as ∨ ∃ w, r.action i ∈ round small w := by
  obtain ⟨behind, hrounds⟩ := rounds_eq hn small
  have hnext : ∀ s, Steady small little waiting s → ∃ s',
      (sffServer host buffer_num junk n).run s (rounds small) = some s' ∧
      Steady small little waiting s' := by
    intro s hs
    obtain ⟨s', hrun, hsteady, _⟩ := run_rounds junk hroom hlittle hlt (List.finRange n) hs
    exact ⟨s', hrun, hsteady⟩
  obtain ⟨f, h0, hf⟩ := System.exists_cycle (P := Steady small little waiting) h hnext
  have hrun := fun k => (hf k).2
  have hlength : 4 < (rounds (n := n) small).length := by
    rw [hrounds, List.length_append, List.length_replicate, List.length_cons]
    omega
  have hne : 0 < (rounds (n := n) small).length := by omega
  have hgrows : ∀ k, k ≤ (f k).responses.length := by
    intro k
    induction k with
    | zero => exact Nat.zero_le _
    | succ k ih =>
      obtain ⟨s', hrun', _, hlength⟩ :=
        run_rounds junk hroom hlittle hlt (List.finRange n) (hf k).1
      have hsame : f (k + 1) = s' := Option.some.inj ((hrun k).symm.trans hrun')
      rw [hsame, hlength, List.length_finRange]
      omega
  have hrun₀ : ∀ k, ((sffServer host buffer_num junk n).startAt s).run (f k) (rounds small) =
      some (f (k + 1)) := fun k => (System.run_startAt s _ _).trans (hrun k)
  let r₀ : ((sffServer host buffer_num junk n).startAt s).InfiniteRun :=
    .ofCycle f (rounds small) h0 hne hrun₀
  obtain ⟨r, hsuffix, hactions⟩ := r₀.after hs
  have hcycle : ∀ k, r.state (as.length + (rounds (n := n) small).length * k) = f k := fun k =>
    (hsuffix _).1.trans (System.InfiniteRun.ofCycle_state h0 hne hrun₀ k)
  refine ⟨r, ⟨fun _ => ?_, fun w _ => ?_⟩, (hcycle 0).trans h0, fun i => ?_, ?_, fun i => ?_⟩
  · -- the second action of a round finds the master with a connection
    have hoften : r₀.Often fun s a => s.server.master ≠ .accept ∧ a.thread = .master := by
      refine System.InfiniteRun.ofCycle_often h0 hne hrun₀ (m := 1) (by omega) ?_
      intro k t hs
      rw [hrounds] at hs
      obtain ⟨s', hstep, hs'⟩ := Option.bind_eq_some_iff.mp hs
      cases hs'
      have hsecond := List.get_of_eq hrounds ⟨1, by omega⟩
      refine ⟨?_, ?_⟩
      · rw [accept_step junk (hf k).1.idle hstep]
        exact fun h => by cases h
      · rw [hsecond]
        rfl
    exact hoften.of_suffix hsuffix
  · obtain ⟨⟨m, hm⟩, hget⟩ := List.mem_iff_get.mp (worker_mem_rounds small w)
    have hoften : r₀.Often fun _ a => a = .worker w :=
      System.InfiniteRun.ofCycle_often h0 hne hrun₀ hm fun _ _ _ => hget
    exact hoften.of_suffix hsuffix
  · refine ⟨as.length + (rounds (n := n) small).length * i, ?_, ?_⟩
    · have hle := Nat.le_mul_of_pos_left i hne
      omega
    · rw [hcycle i]
      exact ⟨hgrows i, (hf i).1⟩
  · have hoften : r₀.Often fun s _ => Queued s.server.buffer (little :: waiting) := by
      refine System.InfiniteRun.ofCycle_often h0 hne hrun₀ hlength ?_
      intro k t ht
      rw [hrounds, List.take_left' List.length_replicate, System.run_startAt] at ht
      obtain ⟨s', rest, hput, hidle, _⟩ := run_front junk hroom hlittle hlt (hf k).1
      have hsame : t = s' := Option.some.inj (ht.symm.trans hput)
      rw [hsame]
      exact hidle.buffer
    exact hoften.of_suffix hsuffix
  · refine (hactions i).imp_right ?_
    rintro ⟨j, hj⟩
    rw [hj]
    obtain ⟨w, _, hw⟩ := List.mem_flatMap.mp (List.get_mem (rounds small) _)
    exact ⟨w, hw⟩

end Rounds

/-- **Starvation in SFF mode.**  Let there be three slots or more, any number of workers,
    and two connections of which one asks for the larger file.  Then some run accepts that
    one first, goes on for ever, is fair to the master and to all workers, sends one
    response after the other, and sends all of them to the other connection. -/
theorem sff_starves {host : Host} {buffer_num : Nat} (junk : Nat → Option RequestInfor)
    (hb : 3 ≤ buffer_num) (hn : 1 ≤ n) {large small : Connection} (hfd : large.fd ≠ small.fd)
    {big little : RequestInfor} {bigOut littleOut : List UInt8}
    (hbig : Recorded host large big bigOut) (hlittle : Recorded host small little littleOut)
    (hlt : little.sbuf.st_size < big.sbuf.st_size) :
    ∃ r : (sffServer host buffer_num junk n).InfiniteRun, SffFair r ∧
      (r.state 4).server.accepted = [large] ∧
      (∀ i, ∀ e ∈ (r.state i).responses, e.1 = small) ∧
      ∀ m, ∃ i, m ≤ (r.state i).responses.length := by
  have hidle : Idle (sffServer host buffer_num junk n).start [] :=
    ⟨rfl, rfl, rfl, rfl, begins_nil _, rfl, List.Pairwise.nil⟩
  have hempty : ([] : List RequestInfor).length < buffer_num - 1 := by
    rw [List.length_nil]
    omega
  obtain ⟨s, rest, hput, hidle', hsockets, hresponses, haccepted, hputs⟩ :=
    run_put junk hidle hempty rfl hbig
  have hsteady : Steady small little [big] s := by
    refine ⟨hidle', ?_, ?_, ?_⟩
    · rw [hsockets, Function.update_of_ne hfd.symm]
      rfl
    · rw [hputs]
      exact fun x hx => Or.inr hx
    · rw [hresponses]
      exact fun e he => by cases he
  have hroom : [big].length < buffer_num - 1 := by
    rw [List.length_singleton]
    omega
  have hfront : ∀ x ∈ [big], smaller little x := fun x hx => by
    rw [List.mem_singleton.mp hx]
    exact hlt
  obtain ⟨r, hfair, hstate, hrounds, _⟩ := exists_rounds junk hn hroom hlittle hfront hsteady hput
  rw [List.length_replicate] at hstate
  refine ⟨r, hfair, ?_, fun i e he => ?_, fun m => ?_⟩
  · rw [hstate, haccepted]
    rfl
  · obtain ⟨j, hij, _, hsteady'⟩ := hrounds i
    have hgrows := r.log_mono SffState.responses (fun s a s' h => responses_prefix h) hij
    exact hsteady'.responses e (hgrows.subset he)
  · obtain ⟨j, _, hm, _⟩ := hrounds m
    exact ⟨j, hm⟩

/-! ### A file of two bytes and one of seven -/

def twoFiles : Host where
  stat path := if path = ascii "./a" then some ⟨0o100644, 2⟩
    else if path = ascii "./b" then some ⟨0o100644, 7⟩ else none
  openRdonly path := path == ascii "./a" || path == ascii "./b"
  mmap path filesize := if path = ascii "./a" ∧ filesize = 2 then some (ascii "hi")
    else if path = ascii "./b" ∧ filesize = 7 then some (ascii "goodbye") else none
  cgi _ _ := none
  path_max path sbuf h := by
    by_cases ha : path = ascii "./a"
    · subst ha
      decide
    · by_cases hb : path = ascii "./b"
      · subst hb
        decide
      · rw [if_neg ha, if_neg hb] at h
        cases h

def getB : Request :=
  { getRequest with
    line := ascii "GET /b HTTP/1.0\r\n"
    line_isLine := ⟨ascii "GET /b HTTP/1.0\r", by decide, by decide⟩ }

theorem getRequest_servable_two : getRequest.Servable twoFiles := by
  refine ⟨ascii "GET", ascii "/a", [ascii "HTTP/1.0"], ⟨0o100644, 2⟩, by decide,
    by decide, by decide, ?_⟩
  unfold Host.Serves
  rw [if_pos (by decide)]
  exact fun _ _ => ⟨by decide, by decide⟩

theorem getB_servable : getB.Servable twoFiles := by
  refine ⟨ascii "GET", ascii "/b", [ascii "HTTP/1.0"], ⟨0o100644, 7⟩, by decide,
    by decide, by decide, ?_⟩
  unfold Host.Serves
  rw [if_pos (by decide)]
  exact fun _ _ => ⟨by decide, by decide⟩

/-- The record that a connection gets holds the size of its file. -/
theorem Recorded.st_size {conn : Connection} {infor : RequestInfor} {out : List UInt8} {size : Nat}
    (h : Recorded host conn infor out)
    (hsize : (conn.record host).map (fun r => r.1.map fun infor => infor.sbuf.st_size) =
      some (some size)) : infor.sbuf.st_size = size := by
  obtain ⟨rest, hrun⟩ := h.fileSize
  have hrecord : conn.record host = some (some infor, ⟨rest, []⟩) := hrun
  rw [hrecord] at hsize
  exact Option.some.inj (Option.some.inj hsize)

theorem sff_starves_b : ∃ r : (sffServer twoFiles 3 (fun _ => none) 2).InfiniteRun, SffFair r ∧
    (r.state 4).server.accepted = [⟨4, getB, freshStack⟩] ∧
    (∀ i, ∀ e ∈ (r.state i).responses, e.1 = ⟨5, getRequest, freshStack⟩) ∧
    ∀ m, ∃ i, m ≤ (r.state i).responses.length := by
  obtain ⟨big, bigOut, hbig⟩ : ∃ big out, Recorded twoFiles ⟨4, getB, freshStack⟩ big out :=
    getB_servable.recorded
  obtain ⟨little, littleOut, hlittle⟩ :
      ∃ little out, Recorded twoFiles ⟨5, getRequest, freshStack⟩ little out :=
    getRequest_servable_two.recorded
  have hbigSize : big.sbuf.st_size = 7 := hbig.st_size (by decide)
  have hlittleSize : little.sbuf.st_size = 2 := hlittle.st_size (by decide)
  refine sff_starves (fun _ => none) (le_refl 3) (by decide) (by decide) hbig hlittle ?_
  rw [hbigSize, hlittleSize]
  decide

theorem sff_overtaken_a : ∃ r : (sffServer oneFile 16 (fun _ => none) 1).InfiniteRun, SffFair r ∧
    ∃ infor i j, Queued (r.state i).server.buffer [infor] ∧ i ≤ j ∧ ∃ w passed later,
      Overtaken (r.state i).server [] infor (r.state j).server w passed later ∧
      ∃ l, j ≤ l ∧ some infor ∈ ofWorker (r.state l).server.closed w := by
  obtain ⟨infor, out, hrecorded⟩ :
      ∃ infor out, Recorded oneFile ⟨5, getRequest, freshStack⟩ infor out :=
    getRequest_servable.recorded
  have hsteady : Steady ⟨5, getRequest, freshStack⟩ infor []
      (sffServer oneFile 16 (fun _ => none) 1).start :=
    ⟨⟨rfl, rfl, rfl, rfl, begins_nil _, rfl, List.Pairwise.nil⟩, rfl,
      fun x hx => (by cases hx), fun e he => (by cases he)⟩
  have hroom : ([] : List RequestInfor).length < 16 - 1 := by decide
  have hstart : (sffServer oneFile 16 (fun _ => none) 1).run
      (sffServer oneFile 16 (fun _ => none) 1).start [] =
        some (sffServer oneFile 16 (fun _ => none) 1).start := rfl
  obtain ⟨r, hfair, _, hrounds, hoften, hactions⟩ := exists_rounds _ Nat.one_pos hroom
    hrecorded (fun x hx => by cases hx) hsteady hstart
  obtain ⟨i, _, hqueued⟩ := hoften 0
  have hok : ∀ i conn, Accepts (r.state i) (r.action i) conn → conn.request.Servable oneFile := by
    rintro i conn ⟨_, wake, haction⟩
    rcases hactions i with hnil | ⟨w, hw⟩
    · cases hnil
    · rw [haction] at hw
      have hconn : conn = ⟨5, getRequest, freshStack⟩ ∧ wake = none := by simpa [round] using hw
      rw [hconn.1]
      exact getRequest_servable
  -- all records are equal, so none is smaller
  have hputs : ∀ j,
      ((r.state j).server.puts.countP fun x => x.any fun x => smaller x infor) ≤ 0 := by
    intro j
    obtain ⟨k, hjk, _, hsteady'⟩ := hrounds j
    have hgrows := (loops r).log_mono State.puts (fun s a s' h => puts_prefix Nat.one_pos h) hjk
    rw [Nat.le_zero, List.countP_eq_zero]
    intro x hx
    have hx' : x = some infor := (hsteady'.puts x (hgrows.subset hx)).resolve_right fun h => by
      cases h
    simp [hx', smaller]
  have hfirst : Queued (r.state i).server.buffer ([] ++ infor :: []) := hqueued
  obtain ⟨j, hij, hover⟩ := sff_overtaken (le_refl 1) r hfair hok hfirst hputs
  exact ⟨r, hfair, infor, i, j, hqueued, hij, hover⟩

end OstepProjects.WebServer
