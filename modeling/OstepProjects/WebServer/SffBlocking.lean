/-
  OstepProjects/WebServer/SffBlocking.lean
  ========================================
  **When the master of the SFF server blocks.**

  The SFF branch of `main` waits at `count == buffer_num-1`, where the FIFO branch waits
  at `count == buffer_num`.  So the master goes to sleep with one free slot
  (`sff_blocks_iff`), and a server with one slot never takes a request
  (`one_slot_serves_nothing`): its master and its workers fall asleep together
  (`sff_wedged`).
-/
import OstepProjects.WebServer.SffResponses

namespace OstepProjects.WebServer

open OstepProjects.Transition

variable {n : Nat}

theorem sff_counts (host : Host) (buffer_num : Nat) (junk : Nat → Option RequestInfor) :
    (sff host buffer_num junk).Counts where
  empty := rfl
  put b infor := by
    change ((b.put infor).getD ⟨b.infor_buf, b.count + 1⟩).count = b.count + 1
    cases hput : b.put infor with
    | none => rfl
    | some b' =>
      obtain ⟨infor_buf, _, hb'⟩ := Option.bind_eq_some_iff.mp hput
      cases hb'
      rfl
  get _ := rfl

/-! ### The loops underneath -/

section Steps

variable {host : Host} {buffer_num : Nat} {junk : Nat → Option RequestInfor} {s s' : SffState n}

theorem stepMasterSff_server {conn : Connection} {wake : Option (Fin n)}
    (hs : stepMasterSff host buffer_num junk s conn wake = some s') :
    s'.server = s.server ∨
      stepMaster (sff host buffer_num junk) s.server conn wake = some s'.server := by
  cases hm : s.server.master <;> simp only [stepMasterSff, hm] at hs
  case accept =>
    split at hs
    · obtain ⟨server, hserver, rfl⟩ := Option.map_eq_some_iff.mp hs
      exact Or.inr hserver
    · cases hs
  case critical conn' =>
    split at hs
    · obtain ⟨server, hserver, rfl⟩ := Option.map_eq_some_iff.mp hs
      exact Or.inr hserver
    · split at hs
      · cases hs
        exact Or.inl rfl
      · split at hs
        · cases hs
          exact Or.inl rfl
        · obtain ⟨server, hserver, rfl⟩ := Option.map_eq_some_iff.mp hs
          exact Or.inr hserver
  all_goals
    obtain ⟨server, hserver, rfl⟩ := Option.map_eq_some_iff.mp hs
    exact Or.inr hserver

theorem stepWorkerSff_server {w : Fin n} (hs : stepWorkerSff host buffer_num junk s w = some s') :
    s'.server = s.server ∨ stepWorker (sff host buffer_num junk) s.server w = some s'.server := by
  cases hx : s.server.workers w <;> simp only [stepWorkerSff, hx] at hs
  case handle item =>
    cases item with
    | none =>
      cases hs
      exact Or.inl rfl
    | some infor =>
      simp only at hs
      split at hs
      · cases hs
        exact Or.inl rfl
      · obtain ⟨server, hserver, rfl⟩ := Option.map_eq_some_iff.mp hs
        exact Or.inr hserver
  case close item =>
    cases item with
    | none =>
      cases hs
      exact Or.inl rfl
    | some infor =>
      simp only at hs
      split at hs
      · cases hs
        exact Or.inl rfl
      · obtain ⟨server, hserver, rfl⟩ := Option.map_eq_some_iff.mp hs
        exact Or.inr hserver
  all_goals
    obtain ⟨server, hserver, rfl⟩ := Option.map_eq_some_iff.mp hs
    exact Or.inr hserver

/-- The threads of the SFF server run the loops of `system`. -/
theorem Reachable.server (hs : (sffServer host buffer_num junk n).Reachable s) :
    (system (sff host buffer_num junk) n).Reachable s.server := by
  refine System.Reaches.invariant (P := fun s => (system (sff host buffer_num junk) n).Reachable
    s.server) .start ?_ hs
  intro s a s' _ hreach _ hstep
  simp only [sffServer] at hstep
  split at hstep
  · cases hstep
  · cases a with
    | master conn wake =>
      rcases stepMasterSff_server hstep with hsame | hserver
      · rw [hsame]
        exact hreach
      · exact .step (a := .master conn wake) hreach trivial hserver
    | worker w =>
      rcases stepWorkerSff_server hstep with hsame | hserver
      · rw [hsame]
        exact hreach
      · exact .step (a := .worker w) hreach trivial hserver

end Steps

/-! ### Going to sleep -/

/-- The master tests its loop condition while all slots but one are taken. -/
def TestsOneFree (buffer_num : Nat) (s : SffState n) (a : Action Connection n) : Prop :=
  (∃ conn wake, a = .master conn wake) ∧ (∃ conn, s.server.master = .critical conn) ∧
    s.server.buffer.count = buffer_num - 1

/-- The master sleeps on `empty` and every worker sleeps on `full`. -/
def Wedged (s : SffState n) : Prop :=
  s.server.master.Asleep = true ∧ ∀ w, (s.server.workers w).Asleep = true

section Sleep

variable {host : Host} {buffer_num : Nat} {junk : Nat → Option RequestInfor} {s s' : SffState n}

theorem stepMaster_awake {C I B : Type*} {S : Schedule C I B} {s s' : State C I B n} {conn : C}
    {wake : Option (Fin n)} (hs : stepMaster S s conn wake = some s')
    (htest : ∀ conn, s.master = .critical conn → S.count s.buffer ≠ S.limit) :
    s'.master.Asleep = false := by
  cases hm : s.master <;> simp only [stepMaster, hm] at hs
  case critical conn' =>
    rw [if_neg (htest conn' hm)] at hs
    cases wake with
    | none =>
      simp only [State.signalFull] at hs
      split at hs <;> cases hs
      rfl
    | some w =>
      simp only [State.signalFull] at hs
      split at hs <;> cases hs
      rfl
  case lock | woken =>
    split at hs <;> cases hs
    rfl
  case asleep => cases hs
  all_goals
    cases hs
    rfl

theorem stepWorker_awake {C I B : Type*} {S : Schedule C I B} {s s' : State C I B n} {w : Fin n}
    (hs : stepWorker S s w = some s') (hawake : s.master.Asleep = false) :
    s'.master.Asleep = false := by
  cases hx : s.workers w <;> simp only [stepWorker, hx] at hs
  case critical =>
    split at hs <;> cases hs
    · exact hawake
    · exact s.master.asleep_signalEmpty
  case lock | woken =>
    split at hs <;> cases hs
    exact hawake
  case asleep => cases hs
  all_goals
    cases hs
    exact hawake

/-- A master that never tests with one free slot never sleeps. -/
theorem Reaches.awake (hs : (sffServer host buffer_num junk n).Reaches
      (fun s a => ¬ TestsOneFree buffer_num s a) s) : s.server.master.Asleep = false := by
  refine System.Reaches.invariant (P := fun s => s.server.master.Asleep = false) rfl ?_ hs
  intro s a s' _ hawake htest hstep
  simp only [sffServer] at hstep
  split at hstep
  · cases hstep
  · cases a with
    | master conn wake =>
      rcases stepMasterSff_server hstep with hsame | hserver
      · rw [hsame]
        exact hawake
      · apply stepMaster_awake hserver
        intro conn' hm hcount
        exact htest ⟨⟨conn, wake, rfl⟩, ⟨conn', hm⟩, hcount⟩
    | worker w =>
      rcases stepWorkerSff_server hstep with hsame | hserver
      · rw [hsame]
        exact hawake
      · exact stepWorker_awake hserver hawake

/-- A test with one free slot puts the master to sleep. -/
theorem asleep_of_testsOneFree {a : Action Connection n} (htest : TestsOneFree buffer_num s a)
    (hstep : (sffServer host buffer_num junk n).step s a = some s') :
    s'.server.master.Asleep = true ∧ s'.server.buffer.count = buffer_num - 1 := by
  obtain ⟨⟨conn, wake, rfl⟩, ⟨conn', hm⟩, hcount⟩ := htest
  have hlimit : (sff host buffer_num junk).count s.server.buffer =
      (sff host buffer_num junk).limit := hcount
  simp only [sffServer] at hstep
  split at hstep
  · cases hstep
  · simp only [stepMasterSff, hm, if_pos hcount, stepMaster, if_pos hlimit, Option.map_some,
      Option.some.injEq] at hstep
    subst hstep
    exact ⟨rfl, hcount⟩

/-- With at least two slots somebody is awake. -/
theorem Reachable.not_wedged (hb : 2 ≤ buffer_num) (hn : 1 ≤ n)
    (hs : (sffServer host buffer_num junk n).Reachable s) : ¬ Wedged s := by
  have hlimit : 0 < (sff host buffer_num junk).limit := Nat.sub_pos_of_lt hb
  have hinv := Reachable.serverInv (sff_counts host buffer_num junk) hn (Reachable.server hs)
  exact hinv.not_all_asleep hlimit

/-- With one slot the buffer stays empty. -/
theorem Reachable.one_slot_empty (hn : 1 ≤ n) (hs : (sffServer host 1 junk n).Reachable s) :
    s.server.buffer.count = 0 :=
  Nat.le_zero.mp (Reachable.serverInv (sff_counts host 1 junk) hn (Reachable.server hs)).count_le

/-- **With one slot no request is ever taken, so none is served.** -/
theorem one_slot_serves_nothing (hn : 1 ≤ n) (hs : (sffServer host 1 junk n).Reachable s) :
    (∀ w, (s.server.workers w).holding = []) ∧ s.responses = [] := by
  refine System.Reaches.invariant (P := fun s => (∀ w, (s.server.workers w).holding = []) ∧
    s.responses = []) ⟨fun _ => rfl, rfl⟩ ?_ hs
  rintro s a s' hreach ⟨hidle, hresponses⟩ _ hstep
  have hempty := Reachable.one_slot_empty hn hreach
  have hcount : (sff host 1 junk).count s.server.buffer = (sff host 1 junk).limit := hempty
  have hzero : (sff host 1 junk).count s.server.buffer = 0 := hempty
  simp only [sffServer] at hstep
  split at hstep
  · cases hstep
  · cases a with
    | master conn wake =>
      cases hm : s.server.master <;> simp only [stepMasterSff, hm, stepMaster] at hstep
      case accept =>
        split at hstep <;> cases hstep
        exact ⟨hidle, hresponses⟩
      case critical conn' =>
        rw [if_pos hempty, if_pos hcount] at hstep
        cases hstep
        exact ⟨hidle, hresponses⟩
      case lock | woken =>
        split at hstep <;> cases hstep
        exact ⟨hidle, hresponses⟩
      case asleep => cases hstep
      case unlock =>
        cases hstep
        exact ⟨hidle, hresponses⟩
    | worker w =>
      have hw := hidle w
      have hothers : ∀ v, v ≠ w → (s.server.workers v).holding = [] := fun v _ => hidle v
      cases hx : s.server.workers w <;> rw [hx] at hw <;>
        simp only [stepWorkerSff, hx, stepWorker] at hstep
      case critical =>
        rw [if_pos hzero] at hstep
        cases hstep
        exact ⟨forall_setWorker (fun _ x => x.holding = []) rfl hothers, hresponses⟩
      case lock | woken =>
        split at hstep <;> cases hstep
        exact ⟨forall_setWorker (fun _ x => x.holding = []) rfl hothers, hresponses⟩
      case asleep => cases hstep
      all_goals cases hw

end Sleep

/-- **When the SFF server blocks.**  A run, over any schedule, meets the README's rule in
    every state it passes through (the master sleeps on a full buffer only, and never
    together with all workers) iff its master never tests with one free slot.  With two
    slots or more the server is never wedged. -/
theorem sff_blocks_iff (host : Host) {buffer_num : Nat} (junk : Nat → Option RequestInfor)
    (hb : 1 ≤ buffer_num) (hn : 1 ≤ n) (as : List (Action Connection n))
    (hrun : ((sffServer host buffer_num junk n).run
      (sffServer host buffer_num junk n).start as).isSome) :
    ((∀ s, (sffServer host buffer_num junk n).Visits as s →
        (s.server.master.Asleep = true → s.server.buffer.count = buffer_num) ∧ ¬ Wedged s) ↔
      ∀ s a, (sffServer host buffer_num junk n).Takes as s a → ¬ TestsOneFree buffer_num s a) ∧
    (2 ≤ buffer_num → ∀ s, (sffServer host buffer_num junk n).Visits as s → ¬ Wedged s) := by
  refine ⟨⟨?_, ?_⟩, ?_⟩
  · intro hgood s a htakes htest
    obtain ⟨s', hstep, hvisits⟩ := htakes.visits hrun
    obtain ⟨hasleep, hcount⟩ := asleep_of_testsOneFree htest hstep
    have hfull := (hgood s' hvisits).1 hasleep
    omega
  · intro hnone s hvisits
    have hawake := Reaches.awake (hvisits.reaches.mono hnone)
    refine ⟨?_, ?_⟩
    · intro hasleep
      rw [hawake] at hasleep
      cases hasleep
    · rintro ⟨hasleep, _⟩
      rw [hawake] at hasleep
      cases hasleep
  · intro htwo s hvisits
    exact Reachable.not_wedged htwo hn hvisits.reaches.reachable

/-- A GET request is accepted; then the master and the only worker make their tests. -/
def acceptAndTest : List (Action Connection 1) :=
  [.master ⟨3, getRequest, freshStack⟩ none, .master ⟨3, getRequest, freshStack⟩ none,
    .master ⟨3, getRequest, freshStack⟩ none, .worker ⟨0, Nat.one_pos⟩, .worker ⟨0, Nat.one_pos⟩]

theorem acceptAndTest_wedges : ∃ s : SffState 1,
    (sffServer oneFile 1 (fun _ => none) 1).run (sffServer oneFile 1 (fun _ => none) 1).start
      acceptAndTest = some s ∧ Wedged s ∧ s.server.buffer.count = 0 := by
  have hend : ((sffServer oneFile 1 (fun _ => none) 1).run
      (sffServer oneFile 1 (fun _ => none) 1).start acceptAndTest).map (fun s =>
        (s.server.master.Asleep, (s.server.workers 0).Asleep, s.server.buffer.count)) =
      some (true, true, 0) := by decide +kernel
  obtain ⟨s, hs, hasleep⟩ := Option.map_eq_some_iff.mp hend
  simp only [Prod.mk.injEq] at hasleep
  refine ⟨s, hs, ⟨hasleep.1, ?_⟩, hasleep.2.2⟩
  intro w
  rw [Subsingleton.elim w 0]
  exact hasleep.2.1

/-- With one slot that run makes a test with one free slot. -/
theorem sff_blocks_iff_one :
    ¬ ∀ s a, (sffServer oneFile 1 (fun _ => none) 1).Takes acceptAndTest s a →
      ¬ TestsOneFree 1 s a := by
  intro hnone
  obtain ⟨s, hs, hwedged, _⟩ := acceptAndTest_wedges
  have hrun : ((sffServer oneFile 1 (fun _ => none) 1).run
      (sffServer oneFile 1 (fun _ => none) 1).start acceptAndTest).isSome := by
    rw [hs]
    rfl
  have hgood := (sff_blocks_iff oneFile (fun _ => none) (le_refl 1) (le_refl 1) acceptAndTest
    hrun).1.mpr hnone
  exact (hgood s ⟨acceptAndTest, [], (List.append_nil _).symm, hs⟩).2 hwedged

/-- **A server with one slot hangs** on a GET request that it could serve. -/
theorem sff_wedged : ∃ s : SffState 1,
    (sffServer oneFile 1 (fun _ => none) 1).Reaches
      (fun s a => ∀ conn, Accepts s a conn → conn.request.Servable oneFile) s ∧
    Wedged s ∧ s.server.accepted.length = 1 ∧ s.server.buffer.count ≠ 1 := by
  obtain ⟨s, hs, hwedged, hcount⟩ := acceptAndTest_wedges
  have hok : ∀ a ∈ acceptAndTest, ∀ (s : SffState 1) (conn),
      Accepts s a conn → conn.request.Servable oneFile := by
    rintro a ha s conn ⟨_, wake, rfl⟩
    simp only [acceptAndTest, List.mem_cons, Action.master.injEq, reduceCtorEq, List.not_mem_nil,
      or_false, or_self] at ha
    obtain ⟨rfl, _⟩ := ha
    exact getRequest_servable
  have haccepted : ((sffServer oneFile 1 (fun _ => none) 1).run
      (sffServer oneFile 1 (fun _ => none) 1).start acceptAndTest).map (fun s =>
        s.server.accepted.length) = some 1 := by decide +kernel
  rw [hs] at haccepted
  refine ⟨s, System.Reaches.runAll .start hok hs, hwedged, Option.some.inj haccepted, ?_⟩
  omega

end OstepProjects.WebServer
