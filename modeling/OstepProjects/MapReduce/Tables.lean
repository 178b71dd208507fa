/-
  OstepProjects/MapReduce/Tables.lean
  ===================================
  **Whether `MR_Run` stays within its tables.**

  `MR_Run` allocates a fixed number of slots for `all_data` and for every partition,
  and neither `MR_Emit` nor `MR_Sortadd` compares its index with it.  So a call stays
  within the tables as long as the pairs fit: those it emits and the slots that earlier
  calls have left in front of them, all together and in every partition (`Fits`).

  For a call that finds `map_count` to be `base` the emission invariant holds of the
  slots from `base` on (`TableInv`).  `MR_Run_inBounds` has both directions: calls whose
  pairs fit stay in bounds under every interleaving, whatever `reduce` does, and in a
  fresh process no others do.
-/
import OstepProjects.MapReduce.ReducePhase

namespace OstepProjects.MapReduce

open OstepProjects.CString OstepProjects.InsertionSort OstepProjects.Transition

variable {m r : Nat} {cfg : Config m r}

/-! ### Slots behind those of earlier calls -/

/-- The globals as a call sees them that numbers its slots from `base` on. -/
def Globals.behind (base : Nat) (g : Globals) : Globals :=
  { g with
    all_data := fun k => g.all_data (base + k)
    map_count := g.map_count - base }

def State.behind (base : Nat) (s : State m r) : State m r :=
  { s with globals := s.globals.behind base }

theorem emitStore_behind {base : Nat} {g : Globals} (h : base ≤ g.map_count)
    (key value : CString) :
    emitStore (g.behind base) key value = (emitStore g key value).behind base := by
  have hslot : base + (g.map_count - base) = g.map_count := by omega
  simp only [emitStore, Globals.behind, hslot]
  congr 1
  funext k
  by_cases hk : k = g.map_count - base
  · rw [hk, hslot, Function.update_self, Function.update_self]
  · rw [Function.update_of_ne hk, Function.update_of_ne (by omega)]

theorem stepMapper_behind {base : Nat} {s s' : State m r} {t : Fin m}
    (h : base ≤ s.globals.map_count) (hs : stepMapper s t = some s') :
    stepMapper (s.behind base) t = some (s'.behind base) := by
  obtain ⟨hmain, hcases⟩ := stepMapper_cases hs
  rcases hcases with ⟨hpc, htodo, rfl⟩ | ⟨hpc, htodo, hfree, rfl⟩ |
    ⟨key, value, todo, hpc, htodo, rfl⟩ | ⟨pair, todo, hpc, htodo, rfl⟩ | ⟨hpc, rfl⟩
  · simp [stepMapper, State.behind, State.setMapper, hmain, hpc, htodo]
  · obtain ⟨pair, todo, hcons⟩ := List.exists_cons_of_ne_nil htodo
    simp [stepMapper, State.behind, State.setMapper, hmain, hpc, hcons, hfree]
  · simp [stepMapper, State.behind, State.setMapper, hmain, hpc, htodo, emitStore_behind h]
  · have hcount : s.globals.map_count - base + 1 = s.globals.map_count + 1 - base := by omega
    simp [stepMapper, State.behind, Globals.behind, State.setMapper, hmain, hpc, htodo, hcount]
  · cases htodo : (s.mappers t).todo <;>
      simp [stepMapper, State.behind, State.setMapper, hmain, hpc, htodo]

/-! ### The invariant of the tables -/

/-- The slots of earlier calls, which this call allocates but does not write. -/
def Older (cfg : Config m r) (base : Nat) (g : Globals) : Prop :=
  ∀ k < base, (g.all_data k).key = (cfg.all_junk k).key

/-- How many of the first `i` slots belong to partition `p`. -/
def slotsOf (cfg : Config m r) (g : Globals) (i p : Nat) : Nat :=
  (List.range i).countP fun k => cfg.partition (g.all_data k).key r = p

structure TableInv (cfg : Config m r) (base : Nat) (s : State m r) : Prop where
  le : base ≤ s.globals.map_count
  emit : EmitInv cfg (s.behind base)
  phase : match s.main with
    | .checkArguments | .exited _ => True
    | .joinMappers => Older cfg base s.globals
    | .allocate => Older cfg base s.globals ∧ s.Joined
    | .partitionLoop i => Older cfg base s.globals ∧ s.Joined ∧
        ∀ p, s.globals.part_num p = slotsOf cfg s.globals i p
    | .joinReducers | .returned => s.Joined

theorem tableInv_start (cfg : Config m r) (g : Globals) :
    TableInv cfg g.map_count (.start cfg g) where
  le := Nat.le_refl _
  emit := emitInv_start cfg (g := g.behind g.map_count) (Nat.sub_self _)
  phase := trivial

theorem tableInv_mapper {base : Nat} {s s' : State m r} {t : Fin m} (h : TableInv cfg base s)
    (hs : stepMapper s t = some s') : TableInv cfg base s' := by
  obtain ⟨hle, hemit, hphase⟩ := h
  have hemit' := emitInv_mapper hemit (stepMapper_behind hle hs)
  obtain ⟨hmain, hcases⟩ := stepMapper_cases hs
  simp only [hmain] at hphase
  rcases hcases with ⟨hpc, htodo, rfl⟩ | ⟨hpc, htodo, hfree, rfl⟩ |
    ⟨key, value, todo, hpc, htodo, rfl⟩ | ⟨pair, todo, hpc, htodo, rfl⟩ | ⟨hpc, rfl⟩
  case inr.inr.inl =>
    refine ⟨hle, hemit', ?_⟩
    simp only [State.setMapper, hmain]
    -- the store goes to a slot of this call
    intro k hk
    have hne : k ≠ s.globals.map_count := by omega
    simp only [emitStore, Function.update_of_ne hne]
    exact hphase k hk
  case inr.inr.inr.inl =>
    refine ⟨Nat.le_succ_of_le hle, hemit', ?_⟩
    simp only [State.setMapper, hmain]
    exact hphase
  all_goals
    refine ⟨hle, hemit', ?_⟩
    simp only [State.setMapper, hmain]
    exact hphase

/-- The loop body leaves the keys as they are. -/
theorem partitionEntry_key (partition : Partitioner) (num i k : Nat) (g : Globals) :
    ((partitionEntry partition num g i).all_data k).key = (g.all_data k).key :=
  congrArg Prod.fst (partitionEntry_pair partition num i k g)

theorem slotsOf_succ (cfg : Config m r) (g : Globals) (i p : Nat) :
    slotsOf cfg g (i + 1) p =
      slotsOf cfg g i p + if cfg.partition (g.all_data i).key r = p then 1 else 0 := by
  simp [slotsOf, List.range_succ]

theorem tableInv_main {base : Nat} {s s' : State m r} (h : TableInv cfg base s)
    (hs : stepMain cfg s = some s') : TableInv cfg base s' := by
  obtain ⟨hle, hemit, hphase⟩ := h
  cases hmain : s.main <;> simp only [stepMain, hmain] at hs <;> simp only [hmain] at hphase
  case checkArguments =>
    obtain ⟨hemitted, hlock⟩ := hemit.unstarted hmain
    split at hs <;> cases hs
    · refine ⟨hle, ⟨?_, hemit.count, ?_, fun hc => (by cases hc)⟩, fun k _ => rfl⟩
      · intro t
        have ht := hemit.mapper t
        refine ⟨ht.lock, ht.order, fun hc => ?_, ht.returned, ht.busy⟩
        have hpc : (s.mappers t).pc = .lock := hlock t
        change (s.mappers t).pc = .count at hc
        rw [hpc] at hc
        cases hc
      · have hnone : s.emitted = [] := hemitted
        simp only [State.pairs, State.behind, hnone]
        exact begins_nil _
    · exact ⟨hle, hemit.congr rfl rfl rfl rfl (fun _ => rfl) (by simp [State.behind]), trivial⟩
  case joinMappers =>
    split at hs <;> cases hs
    rename_i hjoined
    exact ⟨hle, hemit.congr rfl rfl rfl rfl (fun _ => rfl) (by simp [State.behind]), hphase,
      hjoined⟩
  case allocate =>
    cases hs
    refine ⟨hle, hemit.congr rfl rfl rfl rfl (fun _ => rfl) (by simp [State.behind]), hphase.1,
      hphase.2, fun p => rfl⟩
  case partitionLoop i =>
    obtain ⟨holder, hjoined, hfilled⟩ := hphase
    split at hs <;> cases hs
    · refine ⟨hle, hemit.congr rfl rfl rfl rfl (fun k => partitionEntry_pair ..)
        (by simp [State.behind]), ?_, hjoined, ?_⟩
      · intro k hk
        rw [partitionEntry_key]
        exact holder k hk
      · intro p
        have hkeys : slotsOf cfg (partitionEntry cfg.partition r s.globals i) (i + 1) p =
            slotsOf cfg s.globals (i + 1) p := by
          simp only [slotsOf, partitionEntry_key]
        rw [hkeys, slotsOf_succ, ← hfilled p]
        simp only [partitionEntry]
        by_cases hp : cfg.partition (s.globals.all_data i).key r = p
        · rw [if_pos hp, ← hp, Function.update_self]
        · rw [if_neg hp, Function.update_of_ne (Ne.symm hp), Nat.add_zero]
    · exact ⟨hle, hemit.congr rfl rfl rfl rfl (fun _ => rfl) (by simp [State.behind]), hjoined⟩
  case joinReducers =>
    split at hs <;> cases hs
    exact ⟨hle, hemit.congr rfl rfl rfl rfl (fun _ => rfl) (by simp [State.behind]), hphase⟩
  case returned | exited => cases hs

theorem tableInv_reducer {base : Nat} {s s' : State m r} {p : Fin r} (h : TableInv cfg base s)
    (hs : stepReducer cfg s p = some s') : TableInv cfg base s' := by
  obtain ⟨hle, hemit, hphase⟩ := h
  obtain ⟨hmain, _⟩ := stepReducer_cases hs
  simp only [hmain] at hphase
  obtain ⟨hmain', hmutex, hemitted, hmappers, hcount, hdata⟩ := stepReducer_keeps hs
  refine ⟨by rw [hcount]; exact hle, ?_, ?_⟩
  · refine hemit.congr hmutex hemitted hmappers ?_ ?_ (by simp [State.behind, hmain'])
    · simp only [State.behind, Globals.behind, hcount]
    · simp only [State.behind, Globals.behind, hdata, implies_true]
  · simp only [hmain', State.Joined, hmappers]
    exact hphase

theorem Reachable.tableInv {g : Globals} {s : State m r} (hs : (system cfg g).Reachable s) :
    TableInv cfg g.map_count s := by
  refine System.Reaches.invariant (tableInv_start cfg g) ?_ hs
  intro s a s' _ h _ hstep
  cases a with
  | main => exact tableInv_main h hstep
  | mapper t => exact tableInv_mapper h hstep
  | reducer p => exact tableInv_reducer h hstep

/-! ### Pairs that fit -/

/-- The pairs of a call, with the slots of earlier calls in front, fit into the tables. -/
structure Fits (cfg : Config m r) (base : Nat) : Prop where
  all_data : base + ∑ t, (cfg.calls t).length ≤ all_data_slots
  part_data : ∀ p, (List.range base).countP (fun k => cfg.partition (cfg.all_junk k).key r = p) +
    ∑ t, (cfg.calls t).countP (fun x => cfg.partition x.1 r = p) ≤ part_data_slots

/-- The slots of a partition are those of earlier calls and the pairs of this one. -/
theorem TableInv.slotsOf_map_count {base : Nat} {s : State m r} (h : TableInv cfg base s)
    (holder : Older cfg base s.globals) (p : Nat) :
    slotsOf cfg s.globals s.globals.map_count p =
      (List.range base).countP (fun k => cfg.partition (cfg.all_junk k).key r = p) +
        s.pairs.countP fun x => cfg.partition x.1 r = p := by
  have hcount : s.globals.map_count = base + s.pairs.length := by
    have hle := h.le
    have hemitted : s.globals.map_count - base = s.emitted.length := h.emit.count
    rw [State.pairs, List.length_map]
    omega
  have hstored : (List.range s.pairs.length).map (fun k => (s.globals.all_data (base + k)).pair) =
      s.pairs := Begins.map_range h.emit.stored
  rw [slotsOf, hcount, List.range_add, List.countP_append, List.countP_map]
  congr 1
  · apply List.countP_congr
    intro k hk
    rw [holder k (List.mem_range.mp hk)]
  · conv_rhs => rw [← hstored, List.countP_map]
    rfl

/-- **Pairs that fit are stored within the tables.** -/
theorem TableInv.inBounds {base : Nat} {s : State m r} (h : TableInv cfg base s)
    (hfits : Fits cfg base) : InBounds cfg s := by
  constructor
  · intro t hpc
    have hemitted : s.globals.map_count - base = s.emitted.length := h.emit.count
    have hroom : s.emitted.length < ∑ t, (cfg.calls t).length := h.emit.emitted_lt hpc
    have hle := h.le
    have hall := hfits.all_data
    omega
  · intro i hmain hi
    have hphase := h.phase
    simp only [hmain] at hphase
    obtain ⟨holder, _, hfilled⟩ := hphase
    obtain ⟨p, hp⟩ : ∃ p, p = cfg.partition (s.globals.all_data i).key r := ⟨_, rfl⟩
    have hnext : slotsOf cfg s.globals (i + 1) p = slotsOf cfg s.globals i p + 1 := by
      rw [slotsOf_succ, if_pos hp.symm]
    have hmono : slotsOf cfg s.globals (i + 1) p ≤ slotsOf cfg s.globals s.globals.map_count p :=
      (List.range_sublist.mpr hi).countP_le
    have hcount := h.emit.countP_pairs fun x => decide (cfg.partition x.1 r = p)
    have hpairs : (s.behind base).pairs = s.pairs := rfl
    rw [h.slotsOf_map_count holder, hnext] at hmono
    rw [hpairs] at hcount
    have hbound := hfits.part_data p
    rw [← hp, hfilled]
    omega

/-! ### Calls that stay within the tables -/

/-- The call with a `reduce` that reads until `NULL`. -/
def Config.untilNull (cfg : Config m r) : Config m r :=
  { cfg with reduce := fun _ answers => answers.all Option.isSome }

/-- The main thread has not started the reducers. -/
def MainPc.Early : MainPc → Prop
  | .checkArguments | .joinMappers | .allocate | .partitionLoop _ => True
  | _ => False

/-- Until the reducers start it does not matter what `reduce` does. -/
theorem reachable_of_untilNull {g : Globals} {s : State m r}
    (hs : (system cfg.untilNull g).Reachable s) (hearly : s.main.Early) :
    (system cfg g).Reachable s := by
  refine System.Reaches.invariant (T := system cfg.untilNull g)
    (P := fun s => s.main.Early → (system cfg g).Reachable s)
    (fun _ => (System.Reaches.start : (system cfg g).Reachable (.start cfg g))) ?_ hs hearly
  intro s a s' _ ih _ hstep hearly'
  cases a with
  | main =>
    have hstep' : stepMain cfg s = some s' := hstep
    have hearly : s.main.Early := by
      cases hmain : s.main <;> simp only [stepMain, hmain] at hstep'
      case joinReducers =>
        split at hstep' <;> cases hstep'
        cases hearly'
      case returned | exited => cases hstep'
      all_goals trivial
    exact .step (a := .main) (ih hearly) trivial hstep'
  | mapper t =>
    have hstep' : stepMapper s t = some s' := hstep
    have hearly : s.main.Early := by
      rw [(stepMapper_cases hstep').1]
      trivial
    exact .step (a := .mapper t) (ih hearly) trivial hstep'
  | reducer p =>
    rw [(stepReducer_keeps hstep).1] at hearly'
    cases hearly'

/-- The partitions have been allocated. -/
def MainPc.Filled : MainPc → Prop
  | .partitionLoop _ | .joinReducers | .returned => True
  | _ => False

/-- What has been stored so far has been stored within the tables. -/
structure Limited (s : State m r) : Prop where
  emitted : s.emitted.length ≤ all_data_slots
  counting : ∀ t, (s.mappers t).pc = .count → s.emitted.length < all_data_slots
  part_num : s.main.Filled → ∀ p, s.globals.part_num p ≤ part_data_slots

theorem limited_mapper {s s' : State m r} {t : Fin m} (hemit : EmitInv cfg s) (h : Limited s)
    (hin : InBounds cfg s) (hs : stepMapper s t = some s') : Limited s' := by
  obtain ⟨hmain, hcases⟩ := stepMapper_cases hs
  have hfilled : ∀ {P : Prop}, s.main.Filled → P := fun hf => by
    rw [hmain] at hf
    cases hf
  have hcounting : ∀ {x : MapThread}, x.pc ≠ .count → ∀ u,
      ((s.setMapper t x).mappers u).pc = .count → s.emitted.length < all_data_slots :=
    fun hx => forall_setMapper (fun _ x => x.pc = .count → s.emitted.length < all_data_slots)
      (fun hc => absurd hc hx) fun u _ => h.counting u
  rcases hcases with ⟨hpc, htodo, rfl⟩ | ⟨hpc, htodo, hfree, rfl⟩ |
    ⟨key, value, todo, hpc, htodo, rfl⟩ | ⟨pair, todo, hpc, htodo, rfl⟩ | ⟨hpc, rfl⟩
  · exact ⟨h.emitted, hcounting (by simp), hfilled⟩
  · exact ⟨h.emitted, hcounting (by simp), hfilled⟩
  · -- the pair has been stored
    have hroom : s.emitted.length < all_data_slots := by
      have hslot := hin.all_data t hpc
      rwa [hemit.count] at hslot
    exact ⟨h.emitted, fun u _ => hroom, hfilled⟩
  · have hroom := h.counting t hpc
    refine ⟨?_, ?_, hfilled⟩
    · rw [List.length_append, List.length_singleton]
      omega
    · -- nobody else is in the critical section
      refine forall_setMapper (fun _ x => x.pc = .count → _) (fun hc => (by cases hc)) ?_
      intro u hut hu
      have hout := hemit.outside (by rw [hpc]; rfl) hut
      rw [hu] at hout
      cases hout
  · exact ⟨h.emitted, hcounting (by simp), hfilled⟩

theorem limited_main {s s' : State m r} (h : Limited s) (hin : s.main.Early → InBounds cfg s)
    (hs : stepMain cfg s = some s') : Limited s' := by
  cases hmain : s.main <;> simp only [stepMain, hmain] at hs
  case checkArguments | joinMappers =>
    split at hs <;> cases hs
    all_goals exact ⟨h.emitted, h.counting, fun hf => by cases hf⟩
  case allocate =>
    cases hs
    exact ⟨h.emitted, h.counting, fun _ p => Nat.zero_le _⟩
  case partitionLoop i =>
    have hnum := h.part_num (by rw [hmain]; trivial)
    split at hs <;> cases hs
    · rename_i hi
      refine ⟨h.emitted, h.counting, fun _ p => ?_⟩
      have hroom := (hin (by rw [hmain]; trivial)).part_data i hmain hi
      simp only [partitionEntry]
      by_cases hp : p = cfg.partition (s.globals.all_data i).key r
      · rw [hp, Function.update_self]
        omega
      · rw [Function.update_of_ne hp]
        exact hnum p
    · exact ⟨h.emitted, h.counting, fun _ => hnum⟩
  case joinReducers =>
    have hnum := h.part_num (by rw [hmain]; trivial)
    split at hs <;> cases hs
    exact ⟨h.emitted, h.counting, fun _ => hnum⟩
  case returned | exited => cases hs

/-- A reducer thread writes its cursor only. -/
theorem stepReducer_part_num {s s' : State m r} {p : Fin r} (hs : stepReducer cfg s p = some s') :
    s'.globals.part_num = s.globals.part_num := by
  obtain ⟨_, ⟨_, rfl⟩ | ⟨_, rfl⟩ | ⟨key, _, _, _, rfl⟩ | ⟨_, _, _, _, rfl⟩⟩ :=
    stepReducer_cases hs
  case inr.inr.inl =>
    simp only [get_next]
    split <;> rfl
  all_goals rfl

theorem Reachable.limited {g : Globals} (hg : g.map_count = 0)
    (hin : ∀ s, (system cfg g).Reachable s → InBounds cfg s) {s : State m r}
    (hs : (system cfg.untilNull g).Reachable s) : Limited s := by
  have huntil : UntilNull cfg.untilNull.reduce := fun key answers => all_isSome_iff answers
  refine System.Reaches.invariant (T := system cfg.untilNull g) (P := Limited)
    ⟨Nat.zero_le _, fun t hc => (by cases hc), fun hf => (by cases hf)⟩ ?_ hs
  intro s a s' hreach h _ hstep
  have hearly : s.main.Early → InBounds cfg s :=
    fun hmain => hin s (reachable_of_untilNull hreach hmain)
  cases a with
  | main =>
    have hstep' : stepMain cfg s = some s' := hstep
    exact limited_main h hearly hstep'
  | mapper t =>
    have hmain : s.main.Early := by
      rw [(stepMapper_cases hstep).1]
      trivial
    obtain ⟨hdata, hpart⟩ := hearly hmain
    exact limited_mapper (Reachable.runInv hg huntil hreach).emit h ⟨hdata, hpart⟩ hstep
  | reducer p =>
    obtain ⟨hmain', -, hemitted, hmappers, -, -⟩ := stepReducer_keeps hstep
    have hmain : s.main = .joinReducers := (stepReducer_cases hstep).1
    refine ⟨by rw [hemitted]; exact h.emitted, by rw [hemitted, hmappers]; exact h.counting, ?_⟩
    intro _
    rw [stepReducer_part_num hstep]
    exact h.part_num (by rw [hmain]; trivial)

/-- **Calls that stay within the tables have pairs that fit**, when no pair has been
    emitted before and the mappers are started at all. -/
theorem fits_of_inBounds {g : Globals} (hg : g.map_count = 0) (hm : m ≤ cfg.num_mappers)
    (hin : ∀ s, (system cfg g).Reachable s → InBounds cfg s) : Fits cfg 0 := by
  have huntil : UntilNull cfg.untilNull.reduce := fun key answers => all_isSome_iff answers
  obtain ⟨s, hs, hstuck⟩ := (system_terminates hg huntil).exists_stuck
  have hrun := Reachable.runInv hg huntil hs
  have hmain : s.main = .returned := (hrun.stuck hstuck).resolve_right fun hmore => hmore hm
  have hlimited := Reachable.limited hg hin hs
  have hphase := hrun.phase
  simp only [PhaseInv, hmain] at hphase
  obtain ⟨hjoined, _, L, hL⟩ := hphase
  -- at the end every call has been made
  have hleft : ∀ (q : CString × CString → Bool) (t : Fin m), (s.mappers t).left.countP q = 0 := by
    intro q t
    rw [MapThread.left, if_neg (by rw [hjoined t]; decide),
      (hrun.emit.mapper t).returned (hjoined t), List.countP_nil]
  have hall : ∀ q : CString × CString → Bool,
      s.pairs.countP q = ∑ t, (cfg.calls t).countP q := by
    intro q
    have hcount := hrun.emit.countP_pairs q
    simp only [hleft, Finset.sum_const_zero, Nat.add_zero] at hcount
    exact hcount
  constructor
  · have htotal := hall fun _ => true
    simp only [List.countP_true] at htotal
    rw [← htotal, Nat.zero_add, State.pairs, List.length_map]
    exact hlimited.emitted
  · intro p
    have hpart := hL.partition p
    have hlength := hpart.perm.length_eq
    rw [List.length_map, ← List.countP_eq_length_filter] at hlength
    have hnum := hlimited.part_num (by rw [hmain]; trivial) p
    rw [hpart.length, hlength, hall] at hnum
    rw [List.range_zero, List.countP_nil, Nat.zero_add]
    exact hnum

/-- **`MR_Run` stays within its tables** in every state that a call reaches whose pairs
    fit, behind whatever earlier calls have left; and when no pair has been emitted
    before, no other call does. -/
theorem MR_Run_inBounds (cfg : Config m r) (g : Globals) :
    (Fits cfg g.map_count → ∀ s, (system cfg g).Reachable s → InBounds cfg s) ∧
      (g.map_count = 0 → m ≤ cfg.num_mappers →
        (∀ s, (system cfg g).Reachable s → InBounds cfg s) → Fits cfg 0) :=
  ⟨fun hfits _ hs => (Reachable.tableInv hs).inBounds hfits,
    fun hg hm hin => fits_of_inBounds hg hm hin⟩

/-- The pairs of `twoMappers` fit. -/
theorem MR_Run_inBounds_twoMappers :
    ∀ s, (system twoMappers (.initial (twoMappers.all_junk 0))).Reachable s →
      InBounds twoMappers s := by
  have hthree : ∑ t, (twoMappers.calls t).length ≤ 3 := by decide
  apply (MR_Run_inBounds twoMappers (.initial (twoMappers.all_junk 0))).1
  refine ⟨?_, fun p => ?_⟩
  · rw [all_data_slots]
    exact (Nat.add_le_add_left hthree _).trans (by decide)
  · refine (Nat.add_le_add_left ((Finset.sum_le_sum fun t _ => List.countP_le_length).trans
      hthree) _).trans ?_
    rw [part_data_slots]
    exact Nat.le_of_ble_eq_true rfl

/-- One mapper that emits one key more often than a partition has slots. -/
def skewed : Config 1 1 where
  num_mappers := 1
  calls _ := List.replicate (part_data_slots + 1) (⟨[107], by decide⟩, ⟨[48], by decide⟩)
  reduce _ answers := answers.all Option.isSome
  partition _ _ := 0
  all_junk := twoMappers.all_junk
  part_junk := twoMappers.part_junk

theorem not_inBounds_skewed :
    ¬ ∀ (m r : Nat) (cfg : Config m r) (junk : map_data), (∀ key, cfg.partition key r < r) →
      ∀ s, (system cfg (.initial junk)).Reachable s → InBounds cfg s := by
  intro h
  have hfits := fits_of_inBounds (g := .initial (skewed.all_junk 0)) rfl (Nat.le_refl 1)
    (h 1 1 skewed _ fun _ => Nat.one_pos)
  have hpart := hfits.part_data 0
  simp [skewed] at hpart

end OstepProjects.MapReduce
