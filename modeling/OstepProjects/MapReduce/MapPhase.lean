/-
  OstepProjects/MapReduce/MapPhase.lean
  =====================================
  **Emission and partitioning.**

  Under every interleaving of the mappers `all_data` holds the emitted pairs in the
  order of the critical sections, and each mapper's calls occur among them in its own
  order (`EmitInv`).  After `i` rounds of the partition loop each partition is sorted
  by key, and the values of a key stand in it in the order of emission
  (`PartitionInv`).
-/
import OstepProjects.Lib.Grouping
import OstepProjects.MapReduce.Mapreduce

namespace OstepProjects.MapReduce

open OstepProjects.CString OstepProjects.InsertionSort OstepProjects.Transition
open OstepProjects.Grouping

variable {m r : Nat} {cfg : Config m r}

/-! ### The mappers -/

/-- Statements between the lock and the unlock of `MR_Emit`. -/
def MapPc.Inside : MapPc → Bool
  | .store | .count | .unlock => true
  | _ => false

def map_data.pair (d : map_data) : CString × CString := (d.key, d.value)

/-- The calls of a mapper whose critical section is still to come. -/
def MapThread.left (x : MapThread) : List (CString × CString) :=
  if x.pc = .unlock then x.todo.tail else x.todo

/-- The emitted pairs, without the mapper they come from. -/
def State.pairs (s : State m r) : List (CString × CString) := s.emitted.map Prod.snd

/-- One mapper and the data it shares. -/
structure MapperInv (cfg : Config m r) (mutex : Option (Fin m))
    (emitted : List (Fin m × CString × CString)) (g : Globals) (t : Fin m) (x : MapThread) :
    Prop where
  lock : mutex = some t ↔ x.pc.Inside = true
  order : (emitted.filter fun e => e.1 = t).map Prod.snd ++ x.left = cfg.calls t
  pending : x.pc = .count → ∃ rest, x.todo = (g.all_data g.map_count).pair :: rest
  returned : x.pc = .returned → x.todo = []
  busy : x.pc.Inside = true → x.todo ≠ []

structure EmitInv (cfg : Config m r) (s : State m r) : Prop where
  mapper : ∀ t, MapperInv cfg s.mutex s.emitted s.globals t (s.mappers t)
  count : s.globals.map_count = s.emitted.length
  stored : Begins (fun k => (s.globals.all_data k).pair) s.pairs
  unstarted : s.main = .checkArguments →
    s.emitted = [] ∧ ∀ t, (s.mappers t).pc = .lock

theorem emitInv_start (cfg : Config m r) {g : Globals} (hg : g.map_count = 0) :
    EmitInv cfg (.start cfg g) where
  mapper t := by
    constructor <;> simp [State.start, MapPc.Inside, MapThread.left]
  count := hg
  stored := begins_nil _
  unstarted _ := ⟨rfl, fun _ => rfl⟩

section Mapper

variable {s s' : State m r} {t : Fin m}

/-- The step of a mapper, statement by statement. -/
theorem stepMapper_cases (h : stepMapper s t = some s') :
    s.main = .joinMappers ∧
    (((s.mappers t).pc = .lock ∧ (s.mappers t).todo = [] ∧
        s' = s.setMapper t ⟨.returned, []⟩) ∨
      ((s.mappers t).pc = .lock ∧ (s.mappers t).todo ≠ [] ∧ s.mutex = none ∧
        s' = { s.setMapper t ⟨.store, (s.mappers t).todo⟩ with mutex := some t }) ∨
      (∃ key value todo, (s.mappers t).pc = .store ∧ (s.mappers t).todo = (key, value) :: todo ∧
        s' = { s.setMapper t ⟨.count, (key, value) :: todo⟩ with
          globals := emitStore s.globals key value }) ∨
      (∃ pair todo, (s.mappers t).pc = .count ∧ (s.mappers t).todo = pair :: todo ∧
        s' = { s.setMapper t ⟨.unlock, pair :: todo⟩ with
          globals := { s.globals with map_count := s.globals.map_count + 1 }
          emitted := s.emitted ++ [(t, pair)] }) ∨
      ((s.mappers t).pc = .unlock ∧
        s' = { s.setMapper t ⟨.lock, (s.mappers t).todo.tail⟩ with mutex := none })) := by
  unfold stepMapper at h
  by_cases hmain : s.main = .joinMappers
  · rw [if_pos hmain] at h
    refine ⟨hmain, ?_⟩
    cases hpc : (s.mappers t).pc <;> cases htodo : (s.mappers t).todo <;>
      simp only [hpc, htodo] at h
    case lock.nil =>
      cases h
      exact Or.inl ⟨rfl, rfl, rfl⟩
    case lock.cons =>
      split at h
      · rename_i hfree
        cases h
        exact Or.inr (Or.inl ⟨rfl, List.cons_ne_nil _ _, hfree, rfl⟩)
      · cases h
    case store.cons pair todo =>
      cases h
      exact Or.inr (Or.inr (Or.inl ⟨_, _, _, rfl, rfl, rfl⟩))
    case count.cons pair todo =>
      cases h
      exact Or.inr (Or.inr (Or.inr (Or.inl ⟨_, _, rfl, rfl, rfl⟩)))
    case unlock.nil | unlock.cons =>
      cases h
      exact Or.inr (Or.inr (Or.inr (Or.inr ⟨rfl, rfl⟩)))
    all_goals cases h
  · rw [if_neg hmain] at h
    cases h

/-- What holds of the new state of one mapper and of all others holds of all. -/
theorem forall_setMapper (P : Fin m → MapThread → Prop) {x : MapThread} (ht : P t x)
    (h : ∀ u, u ≠ t → P u (s.mappers u)) (u : Fin m) : P u ((s.setMapper t x).mappers u) :=
  (Function.forall_update_iff s.mappers P).mpr ⟨ht, h⟩ u

/-- While a mapper is inside, no other is. -/
theorem EmitInv.outside (h : EmitInv cfg s) (hin : (s.mappers t).pc.Inside = true) {u : Fin m}
    (hu : u ≠ t) : (s.mappers u).pc.Inside = false := by
  by_contra hc
  have hmutex := (h.mapper u).lock.mpr (by simpa using hc)
  rw [(h.mapper t).lock.mpr hin] at hmutex
  cases hmutex
  exact hu rfl

/-- While a mapper is inside, the mutex is not another's. -/
theorem EmitInv.mutex_ne (h : EmitInv cfg s) (hin : (s.mappers t).pc.Inside = true) {u : Fin m}
    (hu : u ≠ t) : s.mutex ≠ some u := by
  rw [(h.mapper t).lock.mpr hin]
  simpa using Ne.symm hu

theorem EmitInv.outside_of_free (h : EmitInv cfg s) (hfree : s.mutex = none) (u : Fin m) :
    (s.mappers u).pc.Inside = false := by
  by_contra hc
  have hmutex := (h.mapper u).lock.mpr (by simpa using hc)
  rw [hfree] at hmutex; cases hmutex

/-- A mapper outside its critical section does not depend on `mutex` being another's,
    on the array, or on the pairs of other mappers. -/
theorem MapperInv.frame {mutex mutex' : Option (Fin m)}
    {emitted emitted' : List (Fin m × CString × CString)} {g g' : Globals} {x : MapThread}
    (h : MapperInv cfg mutex emitted g t x) (hout : x.pc.Inside = false)
    (hmutex : mutex' ≠ some t)
    (hemitted : emitted'.filter (fun e => e.1 = t) = emitted.filter fun e => e.1 = t) :
    MapperInv cfg mutex' emitted' g' t x where
  lock := by simp [hmutex, hout]
  order := by
    rw [hemitted]
    exact h.order
  pending hpc := by rw [hpc] at hout; cases hout
  returned := h.returned
  busy hin := by rw [hin] at hout; cases hout

theorem emitInv_mapper (h : EmitInv cfg s) (hs : stepMapper s t = some s') : EmitInv cfg s' := by
  have ht := h.mapper t
  obtain ⟨hmain, hcases⟩ := stepMapper_cases hs
  have hstarted : ∀ {P : Prop}, s.main = .checkArguments → P := fun hc => by
    rw [hmain] at hc; cases hc
  rcases hcases with ⟨hpc, htodo, rfl⟩ | ⟨hpc, hne, hfree, rfl⟩ |
    ⟨key, value, todo, hpc, htodo, rfl⟩ | ⟨pair, todo, hpc, htodo, rfl⟩ | ⟨hpc, rfl⟩
  · -- the map function returns
    have horder := ht.order
    have hlock := ht.lock
    simp only [MapThread.left, hpc, htodo] at horder
    rw [hpc] at hlock
    refine ⟨forall_setMapper (MapperInv cfg s.mutex s.emitted s.globals) ?_ ?_, h.count, h.stored,
      hstarted⟩
    · exact ⟨hlock, horder, fun hc => (by cases hc), fun _ => rfl, fun hc => (by cases hc)⟩
    · exact fun u _ => h.mapper u
  · -- the mutex is taken
    have horder := ht.order
    simp only [MapThread.left, hpc] at horder
    refine ⟨forall_setMapper (MapperInv cfg (some t) s.emitted s.globals) ?_ ?_, h.count,
      h.stored, hstarted⟩
    · exact ⟨by simp [MapPc.Inside], horder, fun hc => (by cases hc), fun hc => (by cases hc),
        fun _ => hne⟩
    · intro u hu
      exact (h.mapper u).frame (h.outside_of_free hfree u) (by simpa using Ne.symm hu) rfl
  · -- the pair is copied into the array
    have hin : (s.mappers t).pc.Inside = true := by rw [hpc]; rfl
    have horder := ht.order
    simp only [MapThread.left, hpc, htodo] at horder
    refine ⟨forall_setMapper (MapperInv cfg s.mutex s.emitted (emitStore s.globals key value))
      ?_ ?_, h.count, ?_, hstarted⟩
    · refine ⟨?_, horder, fun _ => ⟨todo, ?_⟩, fun hc => (by cases hc),
        fun _ => List.cons_ne_nil _ _⟩
      · rw [ht.lock, hpc]
        exact Iff.rfl
      · simp [emitStore, map_data.pair]
    · exact fun u hu => (h.mapper u).frame (h.outside hin hu) (h.mutex_ne hin hu) rfl
    · intro k x hk
      have hlt := (List.getElem?_eq_some_iff.mp hk).1
      have hne : k ≠ s.globals.map_count := by
        rw [h.count]
        simp only [State.pairs, State.setMapper, List.length_map] at hlt
        omega
      simp only [emitStore]
      rw [Function.update_of_ne hne]
      exact h.stored k x hk
  · -- the count is advanced
    have hin : (s.mappers t).pc.Inside = true := by rw [hpc]; rfl
    have horder := ht.order
    simp only [MapThread.left, hpc, htodo] at horder
    obtain ⟨rest, hrest⟩ := ht.pending hpc
    rw [htodo, List.cons.injEq] at hrest
    refine ⟨forall_setMapper (MapperInv cfg s.mutex (s.emitted ++ [(t, pair)])
      { s.globals with map_count := s.globals.map_count + 1 }) ?_ ?_, ?_, ?_, hstarted⟩
    · refine ⟨?_, ?_, fun hc => (by cases hc), fun hc => (by cases hc),
        fun _ => List.cons_ne_nil _ _⟩
      · rw [ht.lock, hpc]
        exact Iff.rfl
      · rw [← horder]
        simp [MapThread.left]
    · intro u hu
      refine (h.mapper u).frame (h.outside hin hu) (h.mutex_ne hin hu) ?_
      simp [Ne.symm hu]
    · simp [h.count]
    · have hpairs : State.pairs { s.setMapper t ⟨.unlock, pair :: todo⟩ with
          globals := { s.globals with map_count := s.globals.map_count + 1 }
          emitted := s.emitted ++ [(t, pair)] } = s.pairs ++ [pair] := by
        simp [State.pairs]
      rw [hpairs]
      refine begins_concat.mpr ⟨h.stored, ?_⟩
      rw [hrest.1, h.count]
      simp [State.pairs]
  · -- the mutex is released
    have hin : (s.mappers t).pc.Inside = true := by rw [hpc]; rfl
    have horder := ht.order
    simp only [MapThread.left, hpc, if_true] at horder
    refine ⟨forall_setMapper (MapperInv cfg none s.emitted s.globals) ?_ ?_, h.count, h.stored,
      hstarted⟩
    · exact ⟨by simp [MapPc.Inside], horder, fun hc => (by cases hc), fun hc => (by cases hc),
        fun hc => (by cases hc)⟩
    · intro u hu
      exact (h.mapper u).frame (h.outside hin hu) (by simp) rfl

end Mapper

/-- The invariant reads of the globals the emitted part of `all_data` only. -/
theorem EmitInv.congr {s s' : State m r} (h : EmitInv cfg s) (hmutex : s'.mutex = s.mutex)
    (hemitted : s'.emitted = s.emitted) (hmappers : s'.mappers = s.mappers)
    (hcount : s'.globals.map_count = s.globals.map_count)
    (hdata : ∀ k, (s'.globals.all_data k).pair = (s.globals.all_data k).pair)
    (hmain : s'.main ≠ .checkArguments) : EmitInv cfg s' where
  mapper t := by
    have ht := h.mapper t
    rw [hmutex, hemitted, hmappers]
    refine ⟨ht.lock, ht.order, ?_, ht.returned, ht.busy⟩
    intro hpc
    rw [hcount, hdata]
    exact ht.pending hpc
  count := by rw [hcount, hemitted, h.count]
  stored := by
    rw [State.pairs, hemitted]
    simp only [hdata]
    exact h.stored
  unstarted hc := absurd hc hmain

/-! ### The partition loop -/

/-- Partition `p` holds the pairs `xs` that belong to it, as the list `L`. -/
structure PartitionInv (cfg : Config m r) (xs : List (CString × CString)) (p : Nat) (g : Globals)
    (L : List map_data) : Prop where
  begins : Begins (g.part_data p) L
  length : g.part_num p = L.length
  sorted : L.Pairwise fun a b => a.key ≤ b.key
  values : ∀ k, (L.filter fun d => d.key = k).map map_data.pair =
    if cfg.partition k r = p then xs.filter fun x => x.1 = k else []
  perm : (L.map map_data.pair).Perm (xs.filter fun x => cfg.partition x.1 r = p)

theorem partitionInv_nil (cfg : Config m r) (p : Nat) {g : Globals} (hg : g.part_num p = 0) :
    PartitionInv cfg [] p g [] where
  begins := begins_nil _
  length := hg
  sorted := List.Pairwise.nil
  values k := by simp
  perm := by simp

/-- `MR_Sortadd` inserts behind equal keys. -/
theorem MR_Sortadd_begins {a : Nat → map_data} {L : List map_data} (h : Begins a L)
    (d : map_data) :
    Begins (MR_Sortadd a d L.length) (insertLast (fun x y => strcmp x.key y.key < 0) L d) :=
  sift_begins _ (h.update (le_refl _) d) (Function.update_self ..)

/-- One round of the loop adds the next pair to its partition and to no other. -/
theorem partitionInv_entry {xs : List (CString × CString)} {p i : Nat} {g : Globals}
    {L : List map_data} (h : PartitionInv cfg xs p g L) :
    ∃ L', PartitionInv cfg (xs ++ [(g.all_data i).pair]) p
      (partitionEntry cfg.partition r g i) L' := by
  have hkey : (g.all_data i).pair.1 = (g.all_data i).key := rfl
  by_cases hp : p = cfg.partition (g.all_data i).key r
  · subst hp
    let d : map_data :=
      { g.all_data i with part_number := cfg.partition (g.all_data i).key r }
    refine ⟨insertLast (fun x y => strcmp x.key y.key < 0) L d, ?_, ?_, ?_, ?_, ?_⟩
    · simp only [partitionEntry, Function.update_self, h.length]
      exact MR_Sortadd_begins h.begins d
    · simp [partitionEntry, h.length]
    · exact pairwise_insertLast _ map_data.key (fun x y => strcmp_neg x.key y.key) d h.sorted
    · intro k
      have hstable : ∀ y ∈ L, decide (d.key = k) = true → decide (y.key = k) = true →
          ¬ strcmp d.key y.key < 0 := by
        intro y _ hd hy
        rw [strcmp_neg, of_decide_eq_true hd, of_decide_eq_true hy]
        exact lt_irrefl k
      rw [filter_insertLast _ (fun d => decide (d.key = k)) L d hstable, List.filter_append,
        List.map_append, h.values, List.filter_append]
      by_cases hk : (g.all_data i).key = k
      · subst hk
        simp [d, map_data.pair]
      · have hd : ¬ d.key = k := hk
        simp [hd, hk, hkey]
    · apply ((perm_insertLast _ L d).map map_data.pair).trans
      rw [List.map_append, List.filter_append]
      apply h.perm.append
      simp [d, map_data.pair]
  · refine ⟨L, ?_, ?_, h.sorted, ?_, ?_⟩
    · simp only [partitionEntry, Function.update_of_ne hp]
      exact h.begins
    · simp only [partitionEntry, Function.update_of_ne hp]
      exact h.length
    · intro k
      rw [h.values, List.filter_append]
      by_cases hk : cfg.partition k r = p
      · have hne : ¬ (g.all_data i).pair.1 = k := by
          rw [hkey]
          rintro rfl
          exact hp hk.symm
        rw [if_pos hk, if_pos hk]
        simp [hne]
      · rw [if_neg hk, if_neg hk]
    · rw [List.filter_append]
      simpa [hkey, Ne.symm hp] using h.perm

/-- The loop body changes part numbers only. -/
theorem partitionEntry_pair (partition : Partitioner) (num i k : Nat) (g : Globals) :
    ((partitionEntry partition num g i).all_data k).pair = (g.all_data k).pair := by
  simp only [partitionEntry]
  by_cases hk : k = i
  · rw [hk, Function.update_self]
    rfl
  · rw [Function.update_of_ne hk]

end OstepProjects.MapReduce
