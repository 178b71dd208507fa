/-
  OstepProjects/MapReduce/ReduceCalls.lean
  ========================================
  **How often `MR_reduce` calls `reduce`.**

  The cursor of a partition is advanced by `get_next` only, so a reducer that returns
  before it has got all values of its key is called for the same key again, and one that
  does not call `get_next` is called for ever.  Each key gets exactly one call iff each
  call that begins a key asks for all its values (`reduce_once_iff`).
-/
import OstepProjects.Lib.Cursor
import OstepProjects.MapReduce.KeyGroups

namespace OstepProjects.MapReduce

open OstepProjects.CString OstepProjects.Cursor OstepProjects.Grouping OstepProjects.InsertionSort

/-! ### The loop -/

/-- The calls of `get_next` that one call of `reduce` makes. -/
def getTimes (key : CString) (partition_number : Nat) : Nat → Globals → Globals
  | 0, g => g
  | n + 1, g => getTimes key partition_number n (get_next g key partition_number).2

/-- `MR_reduce` from its `i`-th call of `reduce` on, a call that makes `asks i` calls of
    `get_next`; the result is the keys of the calls, or `none` after `fuel` calls. -/
def MR_reduce (asks : Nat → Nat) (part_number : Nat) : Nat → Nat → Globals → Option (List CString)
  | fuel, i, g =>
    if g.part_count part_number < g.part_num part_number then
      match fuel with
      | 0 => none
      | fuel + 1 =>
        let key := (g.part_data part_number (g.part_count part_number)).key
        (MR_reduce asks part_number fuel (i + 1)
          (getTimes key part_number (asks i) g)).map (key :: ·)
    else some []

/-- The globals when `MR_Run` comes to its loop over `all_data` with these pairs in it. -/
def emittedGlobals {m r : Nat} (cfg : Config m r) (xs : List (CString × CString)) : Globals where
  all_data k :=
    match xs[k]? with
    | some (key, value) => ⟨key, value, (cfg.all_junk k).part_number⟩
    | none => cfg.all_junk k
  map_count := xs.length
  part_data := cfg.part_junk
  part_num _ := 0
  part_count _ := 0

/-- The loop of `MR_Run` over `all_data`. -/
def partitionLoop {m r : Nat} (cfg : Config m r) (g : Globals) (n : Nat) : Globals :=
  (List.range n).foldl (partitionEntry cfg.partition r) g

/-- The partitions that the pairs `xs` are sorted into. -/
def partitioned {m r : Nat} (cfg : Config m r) (xs : List (CString × CString)) : Globals :=
  partitionLoop cfg (emittedGlobals cfg xs) xs.length

/-! ### The partitions -/

section Partitions

variable {m r : Nat} {cfg : Config m r} {xs : List (CString × CString)}

theorem partitionLoop_succ (g : Globals) (n : Nat) :
    partitionLoop cfg g (n + 1) = partitionEntry cfg.partition r (partitionLoop cfg g n) n := by
  rw [partitionLoop, List.range_succ, List.foldl_append]
  rfl

variable (cfg xs)

theorem partitionLoop_inv (p : Nat) {n : Nat} (hn : n ≤ xs.length) :
    (∃ L, PartitionInv cfg (xs.take n) p (partitionLoop cfg (emittedGlobals cfg xs) n) L) ∧
    (partitionLoop cfg (emittedGlobals cfg xs) n).part_count p = 0 ∧
    ∀ k x, xs[k]? = some x →
      ((partitionLoop cfg (emittedGlobals cfg xs) n).all_data k).pair = x := by
  induction n with
  | zero =>
    refine ⟨⟨[], ?_⟩, rfl, ?_⟩
    · rw [List.take_zero]
      exact partitionInv_nil cfg p rfl
    · rintro k ⟨key, value⟩ hk
      change map_data.pair (match xs[k]? with
        | some (key, value) => _
        | none => _) = _
      rw [hk]
      rfl
  | succ n ih =>
    obtain ⟨⟨L, hL⟩, hcount, hstored⟩ := ih (Nat.le_of_succ_le hn)
    rw [partitionLoop_succ]
    refine ⟨?_, hcount, ?_⟩
    · have hentry := partitionInv_entry (i := n) hL
      have hget := List.getElem?_eq_getElem (Nat.lt_of_succ_le hn)
      rw [hstored n _ hget] at hentry
      rw [List.take_add_one, hget]
      exact hentry
    · intro k x hk
      rw [partitionEntry_pair]
      exact hstored k x hk

theorem partitioned_inv (p : Nat) :
    (∃ L, PartitionInv cfg xs p (partitioned cfg xs) L) ∧
      (partitioned cfg xs).part_count p = 0 := by
  obtain ⟨hL, hcount, _⟩ := partitionLoop_inv cfg xs p (le_refl _)
  rw [List.take_length] at hL
  exact ⟨hL, hcount⟩

end Partitions

/-! ### The cursor -/

section Loop

variable {L : List map_data} {p : Nat}

/-- The keys from the cursor of a partition on. -/
def keysLeft (L : List map_data) (g : Globals) (p : Nat) : List CString :=
  (L.map map_data.key).drop (g.part_count p)

/-- The partition holds `L`, with the cursor inside. -/
structure AtCursor (L : List map_data) (p : Nat) (g : Globals) : Prop where
  begins : Begins (g.part_data p) L
  length : g.part_num p = L.length
  inside : g.part_count p ≤ L.length

theorem AtCursor.left {g : Globals} (h : AtCursor L p g) :
    (g.part_count p < g.part_num p ∧ keysLeft L g p =
        (g.part_data p (g.part_count p)).key :: (L.map map_data.key).drop (g.part_count p + 1)) ∨
      (¬ g.part_count p < g.part_num p ∧ keysLeft L g p = []) := by
  rw [h.length]
  by_cases hlt : g.part_count p < L.length
  · refine Or.inl ⟨hlt, ?_⟩
    rw [keysLeft, List.drop_eq_getElem_cons (by simpa using hlt), List.getElem_map,
      h.begins.getElem hlt]
  · refine Or.inr ⟨hlt, ?_⟩
    rw [keysLeft, List.drop_eq_nil_iff, List.length_map]
    exact Nat.le_of_not_lt hlt

theorem getTimes_keysLeft (key : CString) (n : Nat) {g : Globals} (h : AtCursor L p g) :
    AtCursor L p (getTimes key p n g) ∧
      keysLeft L (getTimes key p n g) p = skip key n (keysLeft L g p) := by
  induction n generalizing g with
  | zero => exact ⟨h, rfl⟩
  | succ n ih =>
    rw [getTimes]
    rcases h.left with ⟨hlt, hleft⟩ | ⟨hge, hleft⟩
    · by_cases hkey : (g.part_data p (g.part_count p)).key = key
      · have hget : (get_next g key p).2 =
            { g with part_count := Function.update g.part_count p (g.part_count p + 1) } := by
          simp only [get_next, strcmp_eq_zero]
          rw [if_pos ⟨hlt, hkey⟩]
        have hcount : (get_next g key p).2.part_count p = g.part_count p + 1 := by
          rw [hget]
          exact Function.update_self ..
        have hnext : AtCursor L p (get_next g key p).2 := by
          refine ⟨by rw [hget]; exact h.begins, by rw [hget]; exact h.length, ?_⟩
          rw [hcount, ← h.length]
          exact hlt
        obtain ⟨hafter, hskip⟩ := ih hnext
        refine ⟨hafter, ?_⟩
        rw [hskip, hleft, skip, if_pos hkey, keysLeft, hcount]
      · have hget : (get_next g key p).2 = g := by
          simp only [get_next, strcmp_eq_zero]
          rw [if_neg fun hc => hkey hc.2]
        rw [hget]
        obtain ⟨hafter, hskip⟩ := ih h
        refine ⟨hafter, ?_⟩
        rw [hskip, hleft, skip, if_neg hkey]
        cases n with
        | zero => rfl
        | succ n => rw [skip, if_neg hkey]
    · have hget : (get_next g key p).2 = g := by
        simp only [get_next, strcmp_eq_zero]
        rw [if_neg fun hc => hge hc.1]
      rw [hget]
      obtain ⟨hafter, hskip⟩ := ih h
      refine ⟨hafter, ?_⟩
      rw [hskip, hleft]
      cases n <;> rfl

/-- `MR_reduce` is the loop over the keys of its partition. -/
theorem MR_reduce_eq_calls (asks : Nat → Nat) (fuel i : Nat) {g : Globals} (h : AtCursor L p g) :
    MR_reduce asks p fuel i g = calls asks fuel i (keysLeft L g p) := by
  induction fuel generalizing i g with
  | zero =>
    rw [MR_reduce]
    rcases h.left with ⟨hlt, hleft⟩ | ⟨hge, hleft⟩
    · rw [if_pos hlt, hleft]
      rfl
    · rw [if_neg hge, hleft]
      rfl
  | succ fuel ih =>
    rw [MR_reduce]
    rcases h.left with ⟨hlt, hleft⟩ | ⟨hge, hleft⟩
    · obtain ⟨hafter, hskip⟩ := getTimes_keysLeft (g.part_data p (g.part_count p)).key (asks i) h
      rw [if_pos hlt, hleft, calls, ← hleft, ← hskip, ← ih (i + 1) hafter]
    · rw [if_neg hge, hleft]
      rfl

end Loop

/-! ### One call for each key -/

section Once

variable {m r : Nat} {cfg : Config m r} {xs : List (CString × CString)}

theorem PartitionInv.mem_keys {p : Nat} {g : Globals} {L : List map_data}
    (h : PartitionInv cfg xs p g L) {k : CString} :
    k ∈ L.map map_data.key ↔ (∃ v, (k, v) ∈ xs) ∧ cfg.partition k r = p := by
  have hkeys : L.map map_data.key = (L.map map_data.pair).map Prod.fst := by
    rw [List.map_map]
    rfl
  rw [hkeys, List.mem_map]
  constructor
  · rintro ⟨⟨k', v⟩, hv, rfl⟩
    obtain ⟨hmem, hk⟩ := List.mem_filter.mp (h.perm.mem_iff.mp hv)
    exact ⟨⟨v, hmem⟩, of_decide_eq_true hk⟩
  · rintro ⟨⟨v, hv⟩, hk⟩
    exact ⟨(k, v), h.perm.mem_iff.mpr (List.mem_filter.mpr ⟨hv, decide_eq_true hk⟩), rfl⟩

theorem PartitionInv.dedup_keys {p : Nat} {g : Globals} {L : List map_data}
    (h : PartitionInv cfg xs p g L) : (L.map map_data.key).dedup = distinctKeys cfg xs p := by
  have hle : (L.map map_data.key).dedup.Pairwise (· ≤ ·) :=
    (List.pairwise_map.mpr h.sorted).sublist (List.dedup_sublist _)
  have hlt : (L.map map_data.key).dedup.Pairwise (· < ·) :=
    (hle.and (List.nodup_dedup _)).imp fun hab => lt_of_le_of_ne hab.1 hab.2
  apply eq_distinctKeys hlt
  intro k
  rw [List.mem_dedup, h.mem_keys]

theorem PartitionInv.count_key {p : Nat} {g : Globals} {L : List map_data}
    (h : PartitionInv cfg xs p g L) {k : CString} (hk : cfg.partition k r = p) :
    (L.map map_data.key).count k = (valuesOf xs k).length := by
  have hvalues := congrArg List.length (h.values k)
  rw [if_pos hk, List.length_map] at hvalues
  rw [valuesOf, List.length_map, ← hvalues, ← List.countP_eq_length_filter, List.count,
    List.countP_map]
  apply List.countP_congr
  intro d _
  simp

/-- **One call for each key.**  Whatever pairs are emitted, `MR_reduce` ends and calls
    `reduce` exactly once for each key of the partition iff the `j`-th call asks
    `get_next` at least as often as the `j`-th key has values. -/
theorem reduce_once_iff (cfg : Config m r) (xs : List (CString × CString)) (p : Nat)
    (asks : Nat → Nat) :
    (∃ fuel calls, MR_reduce asks p fuel 0 (partitioned cfg xs) = some calls ∧ calls.Nodup ∧
      ∀ k, k ∈ calls ↔ (∃ v, (k, v) ∈ xs) ∧ cfg.partition k r = p) ↔
    ∀ j k, (distinctKeys cfg xs p)[j]? = some k → (valuesOf xs k).length ≤ asks j := by
  obtain ⟨⟨L, hL⟩, hcount⟩ := partitioned_inv cfg xs p
  have hcursor : AtCursor L p (partitioned cfg xs) :=
    ⟨hL.begins, hL.length, by rw [hcount]; exact Nat.zero_le _⟩
  have hleft : keysLeft L (partitioned cfg xs) p = L.map map_data.key := by
    rw [keysLeft, hcount]
    rfl
  have hsuffices : Suffices asks 0 (L.map map_data.key) ↔
      ∀ j k, (distinctKeys cfg xs p)[j]? = some k → (valuesOf xs k).length ≤ asks j := by
    rw [Suffices, hL.dedup_keys]
    refine forall_congr' fun j => forall_congr' fun k => ⟨?_, ?_⟩
    · intro h hj
      have hk := (mem_distinctKeys.mp (List.mem_of_getElem? hj)).2
      rw [← hL.count_key hk, ← Nat.zero_add j]
      exact h hj
    · intro h hj
      have hk := (mem_distinctKeys.mp (List.mem_of_getElem? hj)).2
      rw [hL.count_key hk, Nat.zero_add]
      exact h hj
  rw [← hsuffices, ← calls_once_iff (List.pairwise_map.mpr hL.sorted)]
  simp only [MR_reduce_eq_calls asks _ _ hcursor, hleft, hL.mem_keys]

/-- The pairs ("a", "1") and ("a", "2") in one partition. -/
def onePartition : Config 1 1 where
  num_mappers := 1
  calls _ := []
  reduce _ _ := false
  partition _ _ := 0
  all_junk _ := ⟨toCString [], toCString [], 0⟩
  part_junk _ _ := ⟨toCString [], toCString [], 0⟩

def twoValues : List (CString × CString) :=
  [(toCString [97], toCString [49]), (toCString [97], toCString [50])]

/-- A reducer that takes one value is called twice for "a", and one that takes none is
    called for ever. -/
theorem reduce_called_again :
    MR_reduce (fun _ => 1) 0 2 0 (partitioned onePartition twoValues) =
      some [toCString [97], toCString [97]] ∧
    ∀ fuel, MR_reduce (fun _ => 0) 0 fuel 0 (partitioned onePartition twoValues) = none := by
  refine ⟨by decide +kernel, ?_⟩
  intro fuel
  obtain ⟨⟨L, hL⟩, hcount⟩ := partitioned_inv onePartition twoValues 0
  have hcursor : AtCursor L 0 (partitioned onePartition twoValues) :=
    ⟨hL.begins, hL.length, by rw [hcount]; exact Nat.zero_le _⟩
  rw [MR_reduce_eq_calls _ _ _ hcursor]
  rcases hcursor.left with ⟨_, hleft⟩ | ⟨hge, _⟩
  · rw [hleft]
    exact calls_of_asks_zero (fun _ => rfl) fuel 0 _ _
  · rw [hcount] at hge
    exact absurd (by decide +kernel) hge

end Once

end OstepProjects.MapReduce
