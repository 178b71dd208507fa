/-
  OstepProjects/MapReduce/Wordcount.lean
  ======================================
  **The word count program.**

  `Map` of `wordcount.c` cuts a file into lines and the lines into tokens; for a file
  without zero bytes its keys are the words of the file (`Map_keys`).  `Reduce` counts
  the values of its key and prints one line.  Run by `MR_Run` under any interleaving,
  the program prints one line for each distinct word of the files with the number of
  its occurrences (`wordcount_exact`).
-/
import Mathlib.Algebra.BigOperators.Fin
import OstepProjects.Lib.Bytes
import OstepProjects.MapReduce.KeyGroups

namespace OstepProjects.MapReduce

open OstepProjects.Bytes OstepProjects.CString OstepProjects.Transition OstepProjects.Grouping

/-! ### The program -/

/-- The delimiters `" \t\n\r"`. -/
def isDelimiter (c : UInt8) : Bool := c == 32 || c == 9 || c == 10 || c == 13

/-- The calls `MR_Emit(token, "1")` for a line; its tokens are what `strsep` gives until
    it returns NULL. -/
def emitLine (line : List UInt8) : List (CString × CString) :=
  (((cstr line).splitOnP isDelimiter).filter fun token => !token.isEmpty).map fun token =>
    (toCString token, toCString (ascii "1"))

/-- The loop of `Map` over the lines; no stream has more lines than bytes. -/
def mapLoop : Nat → List UInt8 → List (CString × CString)
  | 0, _ => []
  | fuel + 1, stream =>
    match getline stream with
    | none => []
    | some (line, rest) => emitLine line ++ mapLoop fuel rest

/-- The calls of `MR_Emit` that `Map` makes for a file with these contents. -/
def Map (file : List UInt8) : List (CString × CString) := mapLoop (file.length + 1) file

/-- `Reduce` calls `get_next` until it returns NULL. -/
def Reduce : Reducer := fun _ answers => answers.all Option.isSome

/-- The line that `Reduce` prints; `count` is an `int`. -/
def reduceLine (key : CString) (answers : List (Option CString)) : List UInt8 :=
  let count : Int := Int.bmod answers.reduceOption.length (2 ^ 32)
  key.bytes ++ ascii " " ++ ascii (toString count) ++ ascii "\n"

/-- `char` is signed, and `c` is converted from `int` to `unsigned long`. -/
def MR_DefaultHashPartition : Partitioner := fun key num_partitions =>
  let hash : UInt64 :=
    key.bytes.foldl (fun hash c => hash * 33 + c.toInt8.toInt64.toUInt64) 5381
  (hash % UInt64.ofNat num_partitions).toNat

variable {m : Nat}

/-- The call of `MR_Run` in `main`. -/
def wordcountConfig (files : Fin m → List UInt8) (all_junk : Nat → map_data)
    (part_junk : Nat → Nat → map_data) : Config m 10 where
  num_mappers := 10
  calls t := Map (files t)
  reduce := Reduce
  partition := MR_DefaultHashPartition
  all_junk
  part_junk

/-- What a step prints, with the partition of the reducer thread that prints it. -/
def printed {r : Nat} (cfg : Config m r) (s : State m r) : Action m r → List (Fin r × List UInt8)
  | .reducer p =>
    match s.reducers p with
    | .running key answers =>
      if cfg.reduce key answers then [] else [(p, reduceLine key answers)]
    | _ => []
  | _ => []

/-- The program as a process of its own; the log holds the lines on its standard output. -/
def wordcount (files : Fin m → List UInt8) (junk : map_data) (all_junk : Nat → map_data)
    (part_junk : Nat → Nat → map_data) :
    System (State m 10 × List (Fin 10 × List UInt8)) (Action m 10) :=
  (system (wordcountConfig files all_junk part_junk) (.initial junk)).logging
    (printed (wordcountConfig files all_junk part_junk))

/-! ### Tokens -/

theorem words_append_delimiter {c : UInt8} (hc : isDelimiter c = true) (s t : List UInt8) :
    words isDelimiter (s ++ c :: t) = words isDelimiter s ++ words isDelimiter t := by
  rw [words, List.splitOnP_append_cons _ _ hc, List.filter_append]
  rfl

theorem words_newline (line : List UInt8) :
    words isDelimiter (line ++ [10]) = words isDelimiter line := by
  rw [words_append_delimiter rfl]
  exact List.append_nil _

theorem getline_words {stream line rest : List UInt8} (heq : stream = line ++ rest)
    (hend : rest = [] ∨ ∃ body, line = body ++ [10]) :
    words isDelimiter stream = words isDelimiter line ++ words isDelimiter rest := by
  rcases hend with rfl | ⟨body, rfl⟩
  · rw [heq, List.append_nil]
    exact (List.append_nil _).symm
  · rw [heq, List.append_assoc, List.singleton_append, words_append_delimiter rfl, words_newline]

theorem not_mem_of_mem_words {s w : List UInt8} (h : 0 ∉ s) (hw : w ∈ words isDelimiter s) :
    0 ∉ w :=
  fun hmem => h ((sublist_of_mem_splitOnP (List.mem_filter.mp hw).1).subset hmem)

theorem emitLine_keys {line : List UInt8} (h : 0 ∉ line) :
    (emitLine line).map (fun x => x.1.bytes) = words isDelimiter line := by
  rw [emitLine, cstr_eq_self h, List.map_map]
  refine (List.map_congr_left ?_).trans (List.map_id _)
  intro w hw
  exact toCString_bytes (not_mem_of_mem_words h hw)

theorem mapLoop_keys {fuel : Nat} {stream : List UInt8} (h : 0 ∉ stream)
    (hfuel : stream.length < fuel) :
    (mapLoop fuel stream).map (fun x => x.1.bytes) = words isDelimiter stream := by
  induction fuel generalizing stream with
  | zero => exact absurd hfuel (Nat.not_lt_zero _)
  | succ fuel ih =>
    by_cases hstream : stream = []
    · subst hstream
      rfl
    · obtain ⟨line, rest, hget, heq, hline, hend⟩ := getline_spec hstream
      have hnul : 0 ∉ line ++ rest := by
        rw [← heq]
        exact h
      have hlength : rest.length < fuel := by
        have hpos := List.length_pos_iff.mpr hline
        rw [heq, List.length_append] at hfuel
        omega
      rw [mapLoop, hget, List.map_append,
        emitLine_keys fun hmem => hnul (List.mem_append_left _ hmem),
        ih (fun hmem => hnul (List.mem_append_right _ hmem)) hlength, getline_words heq hend]

/-- **The keys that `Map` emits are the words of the file.** -/
theorem Map_keys {file : List UInt8} (h : 0 ∉ file) :
    (Map file).map (fun x => x.1.bytes) = words isDelimiter file :=
  mapLoop_keys h (Nat.lt_succ_self _)

/-! ### What is printed -/

/-- The words of all files. -/
def allWords (files : Fin m → List UInt8) : List (List UInt8) :=
  (List.finRange m).flatMap fun t => words isDelimiter (files t)

/-- The line for a word, with the number of its occurrences. -/
def lineOf (files : Fin m → List UInt8) (w : List UInt8) : List UInt8 :=
  w ++ ascii " " ++ ascii (toString ((allWords files).count w)) ++ ascii "\n"

/-- The words of a partition in the order of `strcmp`. -/
def keysIn (files : Fin m → List UInt8) (p : Fin 10) : List CString :=
  increasing (((allWords files).map toCString).toFinset.filter fun k =>
    MR_DefaultHashPartition k 10 = p)

/-- The lines that the reducer of a partition has printed. -/
def linesOf {r : Nat} (log : List (Fin r × List UInt8)) (p : Fin r) : List (List UInt8) :=
  (log.filter fun e => e.1 = p).map Prod.snd

theorem linesOf_append {r : Nat} (log more : List (Fin r × List UInt8)) (p : Fin r) :
    linesOf (log ++ more) p = linesOf log p ++ linesOf more p := by
  rw [linesOf, List.filter_append, List.map_append]
  rfl

/-- The line of a finished call of `reduce`. -/
def deliveredLine (d : CString × List CString) : List UInt8 :=
  d.1.bytes ++ ascii " " ++ ascii (toString (Int.bmod d.2.length (2 ^ 32))) ++ ascii "\n"

section Log

variable {r : Nat} {cfg : Config m r} {s s' : State m r}

theorem stepMain_delivered (hs : stepMain cfg s = some s') : s'.delivered = s.delivered := by
  cases hmain : s.main <;> simp only [stepMain, hmain] at hs
  case allocate =>
    cases hs
    rfl
  case returned | exited => cases hs
  all_goals
    split at hs <;> cases hs
    all_goals rfl

theorem stepMapper_delivered {t : Fin m} (hs : stepMapper s t = some s') :
    s'.delivered = s.delivered := by
  obtain ⟨_, ⟨_, _, rfl⟩ | ⟨_, _, _, rfl⟩ | ⟨_, _, _, _, _, rfl⟩ | ⟨_, _, _, _, rfl⟩ |
    ⟨_, rfl⟩⟩ := stepMapper_cases hs
  all_goals rfl

/-- Each finished call of `reduce` prints its line. -/
theorem printed_delivered {a : Action m r} {g : Globals} (hs : (system cfg g).step s a = some s')
    (p : Fin r) : (s'.delivered p).map deliveredLine =
      (s.delivered p).map deliveredLine ++ linesOf (printed cfg s a) p := by
  cases a with
  | main => simp [stepMain_delivered hs, printed, linesOf]
  | mapper t => simp [stepMapper_delivered hs, printed, linesOf]
  | reducer q =>
    obtain ⟨_, ⟨hq, rfl⟩ | ⟨hq, rfl⟩ | ⟨key, answers, hq, hmore, rfl⟩ |
      ⟨key, answers, hq, hend, rfl⟩⟩ := stepReducer_cases hs
    · simp [printed, hq, linesOf, State.setReducer]
    · simp [printed, hq, linesOf, State.setReducer]
    · simp [printed, hq, hmore, linesOf, State.setReducer]
    · by_cases hpq : p = q
      · subst hpq
        simp [printed, hq, hend, linesOf, deliveredLine, reduceLine]
      · simp [printed, hq, hend, linesOf, Function.update_of_ne hpq, Ne.symm hpq]

theorem Reachable.linesOf_eq {g : Globals} {s : State m r × List (Fin r × List UInt8)}
    (hs : ((system cfg g).logging (printed cfg)).Reachable s) (p : Fin r) :
    linesOf s.2 p = (s.1.delivered p).map deliveredLine := by
  refine System.Reaches.invariant (P := fun s => linesOf s.2 p = (s.1.delivered p).map
    deliveredLine) rfl ?_ hs
  intro s a s' _ h _ hstep
  obtain ⟨hrun, hlog⟩ := System.logging_step hstep
  rw [hlog, linesOf_append, h, printed_delivered hrun]

end Log

/-! ### The lines of a partition -/

section Partition

variable {files : Fin m → List UInt8} {all_junk : Nat → map_data} {part_junk : Nat → Nat → map_data}
  {s : State m 10}

theorem allWords_noNul (hnul : ∀ t, 0 ∉ files t) {w : List UInt8} (hw : w ∈ allWords files) :
    0 ∉ w := by
  obtain ⟨t, _, hw⟩ := List.mem_flatMap.mp hw
  exact not_mem_of_mem_words (hnul t) hw

theorem count_allWords (w : List UInt8) :
    (allWords files).count w = ∑ t, (words isDelimiter (files t)).count w := by
  rw [allWords, List.count_flatMap, Fin.sum_univ_def]
  rfl

/-- When all mappers have returned, a key stands with as many values as its word occurs. -/
theorem length_valuesOf (hnul : ∀ t, 0 ∉ files t)
    (h : EmitInv (wordcountConfig files all_junk part_junk) s) (hjoined : s.Joined)
    (k : CString) : (valuesOf s.pairs k).length = (allWords files).count k.bytes := by
  have hleft : ∀ t, (s.mappers t).left = [] := by
    intro t
    rw [MapThread.left, if_neg (by rw [hjoined t]; decide)]
    exact (h.mapper t).returned (hjoined t)
  have hcount := h.countP_pairs fun x => decide (x.1 = k)
  simp only [hleft, List.countP_nil, Finset.sum_const_zero, Nat.add_zero] at hcount
  rw [valuesOf, List.length_map, ← List.countP_eq_length_filter, hcount, count_allWords]
  apply Finset.sum_congr rfl
  intro t _
  rw [← Map_keys (hnul t), List.count, List.countP_map]
  apply List.countP_congr
  intro x _
  simp only [decide_eq_true_eq, Function.comp_apply, beq_iff_eq]
  exact ⟨fun hx => congrArg CString.bytes hx, ext_bytes⟩

theorem mem_pairs_iff (hnul : ∀ t, 0 ∉ files t)
    (h : EmitInv (wordcountConfig files all_junk part_junk) s) (hjoined : s.Joined)
    (k : CString) : (∃ v, (k, v) ∈ s.pairs) ↔ k.bytes ∈ allWords files := by
  rw [← List.count_pos_iff, ← length_valuesOf hnul h hjoined, List.length_pos_iff, Ne, valuesOf,
    List.map_eq_nil_iff, List.filter_eq_nil_iff]
  push Not
  constructor
  · rintro ⟨v, hv⟩
    exact ⟨(k, v), hv, by simp⟩
  · rintro ⟨⟨k', v⟩, hv, hk⟩
    have hk' : k' = k := by simpa using hk
    exact ⟨v, hk' ▸ hv⟩

theorem keysIn_increasing (p : Fin 10) : (keysIn files p).Pairwise (· < ·) :=
  pairwise_increasing _

theorem mem_keysIn (hnul : ∀ t, 0 ∉ files t) {p : Fin 10} {k : CString} :
    k ∈ keysIn files p ↔ k.bytes ∈ allWords files ∧ MR_DefaultHashPartition k 10 = p := by
  rw [keysIn, mem_increasing, Finset.mem_filter, List.mem_toFinset, List.mem_map]
  refine and_congr_left fun _ => ⟨?_, ?_⟩
  · rintro ⟨w, hw, rfl⟩
    rwa [toCString_bytes (allWords_noNul hnul hw)]
  · intro hk
    exact ⟨k.bytes, hk, ext_bytes (toCString_bytes k.noNul)⟩

/-- The keys of the pairs emitted are the words. -/
theorem distinctKeys_eq (hnul : ∀ t, 0 ∉ files t)
    (h : EmitInv (wordcountConfig files all_junk part_junk) s) (hjoined : s.Joined) (p : Fin 10) :
    distinctKeys (wordcountConfig files all_junk part_junk) s.pairs p = keysIn files p := by
  refine (eq_distinctKeys (keysIn_increasing p) ?_).symm
  intro k
  rw [mem_keysIn hnul, mem_pairs_iff hnul h hjoined]
  rfl

end Partition

/-! ### The whole output -/

/-- A log is the logs of the partitions in some interleaving. -/
theorem perm_linesOf {r : Nat} (log : List (Fin r × List UInt8)) :
    (log.map Prod.snd).Perm ((List.finRange r).flatMap fun p => linesOf log p) := by
  rw [List.perm_iff_count]
  intro line
  rw [List.count_flatMap, List.count, countP_eq_sum, Fin.sum_univ_def]
  rfl

theorem partition_lt (k : CString) : MR_DefaultHashPartition k 10 < 10 := by
  simp only [MR_DefaultHashPartition, UInt64.toNat_mod]
  exact Nat.mod_lt _ (by decide)

/-- Every word has its partition. -/
theorem perm_keysIn {files : Fin m → List UInt8} (hnul : ∀ t, 0 ∉ files t) :
    (((List.finRange 10).flatMap (keysIn files)).map CString.bytes).Perm
      (allWords files).dedup := by
  have hnodup : ((List.finRange 10).flatMap (keysIn files)).Nodup := by
    rw [List.nodup_flatMap]
    refine ⟨fun p _ => (keysIn_increasing p).imp fun hlt => ne_of_lt hlt, ?_⟩
    refine (List.nodup_finRange 10).imp ?_
    intro p q hpq k hkp hkq
    apply hpq
    apply Fin.ext
    rw [← ((mem_keysIn hnul).mp hkp).2, ((mem_keysIn hnul).mp hkq).2]
  apply (List.perm_ext_iff_of_nodup (hnodup.map fun _ _ => ext_bytes) (List.nodup_dedup _)).mpr
  intro w
  rw [List.mem_dedup, List.mem_map]
  constructor
  · rintro ⟨k, hk, rfl⟩
    obtain ⟨p, _, hk⟩ := List.mem_flatMap.mp hk
    exact ((mem_keysIn hnul).mp hk).1
  · intro hw
    have hbytes := toCString_bytes (allWords_noNul hnul hw)
    refine ⟨toCString w, List.mem_flatMap.mpr ⟨⟨_, partition_lt (toCString w)⟩,
      List.mem_finRange _, (mem_keysIn hnul).mpr ⟨?_, rfl⟩⟩, hbytes⟩
    rw [hbytes]
    exact hw

theorem toString_count {c : Nat} (h : c ≤ part_data_slots) :
    toString (Int.bmod c (2 ^ 32)) = toString c := by
  have hc : Int.bmod c (2 ^ 32) = c := by
    rw [part_data_slots] at h
    apply Int.bmod_eq_of_le <;> omega
  rw [hc]
  rfl

/-- The calls of the mappers, counted by their keys. -/
theorem sum_countP_calls {files : Fin m → List UInt8} (hnul : ∀ t, 0 ∉ files t)
    (q : CString → Bool) :
    ∑ t, (Map (files t)).countP (fun x => q x.1) =
      (allWords files).countP fun w => q (toCString w) := by
  rw [allWords, List.countP_flatMap, Fin.sum_univ_def]
  apply congrArg List.sum
  apply List.map_congr_left
  intro t _
  rw [Function.comp_apply, ← Map_keys (hnul t), List.countP_map]
  apply List.countP_congr
  intro x _
  rw [Function.comp_apply, ext_bytes (toCString_bytes x.1.noNul)]

/-- **Word count.**  On at most ten files without zero bytes, of at most a million words
    and a hundred thousand for each partition, the program ends under every interleaving
    and stores within its arrays; it has then printed one line for each distinct word
    with the number of its occurrences in all files, and the lines of a partition stand
    in the order of their words. -/
theorem wordcount_exact (files : Fin m → List UInt8) (junk : map_data) (all_junk : Nat → map_data)
    (part_junk : Nat → Nat → map_data) (hm : m ≤ 10) (hnul : ∀ t, 0 ∉ files t)
    (hall : (allWords files).length ≤ all_data_slots)
    (hper : ∀ p, (allWords files).countP
      (fun w => MR_DefaultHashPartition (toCString w) 10 = p) ≤ part_data_slots) :
    (wordcount files junk all_junk part_junk).Terminates ∧
    ∀ s, (wordcount files junk all_junk part_junk).Reachable s →
      InBounds (wordcountConfig files all_junk part_junk) s.1 ∧
      ((wordcount files junk all_junk part_junk).Stuck s → s.1.main = .returned) ∧
      (s.1.main = .returned →
        (s.2.map Prod.snd).Perm ((allWords files).dedup.map (lineOf files)) ∧
        ∀ p, linesOf s.2 p = (keysIn files p).map fun k => lineOf files k.bytes) := by
  have huntil : UntilNull (wordcountConfig files all_junk part_junk).reduce :=
    fun _ answers => all_isSome_iff answers
  refine ⟨(system_terminates rfl huntil).logging, ?_⟩
  intro s hs
  have h := Reachable.runInv rfl huntil (System.logging_reachable hs)
  refine ⟨h.inBounds ?_ ?_, ?_, ?_⟩
  · have hcalls := sum_countP_calls hnul fun _ => true
    simp only [List.countP_true] at hcalls
    change ∑ t, (Map (files t)).length ≤ _
    rw [hcalls]
    exact hall
  · intro p
    have hcalls := sum_countP_calls hnul fun k => decide (MR_DefaultHashPartition k 10 = p)
    change ∑ t, (Map (files t)).countP (fun x => decide (MR_DefaultHashPartition x.1 10 = p)) ≤ _
    rw [hcalls]
    exact hper p
  · intro hstuck
    exact (h.stuck (System.logging_stuck hstuck)).resolve_right fun hmore => hmore hm
  · intro hmain
    have hphase := h.phase
    simp only [PhaseInv, hmain] at hphase
    obtain ⟨hjoined, hreturned, L, hL⟩ := hphase
    have hlines : ∀ p, linesOf s.2 p = (keysIn files p).map fun k => lineOf files k.bytes := by
      intro p
      rw [Reachable.linesOf_eq hs p, hL.delivered_eq (hreturned p), groupsOf,
        distinctKeys_eq hnul h.emit hjoined, List.map_map]
      apply List.map_congr_left
      intro k hk
      have hcount := length_valuesOf hnul h.emit hjoined k
      have hle : (allWords files).count k.bytes ≤ part_data_slots := by
        refine (List.countP_mono_left ?_).trans (hper (MR_DefaultHashPartition k 10))
        intro w _ hw
        rw [eq_of_beq hw, decide_eq_true_iff, ext_bytes (toCString_bytes k.noNul)]
      simp only [Function.comp_apply, deliveredLine, lineOf, hcount, toString_count hle]
    refine ⟨?_, hlines⟩
    apply (perm_linesOf s.2).trans
    simp only [hlines]
    rw [← List.map_flatMap]
    have hkeys := (perm_keysIn hnul).map (lineOf files)
    rw [List.map_map] at hkeys
    exact hkeys

/-- The files "a b\na" and "b". -/
def twoFiles : Fin 2 → List UInt8
  | 0 => ascii "a b\na"
  | 1 => ascii "b"

def noData : map_data := ⟨toCString [], toCString [], 0⟩

/-- The reducer of "b" runs before that of "a". -/
def bFirst : List (Action 2 10) :=
  List.flatten [[.main], List.replicate 13 (.mapper ⟨0, Nat.two_pos⟩),
    List.replicate 5 (.mapper ⟨1, Nat.one_lt_two⟩), List.replicate 7 .main,
    List.replicate 7 (.reducer 1), List.replicate 7 (.reducer 0),
    [.reducer 2, .reducer 3, .reducer 4, .reducer 5, .reducer 6, .reducer 7, .reducer 8,
      .reducer 9, .main]]

theorem wordcount_exact_twoFiles :
    ∃ s, (wordcount twoFiles noData (fun _ => noData) fun _ _ => noData).run
        (wordcount twoFiles noData (fun _ => noData) fun _ _ => noData).start bFirst = some s ∧
      s.2.map Prod.snd = [ascii "b 2\n", ascii "a 2\n"] ∧
      (s.2.map Prod.snd).Perm ((allWords twoFiles).dedup.map (lineOf twoFiles)) := by
  have hend : ((wordcount twoFiles noData (fun _ => noData) fun _ _ => noData).run
      (wordcount twoFiles noData (fun _ => noData) fun _ _ => noData).start bFirst).map
      (fun s => (s.1.main, s.2.map Prod.snd)) =
      some (.returned, [ascii "b 2\n", ascii "a 2\n"]) := by decide +kernel
  obtain ⟨s, hs, heq⟩ := Option.map_eq_some_iff.mp hend
  obtain ⟨hmain, hlines⟩ := Prod.mk.inj heq
  have hfour : (allWords twoFiles).length = 4 := by decide +kernel
  have hexact := (wordcount_exact twoFiles noData (fun _ => noData) (fun _ _ => noData)
    (by decide) (by decide +kernel) (by rw [hfour, all_data_slots]; omega)
    (fun p => List.countP_le_length.trans (by rw [hfour, part_data_slots]; omega))).2 s
    (System.Reaches.run .start hs)
  exact ⟨s, hs, hlines, (hexact.2.2 hmain).1⟩

end OstepProjects.MapReduce
