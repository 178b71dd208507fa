/-
  OstepProjects/Zip/Pzip3Positions.lean
  =====================================
  **The positions `pzip3` gives to its pages.**

  `main` allocates `pages_per_file` with `malloc`, and the producer leaves the loop
  body of an empty file before it writes the file's slot.  `calculateOutputPosition`
  adds up all slots in front of a page, whatever `malloc` left in those.

  Everything else about the pages holds for files of any size: cleared of the slots
  of empty files, the array is what the invariants of `Pzip3Refinement` say
  (`Reachable.produced_cleared`).  So a page of a file lies as far off its place as
  the slots of the empty files before it say (`calculateOutputPosition_of_put`), and
  `pagesPlaced_iff` gives the exact condition for all pages put so far, with the
  positions computed in `int` arithmetic.
-/
import OstepProjects.Zip.Pzip3Refinement

namespace OstepProjects.Pzip3

open OstepProjects.Transition OstepProjects.Zip

variable {n : Nat} {cfg : Config}

/-! ### The slots of empty files -/

/-- The array with the slots of empty files set to zero. -/
def Config.clear (cfg : Config) (pages_per_file : Nat → Nat) (k : Nat) : Nat :=
  if cfg.st_size k = 0 then 0 else pages_per_file k

def State.cleared (cfg : Config) (s : State n) : State n :=
  { s with pages_per_file := cfg.clear s.pages_per_file }

theorem Config.clear_update (cfg : Config) (pages_per_file : Nat → Nat) {i pages : Nat}
    (h : cfg.st_size i = 0 → pages = 0) :
    cfg.clear (Function.update pages_per_file i pages) =
      Function.update (cfg.clear pages_per_file) i pages := by
  funext k
  by_cases hk : k = i
  · subst hk
    rw [Config.clear, Function.update_self, Function.update_self]
    split
    · rename_i hsize
      exact (h hsize).symm
    · rfl
  · rw [Config.clear, Function.update_of_ne hk, Function.update_of_ne hk, Config.clear]

theorem pagesInFile_zero (page_size : Nat) : pagesInFile page_size 0 = 0 := by
  simp [pagesInFile, notAligned]

section Cleared

variable (cfg) (s : State n)

@[simp] theorem cleared_lock : (s.cleared cfg).lock = s.lock := rfl
@[simp] theorem cleared_queue : (s.cleared cfg).queue = s.queue := rfl
@[simp] theorem cleared_producer : (s.cleared cfg).producer = s.producer := rfl
@[simp] theorem cleared_consumers : (s.cleared cfg).consumers = s.consumers := rfl

end Cleared

theorem signalFill_cleared (cfg : Config) (s : State n) (wake : Option (Fin n)) :
    (s.cleared cfg).signalFill wake = (s.signalFill wake).map (State.cleared cfg) := by
  cases wake with
  | none =>
    simp only [State.signalFill, cleared_consumers]
    rw [apply_ite (Option.map (State.cleared cfg))]
    rfl
  | some c =>
    simp only [State.signalFill, cleared_consumers]
    rw [apply_ite (Option.map (State.cleared cfg))]
    rfl

/-- The producer does the same with the cleared array: it writes slots, but reads none. -/
theorem stepProducer_cleared {s : State n} {wake : Option (Fin n)}
    (h : Produced cfg (s.cleared cfg)) :
    stepProducer cfg (s.cleared cfg) wake =
      (stepProducer cfg s wake).map (State.cleared cfg) := by
  simp only [Produced, ProducedInv] at h
  cases hpc : s.producer.pc <;>
    simp only [stepProducer, cleared_lock, cleared_queue, cleared_producer, hpc] at h ⊢
  case recordPages =>
    have hpages : s.producer.pages_in_file = pagesInFile cfg.page_size (cfg.st_size s.producer.i) :=
      h.2.2.1
    have hzero : cfg.st_size s.producer.i = 0 → s.producer.pages_in_file = 0 := by
      intro hsize
      rw [hpages, hsize, pagesInFile_zero]
    simp only [State.cleared, Option.map_some, cfg.clear_update _ hzero]
  case signalFill =>
    rw [signalFill_cleared, Option.map_map, Option.map_map]
    rfl
  case openFile =>
    rw [apply_ite (Option.map (State.cleared cfg)), apply_ite (Option.map (State.cleared cfg))]
    rfl
  case pageTest | lockFull | testFull | woken | lockPut =>
    rw [apply_ite (Option.map (State.cleared cfg))]
    rfl
  all_goals rfl

/-- **The invariant of the producer, for files of any size.** -/
theorem Reachable.produced_cleared {s : State n} (hs : (system cfg n).Reachable s) :
    Produced cfg (s.cleared cfg) := by
  refine System.Reaches.invariant (P := fun s => Produced cfg (s.cleared cfg)) ?_ ?_ hs
  · exact ⟨Nat.zero_le _, fun k hk => absurd hk (Nat.not_lt_zero k), rfl, rfl⟩
  · intro s a s' _ h _ hstep
    cases a with
    | producer wake =>
      have hclear : stepProducer cfg (s.cleared cfg) wake = some (s'.cleared cfg) := by
        rw [stepProducer_cleared h, show stepProducer cfg s wake = some s' from hstep]
        rfl
      exact produced_producer (fun i _ hsize => if_pos hsize) h hclear
    | consumer c =>
      obtain ⟨hproducer, hlog, htotal, hpages⟩ := stepConsumer_produced hstep
      exact h.of_woken hproducer hlog htotal (congrArg cfg.clear hpages)

/-- The slots of empty files keep what `malloc` left there. -/
structure EmptySlots (cfg : Config) (s : State n) : Prop where
  counted : s.producer.pc = .countPages ∨ s.producer.pc = .recordPages →
    cfg.st_size s.producer.i ≠ 0
  kept : ∀ k, cfg.st_size k = 0 → s.pages_per_file k = cfg.junk k

/-- Away from the first statements of a file nothing is to be shown but the slots. -/
theorem EmptySlots.keep {s s' : State n} (h : EmptySlots cfg s)
    (hpages : s'.pages_per_file = s.pages_per_file)
    (hpc : s'.producer.pc ≠ .countPages ∧ s'.producer.pc ≠ .recordPages) : EmptySlots cfg s' where
  counted hor := by
    rcases hor with he | he
    · exact absurd he hpc.1
    · exact absurd he hpc.2
  kept k hk := by
    rw [hpages]
    exact h.kept k hk

theorem emptySlots_producer {s s' : State n} {wake : Option (Fin n)} (h : EmptySlots cfg s)
    (hs : stepProducer cfg s wake = some s') : EmptySlots cfg s' := by
  cases hpc : s.producer.pc <;> simp only [stepProducer, hpc] at hs
  case openFile =>
    split at hs
    · split at hs <;> cases hs
      · exact h.keep rfl ⟨by simp, by simp⟩
      · rename_i hsize
        exact ⟨fun _ => hsize, h.kept⟩
    · cases hs
      exact h.keep rfl ⟨by simp [State.goto], by simp [State.goto]⟩
  case countPages =>
    cases hs
    exact ⟨fun _ => h.counted (Or.inl hpc), h.kept⟩
  case recordPages =>
    cases hs
    have hsize := h.counted (Or.inr hpc)
    refine ⟨fun hor => ?_, fun k hk => ?_⟩
    · rcases hor with he | he <;> cases he
    · have hne : k ≠ s.producer.i := fun he => hsize (he ▸ hk)
      simp only [Function.update_of_ne hne]
      exact h.kept k hk
  case signalFill =>
    obtain ⟨t, ht, rfl⟩ := Option.map_eq_some_iff.mp hs
    obtain ⟨_, heq⟩ := signalFill_cases ht
    rw [heq]
    exact h.keep rfl ⟨by simp, by simp⟩
  case pageTest | lockFull | testFull | woken | lockPut =>
    split at hs <;> cases hs
    all_goals exact h.keep rfl ⟨by simp [State.goto], by simp [State.goto]⟩
  case asleep | returned => cases hs
  all_goals
    cases hs
    exact h.keep rfl ⟨by simp [State.goto], by simp [State.goto]⟩

theorem Reachable.emptySlots {s : State n} (hs : (system cfg n).Reachable s) :
    EmptySlots cfg s := by
  refine System.Reaches.invariant ?_ ?_ hs
  · refine ⟨fun hor => ?_, fun _ _ => rfl⟩
    rcases hor with he | he <;> cases he
  · intro s a s' _ h _ hstep
    cases a with
    | producer wake => exact emptySlots_producer h hstep
    | consumer c =>
      obtain ⟨hproducer, -, -, hpages⟩ := stepConsumer_produced hstep
      rcases hproducer with heq | ⟨_, heq⟩
      · exact ⟨by rw [heq]; exact h.counted, by rw [hpages]; exact h.kept⟩
      · exact h.keep hpages (by rw [heq]; exact ⟨by simp, by simp⟩)

/-! ### The position of a page -/

/-- What the slots of the empty files before file `i` add to a position. -/
def emptyJunk (cfg : Config) (i : Nat) : Nat :=
  ((List.range i).map fun k => if cfg.st_size k = 0 then cfg.junk k else 0).sum

theorem emptyJunk_succ (cfg : Config) (i : Nat) :
    emptyJunk cfg (i + 1) = emptyJunk cfg i + if cfg.st_size i = 0 then cfg.junk i else 0 := by
  simp [emptyJunk, List.range_succ]

theorem sum_clear_add_emptyJunk {pages_per_file : Nat → Nat}
    (h : ∀ k, cfg.st_size k = 0 → pages_per_file k = cfg.junk k) (i : Nat) :
    ((List.range i).map pages_per_file).sum =
      ((List.range i).map (cfg.clear pages_per_file)).sum + emptyJunk cfg i := by
  induction i with
  | zero => rfl
  | succ i ih =>
    have hslot : pages_per_file i =
        cfg.clear pages_per_file i + if cfg.st_size i = 0 then cfg.junk i else 0 := by
      rw [Config.clear]
      by_cases hsize : cfg.st_size i = 0
      · rw [if_pos hsize, if_pos hsize, h i hsize, Nat.zero_add]
      · rw [if_neg hsize, if_neg hsize, Nat.add_zero]
    rw [emptyJunk_succ]
    simp only [List.range_succ, List.map_append, List.sum_append, List.map_singleton,
      List.sum_singleton, ih]
    omega

/-- **How far a page that has been put lies off its place.** -/
theorem calculateOutputPosition_of_put {s : State n} (hs : (system cfg n).Reachable s)
    {b : Buffer} (hb : b ∈ s.putLog) :
    calculateOutputPosition s.pages_per_file b =
      position cfg b + emptyJunk cfg b.file_number := by
  have hplace : calculateOutputPosition (cfg.clear s.pages_per_file) b = position cfg b :=
    (Reachable.produced_cleared hs).position_eq hb
  rw [← hplace, calculateOutputPosition, calculateOutputPosition,
    sum_clear_add_emptyJunk (Reachable.emptySlots hs).kept]
  omega

/-- `calculateOutputPosition` in the arithmetic of `int`: a cell of the array holds an
    `int` by its residue. -/
def positionInt (pages_per_file : Nat → Nat) (temp : Buffer) : Int32 :=
  (List.range temp.file_number).foldl (fun position i => position + Int32.ofNat (pages_per_file i))
    0 + Int32.ofNat temp.page_number

theorem foldl_ofNat (f : Nat → Nat) (is : List Nat) (start : Nat) :
    is.foldl (fun position i => position + Int32.ofNat (f i)) (Int32.ofNat start) =
      Int32.ofNat (start + (is.map f).sum) := by
  induction is generalizing start with
  | nil => rfl
  | cons i is ih =>
    rw [List.foldl_cons, ← Int32.ofNat_add, ih, List.map_cons, List.sum_cons, Nat.add_assoc]

theorem positionInt_eq (pages_per_file : Nat → Nat) (b : Buffer) :
    positionInt pages_per_file b = Int32.ofNat (calculateOutputPosition pages_per_file b) := by
  have hsum := foldl_ofNat pages_per_file (List.range b.file_number) 0
  rw [positionInt, calculateOutputPosition, Int32.ofNat_add]
  rw [Nat.zero_add] at hsum
  rw [← hsum]
  rfl

/-- An `int` that has gone round as often as it likes. -/
theorem toInt_ofNat_add_eq_iff (k e : Nat) :
    (Int32.ofNat (k + e)).toInt = k ↔ k < 2 ^ 31 ∧ 2 ^ 32 ∣ e := by
  rw [Int32.toInt_ofNat', Int.bmod_def]
  have hsize : ((Int32.size : Nat) : Int) = 4294967296 := rfl
  rw [hsize]
  split <;> omega

/-! ### All pages in their places -/

/-- Every page put has its place in the sequence of pages for its position, so the
    positions are those from zero on, in order; at the end they are all of them. -/
structure PagesPlaced (cfg : Config) (s : State n) : Prop where
  position_eq : ∀ b ∈ s.putLog, (positionInt s.pages_per_file b).toInt = position cfg b
  in_order : s.putLog.map (fun b => (positionInt s.pages_per_file b).toInt) =
    (List.range s.putLog.length).map fun k : Nat => (k : Int)
  all_put : s.producer.pc = .returned → s.putLog = allPages cfg ∧
    (Int32.ofNat s.total_pages).toInt = (allPages cfg).length

/-- The pages put stand in order, each at its position. -/
theorem map_position_putLog {s : State n} (hs : (system cfg n).Reachable s) :
    s.putLog.map (position cfg) = List.range s.putLog.length := by
  apply List.ext_getElem
  · simp
  · intro k h1 h2
    rw [List.length_map] at h1
    have hpre := (Reachable.produced_cleared hs).putLog_isPrefix
    have hlog : (s.cleared cfg).putLog = s.putLog := rfl
    rw [hlog] at hpre
    have hall : (pagesBefore cfg cfg.num_files)[k]? = some s.putLog[k] := by
      rw [hpre.getElem h1]
      exact List.getElem?_eq_getElem _
    rw [List.getElem_map, List.getElem_range]
    exact (position_eq_of_getElem? hall).1

/-- When the producer is done, all pages are in the queue or taken from it. -/
theorem putLog_of_returned {s : State n} (hs : (system cfg n).Reachable s)
    (hret : s.producer.pc = .returned) :
    s.putLog = allPages cfg ∧ s.total_pages = (allPages cfg).length := by
  have h := Reachable.produced_cleared hs
  simp only [Produced, ProducedInv, cleared_producer, hret] at h
  obtain ⟨hbetween, hi⟩ := h
  have hlog : s.putLog = pagesBefore cfg s.producer.i := hbetween.log
  have htotal : s.total_pages = (pagesBefore cfg s.producer.i).length := hbetween.total
  rw [hlog, htotal, hi]
  exact ⟨rfl, rfl⟩

theorem toInt_ofNat_eq_iff (k : Nat) : (Int32.ofNat k).toInt = k ↔ k < 2 ^ 31 := by
  simpa using toInt_ofNat_add_eq_iff k 0

theorem positionInt_of_put_eq_iff {s : State n} (hs : (system cfg n).Reachable s) {b : Buffer}
    (hb : b ∈ s.putLog) :
    (positionInt s.pages_per_file b).toInt = position cfg b ↔
      position cfg b < 2 ^ 31 ∧ 2 ^ 32 ∣ emptyJunk cfg b.file_number := by
  rw [positionInt_eq, calculateOutputPosition_of_put hs hb]
  exact toInt_ofNat_add_eq_iff _ _

theorem pagesPlaced_of {s : State n} (hs : (system cfg n).Reachable s)
    (hcond : ∀ b ∈ s.putLog, position cfg b < 2 ^ 31 ∧ 2 ^ 32 ∣ emptyJunk cfg b.file_number)
    (hend : s.producer.pc = .returned → (allPages cfg).length < 2 ^ 31) : PagesPlaced cfg s := by
  have hplaced : ∀ b ∈ s.putLog, (positionInt s.pages_per_file b).toInt = position cfg b :=
    fun b hb => (positionInt_of_put_eq_iff hs hb).mpr (hcond b hb)
  refine ⟨hplaced, ?_, fun hret => ?_⟩
  · rw [← map_position_putLog hs, List.map_map]
    exact List.map_congr_left hplaced
  · obtain ⟨hlog, hpages⟩ := putLog_of_returned hs hret
    rw [hpages]
    exact ⟨hlog, (toInt_ofNat_eq_iff _).mpr (hend hret)⟩

/-- **When the pages put so far are in their places**: the slots of the empty files
    before a page add up to zero, and its place can be counted in an `int`. -/
theorem pagesPlaced_iff {s : State n} (hs : (system cfg n).Reachable s) :
    PagesPlaced cfg s ↔
      (∀ b ∈ s.putLog, position cfg b < 2 ^ 31 ∧ 2 ^ 32 ∣ emptyJunk cfg b.file_number) ∧
        (s.producer.pc = .returned → (allPages cfg).length < 2 ^ 31) := by
  constructor
  · rintro ⟨hplaced, _, hput⟩
    refine ⟨fun b hb => (positionInt_of_put_eq_iff hs hb).mp (hplaced b hb), fun hret => ?_⟩
    have hend := (hput hret).2
    rw [(putLog_of_returned hs hret).2] at hend
    exact (toInt_ofNat_eq_iff _).mp hend
  · rintro ⟨hcond, hend⟩
    exact pagesPlaced_of hs hcond hend

/-- The producer puts the pages of `threePages` while nobody takes them. -/
theorem pagesPlaced_threePages : ∃ s : State 1,
    (system threePages 1).run (.start threePages 1) (List.replicate 36 (.producer none)) = some s ∧
    s.putLog.length = 3 ∧ PagesPlaced threePages s := by
  obtain ⟨s, hs⟩ := Option.isSome_iff_exists.mp
    (by decide : ((system threePages 1).run (.start threePages 1)
      (List.replicate 36 (.producer none))).isSome)
  have hend : ((system threePages 1).run (.start threePages 1)
      (List.replicate 36 (.producer none))).map
      (fun s => (s.producer.pc, s.putLog.map fun b => (position threePages b, b.file_number))) =
      some (.pageTest, [(0, 0), (1, 0), (2, 1)]) := by decide
  simp only [hs, Option.map_some, Option.some.injEq, Prod.mk.injEq] at hend
  obtain ⟨hpc, hlog⟩ := hend
  have hlength := congrArg List.length hlog
  rw [List.length_map] at hlength
  refine ⟨s, hs, hlength, (pagesPlaced_iff (System.Reaches.run .start hs)).mpr ⟨?_, ?_⟩⟩
  · intro b hb
    have hmem := List.mem_map_of_mem (f := fun b => (position threePages b, b.file_number)) hb
    rw [hlog] at hmem
    have hall : ∀ q ∈ [((0 : Nat), (0 : Nat)), (1, 0), (2, 1)],
        q.1 < 2 ^ 31 ∧ 2 ^ 32 ∣ emptyJunk threePages q.2 := by decide
    exact hall _ hmem
  · rw [hpc]
    intro hret
    cases hret

/-- An empty first file, and a byte in the second. -/
def emptyFirst : Config where
  page_size := 4096
  files := [[], [7]]
  junk := fun _ => 5

/-- The page of the second file is put, and its position is what `malloc` left. -/
theorem not_pagesPlaced_emptyFirst :
    ¬ ∀ (n : Nat) (cfg : Config), 1 ≤ cfg.page_size → ∀ s : State n,
      (system cfg n).Reachable s → PagesPlaced cfg s := by
  intro h
  obtain ⟨s, hs⟩ := Option.isSome_iff_exists.mp
    (by decide : ((system emptyFirst 1).run (.start emptyFirst 1)
      (List.replicate 12 (.producer none))).isSome)
  have hend : ((system emptyFirst 1).run (.start emptyFirst 1)
      (List.replicate 12 (.producer none))).map
      (fun s => s.putLog.map fun b => (positionInt s.pages_per_file b).toInt) = some [5] := by
    decide
  simp only [hs, Option.map_some, Option.some.injEq] at hend
  have hplaced := (h 1 emptyFirst (by decide) s (System.Reaches.run .start hs)).in_order
  have hlength := congrArg List.length hend
  rw [List.length_map] at hlength
  rw [hend, hlength] at hplaced
  exact absurd hplaced (by decide)

/-- No file is empty but the last ones. -/
def EmptyLast (cfg : Config) : Prop :=
  ∀ i k, i < k → k < cfg.num_files → cfg.st_size i = 0 → cfg.st_size k = 0

theorem emptyJunk_of_emptyLast (hempty : EmptyLast cfg) {k : Nat} (hk : k < cfg.num_files)
    (hsize : cfg.st_size k ≠ 0) : emptyJunk cfg k = 0 := by
  apply List.sum_eq_zero
  intro x hx
  obtain ⟨i, hi, rfl⟩ := List.mem_map.mp hx
  exact if_neg fun h0 => hsize (hempty i k (List.mem_range.mp hi) hk h0)

/-- **Whatever `malloc` left**, the pages get their places in every run over files of
    which no empty one stands before one that is not, as long as the pages can be
    counted in an `int`. -/
theorem pagesPlaced_of_emptyLast (hempty : EmptyLast cfg) (hfits : (allPages cfg).length < 2 ^ 31)
    {s : State n} (hs : (system cfg n).Reachable s) : PagesPlaced cfg s := by
  refine pagesPlaced_of hs ?_ fun _ => hfits
  intro b hb
  have hpre : s.putLog <+: allPages cfg := (Reachable.produced_cleared hs).putLog_isPrefix
  have hall := hpre.subset hb
  constructor
  · obtain ⟨k, hk, heq⟩ := List.mem_iff_getElem.mp hall
    have hpos := (position_eq_of_getElem? (List.getElem?_eq_some_iff.mpr ⟨hk, heq⟩)).1
    rw [hpos]
    omega
  · obtain ⟨i, hi, hpage⟩ := List.mem_flatMap.mp hall
    obtain ⟨j, hj, rfl⟩ := List.mem_map.mp hpage
    have hsize : cfg.st_size i ≠ 0 := by
      intro h0
      rw [h0, pagesInFile_zero] at hj
      cases hj
    have hzero : emptyJunk cfg (page cfg i j).file_number = 0 :=
      emptyJunk_of_emptyLast hempty (List.mem_range.mp hi) hsize
    rw [hzero]
    exact Nat.dvd_zero _

end OstepProjects.Pzip3
