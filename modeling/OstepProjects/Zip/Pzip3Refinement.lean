/-
  OstepProjects/Zip/Pzip3Refinement.lean
  ======================================
  **`pzip3` refines `wzip`.**

  Whatever the schedule, the pages put into the queue are a prefix of `allPages`, the
  pages taken are a prefix of the pages put, and the outputs stored so far are those
  of taken pages, each in its own place (`ProducedInv`, `ConsumedInv`).  When every
  thread has returned nothing is left to be taken or stored, so the merge pass sees
  the outputs of all pages in order, and writes the records of the sequential
  compressor (`pzip3_refines_wzip`).

  The invariants of `Pzip3Progress` supply the exclusion that the queue needs.
-/
import OstepProjects.Zip.Pzip3Pages
import OstepProjects.Zip.Pzip3Progress

namespace OstepProjects.Pzip3

open OstepProjects.Transition OstepProjects.CircularQueue OstepProjects.Zip
open OstepProjects.RunLength

variable {n : Nat} {cfg : Config}

/-! ### The size of the queue -/

/-- Statements that rely on a free slot: nobody else puts. -/
def ProducerPc.HasRoom : ProducerPc → Bool
  | .unlockFull | .fillTemp | .lockPut | .put => true
  | _ => false

structure SizeInv (s : State n) : Prop where
  room : s.producer.pc.HasRoom = true → s.queue.size < q_capacity
  ready : ∀ c, (s.consumers c).pc = .testDone → s.queue.size ≠ 0 ∨ s.isComplete = true
  nonempty : ∀ c, (s.consumers c).pc = .get → s.queue.size ≠ 0
  left : ∀ c, (s.consumers c).pc.Leaves = true → s.queue.size = 0
  size_le : s.queue.size ≤ q_capacity

theorem sizeInv_start (cfg : Config) : SizeInv (State.start cfg n) := by
  constructor <;> simp [State.start, ProducerPc.HasRoom, ConsumerPc.Leaves]

theorem ConsumerPc.next_testDone {pc : ConsumerPc} {e f : Bool}
    (h : pc.next e f = .testDone) : pc = .testEmpty ∧ (e = false ∨ f = true) := by
  cases pc <;> cases e <;> cases f <;> simp_all [ConsumerPc.next]

theorem ConsumerPc.next_get {pc : ConsumerPc} {e f : Bool} (h : pc.next e f = .get) :
    pc = .testDone ∧ (f = false ∨ e = false) := by
  cases pc <;> cases e <;> cases f <;> simp_all [ConsumerPc.next]

theorem ConsumerPc.leaves_next_empty {pc : ConsumerPc} {e f : Bool}
    (h : (pc.next e f).Leaves = true) : pc.Leaves = true ∨ e = true := by
  cases pc <;> cases e <;> cases f <;> simp_all [ConsumerPc.next, ConsumerPc.Leaves]

theorem sizeInv_consumer {s s' : State n} {c : Fin n} (hsync : SyncInv s) (h : SizeInv s)
    (hs : stepConsumer s c = some s') : SizeInv s' := by
  have spec := stepConsumer_spec hs
  have hle : s'.queue.size ≤ s.queue.size := by
    rw [spec.size]
    split <;> omega
  -- a consumer that holds the lock sees the size it has tested
  have hkeep : ∀ d, d ≠ c → (s.consumers d).pc.Holds = true → s'.queue.size = s.queue.size := by
    intro d hd hholds
    rw [spec.size]
    split
    · rename_i hget
      exact absurd (hsync.consumer_unique (by rw [hget]; rfl) hholds) hd
    · rfl
  constructor
  case room =>
    intro hroom
    have hpe := spec.producer_eq (by intro hw; rw [hw] at hroom; cases hroom)
    rw [hpe] at hroom
    have hlt := h.room hroom
    omega
  case ready =>
    intro d hd
    by_cases hdc : d = c
    · subst hdc
      rw [spec.next] at hd
      obtain ⟨hpc, hor⟩ := ConsumerPc.next_testDone hd
      rw [spec.flag, spec.size, if_neg (by rw [hpc]; decide)]
      simpa using hor
    · rw [spec.others d hdc] at hd
      rw [hkeep d hdc (by rw [hd]; rfl), spec.flag]
      exact h.ready d hd
  case nonempty =>
    intro d hd
    by_cases hdc : d = c
    · subst hdc
      rw [spec.next] at hd
      obtain ⟨hpc, hor⟩ := ConsumerPc.next_get hd
      rw [spec.size, if_neg (by rw [hpc]; decide)]
      rcases hor with hflag | hempty
      · exact (h.ready d hpc).resolve_right (by rw [hflag]; decide)
      · simpa using hempty
    · rw [spec.others d hdc] at hd
      rw [hkeep d hdc (by rw [hd]; rfl)]
      exact h.nonempty d hd
  case left =>
    intro d hd
    by_cases hdc : d = c
    · subst hdc
      rw [spec.next] at hd
      rcases ConsumerPc.leaves_next_empty hd with hold | hempty
      · have hzero := h.left d hold
        omega
      · have hzero : s.queue.size = 0 := by simpa using hempty
        omega
    · rw [spec.others d hdc] at hd
      have hzero := h.left d hd
      omega
  case size_le => exact hle.trans h.size_le

theorem ProducerPc.hasRoom_next {full : Bool} {pc pc' : ProducerPc} (h : pc.Next full pc')
    (hroom : pc'.HasRoom = true) : pc ≠ .put ∧ (pc.HasRoom = true ∨ full = false) := by
  cases pc <;> simp only [ProducerPc.Next] at h
  case openFile => rcases h with rfl | rfl | rfl <;> cases hroom
  case pageTest => rcases h with rfl | rfl <;> cases hroom
  case testFull => cases full <;> subst h <;> simp_all [ProducerPc.HasRoom]
  all_goals subst h; first | exact ⟨by decide, Or.inl rfl⟩ | cases hroom

theorem sizeInv_producer {s s' : State n} {wake : Option (Fin n)} (hsync : SyncInv s)
    (h : SizeInv s) (hs : stepProducer cfg s wake = some s') : SizeInv s' := by
  have spec := stepProducer_spec hs
  have hsize := spec.size
  -- while a consumer holds the lock or has left, the producer does not put
  have hkeep : ∀ d, (s.consumers d).pc.Holds = true → s'.queue.size = s.queue.size := by
    intro d hholds
    rw [hsize, if_neg]
    intro hput
    have hnot : (s.consumers d).pc.Holds = false := hsync.not_both (by rw [hput]; rfl)
    rw [hholds] at hnot; cases hnot
  have hback : ∀ d pc, pc ≠ .woken → (s'.consumers d).pc = pc → (s.consumers d).pc = pc := by
    intro d pc hw hd
    rcases spec.wakes d with heq | ⟨_, hwoken⟩
    · rw [← heq, hd]
    · exact absurd (hd.symm.trans hwoken) hw
  constructor
  case room =>
    intro hroom
    obtain ⟨hput, hor⟩ := ProducerPc.hasRoom_next spec.next hroom
    rw [if_neg hput] at hsize
    rw [hsize]
    rcases hor with hold | hfull
    · exact h.room hold
    · exact Nat.lt_of_le_of_ne h.size_le (by simpa using hfull)
  case ready =>
    intro d hd
    have hpc := hback d _ (by decide) hd
    rw [hkeep d (by rw [hpc]; rfl), spec.flag]
    exact (h.ready d hpc).imp_right fun hflag => by rw [hflag]; rfl
  case nonempty =>
    intro d hd
    have hpc := hback d _ (by decide) hd
    rw [hkeep d (by rw [hpc]; rfl)]
    exact h.nonempty d hpc
  case left =>
    intro d hd
    rw [spec.class_eq ConsumerPc.Leaves rfl d] at hd
    have hflag := hsync.leaves d hd
    rw [hsize, if_neg]
    · exact h.left d hd
    · intro hput
      rw [hsync.flag, hput] at hflag
      cases hflag
  case size_le =>
    rw [hsize]
    split
    · rename_i hput
      exact h.room (by rw [hput]; rfl)
    · exact h.size_le

/-! ### What the producer has put -/

/-- The files before `p.i` have been put. -/
structure Between (cfg : Config) (p : Producer) (putLog : List Buffer) (total_pages : Nat)
    (pages_per_file : Nat → Nat) : Prop where
  le : p.i ≤ cfg.num_files
  recorded : ∀ k < p.i, pages_per_file k = pagesInFile cfg.page_size (cfg.st_size k)
  total : total_pages = (pagesBefore cfg p.i).length
  log : putLog = pagesBefore cfg p.i

/-- The first `done` pages of file `p.i` have been put, and `map` stands after its
    first `mapped` pages. -/
structure Within (cfg : Config) (p : Producer) (putLog : List Buffer) (total_pages : Nat)
    (pages_per_file : Nat → Nat) (done mapped : Nat) : Prop where
  lt : p.i < cfg.num_files
  pages : p.pages_in_file = pagesInFile cfg.page_size (cfg.st_size p.i)
  last : p.last_page_size = lastPageSize cfg.page_size (cfg.st_size p.i)
  recorded : ∀ k < p.i + 1, pages_per_file k = pagesInFile cfg.page_size (cfg.st_size k)
  total : total_pages = (pagesBefore cfg (p.i + 1)).length
  done_le : done ≤ p.pages_in_file
  log : putLog = pagesBefore cfg p.i ++ (List.range done).map (page cfg p.i)
  map : p.map = (cfg.file p.i).drop (mapped * cfg.page_size)

def ProducedInv (cfg : Config) (p : Producer) (putLog : List Buffer) (total_pages : Nat)
    (pages_per_file : Nat → Nat) : Prop :=
  let within := Within cfg p putLog total_pages pages_per_file
  match p.pc with
  | .openFile => Between cfg p putLog total_pages pages_per_file
  | .countPages => Between cfg p putLog total_pages pages_per_file ∧ p.i < cfg.num_files
  | .recordPages =>
    Between cfg p putLog (pagesBefore cfg p.i).length pages_per_file ∧ p.i < cfg.num_files ∧
      p.pages_in_file = pagesInFile cfg.page_size (cfg.st_size p.i) ∧
      p.last_page_size = lastPageSize cfg.page_size (cfg.st_size p.i) ∧
      total_pages = (pagesBefore cfg (p.i + 1)).length
  | .mapFile => Within cfg { p with map := cfg.file p.i } putLog total_pages pages_per_file 0 0
  | .pageTest => within p.j p.j
  | .lockFull | .testFull | .broadcastFill | .waitEmpty | .asleep | .woken | .unlockFull
  | .fillTemp => within p.j p.j ∧ p.j < p.pages_in_file
  | .lockPut | .put => within p.j (p.j + 1) ∧ p.j < p.pages_in_file ∧ p.temp = page cfg p.i p.j
  | .unlockPut | .signalFill => within (p.j + 1) (p.j + 1)
  | .setComplete | .broadcastDone | .returned =>
    Between cfg p putLog total_pages pages_per_file ∧ p.i = cfg.num_files

/-- The invariant on a state. -/
def Produced (cfg : Config) (s : State n) : Prop :=
  ProducedInv cfg s.producer s.putLog s.total_pages s.pages_per_file

theorem produced_start (cfg : Config) : Produced cfg (State.start cfg n) where
  le := Nat.zero_le _
  recorded k hk := absurd hk (Nat.not_lt_zero k)
  total := rfl
  log := rfl

section Produced

variable {p : Producer} {putLog : List Buffer} {total_pages : Nat} {pages_per_file : Nat → Nat}
  {done mapped : Nat}

theorem Between.withPc (h : Between cfg p putLog total_pages pages_per_file) (pc : ProducerPc) :
    Between cfg { p with pc := pc } putLog total_pages pages_per_file :=
  ⟨h.le, h.recorded, h.total, h.log⟩

theorem Within.withPc (h : Within cfg p putLog total_pages pages_per_file done mapped)
    (pc : ProducerPc) :
    Within cfg { p with pc := pc } putLog total_pages pages_per_file done mapped :=
  ⟨h.lt, h.pages, h.last, h.recorded, h.total, h.done_le, h.log, h.map⟩

/-- The last page of the file has been put. -/
theorem Within.between_succ
    (h : Within cfg p putLog total_pages pages_per_file p.pages_in_file mapped) :
    Between cfg { p with i := p.i + 1 } putLog total_pages pages_per_file where
  le := h.lt
  recorded := h.recorded
  total := h.total
  log := by
    rw [h.log, h.pages, pagesBefore_succ]
    rfl

/-- An empty file has no page to put. -/
theorem Between.skip (h : Between cfg p putLog total_pages pages_per_file)
    (hi : p.i < cfg.num_files) (hsize : cfg.st_size p.i = 0) (hcell : pages_per_file p.i = 0) :
    Between cfg { p with i := p.i + 1 } putLog total_pages pages_per_file := by
  have hpages : pagesInFile cfg.page_size (cfg.st_size p.i) = 0 := by
    simp [hsize, pagesInFile, notAligned]
  have hnone : filePages cfg p.i = [] := by
    rw [filePages, hpages]
    rfl
  refine ⟨hi, ?_, ?_, ?_⟩
  · intro k hk
    rcases Nat.lt_succ_iff_lt_or_eq.mp hk with hlt | rfl
    · exact h.recorded k hlt
    · rw [hcell, hpages]
  · rw [h.total, pagesBefore_succ, hnone, List.append_nil]
  · rw [h.log, pagesBefore_succ, hnone, List.append_nil]

theorem Between.recordPages (h : Between cfg p putLog (pagesBefore cfg p.i).length pages_per_file)
    (hi : p.i < cfg.num_files)
    (hpages : p.pages_in_file = pagesInFile cfg.page_size (cfg.st_size p.i))
    (hlast : p.last_page_size = lastPageSize cfg.page_size (cfg.st_size p.i))
    (htotal : total_pages = (pagesBefore cfg (p.i + 1)).length) :
    Within cfg { p with map := cfg.file p.i } putLog total_pages
      (Function.update pages_per_file p.i p.pages_in_file) 0 0 where
  lt := hi
  pages := hpages
  last := hlast
  recorded k hk := by
    rcases Nat.lt_succ_iff_lt_or_eq.mp hk with hlt | heq
    · rw [Function.update_of_ne (by simpa using hlt.ne)]
      exact h.recorded k hlt
    · simp only at heq
      rw [heq, Function.update_self, hpages]
  total := htotal
  done_le := Nat.zero_le _
  log := by rw [h.log]; simp
  map := by simp

/-- What `put` appends is the next page of the file. -/
theorem Within.put (h : Within cfg p putLog total_pages pages_per_file p.j (p.j + 1))
    (hj : p.j < p.pages_in_file) (htemp : p.temp = page cfg p.i p.j) :
    Within cfg p (putLog ++ [p.temp]) total_pages pages_per_file (p.j + 1) (p.j + 1) :=
  { h with
    done_le := hj
    log := by rw [h.log, htemp, List.range_succ]; simp }

theorem Within.fillTemp (h : Within cfg p putLog total_pages pages_per_file p.j p.j)
    (temp : Buffer) :
    Within cfg { p with temp := temp, map := p.map.drop cfg.page_size } putLog total_pages
      pages_per_file p.j (p.j + 1) :=
  { lt := h.lt, pages := h.pages, last := h.last, recorded := h.recorded, total := h.total
    done_le := h.done_le, log := h.log
    map := by
      simp only
      rw [h.map, List.drop_drop, Nat.succ_mul, Nat.add_comm] }

end Produced

theorem produced_producer {s s' : State n} {wake : Option (Fin n)}
    (hempty : ∀ i < cfg.num_files, cfg.st_size i = 0 → s.pages_per_file i = 0)
    (h : Produced cfg s) (hs : stepProducer cfg s wake = some s') : Produced cfg s' := by
  simp only [Produced, ProducedInv] at h
  cases hpc : s.producer.pc <;> simp only [stepProducer, hpc] at hs h
  case openFile =>
    split at hs
    · rename_i hi
      split at hs
      · rename_i hsize
        cases hs
        exact (h.skip hi hsize (hempty _ hi hsize)).withPc _
      · cases hs
        exact ⟨h.withPc _, hi⟩
    · rename_i hi
      cases hs
      exact ⟨h.withPc _, Nat.le_antisymm h.le (Nat.le_of_not_lt hi)⟩
  case countPages =>
    cases hs
    obtain ⟨hb, hi⟩ := h
    refine ⟨⟨hb.le, hb.recorded, rfl, hb.log⟩, hi, rfl, rfl, ?_⟩
    rw [pagesBefore_succ, List.length_append, length_filePages, hb.total]
  case recordPages =>
    cases hs
    obtain ⟨hb, hi, hpages, hlast, htotal⟩ := h
    exact (hb.recordPages hi hpages hlast htotal).withPc _
  case mapFile =>
    cases hs
    exact ⟨h.lt, h.pages, h.last, h.recorded, h.total, h.done_le, h.log, h.map⟩
  case pageTest =>
    split at hs
    · rename_i hj
      cases hs
      exact ⟨h.withPc _, hj⟩
    · rename_i hj
      cases hs
      have heq : s.producer.j = s.producer.pages_in_file :=
        Nat.le_antisymm h.done_le (Nat.le_of_not_lt hj)
      rw [heq] at h
      exact h.between_succ.withPc _
  case lockFull | testFull | woken =>
    split at hs <;> cases hs
    all_goals exact ⟨h.1.withPc _, h.2⟩
  case broadcastFill | waitEmpty | unlockFull =>
    cases hs
    exact ⟨h.1.withPc _, h.2⟩
  case asleep | returned => cases hs
  case fillTemp =>
    cases hs
    obtain ⟨hw, hj⟩ := h
    refine ⟨(hw.fillTemp _).withPc _, hj, ?_⟩
    simp only [page, hw.map, hw.pages, hw.last]
  case lockPut =>
    split at hs <;> cases hs
    exact ⟨h.1.withPc _, h.2⟩
  case put =>
    cases hs
    obtain ⟨hw, hj, htemp⟩ := h
    exact (hw.put hj htemp).withPc _
  case unlockPut =>
    cases hs
    exact h.withPc _
  case signalFill =>
    obtain ⟨t, ht, rfl⟩ := Option.map_eq_some_iff.mp hs
    obtain ⟨_, heq⟩ := signalFill_cases ht
    rw [heq]
    exact ⟨h.lt, h.pages, h.last, h.recorded, h.total, h.done_le, h.log, h.map⟩
  case setComplete | broadcastDone =>
    cases hs
    exact ⟨h.1.withPc _, h.2⟩

/-- The signal wakes the producer or leaves it as it is. -/
theorem State.producer_signalEmpty (s : State n) :
    s.signalEmpty.producer = s.producer ∨
      s.producer.pc = .asleep ∧ s.signalEmpty.producer = { s.producer with pc := .woken } := by
  unfold State.signalEmpty
  by_cases hp : s.producer.pc = .asleep
  · rw [if_pos hp]
    exact Or.inr ⟨hp, rfl⟩
  · rw [if_neg hp]
    exact Or.inl rfl

/-- The signal changes nothing but the producer. -/
theorem State.signalEmpty_eq (s : State n) :
    s.signalEmpty = { s with producer := s.signalEmpty.producer } := by
  unfold State.signalEmpty
  split
  · rfl
  · rfl

/-- The step of a consumer wakes the producer or leaves it as it is, and touches none
    of the data it writes. -/
theorem stepConsumer_produced {s s' : State n} {c : Fin n} (hs : stepConsumer s c = some s') :
    (s'.producer = s.producer ∨
      s.producer.pc = .asleep ∧ s'.producer = { s.producer with pc := .woken }) ∧
    s'.putLog = s.putLog ∧ s'.total_pages = s.total_pages ∧
    s'.pages_per_file = s.pages_per_file := by
  cases hpc : (s.consumers c).pc <;> simp only [stepConsumer, hpc] at hs
  case signalFirst | signalEmpty =>
    cases hs
    rw [s.signalEmpty_eq]
    exact ⟨s.producer_signalEmpty, rfl, rfl, rfl⟩
  case lock | testEmpty | woken | testDone | testSignal | loopTest =>
    split at hs <;> cases hs
    all_goals exact ⟨Or.inl rfl, rfl, rfl, rfl⟩
  case asleep | returned => cases hs
  all_goals
    cases hs
    exact ⟨Or.inl rfl, rfl, rfl, rfl⟩

/-- The invariant does not see a consumer, and not that the producer is woken. -/
theorem Produced.of_woken {s s' : State n} (h : Produced cfg s)
    (hproducer : s'.producer = s.producer ∨
      s.producer.pc = .asleep ∧ s'.producer = { s.producer with pc := .woken })
    (hlog : s'.putLog = s.putLog) (htotal : s'.total_pages = s.total_pages)
    (hpages : s'.pages_per_file = s.pages_per_file) : Produced cfg s' := by
  rw [Produced, hlog, htotal, hpages]
  rcases hproducer with heq | ⟨hsleep, heq⟩
  · rw [heq]
    exact h
  · rw [heq]
    simp only [Produced, ProducedInv, hsleep] at h
    exact ⟨h.1.withPc _, h.2⟩

theorem produced_consumer {s s' : State n} {c : Fin n} (h : Produced cfg s)
    (hs : stepConsumer s c = some s') : Produced cfg s' := by
  obtain ⟨hproducer, hlog, htotal, hpages⟩ := stepConsumer_produced hs
  exact h.of_woken hproducer hlog htotal hpages

/-- The pages put so far are the first of all pages, and the counts of the files they
    belong to are recorded. -/
theorem Produced.log {s : State n} (h : Produced cfg s) :
    ∃ m ≤ cfg.num_files, s.putLog <+: pagesBefore cfg m ∧
      ∀ k < m, s.pages_per_file k = pagesInFile cfg.page_size (cfg.st_size k) := by
  have hbetween : ∀ {total}, Between cfg s.producer s.putLog total s.pages_per_file →
      ∃ m ≤ cfg.num_files, s.putLog <+: pagesBefore cfg m ∧
        ∀ k < m, s.pages_per_file k = pagesInFile cfg.page_size (cfg.st_size k) := by
    intro total hb
    exact ⟨_, hb.le, ⟨[], by rw [List.append_nil, hb.log]⟩, hb.recorded⟩
  have hwithin : ∀ {p : Producer} {done mapped : Nat},
      Within cfg p s.putLog s.total_pages s.pages_per_file done mapped →
      ∃ m ≤ cfg.num_files, s.putLog <+: pagesBefore cfg m ∧
        ∀ k < m, s.pages_per_file k = pagesInFile cfg.page_size (cfg.st_size k) := by
    intro p done mapped hw
    refine ⟨_, hw.lt, ?_, hw.recorded⟩
    rw [hw.log, pagesBefore_succ]
    have hdone := hw.done_le
    rw [hw.pages] at hdone
    exact (List.prefix_append_right_inj _).mpr (take_filePages cfg _ hdone)
  simp only [Produced, ProducedInv] at h
  cases hpc : s.producer.pc <;> simp only [hpc] at h
  case openFile => exact hbetween h
  case countPages | recordPages | setComplete | broadcastDone | returned => exact hbetween h.1
  case mapFile | pageTest | unlockPut | signalFill => exact hwithin h
  all_goals exact hwithin h.1

theorem Produced.putLog_isPrefix {s : State n} (h : Produced cfg s) :
    s.putLog <+: allPages cfg := by
  obtain ⟨m, hm, hpre, _⟩ := h.log
  exact hpre.trans (pagesBefore_mono hm)

/-- A page that was put is stored where it stands in the sequence. -/
theorem Produced.position_eq {s : State n} (h : Produced cfg s) {b : Buffer}
    (hb : b ∈ s.putLog) : calculateOutputPosition s.pages_per_file b = position cfg b := by
  obtain ⟨m, _, hpre, hrec⟩ := h.log
  obtain ⟨k, hk, heq⟩ := List.mem_iff_getElem.mp (hpre.subset hb)
  have hfile := (position_eq_of_getElem? (List.getElem?_eq_some_iff.mpr ⟨hk, heq⟩)).2
  exact calculateOutputPosition_eq fun j hj => hrec j (hj.trans hfile)

/-! ### What the consumers have taken -/

/-- A page has been taken and its output is not stored yet. -/
def ConsumerPc.Carries : ConsumerPc → Bool
  | .testSignal | .signalEmpty | .unlockGet | .position | .store => true
  | _ => false

/-- The queue holds the pages put and not yet taken, in the order of the puts. -/
def QueueInv (s : State n) : Prop :=
  ∃ xs, Holds q_capacity s.queue xs ∧ s.putLog = s.getLog ++ xs

structure ConsumedInv (cfg : Config) (s : State n) : Prop where
  queue : ∃ xs, Holds q_capacity s.queue xs ∧ s.putLog = s.getLog ++ xs
  carried : ∀ c, (s.consumers c).pc.Carries = true → (s.consumers c).temp ∈ s.getLog
  placed : ∀ c, (s.consumers c).pc = .store →
    (s.consumers c).position = position cfg (s.consumers c).temp
  stored : ∀ k o, s.out k = some o → ∃ b, s.getLog[k]? = some b ∧ o = compressPage b
  kept : ∀ k b, s.getLog[k]? = some b → s.out k = none →
    ∃ c, (s.consumers c).pc.Carries = true ∧ (s.consumers c).temp = b

theorem consumedInv_start (cfg : Config) : ConsumedInv cfg (State.start cfg n) where
  queue := ⟨[], holds_empty (by decide) _, rfl⟩
  carried c hc := by cases hc
  placed c hc := by cases hc
  stored k o hk := by cases hk
  kept k b hk := by simp [State.start] at hk

/-- What a statement of a consumer does to the data. -/
structure ConsumerData (s s' : State n) (c : Fin n) : Prop where
  queue : s'.queue =
    if (s.consumers c).pc = .get then s.queue.get q_capacity else s.queue
  getLog : s'.getLog =
    if (s.consumers c).pc = .get then s.getLog ++ [s.queue.front] else s.getLog
  temp : (s'.consumers c).temp =
    if (s.consumers c).pc = .get then s.queue.front else (s.consumers c).temp
  position : (s'.consumers c).position =
    if (s.consumers c).pc = .position
    then calculateOutputPosition s.pages_per_file (s.consumers c).temp
    else (s.consumers c).position
  out : s'.out =
    if (s.consumers c).pc = .store
    then Function.update s.out (s.consumers c).position (some (compressPage (s.consumers c).temp))
    else s.out

theorem stepConsumer_data {s s' : State n} {c : Fin n} (h : stepConsumer s c = some s') :
    ConsumerData s s' c := by
  cases hpc : (s.consumers c).pc <;> simp only [stepConsumer, hpc] at h
  case signalFirst | signalEmpty =>
    cases h
    rw [s.signalEmpty_eq]
    constructor <;> simp [hpc, State.gotoConsumer, State.setConsumer]
  case asleep | returned => cases h
  case lock | woken | testEmpty | testDone | testSignal | loopTest =>
    split at h <;> cases h
    all_goals constructor <;> simp [hpc, State.gotoConsumer, State.setConsumer]
  all_goals
    cases h
    constructor <;> simp [hpc, State.gotoConsumer, State.setConsumer]

theorem queueInv_consumer {s s' : State n} {c : Fin n} (hsize : SizeInv s) (h : QueueInv s)
    (hs : stepConsumer s c = some s') : QueueInv s' := by
  have data := stepConsumer_data hs
  obtain ⟨-, hput, -, -⟩ := stepConsumer_produced hs
  obtain ⟨xs, hholds, hlog⟩ := h
  by_cases hget : (s.consumers c).pc = .get
  · obtain ⟨ys, hys⟩ := exists_cons hholds (Nat.pos_of_ne_zero (hsize.nonempty c hget))
    rw [hys] at hholds hlog
    refine ⟨ys, ?_, ?_⟩
    · rw [data.queue, if_pos hget]
      exact get_holds hholds
    · rw [hput, data.getLog, if_pos hget, hlog]
      simp
  · refine ⟨xs, ?_, ?_⟩
    · rw [data.queue, if_neg hget]
      exact hholds
    · rw [hput, data.getLog, if_neg hget]
      exact hlog

theorem ConsumerPc.carries_next {pc : ConsumerPc} {e f : Bool} :
    (pc.next e f).Carries = true ↔ pc = .get ∨ (pc.Carries = true ∧ pc ≠ .store) := by
  cases pc <;> cases e <;> cases f <;> simp [ConsumerPc.next, ConsumerPc.Carries]

theorem ConsumerPc.next_store {pc : ConsumerPc} {e f : Bool} (h : pc.next e f = .store) :
    pc = .position := by
  cases pc <;> cases e <;> cases f <;> simp_all [ConsumerPc.next]

/-- In the sequence of all pages a page stands at its position only. -/
theorem Produced.getElem?_iff {s : State n} (h : Produced cfg s) {xs : List Buffer}
    (hlog : s.putLog = s.getLog ++ xs) {k : Nat} {b : Buffer} (hb : b ∈ s.getLog) :
    s.getLog[k]? = some b ↔ k = position cfg b := by
  have hpre : s.getLog <+: allPages cfg := by
    refine List.IsPrefix.trans ?_ h.putLog_isPrefix
    rw [hlog]
    exact List.prefix_append _ _
  have hpos : ∀ j, s.getLog[j]? = some b → position cfg b = j := by
    intro j hj
    obtain ⟨hlt, heq⟩ := List.getElem?_eq_some_iff.mp hj
    refine (position_eq_of_getElem? (m := cfg.num_files) ?_).1
    have hall : (allPages cfg)[j]? = some b := by
      rw [← heq, hpre.getElem hlt]
      exact List.getElem?_eq_getElem _
    exact hall
  constructor
  · intro hk
    exact (hpos k hk).symm
  · rintro rfl
    obtain ⟨j, hj, heq⟩ := List.mem_iff_getElem.mp hb
    have hj' : s.getLog[j]? = some b := List.getElem?_eq_some_iff.mpr ⟨hj, heq⟩
    rw [hpos j hj']
    exact hj'

/-- A page that has been taken keeps its place in the log. -/
theorem ConsumerData.getElem?_getLog {s s' : State n} {c : Fin n} (data : ConsumerData s s' c)
    {k : Nat} {b : Buffer} (hb : s.getLog[k]? = some b) : s'.getLog[k]? = some b := by
  rw [data.getLog]
  split
  · rw [List.getElem?_append_left (List.getElem?_eq_some_iff.mp hb).1]
    exact hb
  · exact hb

theorem ConsumerData.mem_getLog {s s' : State n} {c : Fin n} (data : ConsumerData s s' c)
    {b : Buffer} (hb : b ∈ s.getLog) : b ∈ s'.getLog := by
  obtain ⟨k, hk⟩ := List.mem_iff_getElem?.mp hb
  exact List.mem_of_getElem? (data.getElem?_getLog hk)

/-- A slot is filled by nobody but the consumer at `store`. -/
theorem ConsumerData.out_eq_none {s s' : State n} {c : Fin n} (data : ConsumerData s s' c)
    {k : Nat} (hnone : s'.out k = none) :
    s.out k = none ∧ ((s.consumers c).pc = .store → k ≠ (s.consumers c).position) := by
  by_cases hstore : (s.consumers c).pc = .store
  · rw [data.out, if_pos hstore] at hnone
    have hkp : k ≠ (s.consumers c).position := by
      rintro rfl
      rw [Function.update_self] at hnone
      cases hnone
    rw [Function.update_of_ne hkp] at hnone
    exact ⟨hnone, fun _ => hkp⟩
  · rw [data.out, if_neg hstore] at hnone
    exact ⟨hnone, fun h => absurd h hstore⟩

/-- The consumer that has just taken a page carries it. -/
theorem ConsumedInv.kept_get {s s' : State n} {c : Fin n} (h : ConsumedInv cfg s)
    (spec : ConsumerSpec s s' c) (data : ConsumerData s s' c) (hget : (s.consumers c).pc = .get)
    {k : Nat} {b : Buffer} (hk : s'.getLog[k]? = some b) (hnone : s'.out k = none) :
    ∃ d, (s'.consumers d).pc.Carries = true ∧ (s'.consumers d).temp = b := by
  rw [data.getLog, if_pos hget] at hk
  rcases Nat.lt_or_ge k s.getLog.length with hlt | hge
  · rw [List.getElem?_append_left hlt] at hk
    obtain ⟨d, hd, htemp⟩ := h.kept k b hk (data.out_eq_none hnone).1
    have hdc : d ≠ c := by
      rintro rfl
      rw [hget] at hd; cases hd
    exact ⟨d, by rw [spec.others d hdc]; exact hd, by rw [spec.others d hdc]; exact htemp⟩
  · rw [List.getElem?_append_right hge, List.getElem?_singleton] at hk
    split at hk
    · refine ⟨c, ?_, ?_⟩
      · rw [spec.next, ConsumerPc.carries_next]
        exact Or.inl hget
      · rw [data.temp, if_pos hget]
        exact Option.some.inj hk
    · cases hk

/-- A page stays with its consumer until its slot is filled. -/
theorem ConsumedInv.kept_other {s s' : State n} {c : Fin n} (hp : Produced cfg s)
    (h : ConsumedInv cfg s) (spec : ConsumerSpec s s' c) (data : ConsumerData s s' c)
    (hget : (s.consumers c).pc ≠ .get) {k : Nat} {b : Buffer} (hk : s'.getLog[k]? = some b)
    (hnone : s'.out k = none) :
    ∃ d, (s'.consumers d).pc.Carries = true ∧ (s'.consumers d).temp = b := by
  obtain ⟨xs, _, hlog⟩ := h.queue
  obtain ⟨hold, hfilled⟩ := data.out_eq_none hnone
  rw [data.getLog, if_neg hget] at hk
  obtain ⟨d, hd, htemp⟩ := h.kept k b hk hold
  refine ⟨d, ?_⟩
  by_cases hdc : d = c
  · subst hdc
    rw [spec.next, ConsumerPc.carries_next, data.temp, if_neg hget]
    refine ⟨Or.inr ⟨hd, ?_⟩, htemp⟩
    -- storing the page would have filled its slot
    intro hstore
    apply hfilled hstore
    rw [h.placed d hstore, ← hp.getElem?_iff hlog (h.carried d hd), htemp]
    exact hk
  · rw [spec.others d hdc]
    exact ⟨hd, htemp⟩

theorem consumedInv_consumer {s s' : State n} {c : Fin n} (hp : Produced cfg s)
    (hsize : SizeInv s) (h : ConsumedInv cfg s) (hs : stepConsumer s c = some s') :
    ConsumedInv cfg s' := by
  have spec := stepConsumer_spec hs
  have data := stepConsumer_data hs
  obtain ⟨xs, -, hlog⟩ := h.queue
  constructor
  case queue => exact queueInv_consumer hsize h.queue hs
  case carried =>
    intro d hd
    by_cases hdc : d = c
    · subst hdc
      rw [spec.next, ConsumerPc.carries_next] at hd
      rw [data.temp, data.getLog]
      by_cases hget : (s.consumers d).pc = .get
      · rw [if_pos hget, if_pos hget]
        simp
      · rw [if_neg hget, if_neg hget]
        exact h.carried d (hd.resolve_left hget).1
    · rw [spec.others d hdc] at hd ⊢
      exact data.mem_getLog (h.carried d hd)
  case placed =>
    intro d hd
    by_cases hdc : d = c
    · subst hdc
      rw [spec.next] at hd
      have hpc := ConsumerPc.next_store hd
      have hb : (s.consumers d).temp ∈ s.putLog := by
        rw [hlog]
        exact List.mem_append_left _ (h.carried d (by rw [hpc]; rfl))
      rw [data.position, if_pos hpc, data.temp, if_neg (by rw [hpc]; decide)]
      exact hp.position_eq hb
    · rw [spec.others d hdc] at hd ⊢
      exact h.placed d hd
  case stored =>
    intro k o hk
    by_cases hstore : (s.consumers c).pc = .store
    · have hb := h.carried c (by rw [hstore]; rfl)
      rw [data.out, if_pos hstore] at hk
      rw [data.getLog, if_neg (by rw [hstore]; decide)]
      by_cases hkp : k = (s.consumers c).position
      · rw [hkp, Function.update_self, Option.some.injEq] at hk
        refine ⟨(s.consumers c).temp, ?_, hk.symm⟩
        rw [hp.getElem?_iff hlog hb, hkp, h.placed c hstore]
      · rw [Function.update_of_ne hkp] at hk
        exact h.stored k o hk
    · rw [data.out, if_neg hstore] at hk
      obtain ⟨b, hb, ho⟩ := h.stored k o hk
      exact ⟨b, data.getElem?_getLog hb, ho⟩
  case kept =>
    intro k b hk hnone
    by_cases hget : (s.consumers c).pc = .get
    · exact h.kept_get spec data hget hk hnone
    · exact h.kept_other hp spec data hget hk hnone

/-- What a statement of the producer does to the data of the consumers. -/
theorem stepProducer_data {s s' : State n} {wake : Option (Fin n)}
    (h : stepProducer cfg s wake = some s') :
    s'.getLog = s.getLog ∧ s'.out = s.out ∧
    (s.producer.pc = .put ∧ s'.queue = s.queue.put q_capacity s.producer.temp ∧
        s'.putLog = s.putLog ++ [s.producer.temp] ∨
      s'.queue = s.queue ∧ s'.putLog = s.putLog) := by
  cases hpc : s.producer.pc <;> simp only [stepProducer, hpc] at h
  case signalFill =>
    obtain ⟨t, ht, rfl⟩ := Option.map_eq_some_iff.mp h
    rw [(signalFill_cases ht).2]
    exact ⟨rfl, rfl, Or.inr ⟨rfl, rfl⟩⟩
  case put =>
    cases h
    exact ⟨rfl, rfl, Or.inl ⟨rfl, rfl, rfl⟩⟩
  case openFile =>
    split at h
    · split at h <;> cases h
      all_goals exact ⟨rfl, rfl, Or.inr ⟨rfl, rfl⟩⟩
    · cases h
      exact ⟨rfl, rfl, Or.inr ⟨rfl, rfl⟩⟩
  case pageTest | lockFull | testFull | woken | lockPut =>
    split at h <;> cases h
    all_goals exact ⟨rfl, rfl, Or.inr ⟨rfl, rfl⟩⟩
  case asleep | returned => cases h
  all_goals
    cases h
    exact ⟨rfl, rfl, Or.inr ⟨rfl, rfl⟩⟩

theorem queueInv_producer {s s' : State n} {wake : Option (Fin n)} (hsize : SizeInv s)
    (h : QueueInv s) (hs : stepProducer cfg s wake = some s') : QueueInv s' := by
  obtain ⟨hget, -, hqueue⟩ := stepProducer_data hs
  obtain ⟨xs, hholds, hlog⟩ := h
  rcases hqueue with ⟨hpc, hq, hput⟩ | ⟨hq, hput⟩
  · refine ⟨xs ++ [s.producer.temp], ?_, ?_⟩
    · rw [hq]
      exact put_holds hholds (hsize.room (by rw [hpc]; rfl)) _
    · rw [hput, hget, hlog, List.append_assoc]
  · refine ⟨xs, ?_, ?_⟩
    · rw [hq]
      exact hholds
    · rw [hput, hget]
      exact hlog

/-- A consumer that carries a page, or is about to store one, is not woken. -/
theorem ProducerSpec.consumer_eq {s s' : State n} (spec : ProducerSpec s s') {c : Fin n}
    (h : (s'.consumers c).pc.Carries = true) : s'.consumers c = s.consumers c := by
  rcases spec.wakes c with heq | ⟨_, hwoken⟩
  · exact heq
  · rw [hwoken] at h; cases h

theorem consumedInv_producer {s s' : State n} {wake : Option (Fin n)} (hsize : SizeInv s)
    (h : ConsumedInv cfg s) (hs : stepProducer cfg s wake = some s') : ConsumedInv cfg s' := by
  have spec := stepProducer_spec hs
  obtain ⟨hget, hout, -⟩ := stepProducer_data hs
  constructor
  case queue => exact queueInv_producer hsize h.queue hs
  case carried =>
    intro c hc
    have heq := spec.consumer_eq hc
    rw [heq] at hc ⊢
    rw [hget]
    exact h.carried c hc
  case placed =>
    intro c hc
    have heq := spec.consumer_eq (by rw [hc]; rfl)
    rw [heq] at hc ⊢
    exact h.placed c hc
  case stored =>
    rw [hget, hout]
    exact h.stored
  case kept =>
    rw [hget, hout]
    intro k b hk hnone
    obtain ⟨c, hc, htemp⟩ := h.kept k b hk hnone
    have hc' : (s'.consumers c).pc.Carries = true := by
      rw [spec.class_eq ConsumerPc.Carries rfl c]
      exact hc
    exact ⟨c, hc', by rw [spec.consumer_eq hc']; exact htemp⟩

/-! ### Every reachable state, and the end of a run -/

structure DataInv (cfg : Config) (s : State n) : Prop where
  sync : SyncInv s
  size : SizeInv s
  produced : Produced cfg s
  consumed : ConsumedInv cfg s

theorem Reachable.dataInv (hne : ∀ i < cfg.num_files, cfg.st_size i ≠ 0) {s : State n}
    (hs : (system cfg n).Reachable s) : DataInv cfg s := by
  refine System.Reaches.invariant ?_ ?_ hs
  · exact ⟨syncInv_start cfg, sizeInv_start cfg, produced_start cfg, consumedInv_start cfg⟩
  · intro s a s' _ h _ hstep
    cases a with
    | producer wake =>
      exact ⟨syncInv_producer h.sync hstep, sizeInv_producer h.sync h.size hstep,
        produced_producer (fun i hi h0 => absurd h0 (hne i hi)) h.produced hstep,
        consumedInv_producer h.size h.consumed hstep⟩
    | consumer c =>
      exact ⟨syncInv_consumer h.sync hstep, sizeInv_consumer h.sync h.size hstep,
        produced_consumer h.produced hstep,
        consumedInv_consumer h.produced h.size h.consumed hstep⟩

/-- When all threads have returned, every page has been taken and its output stored in
    its place, and no other slot of `out` has been written. -/
theorem DataInv.complete {s : State n} (h : DataInv cfg s) (hn : 0 < n) (hret : s.AllReturned) :
    s.total_pages = (allPages cfg).length ∧ s.getLog = allPages cfg ∧
    ∀ k, s.out k = ((allPages cfg)[k]?).map compressPage := by
  have hproducer : s.producer.pc = .returned := hret .producer
  have hconsumer : ∀ c, (s.consumers c).pc = .returned := fun c => hret (.consumer c)
  have hprod := h.produced
  simp only [Produced, ProducedInv, hproducer] at hprod
  obtain ⟨hbetween, hi⟩ := hprod
  have hput : s.putLog = allPages cfg := by rw [hbetween.log, hi]; rfl
  obtain ⟨xs, hholds, hlog⟩ := h.consumed.queue
  have hxs : xs = [] := by
    have hzero := h.size.left ⟨0, hn⟩ (by rw [hconsumer]; rfl)
    have hlen := hholds.length_eq
    rw [hzero] at hlen
    exact List.length_eq_zero_iff.mp hlen
  have hget : s.getLog = allPages cfg := by rw [← hput, hlog, hxs, List.append_nil]
  refine ⟨by rw [hbetween.total, hi]; rfl, hget, ?_⟩
  intro k
  rw [← hget]
  cases hk : s.out k with
  | none =>
    cases hb : s.getLog[k]? with
    | none => rfl
    | some b =>
      obtain ⟨c, hc, _⟩ := h.consumed.kept k b hb hk
      rw [hconsumer c] at hc; cases hc
  | some o =>
    obtain ⟨b, hb, ho⟩ := h.consumed.stored k o hk
    rw [hb, ho]
    rfl

/-- **`pzip3` writes what `wzip` writes.**  Whenever all threads have returned, each
    page has been taken once and in order, each output stands in its own slot of
    `out`, and the merge pass writes the records of the sequential compressor. -/
theorem pzip3_refines_wzip (cfg : Config) (hn : 0 < n) (hsize : 0 < cfg.page_size)
    (hfiles : cfg.files ≠ []) (hne : ∀ f ∈ cfg.files, f ≠ []) {s : State n}
    (hs : (system cfg n).Reachable s) (hret : s.AllReturned)
    (hbytes : s.total_pages * cfg.page_size < 2 ^ 31) (hpages : s.total_pages ≤ outCapacity) :
    s.printed = records cfg.files ∧ s.getLog = allPages cfg ∧
    (∀ k, s.out k = ((allPages cfg)[k]?).map compressPage) ∧
    ∀ k, s.out k ≠ none → k < outCapacity := by
  have hpos : ∀ i < cfg.num_files, cfg.st_size i ≠ 0 := by
    intro i hi
    have hi' : i < cfg.files.length := hi
    have hmem : cfg.file i ∈ cfg.files := by simp [Config.file, hi']
    exact fun hzero => hne _ hmem (List.length_eq_zero_iff.mp hzero)
  obtain ⟨htotal, hget, hout⟩ := (Reachable.dataInv hpos hs).complete hn hret
  obtain ⟨hflat, hnonempty⟩ := allPages_flatten hsize hne
  have houts : (List.range s.total_pages).map (fun i => (s.out i).getD []) =
      ((allPages cfg).map Buffer.bytes).map RLECompress := by
    rw [htotal]
    apply List.ext_getElem
    · simp
    · intro k h1 h2
      have hk : k < (allPages cfg).length := by simpa using h1
      simp [hout, hk, compressPage, Buffer.bytes]
  have hlen := length_flatten_le hsize hne
  rw [← htotal] at hlen
  have hflatne : cfg.files.flatten ≠ [] := by
    obtain ⟨f, fs, hf⟩ := List.exists_cons_of_ne_nil hfiles
    have hfne := hne f (by rw [hf]; simp)
    rw [hf]
    simp [hfne]
  refine ⟨?_, hget, hout, ?_⟩
  · rw [State.printed, houts, printOutput_RLECompress, hflat, records_eq_runs hflatne]
    · intro r hr
      have hle := le_length_of_mem_runs hr
      omega
    · intro c hc
      obtain ⟨b, hb, rfl⟩ := List.mem_map.mp hc
      exact hnonempty b hb
  · intro k hk
    rw [hout, ne_eq, Option.map_eq_none_iff, List.getElem?_eq_none_iff, not_le] at hk
    omega

/-- Three pages with one run over a page border and a file border. -/
def threePages : Config where
  page_size := 2
  files := [[5, 5, 5], [5, 0]]
  junk := fun _ => 0

/-- Consumer 0 takes the first page and stores it after consumer 1 has taken and
    stored the others. -/
def outOfOrder : List (Action 2) :=
  List.replicate 40 (.producer none) ++ List.replicate 6 (.consumer ⟨0, Nat.two_pos⟩) ++
    List.replicate 18 (.consumer ⟨1, Nat.one_lt_two⟩) ++
    List.replicate 3 (.consumer ⟨0, Nat.two_pos⟩)

theorem pzip3_refines_wzip_outOfOrder : ∃ s : State 2,
    (system threePages 2).run (.start threePages 2) outOfOrder = some s ∧ s.AllReturned ∧
    s.printed = records threePages.files := by
  obtain ⟨s, hs⟩ := Option.isSome_iff_exists.mp
    (by decide : ((system threePages 2).run (.start threePages 2) outOfOrder).isSome)
  have hend : ((system threePages 2).run (.start threePages 2) outOfOrder).map
      (fun s => (s.producer.pc, (s.consumers 0).pc, (s.consumers 1).pc, s.total_pages)) =
      some (.returned, .returned, .returned, 3) := by decide
  simp only [hs, Option.map_some, Option.some.injEq, Prod.mk.injEq] at hend
  obtain ⟨hp, h0, h1, htotal⟩ := hend
  have hret : s.AllReturned := by
    intro t
    cases t with
    | producer => exact hp
    | consumer c =>
      match c with
      | 0 => exact h0
      | 1 => exact h1
  refine ⟨s, hs, hret, ?_⟩
  exact (pzip3_refines_wzip threePages (by decide) (by decide) (by decide) (by decide)
    (System.Reaches.run .start hs) hret (by rw [htotal]; decide) (by rw [htotal]; decide)).1

end OstepProjects.Pzip3
