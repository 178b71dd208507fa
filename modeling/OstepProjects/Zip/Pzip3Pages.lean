/-
  OstepProjects/Zip/Pzip3Pages.lean
  =================================
  **The pages of the files, in order.**

  `page` is the buffer that describes page `j` of file `i`, `allPages` the sequence
  the producer of `pzip3.c` puts into its queue.  The paging arithmetic cuts every
  file into non-empty pages that make up the file (`filePages_flatten`), and a page
  stands in the sequence where `calculateOutputPosition` puts its output
  (`position_eq`).
-/
import Mathlib.Algebra.Order.BigOperators.Group.List
import Mathlib.Algebra.Ring.Nat
import OstepProjects.Zip.Pzip3

namespace OstepProjects.Pzip3

open OstepProjects.Zip OstepProjects.RunLength

def page (cfg : Config) (i j : Nat) : Buffer where
  address := (cfg.file i).drop (j * cfg.page_size)
  file_number := i
  page_number := j
  last_page_size :=
    if j = pagesInFile cfg.page_size (cfg.st_size i) - 1
    then lastPageSize cfg.page_size (cfg.st_size i) else cfg.page_size

def filePages (cfg : Config) (i : Nat) : List Buffer :=
  (List.range (pagesInFile cfg.page_size (cfg.st_size i))).map (page cfg i)

/-- The pages of the files before file `i`. -/
def pagesBefore (cfg : Config) (i : Nat) : List Buffer :=
  (List.range i).flatMap (filePages cfg)

def allPages (cfg : Config) : List Buffer := pagesBefore cfg cfg.num_files

/-- The bytes of a page. -/
def Buffer.bytes (b : Buffer) : List UInt8 := b.address.take b.last_page_size

variable {cfg : Config}

@[simp] theorem pagesBefore_zero : pagesBefore cfg 0 = [] := rfl

theorem pagesBefore_succ (cfg : Config) (i : Nat) :
    pagesBefore cfg (i + 1) = pagesBefore cfg i ++ filePages cfg i := by
  simp [pagesBefore, List.range_succ]

@[simp] theorem length_filePages (cfg : Config) (i : Nat) :
    (filePages cfg i).length = pagesInFile cfg.page_size (cfg.st_size i) := by
  simp [filePages]

theorem length_pagesBefore (cfg : Config) (i : Nat) :
    (pagesBefore cfg i).length =
      ((List.range i).map fun k => pagesInFile cfg.page_size (cfg.st_size k)).sum := by
  simp [pagesBefore, List.length_flatMap]

theorem pagesBefore_mono {i k : Nat} (h : i ≤ k) : pagesBefore cfg i <+: pagesBefore cfg k := by
  induction k, h using Nat.le_induction with
  | base => exact List.prefix_rfl
  | succ k _ ih =>
    rw [pagesBefore_succ]
    exact ih.trans (List.prefix_append _ _)

theorem take_filePages (cfg : Config) (i : Nat) {j : Nat}
    (h : j ≤ pagesInFile cfg.page_size (cfg.st_size i)) :
    (List.range j).map (page cfg i) <+: filePages cfg i := by
  have hrange : List.range j <+: List.range (pagesInFile cfg.page_size (cfg.st_size i)) := by
    rw [← Nat.min_eq_left h, ← List.take_range]
    exact List.take_prefix _ _
  exact hrange.map (page cfg i)

/-! ### Positions -/

/-- The place of a page in the sequence. -/
def position (cfg : Config) (b : Buffer) : Nat :=
  (pagesBefore cfg b.file_number).length + b.page_number

theorem position_eq_of_getElem? {m k : Nat} {b : Buffer} (h : (pagesBefore cfg m)[k]? = some b) :
    position cfg b = k ∧ b.file_number < m := by
  induction m with
  | zero => simp at h
  | succ m ih =>
    rw [pagesBefore_succ] at h
    rcases Nat.lt_or_ge k (pagesBefore cfg m).length with hk | hk
    · rw [List.getElem?_append_left hk] at h
      obtain ⟨hpos, hfile⟩ := ih h
      exact ⟨hpos, by omega⟩
    · rw [List.getElem?_append_right hk, filePages, List.getElem?_map] at h
      obtain ⟨j, hj, rfl⟩ := Option.map_eq_some_iff.mp h
      have hjk : k - (pagesBefore cfg m).length = j := by
        obtain ⟨_, heq⟩ := List.getElem?_eq_some_iff.mp hj
        simpa using heq
      refine ⟨?_, Nat.lt_succ_self m⟩
      simp only [position, page]
      omega

/-- **`calculateOutputPosition`** names the place of a page in the sequence, once the
    page counts of the files before its own are recorded. -/
theorem calculateOutputPosition_eq {pages_per_file : Nat → Nat} {b : Buffer}
    (h : ∀ k < b.file_number, pages_per_file k = pagesInFile cfg.page_size (cfg.st_size k)) :
    calculateOutputPosition pages_per_file b = position cfg b := by
  rw [calculateOutputPosition, position, length_pagesBefore]
  congr 2
  exact List.map_congr_left fun k hk => h k (List.mem_range.mp hk)

/-! ### The bytes of the pages -/

section Paging

variable {page_size st_size : Nat}

/-- The last page takes what the full pages leave, and it is not empty. -/
theorem pagesInFile_spec (hsize : 0 < page_size) (hne : 0 < st_size) :
    0 < pagesInFile page_size st_size ∧ 0 < lastPageSize page_size st_size ∧
    lastPageSize page_size st_size ≤ page_size ∧
    (pagesInFile page_size st_size - 1) * page_size + lastPageSize page_size st_size =
      st_size := by
  have hdiv := Nat.div_add_mod' st_size page_size
  have hmod := Nat.mod_lt st_size hsize
  unfold pagesInFile lastPageSize
  by_cases h : notAligned page_size st_size
  · have hlt : st_size / page_size * page_size < st_size := h
    rw [if_pos h, if_pos h]
    refine ⟨Nat.succ_pos _, by omega, by omega, ?_⟩
    rw [Nat.add_sub_cancel]
    exact hdiv
  · have hge : st_size ≤ st_size / page_size * page_size := Nat.le_of_not_lt h
    rw [if_neg h, if_neg h]
    have hpos : 0 < st_size / page_size := by
      rcases Nat.eq_zero_or_pos (st_size / page_size) with hz | hpos
      · rw [hz] at hge
        omega
      · exact hpos
    refine ⟨hpos, hsize, le_refl _, ?_⟩
    have hsucc : (st_size / page_size - 1) * page_size + page_size =
        (st_size / page_size - 1 + 1) * page_size := (Nat.succ_mul _ _).symm
    rw [hsucc, Nat.sub_add_cancel hpos]
    omega

/-- Full pages laid end to end. -/
theorem flatten_full_pages (xs : List UInt8) (m : Nat) :
    ((List.range m).map fun j => (xs.drop (j * page_size)).take page_size).flatten =
      xs.take (m * page_size) := by
  induction m with
  | zero => simp
  | succ m ih =>
    rw [List.range_succ, List.map_append, List.flatten_append, ih, Nat.succ_mul, List.take_add]
    simp

end Paging

theorem bytes_page_of_lt {i j : Nat}
    (h : j < pagesInFile cfg.page_size (cfg.st_size i) - 1) :
    (page cfg i j).bytes = ((cfg.file i).drop (j * cfg.page_size)).take cfg.page_size := by
  simp only [Buffer.bytes, page]
  rw [if_neg (by omega)]

theorem filePages_split {i : Nat} (h : 0 < pagesInFile cfg.page_size (cfg.st_size i)) :
    (filePages cfg i).map Buffer.bytes =
      ((List.range (pagesInFile cfg.page_size (cfg.st_size i) - 1)).map fun j =>
        ((cfg.file i).drop (j * cfg.page_size)).take cfg.page_size) ++
      [((cfg.file i).drop ((pagesInFile cfg.page_size (cfg.st_size i) - 1) *
        cfg.page_size)).take (lastPageSize cfg.page_size (cfg.st_size i))] := by
  obtain ⟨m, hm⟩ := Nat.exists_eq_add_of_lt h
  rw [Nat.zero_add] at hm
  have hlast : (page cfg i m).bytes = ((cfg.file i).drop (m * cfg.page_size)).take
      (lastPageSize cfg.page_size (cfg.st_size i)) := by
    simp only [Buffer.bytes, page]
    rw [if_pos (by omega)]
  rw [filePages, hm, List.range_succ, List.map_map, List.map_append, Nat.add_sub_cancel,
    List.map_singleton, Function.comp_apply, hlast]
  congr 1
  apply List.map_congr_left
  intro j hj
  exact bytes_page_of_lt (by rw [hm]; simpa using hj)

/-- **The pages of a file make up the file, and none is empty.** -/
theorem filePages_flatten {i : Nat} (hsize : 0 < cfg.page_size) (hne : 0 < cfg.st_size i) :
    ((filePages cfg i).map Buffer.bytes).flatten = cfg.file i ∧
    ∀ b ∈ filePages cfg i, b.bytes ≠ [] := by
  obtain ⟨hpages, hlast, hle, hsum⟩ := pagesInFile_spec hsize hne
  have hlen : (cfg.file i).length = cfg.st_size i := rfl
  have hrest : ((cfg.file i).drop ((pagesInFile cfg.page_size (cfg.st_size i) - 1) *
      cfg.page_size)).length = lastPageSize cfg.page_size (cfg.st_size i) := by
    rw [List.length_drop, hlen]
    omega
  constructor
  · rw [filePages_split hpages, List.flatten_append, flatten_full_pages, ← hrest,
      List.flatten_singleton, List.take_length, List.take_append_drop]
  · intro b hb hnil
    have hmem : ([] : List UInt8) ∈ (filePages cfg i).map Buffer.bytes :=
      List.mem_map.mpr ⟨b, hb, hnil⟩
    rw [filePages_split hpages, List.mem_append, List.mem_singleton] at hmem
    rcases hmem with hmem | hmem
    · obtain ⟨j, hj, heq⟩ := List.mem_map.mp hmem
      have hj' : j + 1 ≤ pagesInFile cfg.page_size (cfg.st_size i) - 1 := by
        simpa [Nat.succ_le_iff] using hj
      have hmul := Nat.mul_le_mul_right cfg.page_size hj'
      rw [Nat.succ_mul] at hmul
      rcases List.take_eq_nil_iff.mp heq with hzero | hdrop
      · omega
      · have hge := List.drop_eq_nil_iff.mp hdrop
        omega
    · rcases List.take_eq_nil_iff.mp hmem.symm with hzero | hdrop
      · omega
      · rw [hdrop] at hrest
        simp only [List.length_nil] at hrest
        omega

theorem pagesBefore_flatten (hsize : 0 < cfg.page_size) {m : Nat}
    (hne : ∀ i < m, 0 < cfg.st_size i) :
    ((pagesBefore cfg m).map Buffer.bytes).flatten = (List.range m).flatMap cfg.file ∧
    ∀ b ∈ pagesBefore cfg m, b.bytes ≠ [] := by
  induction m with
  | zero => simp
  | succ m ih =>
    obtain ⟨hbytes, hall⟩ := ih fun i hi => hne i (by omega)
    obtain ⟨hfile, hpage⟩ := filePages_flatten hsize (hne m (Nat.lt_succ_self m))
    constructor
    · rw [pagesBefore_succ, List.map_append, List.flatten_append, hbytes, hfile, List.range_succ]
      simp
    · intro b hb
      rw [pagesBefore_succ] at hb
      rcases List.mem_append.mp hb with hb | hb
      · exact hall b hb
      · exact hpage b hb

theorem flatMap_file (cfg : Config) :
    (List.range cfg.num_files).flatMap cfg.file = cfg.files.flatten := by
  have hmap : (List.range cfg.num_files).map cfg.file = cfg.files := by
    apply List.ext_getElem
    · simp [Config.num_files]
    · intro k h1 h2
      simp [Config.file, h2]
  rw [List.flatMap_def, hmap]

/-- The pages of all files, laid end to end. -/
theorem allPages_flatten (hsize : 0 < cfg.page_size) (hne : ∀ f ∈ cfg.files, f ≠ []) :
    ((allPages cfg).map Buffer.bytes).flatten = cfg.files.flatten ∧
    ∀ b ∈ allPages cfg, b.bytes ≠ [] := by
  have hpos : ∀ i < cfg.num_files, 0 < cfg.st_size i := by
    intro i hi
    have hmem : cfg.file i ∈ cfg.files := by
      have hi' : i < cfg.files.length := hi
      simp [Config.file, hi']
    exact List.length_pos_iff.mpr (hne _ hmem)
  rw [← flatMap_file]
  exact pagesBefore_flatten hsize hpos

theorem last_page_size_le (hsize : 0 < cfg.page_size) {m : Nat} {b : Buffer}
    (hb : b ∈ pagesBefore cfg m) : b.last_page_size ≤ cfg.page_size := by
  obtain ⟨i, _, hi⟩ := List.mem_flatMap.mp hb
  obtain ⟨j, _, rfl⟩ := List.mem_map.mp hi
  have hmod := Nat.mod_lt (cfg.st_size i) hsize
  simp only [page]
  split
  · unfold lastPageSize
    split
    · exact hmod.le
    · exact le_refl _
  · exact le_refl _

/-- The files are no longer than their pages. -/
theorem length_flatten_le (hsize : 0 < cfg.page_size) (hne : ∀ f ∈ cfg.files, f ≠ []) :
    cfg.files.flatten.length ≤ (allPages cfg).length * cfg.page_size := by
  rw [← (allPages_flatten hsize hne).1, List.length_flatten, List.map_map]
  have hle : ∀ k ∈ (allPages cfg).map (List.length ∘ Buffer.bytes), k ≤ cfg.page_size := by
    intro k hk
    obtain ⟨b, hb, rfl⟩ := List.mem_map.mp hk
    have hlast := last_page_size_le hsize hb
    simp only [Function.comp_apply, Buffer.bytes, List.length_take]
    omega
  have hsum := List.sum_le_card_nsmul _ cfg.page_size hle
  rwa [List.length_map, nsmul_eq_mul] at hsum

end OstepProjects.Pzip3
