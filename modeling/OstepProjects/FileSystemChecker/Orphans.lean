/-
  OstepProjects/FileSystemChecker/Orphans.lean
  ============================================
  **Check 9: is every inode in use named in a directory?**

  An orphan is an inode in use that no entry of a directory below the root names.  The
  walk of `inode_check_9` sees the entries and never the inodes that none of them names:
  it prints its message at an entry that names a free inode (`notFound_iff`).  So it is
  right about the images that have both or neither (`inode_check_9_finds_orphans_iff`).
-/
import OstepProjects.FileSystemChecker.DirectoryWalk

namespace OstepProjects.FileSystemChecker

open OstepProjects.Walk

variable {mmapped : Memory}

/-- A directory that entries lead to from the root, inode 1. -/
def Reached (mmapped : Memory) (d : Nat) : Prop := Reaches mmapped 1 d

/-- An entry of a directory below the root. -/
def InTree (mmapped : Memory) (direct : dirent) : Prop :=
  ∃ d, Reached mmapped d ∧ direct ∈ entries mmapped d

/-- An inode in use that no directory names. -/
structure Orphan (mmapped : Memory) (i : Nat) : Prop where
  two_le : 2 ≤ i
  lt : i < (readSuperblock mmapped).ninodes
  used : (rinode mmapped i (readSuperblock mmapped)).type ≠ 0
  unnamed : ∀ direct, InTree mmapped direct → direct.inum ≠ i

/-- An entry that names a free inode; the numbers 0 and 1 stand for none and for the root. -/
def Dangling (mmapped : Memory) (direct : dirent) : Prop :=
  1 < direct.inum ∧ (rinode mmapped direct.inum (readSuperblock mmapped)).type = 0

/-- The message is printed iff there is an orphan. -/
def FindsOrphans (mmapped : Memory) : Prop :=
  ∀ fuel out, inode_check_9 mmapped fuel 1 = some out →
    (Line.notFound ∈ out ↔ ∃ i, Orphan mmapped i)

/-! ### Where the message is printed -/

theorem notFound_mem_visit {direct : dirent} :
    .put .notFound ∈ visit mmapped direct ↔ Dangling mmapped direct := by
  unfold visit Dangling
  dsimp only
  split_ifs with hinum hdirectory hfree
  · refine iff_of_false (fun hmem => nomatch List.mem_singleton.mp hmem) ?_
    rintro ⟨_, hfree⟩
    rw [hfree] at hdirectory
    cases hdirectory
  · exact iff_of_true (List.mem_singleton_self _) ⟨hinum, hfree⟩
  · refine iff_of_false (fun hmem => ?_) fun h => hfree h.2
    cases List.mem_singleton.mp hmem
  · exact iff_of_false List.not_mem_nil fun h => hinum h.1

theorem put_mem_items {d : Nat} {out : Line} :
    .put out ∈ items mmapped d ↔ .put out ∈ (entries mmapped d).flatMap (visit mmapped) := by
  have hstop : .put out ∉ if TooLong mmapped d then [(.stop : Item Nat Line)] else [] := by
    split_ifs <;> simp
  rw [items, List.mem_append, or_iff_left hstop]

/-- The walk prints its message iff it gets to an entry that names a free inode. -/
theorem notFound_iff {fuel : Nat} {out : List Line}
    (h : inode_check_9 mmapped fuel 1 = some out) :
    Line.notFound ∈ out ↔ ∃ direct, InTree mmapped direct ∧ Dangling mmapped direct := by
  rw [inode_check_9_eq_walk] at h
  rw [mem_walk_iff h, leads_eq]
  constructor
  · rintro ⟨d, hreached, hitem⟩
    obtain ⟨direct, hmem, hvisit⟩ := List.mem_flatMap.mp (put_mem_items.mp hitem)
    exact ⟨direct, ⟨d, hreached, hmem⟩, notFound_mem_visit.mp hvisit⟩
  · rintro ⟨direct, ⟨d, hreached, hmem⟩, hdangling⟩
    exact ⟨d, hreached, put_mem_items.mpr
      (List.mem_flatMap.mpr ⟨direct, hmem, notFound_mem_visit.mpr hdangling⟩)⟩

/-- **When check 9 finds orphans.**  On an image where it ends, its message says whether there is
    an orphan iff orphans and entries that name free inodes occur together. -/
theorem inode_check_9_finds_orphans_iff (mmapped : Memory)
    (hends : ∃ fuel out, inode_check_9 mmapped fuel 1 = some out) :
    FindsOrphans mmapped ↔
      ((∃ direct, InTree mmapped direct ∧ Dangling mmapped direct) ↔ ∃ i, Orphan mmapped i) := by
  constructor
  · intro hfinds
    obtain ⟨fuel, out, h⟩ := hends
    rw [← notFound_iff h]
    exact hfinds fuel out h
  · intro hsame fuel out h
    rw [notFound_iff h]
    exact hsame

/-- An empty root directory, and a file, inode 2, that nothing names. -/
def unnamedImage : Memory := fun k =>
  ([(520, 3), (532, 2), (1088, 1), (1096, 32), (1100, 4), (1152, 2), (2048, 1), (2050, 46),
    (2064, 1), (2066, 46), (2067, 46)].lookup k).getD 0

theorem unnamedImage_contents :
    inode_check_9 unnamedImage 1 1 = some [] ∧
    (readSuperblock unnamedImage).ninodes = 3 ∧
    (rinode unnamedImage 2 (readSuperblock unnamedImage)).type = 2 ∧
    ∀ direct ∈ entries unnamedImage 1, direct.inum ≤ 1 := by
  decide +kernel

/-- An image where it ends. -/
theorem inode_check_9_finds_orphans_unnamedImage :
    (∃ fuel out, inode_check_9 unnamedImage fuel 1 = some out) ∧
      (FindsOrphans unnamedImage ↔
        ((∃ direct, InTree unnamedImage direct ∧ Dangling unnamedImage direct) ↔
          ∃ i, Orphan unnamedImage i)) :=
  ⟨⟨1, [], unnamedImage_contents.1⟩,
    inode_check_9_finds_orphans_iff unnamedImage ⟨1, [], unnamedImage_contents.1⟩⟩

/-- The file is an orphan, and nothing is printed. -/
theorem inode_check_9_not_finds_orphans : ¬ ∀ mmapped : Memory,
    (∃ fuel out, inode_check_9 mmapped fuel 1 = some out) → FindsOrphans mmapped := by
  intro hfinds
  obtain ⟨hrun, hninodes, htype, hentries⟩ := unnamedImage_contents
  have hroot : ∀ d, Reached unnamedImage d → d = 1 := by
    intro d hd
    rcases hd.cases_head with rfl | ⟨e, ⟨direct, hmem, rfl, hone, _⟩, _⟩
    · rfl
    · exact absurd (hentries direct hmem) hone.not_ge
  have horphan : Orphan unnamedImage 2 := by
    refine ⟨le_refl 2, by rw [hninodes]; decide, by rw [htype]; decide, ?_⟩
    rintro direct ⟨d, hd, hmem⟩ hinum
    rw [hroot d hd] at hmem
    have hle := hentries direct hmem
    omega
  have hprinted := (hfinds unnamedImage ⟨1, [], hrun⟩ 1 [] hrun).mpr ⟨2, horphan⟩
  exact nomatch hprinted

end OstepProjects.FileSystemChecker
