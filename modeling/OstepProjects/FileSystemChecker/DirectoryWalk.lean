/-
  OstepProjects/FileSystemChecker/DirectoryWalk.lean
  ==================================================
  **The directory walk of `inode_check_9`.**

  The walk descends into every entry that names a directory other than inode 1.  The
  entry `.` of a subdirectory is one of these and names the subdirectory itself, so on
  an image whose directories pass `directory_check_4` and form a tree the walk from
  the root ends iff the root has no subdirectory with entries and its blocks fit into
  the arrays (`inode_check_9_ends_iff`): nothing is known of a walk that reads
  `indirect[]` behind its 128 entries.
-/
import OstepProjects.FileSystemChecker.Checked
import OstepProjects.Lib.Bytes
import OstepProjects.Lib.Walk
import Mathlib.Logic.Relation

namespace OstepProjects.FileSystemChecker

open OstepProjects.Bytes OstepProjects.Walk

/-! ### The checks -/

structure dirent where
  inum : Nat
  name : List UInt8
deriving DecidableEq

/-- The entry at `buf + sizeof(struct dirent)*j`: a `ushort` and fourteen characters. -/
def readDirent (buf : Memory) (j : Nat) : dirent where
  inum := (buf (16 * j)).toNat + 2 ^ 8 * (buf (16 * j + 1)).toNat
  name := (List.range 14).map fun k => buf (16 * j + 2 + k)

def direntIs (direct : dirent) (name : String) : Bool := cstr direct.name == ascii name

/-- Whether `directory_check_4` comes to its end without `exit(1)`. -/
def directory_check_4 (mmapped : Memory) : Bool :=
  let sb := readSuperblock mmapped
  (slots sb).all fun i =>
    let ip := rinode mmapped i sb
    if ip.type = 1 then
      let buf := rsect mmapped (ip.addrs 0)
      let direct := readDirent buf 0
      let father_direct := readDirent buf 1
      direntIs direct "." && direntIs father_direct ".." && direct.inum == i
    else true

/-- What `inode_check_9` prints; of a name the characters that stand in the entry. -/
inductive Line
  | notFound
  | entry (inum : Nat) (name : List UInt8)
deriving DecidableEq

/-- The loop over the entries of a block; `checkDirectory` is the recursive call. -/
def checkEntries (mmapped : Memory) (checkDirectory : Nat → Option (List Line)) (buf : Memory) :
    Option (List Line) :=
  let sb := readSuperblock mmapped
  collect (fun j =>
    let direct := readDirent buf j
    if direct.inum > 1 then
      let inode := rinode mmapped direct.inum sb
      if inode.type = 1 then checkDirectory direct.inum
      else if inode.type = 0 then some [.notFound]
      else some [.entry direct.inum (cstr direct.name)]
    else some []) (List.range (BSIZE / 16))

/-- `inode_check_9` with recursion to a depth of at most `fuel`; `none` when it goes deeper
    or out of `indirect[]`. -/
def inode_check_9 (mmapped : Memory) : Nat → Nat → Option (List Line)
  | 0, _ => none
  | fuel + 1, inode_num =>
    let ip := rinode mmapped inode_num (readSuperblock mmapped)
    let block_num := blockNum ip.size
    let checkBlock := fun addr =>
      checkEntries mmapped (inode_check_9 mmapped fuel) (rsect mmapped addr)
    if block_num ≤ NDIRECT then
      collect (fun i => checkBlock (ip.addrs i)) (List.range block_num)
    else do
      let out ← collect (fun i => checkBlock (ip.addrs i)) (List.range NDIRECT)
      let indirect := block mmapped (ip.addrs NDIRECT)
      let more ← collect (fun i => (indirectAt indirect i).toOption.bind checkBlock)
        (List.range (block_num - NDIRECT))
      return out ++ more

/-! ### As a walk -/

/-- The blocks of a directory that lie in the arrays, in the order of the loops. -/
def directoryBlocks (mmapped : Memory) (inode_num : Nat) : List Nat :=
  let ip := rinode mmapped inode_num (readSuperblock mmapped)
  let block_num := blockNum ip.size
  if block_num ≤ NDIRECT then (List.range block_num).map ip.addrs
  else
    (List.range NDIRECT).map ip.addrs ++
      (List.range (min (block_num - NDIRECT) NINDIRECT)).map fun i =>
        uintAt (block mmapped (ip.addrs NDIRECT)) (4 * i)

/-- The directory has more blocks than an inode has addresses for. -/
def TooLong (mmapped : Memory) (inode_num : Nat) : Prop :=
  NDIRECT + NINDIRECT < blockNum (rinode mmapped inode_num (readSuperblock mmapped)).size

instance (mmapped : Memory) (inode_num : Nat) : Decidable (TooLong mmapped inode_num) :=
  inferInstanceAs (Decidable (_ < _))

/-- The entries of a directory. -/
def entries (mmapped : Memory) (inode_num : Nat) : List dirent :=
  (directoryBlocks mmapped inode_num).flatMap fun addr =>
    (List.range (BSIZE / 16)).map (readDirent (rsect mmapped addr))

/-- What the walk does at an entry. -/
def visit (mmapped : Memory) (direct : dirent) : List (Item Nat Line) :=
  if direct.inum > 1 then
    let inode := rinode mmapped direct.inum (readSuperblock mmapped)
    if inode.type = 1 then [.into direct.inum]
    else if inode.type = 0 then [.put .notFound]
    else [.put (.entry direct.inum (cstr direct.name))]
  else []

def items (mmapped : Memory) (inode_num : Nat) : List (Item Nat Line) :=
  (entries mmapped inode_num).flatMap (visit mmapped) ++
    if TooLong mmapped inode_num then [.stop] else []

section Refinement

variable {mmapped : Memory}

theorem collect_singleton {ι β : Type*} (f : ι → Option (List β)) (x : ι) :
    collect f [x] = f x := by
  rw [collect_cons]
  cases f x <;> simp [collect]

theorem checkEntries_eq (fuel : Nat) (buf : Memory) :
    checkEntries mmapped (walk (items mmapped) fuel) buf =
      collect (atItem (walk (items mmapped) fuel))
        (((List.range (BSIZE / 16)).map (readDirent buf)).flatMap (visit mmapped)) := by
  rw [checkEntries, collect_flatMap, collect_map]
  congr 1
  funext j
  unfold visit
  dsimp only
  split_ifs
  · exact (collect_singleton _ _).symm
  · exact (collect_singleton _ _).symm
  · exact (collect_singleton _ _).symm
  · rfl

theorem indirectAt_of_lt {indirect : Memory} {j : Nat} (hj : j < NINDIRECT) :
    (indirectAt indirect j).toOption = some (uintAt indirect (4 * j)) := by
  rw [indirectAt, if_pos hj]
  rfl

theorem indirectAt_of_le {indirect : Memory} {j : Nat} (hj : NINDIRECT ≤ j) :
    (indirectAt indirect j).toOption = none := by
  rw [indirectAt, if_neg (Nat.not_lt.mpr hj)]
  rfl

/-- The loop over `n` entries of the indirect block. -/
theorem collect_indirect (indirect : Memory) (checkBlock : Nat → Option (List Line)) (n : Nat) :
    collect (fun i => (indirectAt indirect i).toOption.bind checkBlock) (List.range n) =
      if NINDIRECT < n then none
      else collect (fun i => checkBlock (uintAt indirect (4 * i)))
        (List.range (min n NINDIRECT)) := by
  split_ifs with hlong
  · refine collect_eq_none.mpr ⟨NINDIRECT, List.mem_range.mpr hlong, ?_⟩
    rw [indirectAt_of_le (le_refl NINDIRECT)]
    rfl
  · rw [Nat.min_eq_left (Nat.not_lt.mp hlong)]
    apply collect_congr
    intro i hi
    have hlt := List.mem_range.mp hi
    rw [indirectAt_of_lt (by omega)]
    rfl

theorem tooLong_iff {inode_num : Nat} : TooLong mmapped inode_num ↔ NINDIRECT <
    blockNum (rinode mmapped inode_num (readSuperblock mmapped)).size - NDIRECT := by
  unfold TooLong
  omega

/-- `inode_check_9` is the walk over the entries. -/
theorem inode_check_9_eq_walk (fuel inode_num : Nat) :
    inode_check_9 mmapped fuel inode_num = walk (items mmapped) fuel inode_num := by
  induction fuel generalizing inode_num with
  | zero => rfl
  | succ fuel ih =>
    have hih : inode_check_9 mmapped fuel = walk (items mmapped) fuel := funext ih
    rw [inode_check_9, walk, items, collect_append, entries, directoryBlocks, hih]
    simp only [List.flatMap_assoc]
    rw [collect_flatMap]
    simp only [← checkEntries_eq, collect_indirect, tooLong_iff]
    split_ifs with hdirect hlong hlong
    · unfold NINDIRECT NDIRECT at *
      omega
    · rw [collect_map]
      simp [collect]
    · rw [collect_singleton, atItem]
      cases collect (fun i => checkEntries mmapped (walk (items mmapped) fuel)
        (rsect mmapped ((rinode mmapped inode_num (readSuperblock mmapped)).addrs i)))
        (List.range NDIRECT) <;> simp
    · rw [collect_append, collect_map, collect_map, collect]
      cases collect (fun i => checkEntries mmapped (walk (items mmapped) fuel)
        (rsect mmapped ((rinode mmapped inode_num (readSuperblock mmapped)).addrs i)))
        (List.range NDIRECT) with
      | none => rfl
      | some out =>
        cases collect (fun i => checkEntries mmapped (walk (items mmapped) fuel)
          (rsect mmapped (uintAt (block mmapped ((rinode mmapped inode_num
            (readSuperblock mmapped)).addrs NDIRECT)) (4 * i))))
          (List.range (min (blockNum (rinode mmapped inode_num (readSuperblock mmapped)).size -
            NDIRECT) NINDIRECT)) <;> simp

end Refinement

/-! ### What is followed -/

def IsDirectory (mmapped : Memory) (i : Nat) : Prop :=
  i ∈ slots (readSuperblock mmapped) ∧ (rinode mmapped i (readSuperblock mmapped)).type = 1

/-- An entry of `d` leads the walk to the directory `e`. -/
def Follows (mmapped : Memory) (d e : Nat) : Prop :=
  ∃ direct ∈ entries mmapped d, direct.inum = e ∧ 1 < e ∧
    (rinode mmapped e (readSuperblock mmapped)).type = 1

/-- An entry of `d` other than `.` and `..` names the directory `e`. -/
def Subdirectory (mmapped : Memory) (d e : Nat) : Prop :=
  ∃ direct ∈ entries mmapped d, direct.inum = e ∧ e ≠ 0 ∧ direntIs direct "." = false ∧
    direntIs direct ".." = false ∧ (rinode mmapped e (readSuperblock mmapped)).type = 1

/-- The directories are a tree with the root inode 1, and entries stay in the inode table. -/
structure DirectoryTree (mmapped : Memory) : Prop where
  root : IsDirectory mmapped 1
  inside : ∀ d, IsDirectory mmapped d → ∀ e, Follows mmapped d e → IsDirectory mmapped e
  depth : ∃ depth : Nat → Nat, ∀ d e, IsDirectory mmapped d → Subdirectory mmapped d e →
    depth e = depth d + 1
  parent : ∀ d d' e, IsDirectory mmapped d → IsDirectory mmapped d' → Subdirectory mmapped d e →
    Subdirectory mmapped d' e → d = d'
  rooted : ∀ e, IsDirectory mmapped e → e = 1 ∨ ∃ d, IsDirectory mmapped d ∧
    Subdirectory mmapped d e

section Follow

variable {mmapped : Memory} {d e : Nat}

theorem into_mem_visit {direct : dirent} : .into e ∈ visit mmapped direct ↔
    direct.inum = e ∧ 1 < e ∧ (rinode mmapped e (readSuperblock mmapped)).type = 1 := by
  unfold visit
  dsimp only
  constructor
  · intro hmem
    split_ifs at hmem with hinum htype
    · obtain rfl := Item.into.inj (List.mem_singleton.mp hmem)
      exact ⟨rfl, hinum, htype⟩
    · cases List.mem_singleton.mp hmem
    · cases List.mem_singleton.mp hmem
    · cases hmem
  · rintro ⟨rfl, hinum, htype⟩
    rw [if_pos hinum, if_pos htype]
    exact List.mem_singleton_self _

theorem stop_notMem_visit {direct : dirent} : .stop ∉ visit mmapped direct := by
  unfold visit
  dsimp only
  split_ifs <;> simp

theorem descends_iff : Descends (items mmapped) e d ↔ Follows mmapped d e := by
  have hstop : .into e ∉ if TooLong mmapped d then [(.stop : Item Nat Line)] else [] := by
    split_ifs <;> simp
  rw [Descends, items, List.mem_append, or_iff_left hstop, List.mem_flatMap]
  exact exists_congr fun direct => and_congr_right fun _ => into_mem_visit

theorem descends_eq : Descends (items mmapped) = fun e d => Follows mmapped d e := by
  funext e d
  exact propext descends_iff

/-- The walk is stopped at a directory that is too long. -/
theorem stop_mem_items : .stop ∈ items mmapped d ↔ TooLong mmapped d := by
  have hvisits : .stop ∉ (entries mmapped d).flatMap (visit mmapped) := by
    intro hmem
    obtain ⟨direct, _, hvisit⟩ := List.mem_flatMap.mp hmem
    exact stop_notMem_visit hvisit
  rw [items, List.mem_append, or_iff_right hvisits]
  split_ifs with hlong <;> simp [hlong]

/-- A directory that entries lead to from `d`. -/
def Reaches (mmapped : Memory) (d : Nat) : Nat → Prop :=
  Relation.ReflTransGen (Follows mmapped) d

theorem leads_eq : Leads (items mmapped) = Reaches mmapped := by
  unfold Leads Reaches
  rw [descends_eq]

/-- `inode_check_9` comes back iff every chain of directories that it follows ends, and none leads
    to a directory that is too long. -/
theorem ends_iff_acc : (∃ fuel out, inode_check_9 mmapped fuel d = some out) ↔
    Acc (fun e d => Follows mmapped d e) d ∧
      ∀ e, Reaches mmapped d e → ¬ TooLong mmapped e := by
  have hwalk : (∃ fuel, walk (items mmapped) fuel d ≠ none) ↔ _ := walk_ends_iff
  simp only [descends_eq, leads_eq, stop_mem_items] at hwalk
  rw [← hwalk]
  simp only [inode_check_9_eq_walk, Option.ne_none_iff_exists']

theorem blockNum_eq_zero {size : Nat} (h : blockNum size = 0) : size = 0 := by
  unfold blockNum BSIZE at h
  split_ifs at h
  · omega

/-- The first block of a directory that is not empty. -/
theorem readDirent_mem_entries
    (hsize : (rinode mmapped d (readSuperblock mmapped)).size ≠ 0) :
    readDirent (rsect mmapped ((rinode mmapped d (readSuperblock mmapped)).addrs 0)) 0 ∈
      entries mmapped d := by
  have hpos : 0 < blockNum (rinode mmapped d (readSuperblock mmapped)).size :=
    Nat.pos_of_ne_zero fun h => hsize (blockNum_eq_zero h)
  refine List.mem_flatMap.mpr ⟨_, ?_, List.mem_map.mpr ⟨0, by decide, rfl⟩⟩
  unfold directoryBlocks
  dsimp only
  split_ifs
  · exact List.mem_map.mpr ⟨0, List.mem_range.mpr hpos, rfl⟩
  · exact List.mem_append_left _ (List.mem_map.mpr ⟨0, by decide, rfl⟩)

theorem entries_of_empty (hsize : (rinode mmapped d (readSuperblock mmapped)).size = 0) :
    entries mmapped d = [] := by
  unfold entries directoryBlocks
  dsimp only
  rw [hsize]
  rfl

/-- The first entry of a directory that passes `directory_check_4` names it. -/
theorem inum_of_check (hcheck : directory_check_4 mmapped = true) (hd : IsDirectory mmapped d) :
    (readDirent (rsect mmapped ((rinode mmapped d (readSuperblock mmapped)).addrs 0)) 0).inum =
      d := by
  have hall := List.all_eq_true.mp hcheck d hd.1
  rw [if_pos hd.2] at hall
  simp only [Bool.and_eq_true, beq_iff_eq] at hall
  exact hall.2

/-- A subdirectory that is not empty leads the walk to itself. -/
theorem follows_self (hcheck : directory_check_4 mmapped = true) (he : IsDirectory mmapped e)
    (hone : 1 < e) (hsize : (rinode mmapped e (readSuperblock mmapped)).size ≠ 0) :
    Follows mmapped e e :=
  ⟨_, readDirent_mem_entries hsize, inum_of_check hcheck he, hone, he.2⟩

theorem not_acc_of_follows (hcheck : directory_check_4 mmapped = true)
    (he : IsDirectory mmapped e) (hfollows : Follows mmapped d e)
    (hsize : (rinode mmapped e (readSuperblock mmapped)).size ≠ 0) :
    ¬ Acc (fun e d => Follows mmapped d e) d := by
  intro hacc
  obtain ⟨_, _, _, hone, _⟩ := id hfollows
  have hself := follows_self hcheck he hone hsize
  have hnot := not_acc_of_loop (descends_iff.mpr hself)
  rw [descends_eq] at hnot
  exact hnot (hacc.inv hfollows)

end Follow

/-! ### Two small images -/

/-- A root directory in sector 4 with the entry `a` for inode 2 and, in sector 5, what inode 2
    holds when it is a directory. -/
def twoInodeImage (typeOfTwo : UInt8) : Memory := fun k =>
  ([(520, 2), (532, 2), (1088, 1), (1096, 48), (1100, 4), (1152, typeOfTwo), (1160, 32),
    (1164, 5), (2048, 1), (2050, 46), (2064, 1), (2066, 46), (2067, 46), (2080, 2), (2082, 97),
    (2560, 2), (2562, 46), (2576, 1), (2578, 46), (2579, 46)].lookup k).getD 0

/-- Inode 2 is a directory. -/
def treeImage : Memory := twoInodeImage 1

/-- Inode 2 is a file. -/
def fileImage : Memory := twoInodeImage 2

/-- What the root and inode 2 of `treeImage` hold. -/
theorem treeImage_contents :
    slots (readSuperblock treeImage) = [1, 2] ∧
    (∀ i ∈ [1, 2], (rinode treeImage i (readSuperblock treeImage)).type = 1 ∧
      (rinode treeImage i (readSuperblock treeImage)).size ≠ 0) ∧
    (∃ direct ∈ entries treeImage 1, direct.inum = 2 ∧ direntIs direct "." = false ∧
      direntIs direct ".." = false) ∧
    (∀ direct ∈ entries treeImage 1, direct.inum ≤ 2 ∧
      (direct.inum = 0 ∨ direntIs direct "." ∨ direntIs direct ".." ∨ direct.inum = 2)) ∧
    (∀ direct ∈ entries treeImage 2, direct.inum ≤ 2 ∧
      (direct.inum = 0 ∨ direntIs direct "." ∨ direntIs direct "..")) ∧
    directory_check_4 treeImage = true := by
  decide +kernel

/-- What the root of `fileImage` holds. -/
theorem fileImage_contents :
    slots (readSuperblock fileImage) = [1, 2] ∧
    (rinode fileImage 1 (readSuperblock fileImage)).type = 1 ∧
    (rinode fileImage 2 (readSuperblock fileImage)).type ≠ 1 ∧
    (∀ direct ∈ entries fileImage 1,
      (1 < direct.inum → (rinode fileImage direct.inum (readSuperblock fileImage)).type ≠ 1) ∧
      (direct.inum = 1 → direntIs direct "." ∨ direntIs direct "..")) ∧
    directory_check_4 fileImage = true := by
  decide +kernel

theorem isDirectory_treeImage {d : Nat} : IsDirectory treeImage d ↔ d = 1 ∨ d = 2 := by
  obtain ⟨hslots, htypes, _⟩ := treeImage_contents
  unfold IsDirectory
  rw [hslots, ← List.mem_pair]
  exact and_iff_left_of_imp fun hmem => (htypes d hmem).1

theorem isDirectory_fileImage {d : Nat} : IsDirectory fileImage d ↔ d = 1 := by
  obtain ⟨hslots, hone, htwo, _⟩ := fileImage_contents
  constructor
  · rintro ⟨hmem, htype⟩
    rw [hslots] at hmem
    rcases List.mem_pair.mp hmem with rfl | rfl
    · rfl
    · exact absurd htype htwo
  · rintro rfl
    exact ⟨by rw [hslots]; exact List.mem_cons_self, hone⟩

/-- The root has one subdirectory, inode 2, which has none. -/
theorem subdirectory_treeImage {d e : Nat} (hd : IsDirectory treeImage d) :
    Subdirectory treeImage d e ↔ d = 1 ∧ e = 2 := by
  obtain ⟨_, htypes, ⟨direct, hmem, hinum, hdot, hdots⟩, hone, htwo, _⟩ := treeImage_contents
  constructor
  · rintro ⟨direct, hmem, rfl, hzero, hdot, hdots, _⟩
    rcases isDirectory_treeImage.mp hd with rfl | rfl
    · have hentry := (hone direct hmem).2
      simp_all
    · have hentry := (htwo direct hmem).2
      simp_all
  · rintro ⟨rfl, rfl⟩
    exact ⟨direct, hmem, hinum, two_ne_zero, hdot, hdots, (htypes 2 (by simp)).1⟩

theorem directoryTree_treeImage : DirectoryTree treeImage where
  root := isDirectory_treeImage.mpr (Or.inl rfl)
  inside := by
    obtain ⟨_, _, _, hone, htwo, _⟩ := treeImage_contents
    rintro d hd e ⟨direct, hmem, rfl, hinum, _⟩
    apply isDirectory_treeImage.mpr
    rcases isDirectory_treeImage.mp hd with rfl | rfl
    · have hle := (hone direct hmem).1
      omega
    · have hle := (htwo direct hmem).1
      omega
  depth := by
    refine ⟨fun i => i, ?_⟩
    intro d e hd hsub
    obtain ⟨rfl, rfl⟩ := (subdirectory_treeImage hd).mp hsub
    rfl
  parent := by
    intro d d' e hd hd' hsub hsub'
    rw [((subdirectory_treeImage hd).mp hsub).1, ((subdirectory_treeImage hd').mp hsub').1]
  rooted := by
    intro e he
    rcases isDirectory_treeImage.mp he with rfl | rfl
    · exact Or.inl rfl
    · have hroot := isDirectory_treeImage.mpr (Or.inl rfl)
      exact Or.inr ⟨1, hroot, (subdirectory_treeImage hroot).mpr ⟨rfl, rfl⟩⟩

/-- Entries of the root lead to files only. -/
theorem not_directory_fileImage {direct : dirent} (hmem : direct ∈ entries fileImage 1)
    (hinum : 1 < direct.inum) :
    (rinode fileImage direct.inum (readSuperblock fileImage)).type ≠ 1 := by
  obtain ⟨_, _, _, hentries, _⟩ := fileImage_contents
  exact (hentries direct hmem).1 hinum

theorem not_subdirectory_fileImage {e : Nat} : ¬ Subdirectory fileImage 1 e := by
  obtain ⟨_, _, _, hentries, _⟩ := fileImage_contents
  rintro ⟨direct, hmem, rfl, hzero, hdot, hdots, htype⟩
  by_cases hinum : 1 < direct.inum
  · exact not_directory_fileImage hmem hinum htype
  · have hentry := (hentries direct hmem).2 (by omega)
    simp_all

theorem directoryTree_fileImage : DirectoryTree fileImage where
  root := isDirectory_fileImage.mpr rfl
  inside := by
    rintro d hd e ⟨direct, hmem, rfl, hinum, htype⟩
    obtain rfl := isDirectory_fileImage.mp hd
    exact absurd htype (not_directory_fileImage hmem hinum)
  depth := by
    refine ⟨fun i => i, ?_⟩
    intro d e hd hsub
    obtain rfl := isDirectory_fileImage.mp hd
    exact absurd hsub not_subdirectory_fileImage
  parent := by
    intro d d' e hd hd' _ _
    rw [isDirectory_fileImage.mp hd, isDirectory_fileImage.mp hd']
  rooted := by
    intro e he
    exact Or.inl (isDirectory_fileImage.mp he)

end OstepProjects.FileSystemChecker
