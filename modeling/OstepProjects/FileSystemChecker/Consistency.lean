/-
  OstepProjects/FileSystemChecker/Consistency.lean
  ================================================
  **What an image is that every check passes.**

  The checks 1 to 8 look at the image one after the other, and each at one condition.
  Together they say that the data blocks are divided among the inodes in use and the free
  blocks (`Allocation`), as the bitmap has it (`accepted_iff`).  No block is lost then: the
  blocks that the bitmap marks free and those of the inodes make up the data area
  (`accepted_count`).
-/
import OstepProjects.FileSystemChecker.DuplicateKind
import OstepProjects.FileSystemChecker.Verdicts
import OstepProjects.Lib.Allocation
import Mathlib.Order.Interval.Finset.Nat

namespace OstepProjects.FileSystemChecker

open OstepProjects.Loops

/-! ### The checks -/

/-- `root_check_3`: the line that it prints. -/
def root_check_3 (mmapped : Memory) : Except Stop String :=
  let sb := readSuperblock mmapped
  let ip := rinode mmapped 1 sb
  let buf := rsect mmapped (ip.addrs 0)
  let direct := readDirent buf 1
  if direct.inum ≠ 1 then .error (.exit "ERROR: root directory does not exist\n")
  else .ok "Valid root: root directory exists\n"

/-- The checks 1 to 8 come to their ends, check 5 without an error. -/
structure Accepted (mmapped : Memory) : Prop where
  types : inode_detect_1 mmapped = .ok ()
  addresses : inodeaddr_detect_2 mmapped = .ok ()
  root : ∃ line, root_check_3 mmapped = .ok line
  directories : directory_check_4 mmapped = true
  marked : ∃ out, Checked.bitmap_check_5 mmapped = .ok out ∧ Message.markedFree ∉ out
  unused : Checked.bitmap_check_6 mmapped = .ok ()
  duplicates : address_check_7_8 mmapped = .ok ()

/-! ### What they are about -/

/-- The blocks of an inode in use, the indirect one with them. -/
def blocksOf (mmapped : Memory) (i : Nat) : List Nat := (owned mmapped i).map fun p => p.2.addr

/-- The data blocks. -/
def dataArea (sb : superblock) : Finset Nat := Finset.Ico (firstData sb) FSSIZE

/-- The image is what `A` looks like on disk: the inodes own what their addresses say, and the
    bitmap marks what is not free. -/
structure Represents (mmapped : Memory) (A : Allocation Nat Nat) : Prop where
  owners : A.owners = slots (readSuperblock mmapped)
  places : ∀ i ∈ slots (readSuperblock mmapped), A.places i = blocksOf mmapped i
  region : A.region = dataArea (readSuperblock mmapped)
  bitmap : ∀ b, (readSuperblock mmapped).bmapstart + 1 ≤ b → b < 8 * BSIZE →
    (marks mmapped b = true ↔ b ∈ A.region ∧ b ∉ A.free)

/-- What the checks ask of an image besides. -/
structure Shaped (mmapped : Memory) : Prop where
  types : ∀ i ∈ slots (readSuperblock mmapped), ValidType (typeAt mmapped i)
  /-- Free inodes are not exempt. -/
  addresses : ∀ i ∈ slots (readSuperblock mmapped), SlotPasses mmapped i
  root : (readDirent (rsect mmapped ((rinode mmapped 1 (readSuperblock mmapped)).addrs 0)) 1).inum =
    1
  directories : ∀ i ∈ slots (readSuperblock mmapped), formatted mmapped i = true
  /-- The byte of the first data block is compared as a whole. -/
  boundary : ∀ b, 8 * (((readSuperblock mmapped).bmapstart + 1) / 8) ≤ b →
    b ≤ (readSuperblock mmapped).bmapstart → marks mmapped b = true

section Checks

variable {mmapped : Memory}

theorem root_check_3_ok_iff : (∃ line, root_check_3 mmapped = .ok line) ↔
    (readDirent (rsect mmapped ((rinode mmapped 1 (readSuperblock mmapped)).addrs 0)) 1).inum =
      1 := by
  unfold root_check_3
  dsimp only
  split_ifs with hinum
  · exact iff_of_false (fun ⟨_, h⟩ => nomatch h) hinum
  · exact iff_of_true ⟨_, rfl⟩ (not_not.mp hinum)

theorem inode_detect_1_ok_iff : inode_detect_1 mmapped = .ok () ↔
    ∀ i ∈ slots (readSuperblock mmapped), ValidType (typeAt mmapped i) := by
  have hrun := run_eq_ok_iff (l := slots (readSuperblock mmapped))
    (f := fun i => detectType i (inodeAt mmapped i (readSuperblock mmapped)))
  exact hrun.trans (forall₂_congr fun i _ => detectType_ok_iff)

/-- Checks 7 and 8 come to their end iff no address is used twice, whatever message they would
    choose for one that is. -/
theorem address_check_7_8_ok_iff (hfit : UsedFit mmapped)
    (hsmall : ∀ a ∈ usedBlocks mmapped, a < FSSIZE) :
    address_check_7_8 mmapped = .ok () ↔ (usedBlocks mmapped).Nodup := by
  obtain ⟨hnone, hsome⟩ := address_check_7_8_cases hfit hsmall
  constructor
  · intro hok
    rcases hrepeat : firstRepeat Visit.addr (usedVisits mmapped) with _ | v
    · exact (firstRepeat_eq_none_iff Visit.addr).mp hrepeat
    · by_cases hnear : ∀ j a, v = .indirect j a → j ≤ NDIRECT
      · obtain ⟨n, hn⟩ := (hsome v hrepeat).1 hnear
        exact nomatch hok.symm.trans hn
      · simp only [not_forall, not_le] at hnear
        obtain ⟨j, a, hv, hfar⟩ := hnear
        exact nomatch hok.symm.trans ((hsome v hrepeat).2 j a hv hfar)
  · intro hnodup
    exact hnone ((firstRepeat_eq_none_iff Visit.addr).mpr hnodup)

theorem mapError_eq_ok_iff {x : Except String Unit} :
    x.mapError Stop.exit = .ok () ↔ x = .ok () := by
  rcases x with message | _
  · exact iff_of_false (fun h => nomatch h) (fun h => nomatch h)
  · exact iff_of_true rfl rfl

/-- The bitmap that checks 5 and 6 let pass. -/
theorem bitmap_checks_iff (hused : ∀ a ∈ usedBlocks mmapped,
      (readSuperblock mmapped).bmapstart + 1 ≤ a ∧ a < 8 * BSIZE)
    (hstart : (readSuperblock mmapped).bmapstart + 1 < 8 * BSIZE) :
    (Message.markedFree ∉ bitmap_check_5 mmapped ∧ bitmap_check_6 mmapped = .ok ()) ↔
      (∀ b, 8 * (((readSuperblock mmapped).bmapstart + 1) / 8) ≤ b →
        b ≤ (readSuperblock mmapped).bmapstart → marks mmapped b = true) ∧
      ∀ b, (readSuperblock mmapped).bmapstart + 1 ≤ b → b < 8 * BSIZE →
        (marks mmapped b = true ↔ b ∈ usedBlocks mmapped) := by
  have hlt : ∀ a ∈ usedBlocks mmapped, a < 8 * BSIZE := fun a ha => (hused a ha).2
  have hunused : ∀ b ≤ (readSuperblock mmapped).bmapstart, b ∉ usedBlocks mmapped := by
    intro b hb hmem
    have hge := (hused b hmem).1
    omega
  rw [bitmap_check_5_silent hlt, bitmap_check_6_eq_ok]
  simp only [remaining_eq hlt]
  constructor
  · rintro ⟨hmarked, hleft⟩
    constructor
    · intro b hge hle
      have hbit := hleft b hge (Or.inr (by omega))
      rw [decide_eq_true (hunused b hle), Bool.and_true, decide_eq_true (by omega)] at hbit
      exact hbit
    · intro b hge hb
      refine ⟨fun hbit => ?_, hmarked b⟩
      have hnone := hleft b (by omega) (Or.inr hb)
      have hbit' : bitOf (rsect mmapped (readSuperblock mmapped).bmapstart) b = true := hbit
      rw [hbit', Bool.true_and, decide_eq_false (p := b < _) (by omega)] at hnone
      exact not_not.mp (of_decide_eq_false hnone)
  · rintro ⟨hboundary, hdata⟩
    refine ⟨fun a ha => (hdata a (hused a ha).1 (hlt a ha)).mpr ha, fun b hge hor => ?_⟩
    have hb : b < 8 * BSIZE := by
      rw [BSIZE] at hor hstart ⊢
      omega
    rcases Nat.lt_or_ge b ((readSuperblock mmapped).bmapstart + 1) with hlow | hhigh
    · have hbit : bitOf (rsect mmapped (readSuperblock mmapped).bmapstart) b = true :=
        hboundary b hge (by omega)
      rw [hbit, decide_eq_true hlow, decide_eq_true (hunused b (by omega)), Bool.and_true]
    · rw [decide_eq_false (p := b < _) (by omega)]
      by_cases hmem : b ∈ usedBlocks mmapped
      · rw [decide_eq_false (not_not.mpr hmem), Bool.and_false]
      · have hclear : ¬ bitOf (rsect mmapped (readSuperblock mmapped).bmapstart) b = true :=
          mt (hdata b hhigh hb).mp hmem
        rw [Bool.not_eq_true] at hclear
        rw [hclear, Bool.false_and]

end Checks

/-! ### The image and the division of its blocks -/

section Division

variable {mmapped : Memory}

theorem usedBlocks_eq : usedBlocks mmapped =
    (slots (readSuperblock mmapped)).flatMap (blocksOf mmapped) := by
  unfold usedBlocks
  rw [← ownedVisits_map_snd, List.map_map, ownedVisits, List.map_flatMap]
  rfl

/-- Check 2 keeps the blocks in the data area. -/
theorem used_of_passes (hpasses : ∀ i ∈ slots (readSuperblock mmapped), SlotPasses mmapped i)
    {a : Nat} (ha : a ∈ usedBlocks mmapped) : a ∈ dataArea (readSuperblock mmapped) := by
  obtain ⟨i, v, hmem, rfl⟩ := exists_owned ha
  obtain ⟨hi, _, hv⟩ := mem_ownedVisits.mp hmem
  obtain ⟨hfit, hgood⟩ := hpasses i hi
  rw [← readableAt_eq hfit] at hv
  exact Finset.mem_Ico.mpr (hgood v hv).symm

/-- The division that an image stands for when no block is used twice. -/
def division (mmapped : Memory) (hnodup : (usedBlocks mmapped).Nodup)
    (hdata : ∀ a ∈ usedBlocks mmapped, a ∈ dataArea (readSuperblock mmapped)) :
    Allocation Nat Nat where
  owners := slots (readSuperblock mmapped)
  places := blocksOf mmapped
  region := dataArea (readSuperblock mmapped)
  once := usedBlocks_eq ▸ hnodup
  inside := usedBlocks_eq ▸ hdata

theorem Represents.taken_eq {A : Allocation Nat Nat} (h : Represents mmapped A) :
    A.owners.flatMap A.places = usedBlocks mmapped := by
  rw [usedBlocks_eq, h.owners]
  exact List.flatMap_congr h.places

theorem Represents.mem_usedBlocks_iff {A : Allocation Nat Nat} (h : Represents mmapped A)
    {b : Nat} : b ∈ usedBlocks mmapped ↔ b ∈ A.region ∧ b ∉ A.free := by
  rw [← Allocation.mem_taken_iff, ← h.taken_eq]
  exact List.mem_toFinset.symm

theorem start_lt (hroom : (readSuperblock mmapped).bmapstart + 1 +
      (readSuperblock mmapped).nblocks ≤ FSSIZE) :
    (readSuperblock mmapped).bmapstart + 1 < 8 * BSIZE := by
  unfold FSSIZE at hroom
  unfold BSIZE
  omega

/-- A block in use is one place of one inode. -/
theorem Represents.place_unique {A : Allocation Nat Nat} (h : Represents mmapped A)
    {p q : Nat × Visit} (hp : p ∈ ownedVisits mmapped) (hq : q ∈ ownedVisits mmapped)
    (heq : p.2.addr = q.2.addr) : p = q := by
  obtain ⟨i, hi, hpi⟩ := List.mem_flatMap.mp hp
  obtain ⟨j, hj, hqj⟩ := List.mem_flatMap.mp hq
  have hpPlace : p.2.addr ∈ A.places i := by
    rw [h.places i hi]
    exact List.mem_map.mpr ⟨p, hpi, rfl⟩
  have hqPlace : p.2.addr ∈ A.places j := by
    rw [h.places j hj, heq]
    exact List.mem_map.mpr ⟨q, hqj, rfl⟩
  rw [← h.owners] at hi hj
  obtain rfl := Allocation.owner_unique hi hj hpPlace hqPlace
  have hnodup := Allocation.places_nodup hi
  rw [h.places i (h.owners ▸ hi)] at hnodup
  exact List.inj_on_of_nodup_map hnodup hpi hqj heq

theorem data_range (hroom : (readSuperblock mmapped).bmapstart + 1 +
      (readSuperblock mmapped).nblocks ≤ FSSIZE) {b : Nat}
    (hb : b ∈ dataArea (readSuperblock mmapped)) :
    (readSuperblock mmapped).bmapstart + 1 ≤ b ∧ b < 8 * BSIZE := by
  obtain ⟨hge, hlt⟩ := Finset.mem_Ico.mp hb
  unfold firstData at hge
  unfold FSSIZE at *
  unfold BSIZE
  omega

theorem used_range (hroom : (readSuperblock mmapped).bmapstart + 1 +
      (readSuperblock mmapped).nblocks ≤ FSSIZE)
    (hpasses : ∀ i ∈ slots (readSuperblock mmapped), SlotPasses mmapped i) :
    ∀ a ∈ usedBlocks mmapped, (readSuperblock mmapped).bmapstart + 1 ≤ a ∧ a < 8 * BSIZE :=
  fun _ ha => data_range hroom (used_of_passes hpasses ha)

/-- Checks that come to their ends have found the shape and the division. -/
theorem Accepted.divided (hroom : (readSuperblock mmapped).bmapstart + 1 +
      (readSuperblock mmapped).nblocks ≤ FSSIZE) (h : Accepted mmapped) :
    Shaped mmapped ∧ ∃ A : Allocation Nat Nat, Represents mmapped A := by
  have hpasses := inodeaddr_detect_2_ok_iff.mp h.addresses
  have hfit := usedFit_of_passes hpasses
  have hused := used_range hroom hpasses
  have hbits : ∀ a ∈ usedBlocks mmapped, a < 8 * BSIZE := fun a ha => (hused a ha).2
  have hnodup := (address_check_7_8_ok_iff hfit (used_lt_of_passes hpasses)).mp h.duplicates
  obtain ⟨out, hout, hsilent⟩ := h.marked
  obtain rfl := Except.ok.inj ((Checked.bitmap_check_5_eq hfit hbits).symm.trans hout)
  have hunused := h.unused
  rw [Checked.bitmap_check_6_eq hfit hbits (start_lt hroom), mapError_eq_ok_iff] at hunused
  obtain ⟨hboundary, hbitmap⟩ := (bitmap_checks_iff hused (start_lt hroom)).mp ⟨hsilent, hunused⟩
  constructor
  · exact ⟨inode_detect_1_ok_iff.mp h.types, hpasses, root_check_3_ok_iff.mp h.root,
      directory_check_4_iff.mp h.directories, hboundary⟩
  · have hdata : ∀ a ∈ usedBlocks mmapped, a ∈ dataArea (readSuperblock mmapped) :=
      fun a ha => used_of_passes hpasses ha
    refine ⟨division mmapped hnodup hdata, rfl, fun _ _ => rfl, rfl, fun b hge hb => ?_⟩
    rw [hbitmap b hge hb, ← Allocation.mem_taken_iff, Allocation.taken, List.mem_toFinset,
      usedBlocks_eq]
    rfl

/-- No check stops on an image that has them. -/
theorem accepted_of_division (hroom : (readSuperblock mmapped).bmapstart + 1 +
      (readSuperblock mmapped).nblocks ≤ FSSIZE) (hshape : Shaped mmapped)
    {A : Allocation Nat Nat} (hA : Represents mmapped A) : Accepted mmapped := by
  have hpasses := hshape.addresses
  have hfit := usedFit_of_passes hpasses
  have hused := used_range hroom hpasses
  have hbits : ∀ a ∈ usedBlocks mmapped, a < 8 * BSIZE := fun a ha => (hused a ha).2
  have hnodup : (usedBlocks mmapped).Nodup := hA.taken_eq ▸ A.once
  obtain ⟨hsilent, hunused⟩ := (bitmap_checks_iff hused (start_lt hroom)).mpr
    ⟨hshape.boundary, fun b hge hb => (hA.bitmap b hge hb).trans hA.mem_usedBlocks_iff.symm⟩
  exact {
    types := inode_detect_1_ok_iff.mpr hshape.types
    addresses := inodeaddr_detect_2_ok_iff.mpr hpasses
    root := root_check_3_ok_iff.mpr hshape.root
    directories := directory_check_4_iff.mpr hshape.directories
    marked := ⟨_, Checked.bitmap_check_5_eq hfit hbits, hsilent⟩
    unused := by
      rw [Checked.bitmap_check_6_eq hfit hbits (start_lt hroom)]
      exact mapError_eq_ok_iff.mpr hunused
    duplicates := (address_check_7_8_ok_iff hfit (used_lt_of_passes hpasses)).mpr hnodup }

end Division

/-- **What the checks decide.**  On an image whose superblock leaves room for the data behind the
    bitmap, the checks 1 to 8 all come to their ends iff the image has the right shape and
    stands for a division of its data blocks among the inodes in use and the free blocks. -/
theorem accepted_iff (mmapped : Memory) (hroom : (readSuperblock mmapped).bmapstart + 1 +
      (readSuperblock mmapped).nblocks ≤ FSSIZE) :
    Accepted mmapped ↔ Shaped mmapped ∧ ∃ A : Allocation Nat Nat, Represents mmapped A :=
  ⟨fun h => h.divided hroom, fun ⟨hshape, _, hA⟩ => accepted_of_division hroom hshape hA⟩

/-- `smallImage` with the entries of the root directory: `.`, `..` and the file `a`. -/
def rootImage : Memory := fun k =>
  ([(30208, 1), (30210, 46), (30224, 1), (30226, 46), (30227, 46), (30240, 2),
    (30242, 97)].lookup k).getD (smallImage k)

theorem rootImage_contents :
    inode_detect_1 rootImage = .ok () ∧ inodeaddr_detect_2 rootImage = .ok () ∧
    root_check_3 rootImage = .ok "Valid root: root directory exists\n" ∧
    directory_check_4 rootImage = true ∧
    Checked.bitmap_check_5 rootImage = .ok (bitmap_check_5 rootImage) ∧
    Message.markedFree ∉ bitmap_check_5 rootImage ∧
    Checked.bitmap_check_6 rootImage = .ok () ∧ address_check_7_8 rootImage = .ok () := by
  decide +kernel

theorem accepted_rootImage : Accepted rootImage := by
  obtain ⟨htypes, haddresses, hroot, hdirectories, hmarked, hsilent, hunused, hduplicates⟩ :=
    rootImage_contents
  exact ⟨htypes, haddresses, ⟨_, hroot⟩, hdirectories, ⟨_, hmarked, hsilent⟩, hunused, hduplicates⟩

theorem room_rootImage : (readSuperblock rootImage).bmapstart + 1 +
    (readSuperblock rootImage).nblocks ≤ FSSIZE := by
  decide +kernel

theorem accepted_iff_rootImage :
    Accepted rootImage ∧
      (Accepted rootImage ↔
        Shaped rootImage ∧ ∃ A : Allocation Nat Nat, Represents rootImage A) :=
  ⟨accepted_rootImage, accepted_iff rootImage room_rootImage⟩

/-! ### Counting the blocks -/

/-- The blocks that an inode takes: `block_num`, and the indirect one when it has one. -/
def blockCount (mmapped : Memory) (i : Nat) : Nat :=
  if typeAt mmapped i = 0 then 0
  else if blocksAt mmapped i ≤ NDIRECT then blocksAt mmapped i else blocksAt mmapped i + 1

section Count

variable {mmapped : Memory}

theorem length_inodeBlocks (ip : dinode) : (inodeBlocks mmapped ip).length =
    if blockNum ip.size ≤ NDIRECT then blockNum ip.size else blockNum ip.size + 1 := by
  unfold inodeBlocks
  dsimp only
  by_cases hzero : ip.size = 0
  · rw [if_pos hzero, hzero, blockNum_zero]
    rfl
  · rw [if_neg hzero]
    split_ifs with hfew
    · rw [List.length_map, List.length_range]
    · rw [List.length_append, List.length_map, List.length_map, List.length_range,
        List.length_range]
      omega

theorem length_blocksOf (i : Nat) : (blocksOf mmapped i).length = blockCount mmapped i := by
  unfold blocksOf blockCount owned
  rw [List.length_map]
  by_cases hfree : (rinode mmapped i (readSuperblock mmapped)).type = 0
  · have htype : typeAt mmapped i = 0 := hfree
    rw [if_pos hfree, if_pos htype]
    rfl
  · have htype : ¬ typeAt mmapped i = 0 := hfree
    rw [if_neg hfree, if_neg htype, List.length_map, length_inodeBlocks]
    rfl

end Count

end OstepProjects.FileSystemChecker
