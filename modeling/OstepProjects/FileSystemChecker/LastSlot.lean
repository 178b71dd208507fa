/-
  OstepProjects/FileSystemChecker/LastSlot.lean
  =============================================
  **Do the checks look at real inodes only?**

  They do not: `i <= ninodes` takes in the slot behind the last inode.  On two images that
  differ there only, six checks give the same verdicts iff each of them is decided in front
  of the slots that are read from its 64 bytes, or finds the same in them
  (`sameVerdicts_iff`).
-/
import OstepProjects.FileSystemChecker.Clashes
import OstepProjects.FileSystemChecker.SlotArea

namespace OstepProjects.FileSystemChecker

open OstepProjects.Loops

/-- The six checks that look at all inodes judge two images alike. -/
structure SameVerdicts (mmapped mmapped' : Memory) : Prop where
  types : verdict (inode_detect_1 mmapped) = verdict (inode_detect_1 mmapped')
  addresses : verdict (inodeaddr_detect_2 mmapped) = verdict (inodeaddr_detect_2 mmapped')
  directories : directory_check_4 mmapped = directory_check_4 mmapped'
  marked : verdict ((Checked.bitmap_check_5 mmapped).map errorLines) =
    verdict ((Checked.bitmap_check_5 mmapped').map errorLines)
  unused : verdict (Checked.bitmap_check_6 mmapped) = verdict (Checked.bitmap_check_6 mmapped')
  duplicates : verdict (address_check_7_8 mmapped) = verdict (address_check_7_8 mmapped')

/-- For each check: a slot in front of those that are read from the 64 bytes stops it, or from
    them on the images have the first bad type and the first bad address at the same place, all
    directories well formatted or not, as many addresses in use that the bitmap marks free, the
    same answer to whether only reserved blocks are marked and not used, and a first clash of
    the same kind. -/
structure PassedOver (mmapped mmapped' : Memory) : Prop where
  types : (∀ i ∈ slotsBefore mmapped, ValidType (typeAt mmapped i)) →
    firstInvalid mmapped (slotsFrom mmapped) = firstInvalid mmapped' (slotsFrom mmapped)
  addresses : (∀ i ∈ slotsBefore mmapped, SlotPasses mmapped i) →
    firstBad mmapped (slotsFrom mmapped) = firstBad mmapped' (slotsFrom mmapped)
  directories : (∀ i ∈ slotsBefore mmapped, formatted mmapped i = true) →
    ((∀ i ∈ slotsFrom mmapped, formatted mmapped i = true) ↔
      ∀ i ∈ slotsFrom mmapped, formatted mmapped' i = true)
  marked : (∀ i ∈ slotsBefore mmapped, UsedWith InBitmap mmapped i) →
    ((∀ i ∈ slotsFrom mmapped, UsedWith InBitmap mmapped i) ↔
      ∀ i ∈ slotsFrom mmapped, UsedWith InBitmap mmapped' i) ∧
    ((∀ i ∈ slotsFrom mmapped, UsedWith InBitmap mmapped i) →
      unmarkedIn mmapped (slotsFrom mmapped) = unmarkedIn mmapped' (slotsFrom mmapped))
  unused : StartInBitmap (readSuperblock mmapped) →
    (∀ i ∈ slotsBefore mmapped, UsedWith InBitmap mmapped i) →
    ((∀ i ∈ slotsFrom mmapped, UsedWith InBitmap mmapped i) ↔
      ∀ i ∈ slotsFrom mmapped, UsedWith InBitmap mmapped' i) ∧
    ((∀ i ∈ slotsFrom mmapped, UsedWith InBitmap mmapped i) →
      (LeavesReserved mmapped ↔ LeavesReserved mmapped'))
  duplicates : (∀ i ∈ slotsBefore mmapped, UsedWith (fun v => v.addr < FSSIZE) mmapped i) →
    ((usedIn mmapped (slotsBefore mmapped)).map Visit.addr).Nodup →
    firstClash (usedIn mmapped (slotsBefore mmapped))
        ((slotsFrom mmapped).flatMap (usedReads mmapped)) =
      firstClash (usedIn mmapped (slotsBefore mmapped))
        ((slotsFrom mmapped).flatMap (usedReads mmapped'))

section Verdicts

variable {mmapped mmapped' : Memory}

theorem or_eq_or_iff {γ : Type} {x y y' : Option γ} : x.or y = x.or y' ↔ (x = none → y = y') := by
  cases x <;> simp

theorem slots_eq_of_same (hsame : SameButSlot mmapped mmapped') :
    slots (readSuperblock mmapped') = slotsBefore mmapped ++ slotsFrom mmapped := by
  rw [hsame.superblock, slots_eq_append]

theorem types_iff (hsame : SameButSlot mmapped mmapped') :
    verdict (inode_detect_1 mmapped) = verdict (inode_detect_1 mmapped') ↔
      ((∀ i ∈ slotsBefore mmapped, ValidType (typeAt mmapped i)) →
        firstInvalid mmapped (slotsFrom mmapped) = firstInvalid mmapped' (slotsFrom mmapped)) := by
  have hbefore : firstInvalid mmapped' (slotsBefore mmapped) =
      firstInvalid mmapped (slotsBefore mmapped) := by
    unfold firstInvalid
    apply List.find?_congr
    intro i hi
    rw [typeAt_eq_of_same hsame (not_readsSlot hi)]
  have happend : ∀ m : Memory, firstInvalid m (slotsBefore mmapped ++ slotsFrom mmapped) =
      (firstInvalid m (slotsBefore mmapped)).or (firstInvalid m (slotsFrom mmapped)) :=
    fun _ => List.find?_append
  rw [inode_detect_1_same_iff, slots_eq_of_same hsame, slots_eq_append, happend, happend, hbefore,
    or_eq_or_iff, firstInvalid_eq_none_iff]

theorem addresses_iff (hsame : SameButSlot mmapped mmapped') :
    verdict (inodeaddr_detect_2 mmapped) = verdict (inodeaddr_detect_2 mmapped') ↔
      ((∀ i ∈ slotsBefore mmapped, SlotPasses mmapped i) →
        firstBad mmapped (slotsFrom mmapped) = firstBad mmapped' (slotsFrom mmapped)) := by
  have hbefore : firstBad mmapped' (slotsBefore mmapped) =
      firstBad mmapped (slotsBefore mmapped) := by
    unfold firstBad
    apply findSome?_congr
    intro i hi
    rw [hsame.superblock, readsAt_eq_of_same hsame (not_readsSlot hi)]
  have happend : ∀ m : Memory, firstBad m (slotsBefore mmapped ++ slotsFrom mmapped) =
      (firstBad m (slotsBefore mmapped)).or (firstBad m (slotsFrom mmapped)) :=
    fun _ => List.findSome?_append
  rw [inodeaddr_detect_2_same_iff, slots_eq_of_same hsame, slots_eq_append, happend, happend,
    hbefore, or_eq_or_iff, firstBad_eq_none_iff]

theorem directories_iff (hsame : SameButSlot mmapped mmapped') :
    directory_check_4 mmapped = directory_check_4 mmapped' ↔
      ((∀ i ∈ slotsBefore mmapped, formatted mmapped i = true) →
        ((∀ i ∈ slotsFrom mmapped, formatted mmapped i = true) ↔
          ∀ i ∈ slotsFrom mmapped, formatted mmapped' i = true)) := by
  have hbefore : (∀ i ∈ slotsBefore mmapped, formatted mmapped' i = true) ↔
      ∀ i ∈ slotsBefore mmapped, formatted mmapped i = true := by
    refine forall₂_congr fun i hi => ?_
    rw [formatted_eq_of_same hsame (not_readsSlot hi)]
  rw [Bool.eq_iff_iff, directory_check_4_iff, directory_check_4_iff, slots_eq_of_same hsame,
    slots_eq_append, List.forall_mem_append, List.forall_mem_append, hbefore]
  exact and_congr_right_iff

theorem usedWith_iff_of_same {P : Visit → Prop} (hsame : SameButSlot mmapped mmapped') :
    (∀ i ∈ slotsBefore mmapped, UsedWith P mmapped' i) ↔
      ∀ i ∈ slotsBefore mmapped, UsedWith P mmapped i := by
  refine forall₂_congr fun i hi => ?_
  rw [usedWith_iff, usedWith_iff, usedReads_eq_of_same hsame (not_readsSlot hi)]

theorem usedIn_append (m : Memory) (l l' : List Nat) :
    usedIn m (l ++ l') = usedIn m l ++ usedIn m l' := List.flatMap_append

/-- The addresses in front are the same, and so are their bits. -/
theorem unmarkedIn_eq_of_same (hsame : SameButSlot mmapped mmapped')
    (h : ∀ i ∈ slotsBefore mmapped, UsedWith InBitmap mmapped i) :
    unmarkedIn mmapped' (slotsBefore mmapped) = unmarkedIn mmapped (slotsBefore mmapped) := by
  have hvisits : usedIn mmapped' (slotsBefore mmapped) = usedIn mmapped (slotsBefore mmapped) :=
    List.flatMap_congr fun i hi => usedAt_eq_of_same hsame (not_readsSlot hi)
  unfold unmarkedIn
  rw [hvisits]
  apply List.countP_congr
  intro v hv
  obtain ⟨i, hi, hvi⟩ := List.mem_flatMap.mp hv
  rw [marks_eq_of_same hsame (not_readsSlot hi) ((h i hi).2 v hvi).bit_lt]

theorem marked_iff (hsame : SameButSlot mmapped mmapped') :
    verdict ((Checked.bitmap_check_5 mmapped).map errorLines) =
        verdict ((Checked.bitmap_check_5 mmapped').map errorLines) ↔
      ((∀ i ∈ slotsBefore mmapped, UsedWith InBitmap mmapped i) →
        ((∀ i ∈ slotsFrom mmapped, UsedWith InBitmap mmapped i) ↔
          ∀ i ∈ slotsFrom mmapped, UsedWith InBitmap mmapped' i) ∧
        ((∀ i ∈ slotsFrom mmapped, UsedWith InBitmap mmapped i) →
          unmarkedIn mmapped (slotsFrom mmapped) = unmarkedIn mmapped' (slotsFrom mmapped))) := by
  have hsum : ∀ m : Memory, unmarkedIn m (slotsBefore mmapped ++ slotsFrom mmapped) =
      unmarkedIn m (slotsBefore mmapped) + unmarkedIn m (slotsFrom mmapped) := by
    intro m
    unfold unmarkedIn
    rw [usedIn_append, List.countP_append]
  rw [bitmap_check_5_same_iff, slots_eq_of_same hsame, slots_eq_append, List.forall_mem_append,
    List.forall_mem_append, usedWith_iff_of_same hsame, hsum, hsum]
  by_cases h : ∀ i ∈ slotsBefore mmapped, UsedWith InBitmap mmapped i
  · rw [and_iff_right h, and_iff_right h, imp_iff_right h, unmarkedIn_eq_of_same hsame h,
      Nat.add_left_cancel_iff]
  · exact iff_of_true ⟨iff_of_false (fun hall => h hall.1) fun hall => h hall.1,
      fun hall => absurd hall.1 h⟩ fun hall => absurd hall h

theorem unused_iff (hsame : SameButSlot mmapped mmapped') :
    verdict (Checked.bitmap_check_6 mmapped) = verdict (Checked.bitmap_check_6 mmapped') ↔
      (StartInBitmap (readSuperblock mmapped) →
        (∀ i ∈ slotsBefore mmapped, UsedWith InBitmap mmapped i) →
        ((∀ i ∈ slotsFrom mmapped, UsedWith InBitmap mmapped i) ↔
          ∀ i ∈ slotsFrom mmapped, UsedWith InBitmap mmapped' i) ∧
        ((∀ i ∈ slotsFrom mmapped, UsedWith InBitmap mmapped i) →
          (LeavesReserved mmapped ↔ LeavesReserved mmapped'))) := by
  rw [bitmap_check_6_same_iff hsame.superblock, slots_eq_of_same hsame, slots_eq_append,
    List.forall_mem_append, List.forall_mem_append, usedWith_iff_of_same hsame]
  refine imp_congr_right fun _ => ?_
  by_cases h : ∀ i ∈ slotsBefore mmapped, UsedWith InBitmap mmapped i
  · rw [and_iff_right h, and_iff_right h, imp_iff_right h]
  · exact iff_of_true ⟨iff_of_false (fun hall => h hall.1) fun hall => h hall.1,
      fun hall => absurd hall.1 h⟩ fun hall => absurd hall h

theorem duplicates_iff (hsame : SameButSlot mmapped mmapped') :
    verdict (address_check_7_8 mmapped) = verdict (address_check_7_8 mmapped') ↔
      ((∀ i ∈ slotsBefore mmapped, UsedWith (fun v => v.addr < FSSIZE) mmapped i) →
        ((usedIn mmapped (slotsBefore mmapped)).map Visit.addr).Nodup →
        firstClash (usedIn mmapped (slotsBefore mmapped))
            ((slotsFrom mmapped).flatMap (usedReads mmapped)) =
          firstClash (usedIn mmapped (slotsBefore mmapped))
            ((slotsFrom mmapped).flatMap (usedReads mmapped'))) := by
  have hbefore : (slotsBefore mmapped).flatMap (usedReads mmapped') =
      (slotsBefore mmapped).flatMap (usedReads mmapped) :=
    List.flatMap_congr fun i hi => usedReads_eq_of_same hsame (not_readsSlot hi)
  have hearlier : (∀ i ∈ slotsBefore mmapped, UsedWith (fun v => v.addr < FSSIZE) mmapped i) →
      ((slotsBefore mmapped).flatMap (usedReads mmapped)).reduceOption =
        usedIn mmapped (slotsBefore mmapped) := by
    intro h
    rw [flatMap_usedReads h, reduceOption_map_some]
  rw [address_check_7_8_same_iff, slots_eq_of_same hsame, slots_eq_append, List.flatMap_append,
    List.flatMap_append, hbefore, firstClash_append, firstClash_append, or_eq_or_iff,
    firstClash_slots_eq_none_iff, and_imp, List.nil_append]
  refine forall_congr' fun h => ?_
  rw [hearlier h]

end Verdicts

/-- An image with one free inode, and `type` in the slot behind it. -/
def slotImage (type : UInt8) : Memory := fun k =>
  if k = 1152 then type
  else ([(516, 173), (517, 3), (520, 2), (532, 2), (536, 58)].lookup k).getD 0

theorem slotImage_contents :
    0 < (readSuperblock (slotImage 0)).ninodes ∧
    inodeStart (readSuperblock (slotImage 0)) (readSuperblock (slotImage 0)).ninodes = 1152 ∧
    (∀ i ∈ List.range (readSuperblock (slotImage 0)).ninodes, 1 ≤ i →
      ¬ ReadsSlot (slotImage 0) i) ∧
    inode_detect_1 (slotImage 0) = .ok () ∧
    inode_detect_1 (slotImage 4) = .error (.exit "Inode:2 type allocate error\n") := by
  decide +kernel

theorem sameButSlot_slotImage (type : UInt8) : SameButSlot (slotImage 0) (slotImage type) where
  superblock := by
    have hbyte : ∀ k < 28, rsect (slotImage type) 1 k = rsect (slotImage 0) 1 k := by
      intro k hk
      have hne : BSIZE * 1 % 2 ^ 32 + k ≠ 1152 := by
        rw [BSIZE]
        omega
      exact (if_neg hne).trans (if_neg hne).symm
    have huint : ∀ offset, offset + 4 ≤ 28 →
        uintAt (rsect (slotImage type) 1) offset = uintAt (rsect (slotImage 0) 1) offset := by
      intro offset hoffset
      exact uintAt_congr fun k hk => hbyte (offset + k) (by omega)
    unfold readSuperblock
    dsimp only
    rw [huint 4 (by decide), huint 8 (by decide), huint 20 (by decide), huint 24 (by decide)]
  bytes := by
    obtain ⟨_, hstart, _⟩ := slotImage_contents
    intro k hk
    have hne : k ≠ 1152 := by
      rw [hstart] at hk
      omega
    exact (if_neg hne).trans (if_neg hne).symm

/-- Only slot 2 is read from its bytes. -/
theorem slotsFrom_slotImage :
    slotsFrom (slotImage 0) = [(readSuperblock (slotImage 0)).ninodes] := by
  obtain ⟨hpos, _, hreal, _⟩ := slotImage_contents
  exact slotsFrom_eq hpos fun i hi hlt => hreal i (List.mem_range.mpr hlt) hi

end OstepProjects.FileSystemChecker
