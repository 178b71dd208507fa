/-
  OstepProjects/FileSystemChecker/Addresses.lean
  ==============================================
  **Check 2: block addresses, and what it does for the later checks.**

  `inodeaddr_detect_2` stops at the first inode that uses an address outside of the data
  blocks.  It does not look at the size of an inode: one of more than 140 blocks leads
  it out of the indirect block (`detect_in_bounds_iff`).  It does not look at the type
  either, and its loop includes the slot behind the last inode, so it also judges
  addresses that no inode in use has (`inodeaddr_detect_2_judges_iff`).

  An image that it passes keeps the later checks in their arrays, up to the message of
  checks 7 and 8 (`inodeaddr_detect_2_protects_iff`).
-/
import OstepProjects.FileSystemChecker.Duplicates
import Mathlib.Order.Basic

namespace OstepProjects.FileSystemChecker

open OstepProjects.Loops

/-- An address that check 2 lets pass. -/
def GoodAddr (sb : superblock) (v : Visit) : Prop := v.addr < FSSIZE ∧ firstData sb ≤ v.addr

/-- What the loop reads of slot `i`. -/
def readableAt (mmapped : Memory) (i : Nat) : List Visit :=
  readable mmapped (inodeAt mmapped i (readSuperblock mmapped))

/-- `block_num` of slot `i`. -/
def blocksAt (mmapped : Memory) (i : Nat) : Nat :=
  blockNum (rinode mmapped i (readSuperblock mmapped)).size

/-- The body of the loop of check 2. -/
def detectSlot (mmapped : Memory) (i : Nat) : Except Stop Unit :=
  eachBlock mmapped (inodeAt mmapped i (readSuperblock mmapped))
    (fun _ => detectAddr (readSuperblock mmapped) i) ()

/-- What a slot has to be for check 2 to go on. -/
def SlotPasses (mmapped : Memory) (i : Nat) : Prop :=
  blocksAt mmapped i ≤ NDIRECT + NINDIRECT ∧
    ∀ v ∈ readableAt mmapped i, GoodAddr (readSuperblock mmapped) v

/-! ### One slot -/

section Slot

variable {mmapped : Memory} {sb : superblock} {i : Nat} {v : Visit}

theorem detectAddr_ok_iff : detectAddr sb i v = .ok () ↔ GoodAddr sb v := by
  unfold detectAddr GoodAddr
  split_ifs with hbad
  · exact iff_of_false (fun h => nomatch h) (by omega)
  · exact iff_of_true rfl (by omega)

theorem detectAddr_error {e : Stop} (h : detectAddr sb i v = .error e) :
    e = .exit (badAddress i v) ∧ ¬ GoodAddr sb v := by
  have hbad : ¬ GoodAddr sb v := by
    intro hgood
    rw [detectAddr_ok_iff.mpr hgood] at h
    exact nomatch h
  unfold detectAddr at h
  split_ifs at h
  exact ⟨(Except.error.inj h).symm, hbad⟩

theorem run_detectAddr_error {vs : List Visit} {e : Stop}
    (h : run (detectAddr sb i) vs = .error e) :
    (∃ message, e = .exit message) ∧ ∃ v ∈ vs, ¬ GoodAddr sb v := by
  obtain ⟨front, v, back, rfl, _, hv⟩ := run_eq_error_iff.mp h
  obtain ⟨hexit, hbad⟩ := detectAddr_error hv
  exact ⟨⟨_, hexit⟩, v, List.mem_append_right front List.mem_cons_self, hbad⟩

theorem run_detectAddr_ok_iff {vs : List Visit} :
    run (detectAddr sb i) vs = .ok () ↔ ∀ v ∈ vs, GoodAddr sb v := by
  rw [run_eq_ok_iff]
  exact forall₂_congr fun v _ => detectAddr_ok_iff

theorem detectSlot_fit (hfit : blocksAt mmapped i ≤ NDIRECT + NINDIRECT) :
    detectSlot mmapped i =
      run (detectAddr (readSuperblock mmapped) i) (readableAt mmapped i) := by
  have hsize : blockNum (inodeAt mmapped i (readSuperblock mmapped)).size ≤
      NDIRECT + NINDIRECT := hfit
  exact eachBlock_fit hsize ()

theorem detectSlot_long (hlong : NDIRECT + NINDIRECT < blocksAt mmapped i) :
    detectSlot mmapped i =
      run (detectAddr (readSuperblock mmapped) i) (readableAt mmapped i) >>= fun _ =>
        .error (.outOfBounds .indirect NINDIRECT) := by
  have hsize : NDIRECT + NINDIRECT <
      blockNum (inodeAt mmapped i (readSuperblock mmapped)).size := hlong
  exact eachBlock_long hsize ()

theorem detectSlot_ok_iff : detectSlot mmapped i = .ok () ↔ SlotPasses mmapped i := by
  rcases Nat.lt_or_ge (NDIRECT + NINDIRECT) (blocksAt mmapped i) with hlong | hfit
  · rw [detectSlot_long hlong]
    refine iff_of_false ?_ fun h => absurd h.1 hlong.not_ge
    rcases run (detectAddr (readSuperblock mmapped) i) (readableAt mmapped i) with e | _
    · exact fun h => nomatch h
    · exact fun h => nomatch h
  · rw [detectSlot_fit hfit, run_detectAddr_ok_iff]
    exact (and_iff_right hfit).symm

/-- A slot stops the loop by a message about an address of it, or by its length. -/
theorem detectSlot_error {e : Stop} (h : detectSlot mmapped i = .error e) :
    ((∃ message, e = .exit message) ∧
        ∃ v ∈ readableAt mmapped i, ¬ GoodAddr (readSuperblock mmapped) v) ∨
      (e = .outOfBounds .indirect NINDIRECT ∧ NDIRECT + NINDIRECT < blocksAt mmapped i ∧
        ∀ v ∈ readableAt mmapped i, GoodAddr (readSuperblock mmapped) v) := by
  rcases Nat.lt_or_ge (NDIRECT + NINDIRECT) (blocksAt mmapped i) with hlong | hfit
  · rw [detectSlot_long hlong] at h
    rcases hrun : run (detectAddr (readSuperblock mmapped) i) (readableAt mmapped i) with e' | _
    · rw [hrun, error_bind] at h
      obtain rfl := Except.error.inj h
      exact Or.inl (run_detectAddr_error hrun)
    · rw [hrun, ok_bind] at h
      exact Or.inr ⟨(Except.error.inj h).symm, hlong, run_detectAddr_ok_iff.mp hrun⟩
  · rw [detectSlot_fit hfit] at h
    exact Or.inl (run_detectAddr_error h)

end Slot

/-! ### The loop over the slots -/

section Loop

variable {mmapped : Memory} {sb : superblock} {i : Nat}

theorem mem_slots : i ∈ slots sb ↔ 1 ≤ i ∧ i ≤ sb.ninodes := by
  unfold slots
  rw [List.mem_map]
  constructor
  · rintro ⟨k, hk, rfl⟩
    exact ⟨Nat.succ_le_succ (Nat.zero_le k), List.mem_range.mp hk⟩
  · rintro ⟨hpos, hle⟩
    exact ⟨i - 1, List.mem_range.mpr (by omega), by omega⟩

theorem slots_pairwise : (slots sb).Pairwise (· < ·) := by
  apply List.Pairwise.map _ _ List.pairwise_lt_range
  intro a b hab
  exact Nat.succ_lt_succ hab

theorem inodeaddr_detect_2_eq :
    inodeaddr_detect_2 mmapped = run (detectSlot mmapped) (slots (readSuperblock mmapped)) := rfl

theorem inodeaddr_detect_2_ok_iff :
    inodeaddr_detect_2 mmapped = .ok () ↔
      ∀ i ∈ slots (readSuperblock mmapped), SlotPasses mmapped i := by
  rw [inodeaddr_detect_2_eq, run_eq_ok_iff]
  exact forall₂_congr fun i _ => detectSlot_ok_iff

/-- The slot that stops check 2 is the first one that does not pass. -/
theorem inodeaddr_detect_2_error {e : Stop} (h : inodeaddr_detect_2 mmapped = .error e) :
    ∃ i ∈ slots (readSuperblock mmapped), detectSlot mmapped i = .error e ∧
      ∀ k ∈ slots (readSuperblock mmapped), k < i → SlotPasses mmapped k := by
  obtain ⟨front, i, back, hslots, hfront, hi⟩ := run_eq_error_iff.mp h
  have hsorted : (front ++ i :: back).Pairwise (· < ·) := hslots ▸ slots_pairwise
  refine ⟨i, ?_, hi, fun k hk hlt => ?_⟩
  · rw [hslots]
    exact List.mem_append_right front List.mem_cons_self
  · rw [hslots] at hk
    rcases List.mem_append.mp hk with hfst | hrest
    · exact detectSlot_ok_iff.mp (hfront k hfst)
    · rcases List.mem_cons.mp hrest with rfl | hback
      · exact absurd hlt (lt_irrefl k)
      · have hgt := (List.pairwise_cons.mp (List.pairwise_append.mp hsorted).2.1).1 k hback
        exact absurd hlt hgt.not_gt

/-- **Where check 2 stays in its arrays.**  An inode of more than 140 blocks needs a bad address,
    in the arrays of it or of an inode before it. -/
theorem detect_in_bounds_iff :
    InBounds (inodeaddr_detect_2 mmapped) ↔
      ∀ i ∈ slots (readSuperblock mmapped), NDIRECT + NINDIRECT < blocksAt mmapped i →
        ∃ k ∈ slots (readSuperblock mmapped), k ≤ i ∧
          ∃ v ∈ readableAt mmapped k, ¬ GoodAddr (readSuperblock mmapped) v := by
  constructor
  · intro hbounds i hi hlong
    rcases hcheck : inodeaddr_detect_2 mmapped with e | _
    · obtain ⟨k, hk, hstop, hbefore⟩ := inodeaddr_detect_2_error hcheck
      rcases detectSlot_error hstop with ⟨_, hbad⟩ | ⟨rfl, _⟩
      · refine ⟨k, hk, ?_, hbad⟩
        by_contra hafter
        exact absurd (hbefore i hi (not_le.mp hafter)).1 hlong.not_ge
      · exact absurd hcheck (hbounds _ _)
    · exact absurd (inodeaddr_detect_2_ok_iff.mp hcheck i hi).1 hlong.not_ge
  · intro hbad array index hcheck
    obtain ⟨i, hi, hstop, hbefore⟩ := inodeaddr_detect_2_error hcheck
    rcases detectSlot_error hstop with ⟨⟨_, hexit⟩, _⟩ | ⟨_, hlong, hgood⟩
    · exact nomatch hexit
    · obtain ⟨k, hk, hle, v, hv, hnot⟩ := hbad i hi hlong
      rcases hle.lt_or_eq with hlt | rfl
      · exact hnot ((hbefore k hk hlt).2 v hv)
      · exact hnot (hgood v hv)

end Loop

/-! ### The later checks -/

/-- Check 2 stays in its arrays, and so do checks 5 to 8 on an image that it passes. -/
def ProtectsLaterChecks (mmapped : Memory) : Prop :=
  InBounds (inodeaddr_detect_2 mmapped) ∧
    (inodeaddr_detect_2 mmapped = .ok () →
      InBounds (Checked.bitmap_check_5 mmapped) ∧ InBounds (Checked.bitmap_check_6 mmapped) ∧
        InBounds (address_check_7_8 mmapped))

section Later

variable {mmapped : Memory}

theorem usedFit_of_passes (h : ∀ i ∈ slots (readSuperblock mmapped), SlotPasses mmapped i) :
    UsedFit mmapped := fun i hi _ => (h i hi).1

theorem readableAt_eq {i : Nat} (hfit : blocksAt mmapped i ≤ NDIRECT + NINDIRECT) :
    readableAt mmapped i = inodeBlocks mmapped (rinode mmapped i (readSuperblock mmapped)) :=
  readable_inodeAt hfit

theorem used_lt_of_passes (h : ∀ i ∈ slots (readSuperblock mmapped), SlotPasses mmapped i) :
    ∀ a ∈ usedBlocks mmapped, a < FSSIZE := by
  intro a ha
  obtain ⟨i, v, hmem, rfl⟩ := exists_owned ha
  obtain ⟨hi, _, hv⟩ := mem_ownedVisits.mp hmem
  obtain ⟨hfit, hgood⟩ := h i hi
  rw [← readableAt_eq hfit] at hv
  exact (hgood v hv).1

theorem inBounds_bitmap_check_6 (hfit : UsedFit mmapped)
    (hused : ∀ a ∈ usedBlocks mmapped, a < 8 * BSIZE)
    (hstart : (readSuperblock mmapped).bmapstart + 1 < 8 * BSIZE) :
    InBounds (Checked.bitmap_check_6 mmapped) := by
  rw [Checked.bitmap_check_6_eq hfit hused hstart]
  rcases bitmap_check_6 mmapped with message | _
  · exact inBounds_exit message
  · exact inBounds_ok ()

end Later

/-- **What check 2 protects.**  The checks stay in their arrays iff an inode of more than 140
    blocks always comes with a bad address that check 2 meets first, and, on an image that
    passes, the first repeat is not an indirect entry behind the thirteenth. -/
theorem inodeaddr_detect_2_protects_iff (mmapped : Memory)
    (hstart : (readSuperblock mmapped).bmapstart + 1 < 8 * BSIZE) :
    ProtectsLaterChecks mmapped ↔
      (∀ i ∈ slots (readSuperblock mmapped), NDIRECT + NINDIRECT < blocksAt mmapped i →
        ∃ k ∈ slots (readSuperblock mmapped), k ≤ i ∧
          ∃ v ∈ readableAt mmapped k, ¬ GoodAddr (readSuperblock mmapped) v) ∧
      ((∀ i ∈ slots (readSuperblock mmapped), SlotPasses mmapped i) →
        ∀ j a, firstRepeat Visit.addr (usedVisits mmapped) = some (.indirect j a) →
          j ≤ NDIRECT) := by
  unfold ProtectsLaterChecks
  rw [detect_in_bounds_iff, inodeaddr_detect_2_ok_iff]
  apply and_congr_right
  intro _
  apply forall_congr'
  intro hpasses
  have hfit := usedFit_of_passes hpasses
  have hsmall := used_lt_of_passes hpasses
  have hused : ∀ a ∈ usedBlocks mmapped, a < 8 * BSIZE := fun a ha =>
    (hsmall a ha).trans (by decide)
  have hfive : InBounds (Checked.bitmap_check_5 mmapped) := by
    rw [Checked.bitmap_check_5_eq hfit hused]
    exact inBounds_ok _
  rw [← address_check_7_8_in_bounds_iff hfit hsmall]
  constructor
  · rintro ⟨_, _, hrepeat⟩
    exact hrepeat
  · intro hrepeat
    exact ⟨hfive, inBounds_bitmap_check_6 hfit hused hstart, hrepeat⟩

theorem inodeaddr_detect_2_protects_smallImage :
    (readSuperblock smallImage).bmapstart + 1 < 8 * BSIZE ∧
      (ProtectsLaterChecks smallImage ↔
        (∀ i ∈ slots (readSuperblock smallImage), NDIRECT + NINDIRECT < blocksAt smallImage i →
          ∃ k ∈ slots (readSuperblock smallImage), k ≤ i ∧
            ∃ v ∈ readableAt smallImage k, ¬ GoodAddr (readSuperblock smallImage) v) ∧
        ((∀ i ∈ slots (readSuperblock smallImage), SlotPasses smallImage i) →
          ∀ j a, firstRepeat Visit.addr (usedVisits smallImage) = some (.indirect j a) →
            j ≤ NDIRECT)) :=
  ⟨smallImage_contents.2.2.1, inodeaddr_detect_2_protects_iff smallImage smallImage_contents.2.2.1⟩

/-- One file of 141 blocks, all of them block 59. -/
def longImage : Memory := fun k =>
  if (1100 ≤ k ∧ k < 1152 ∨ 30208 ≤ k ∧ k < 30720) ∧ k % 4 = 0 then 59
  else ([(516, 173), (517, 3), (520, 1), (532, 2), (536, 58), (1088, 2), (1097, 26),
    (1098, 1)].lookup k).getD 0

theorem longImage_contents :
    (readSuperblock longImage).bmapstart + 1 < 8 * BSIZE ∧
    slots (readSuperblock longImage) = [1] ∧ NDIRECT + NINDIRECT < blocksAt longImage 1 ∧
    ∀ v ∈ readableAt longImage 1,
      v.addr < FSSIZE ∧ firstData (readSuperblock longImage) ≤ v.addr := by
  decide +kernel

/-- Entry 128 of an indirect block. -/
theorem inodeaddr_detect_2_not_protects : ¬ ∀ mmapped : Memory,
    (readSuperblock mmapped).bmapstart + 1 < 8 * BSIZE → ProtectsLaterChecks mmapped := by
  intro hprotects
  obtain ⟨hstart, hslots, hlong, hgood⟩ := longImage_contents
  have hone : 1 ∈ slots (readSuperblock longImage) := by
    rw [hslots]
    exact List.mem_cons_self
  obtain ⟨k, hk, _, v, hv, hbad⟩ :=
    detect_in_bounds_iff.mp (hprotects longImage hstart).1 1 hone hlong
  rw [hslots] at hk
  obtain rfl := List.mem_singleton.mp hk
  exact hbad (hgood v hv)

/-! ### What check 2 judges -/

/-- An inode in use has an address outside of the data blocks. -/
def UsesBadAddress (mmapped : Memory) : Prop :=
  let sb := readSuperblock mmapped
  ∃ i, 1 ≤ i ∧ i < sb.ninodes ∧ (rinode mmapped i sb).type ≠ 0 ∧
    ∃ v ∈ inodeBlocks mmapped (rinode mmapped i sb),
      ¬ (FSSIZE - sb.nblocks ≤ v.addr ∧ v.addr < FSSIZE)

/-- Check 2 exits for a bad address of an inode in use, and returns otherwise. -/
def JudgesAddresses (mmapped : Memory) : Prop :=
  ((∃ message, inodeaddr_detect_2 mmapped = .error (.exit message)) ↔ UsesBadAddress mmapped) ∧
    (inodeaddr_detect_2 mmapped = .ok () ↔ ¬ UsesBadAddress mmapped)

section Judged

variable {mmapped : Memory} {i : Nat}

theorem goodAddr_iff {sb : superblock} (hblocks : sb.nblocks ≤ FSSIZE) {v : Visit} :
    GoodAddr sb v ↔ FSSIZE - sb.nblocks ≤ v.addr ∧ v.addr < FSSIZE := by
  have hfirst : firstData sb = FSSIZE - sb.nblocks := by
    unfold firstData
    rw [FSSIZE] at hblocks ⊢
    omega
  rw [GoodAddr, hfirst, and_comm]

theorem slotPasses_iff (hblocks : (readSuperblock mmapped).nblocks ≤ FSSIZE) :
    SlotPasses mmapped i ↔ blocksAt mmapped i ≤ NDIRECT + NINDIRECT ∧
      ∀ v ∈ inodeBlocks mmapped (rinode mmapped i (readSuperblock mmapped)),
        FSSIZE - (readSuperblock mmapped).nblocks ≤ v.addr ∧ v.addr < FSSIZE := by
  refine and_congr_right fun hfit => ?_
  rw [readableAt_eq hfit]
  exact forall₂_congr fun v _ => goodAddr_iff hblocks

theorem blockNum_le {size n : Nat} (h : size ≤ n * BSIZE) : blockNum size ≤ n := by
  unfold blockNum
  rw [BSIZE] at h ⊢
  split_ifs <;> omega

/-- A bad address of an inode in use makes check 2 exit: every slot up to that inode is an inode
    of at most 140 blocks. -/
theorem exits_of_usesBadAddress
    (hreal : ∀ i, 1 ≤ i → i < (readSuperblock mmapped).ninodes →
      blocksAt mmapped i ≤ NDIRECT + NINDIRECT)
    (hblocks : (readSuperblock mmapped).nblocks ≤ FSSIZE) (hbad : UsesBadAddress mmapped) :
    ∃ message, inodeaddr_detect_2 mmapped = .error (.exit message) := by
  obtain ⟨i, hpos, hlt, _, v, hv, hout⟩ := hbad
  have hfails : ¬ SlotPasses mmapped i := fun h => hout (((slotPasses_iff hblocks).mp h).2 v hv)
  have hi := mem_slots.mpr ⟨hpos, hlt.le⟩
  rcases hcheck : inodeaddr_detect_2 mmapped with e | _
  · obtain ⟨k, hk, hstop, hbefore⟩ := inodeaddr_detect_2_error hcheck
    have hle : k ≤ i := not_lt.mp fun hgt => hfails (hbefore i hi hgt)
    have hfit := hreal k (mem_slots.mp hk).1 (hle.trans_lt hlt)
    rcases detectSlot_error hstop with ⟨⟨message, rfl⟩, _⟩ | ⟨_, hlong, _⟩
    · exact ⟨message, rfl⟩
    · exact absurd hfit hlong.not_ge
  · exact absurd (inodeaddr_detect_2_ok_iff.mp hcheck i hi) hfails

/-- Without a bad address, check 2 returns iff it finds nothing in the other slots either. -/
theorem returns_iff_of_clean
    (hreal : ∀ i, 1 ≤ i → i < (readSuperblock mmapped).ninodes →
      blocksAt mmapped i ≤ NDIRECT + NINDIRECT)
    (hblocks : (readSuperblock mmapped).nblocks ≤ FSSIZE) (hclean : ¬ UsesBadAddress mmapped) :
    inodeaddr_detect_2 mmapped = .ok () ↔
      ∀ i, 1 ≤ i → i ≤ (readSuperblock mmapped).ninodes →
        (rinode mmapped i (readSuperblock mmapped)).type = 0 ∨
          i = (readSuperblock mmapped).ninodes →
        blocksAt mmapped i ≤ NDIRECT + NINDIRECT ∧
          ∀ v ∈ inodeBlocks mmapped (rinode mmapped i (readSuperblock mmapped)),
            FSSIZE - (readSuperblock mmapped).nblocks ≤ v.addr ∧ v.addr < FSSIZE := by
  rw [inodeaddr_detect_2_ok_iff]
  constructor
  · intro hpasses i hpos hle _
    exact (slotPasses_iff hblocks).mp (hpasses i (mem_slots.mpr ⟨hpos, hle⟩))
  · intro hothers i hi
    obtain ⟨hpos, hle⟩ := mem_slots.mp hi
    apply (slotPasses_iff hblocks).mpr
    by_cases hother : (rinode mmapped i (readSuperblock mmapped)).type = 0 ∨
        i = (readSuperblock mmapped).ninodes
    · exact hothers i hpos hle hother
    · obtain ⟨htype, hne⟩ := not_or.mp hother
      have hlt : i < (readSuperblock mmapped).ninodes := lt_of_le_of_ne hle hne
      refine ⟨hreal i hpos hlt, fun v hv => ?_⟩
      by_contra hout
      exact hclean ⟨i, hpos, hlt, htype, v, hv, hout⟩

end Judged

theorem sizes_smallImage : ∀ i, 1 ≤ i → i < (readSuperblock smallImage).ninodes →
    (rinode smallImage i (readSuperblock smallImage)).size ≤ 140 * 512 :=
  fun i hpos hlt => (smallImage_contents.1 i (mem_slots.mpr ⟨hpos, hlt.le⟩)).2

/-- **What check 2 judges.**  On an image whose inodes have at most 140 blocks it decides whether
    an inode in use has a bad address iff one has, or every free inode and the slot behind the
    last inode hold nothing but good addresses of at most 140 blocks. -/
theorem inodeaddr_detect_2_judges_iff (mmapped : Memory)
    (hsize : ∀ i, 1 ≤ i → i < (readSuperblock mmapped).ninodes →
      (rinode mmapped i (readSuperblock mmapped)).size ≤ 140 * 512)
    (hblocks : (readSuperblock mmapped).nblocks ≤ FSSIZE) :
    JudgesAddresses mmapped ↔ UsesBadAddress mmapped ∨
      ∀ i, 1 ≤ i → i ≤ (readSuperblock mmapped).ninodes →
        (rinode mmapped i (readSuperblock mmapped)).type = 0 ∨
          i = (readSuperblock mmapped).ninodes →
        blocksAt mmapped i ≤ NDIRECT + NINDIRECT ∧
          ∀ v ∈ inodeBlocks mmapped (rinode mmapped i (readSuperblock mmapped)),
            FSSIZE - (readSuperblock mmapped).nblocks ≤ v.addr ∧ v.addr < FSSIZE := by
  have hreal : ∀ i, 1 ≤ i → i < (readSuperblock mmapped).ninodes →
      blocksAt mmapped i ≤ NDIRECT + NINDIRECT := fun i hpos hlt =>
    blockNum_le (hsize i hpos hlt)
  by_cases hbad : UsesBadAddress mmapped
  · obtain ⟨message, hexit⟩ := exits_of_usesBadAddress hreal hblocks hbad
    refine iff_of_true ⟨iff_of_true ⟨message, hexit⟩ hbad, ?_⟩ (Or.inl hbad)
    rw [hexit]
    exact iff_of_false (fun h => nomatch h) (not_not_intro hbad)
  · rw [or_iff_right hbad, ← returns_iff_of_clean hreal hblocks hbad]
    constructor
    · rintro ⟨_, hreturns⟩
      exact hreturns.mpr hbad
    · intro hok
      refine ⟨?_, iff_of_true hok hbad⟩
      rw [hok]
      exact iff_of_false (fun ⟨_, h⟩ => nomatch h) hbad

theorem inodeaddr_detect_2_judges_smallImage :
    ((∀ i, 1 ≤ i → i < (readSuperblock smallImage).ninodes →
        (rinode smallImage i (readSuperblock smallImage)).size ≤ 140 * 512) ∧
      (readSuperblock smallImage).nblocks ≤ FSSIZE) ∧
    (JudgesAddresses smallImage ↔ UsesBadAddress smallImage ∨
      ∀ i, 1 ≤ i → i ≤ (readSuperblock smallImage).ninodes →
        (rinode smallImage i (readSuperblock smallImage)).type = 0 ∨
          i = (readSuperblock smallImage).ninodes →
        blocksAt smallImage i ≤ NDIRECT + NINDIRECT ∧
          ∀ v ∈ inodeBlocks smallImage (rinode smallImage i (readSuperblock smallImage)),
            FSSIZE - (readSuperblock smallImage).nblocks ≤ v.addr ∧ v.addr < FSSIZE) :=
  ⟨⟨sizes_smallImage, smallImage_contents.2.2.2⟩,
    inodeaddr_detect_2_judges_iff smallImage sizes_smallImage smallImage_contents.2.2.2⟩

/-- Inode 1 is free and still has the size and the address of an earlier file. -/
def staleImage : Memory := fun k =>
  ([(516, 173), (517, 3), (520, 2), (532, 2), (536, 58), (1097, 2), (1100, 5)].lookup k).getD 0

theorem staleImage_contents :
    (∀ i ∈ slots (readSuperblock staleImage),
      (rinode staleImage i (readSuperblock staleImage)).size ≤ 140 * 512 ∧
        (rinode staleImage i (readSuperblock staleImage)).type = 0) ∧
    (readSuperblock staleImage).nblocks ≤ FSSIZE ∧
    inodeaddr_detect_2 staleImage =
      .error (.exit "ERROR: bad direct address in inode:1 direct:0\n") := by
  decide +kernel

/-- An image without an inode in use is rejected. -/
theorem inodeaddr_detect_2_not_judges : ¬ ∀ mmapped : Memory,
    (∀ i, 1 ≤ i → i < (readSuperblock mmapped).ninodes →
      (rinode mmapped i (readSuperblock mmapped)).size ≤ 140 * 512) →
    (readSuperblock mmapped).nblocks ≤ FSSIZE → JudgesAddresses mmapped := by
  intro hjudges
  obtain ⟨hslots, hblocks, hexit⟩ := staleImage_contents
  have hsize : ∀ i, 1 ≤ i → i < (readSuperblock staleImage).ninodes →
      (rinode staleImage i (readSuperblock staleImage)).size ≤ 140 * 512 :=
    fun i hpos hlt => (hslots i (mem_slots.mpr ⟨hpos, hlt.le⟩)).1
  obtain ⟨i, hpos, hlt, htype, _⟩ := (hjudges staleImage hsize hblocks).1.mp ⟨_, hexit⟩
  exact htype (hslots i (mem_slots.mpr ⟨hpos, hlt.le⟩)).2

end OstepProjects.FileSystemChecker
