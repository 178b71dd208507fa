/-
  OstepProjects/FileSystemChecker/Duplicates.lean
  ===============================================
  **Checks 7 and 8: is a block used twice?**

  `address_check_7_8` counts the addresses in use and exits at the first one whose count
  is not zero.  Counts are not zero exactly for the addresses that the loops came to
  before, so the check finds the first repeat in the order of the loops
  (`Loops.foldlM_mark`).

  At an indirect entry the message is chosen by `address_count[ip->addrs[j]]`, where
  `indirect[j]` was tested.  The arrays have 13 and 128 entries, so from entry 13 on
  the choice is out of bounds: the check decides whether an address is used twice,
  unless the first repeat is such an entry (`address_check_7_8_exact_iff`).
-/
import OstepProjects.FileSystemChecker.Checked

namespace OstepProjects.FileSystemChecker

open OstepProjects.Loops

/-- What checks 7 and 8 have to decide. -/
def FindsDuplicates (mmapped : Memory) : Prop :=
  ((∃ message, address_check_7_8 mmapped = .error (.exit message)) ↔
      ¬ (usedBlocks mmapped).Nodup) ∧
    (address_check_7_8 mmapped = .ok () ↔ (usedBlocks mmapped).Nodup)

/-! ### One step -/

/-- The counts after an address that is new. -/
def counted (address_count : Nat → Nat) : Visit → Nat → Nat
  | .direct _ addr => Function.update address_count addr (address_count addr + 1)
  | .indirect _ addr => Function.update address_count addr (address_count addr + 2)

section Step

variable {ip : dinode} {count : Nat → Nat} {v : Visit}

/-- What is counted is what was counted and the new address. -/
theorem counted_pos {a : Nat} : 0 < counted count v a ↔ 0 < count a ∨ a = v.addr := by
  have hupdate : ∀ addr n, 0 < Function.update count addr (count addr + (n + 1)) a ↔
      0 < count a ∨ a = addr := by
    intro addr n
    rw [Function.update_apply]
    split_ifs with ha
    · exact iff_of_true (Nat.succ_pos _) (Or.inr ha)
    · exact (or_iff_left ha).symm
  rcases v with ⟨j, addr⟩ | ⟨j, addr⟩
  · exact hupdate addr 0
  · exact hupdate addr 1

theorem countStep_new (hsmall : v.addr < FSSIZE) (hnew : ¬ 0 < count v.addr) :
    countStep ip count v = .ok (counted count v) := by
  have hread : countAt count v.addr = .ok (count v.addr) := if_pos hsmall
  rw [countStep, hread, ok_bind]
  rcases v with ⟨j, addr⟩ | ⟨j, addr⟩
  · exact if_neg hnew
  · exact if_neg hnew

theorem countStep_direct {j addr : Nat} (hsmall : addr < FSSIZE) (hold : 0 < count addr) :
    countStep ip count (.direct j addr) = .error (usedTwice (count addr)) := by
  have hread : countAt count (Visit.direct j addr).addr = .ok (count addr) := if_pos hsmall
  rw [countStep, hread, ok_bind]
  exact if_pos hold

theorem countStep_indirect {j addr : Nat} (hsmall : addr < FSSIZE) (hold : 0 < count addr)
    (hj : j ≤ NDIRECT) (haddr : ip.addrs j < FSSIZE) :
    countStep ip count (.indirect j addr) = .error (usedTwice (count (ip.addrs j))) := by
  have hread : countAt count (Visit.indirect j addr).addr = .ok (count addr) := if_pos hsmall
  rw [countStep, hread, ok_bind]
  refine (if_pos hold).trans ?_
  rw [addrAt, if_pos hj, ok_bind, countAt, if_pos haddr, ok_bind]

/-- A repeat is reported where the message can be chosen. -/
theorem countStep_repeat (hsmall : v.addr < FSSIZE) (hold : 0 < count v.addr)
    (hother : ∀ j a, v = .indirect j a → j ≤ NDIRECT ∧ ip.addrs j < FSSIZE) :
    ∃ n, countStep ip count v = .error (usedTwice n) := by
  rcases v with ⟨j, addr⟩ | ⟨j, addr⟩
  · exact ⟨_, countStep_direct hsmall hold⟩
  · obtain ⟨hj, haddr⟩ := hother j addr rfl
    exact ⟨_, countStep_indirect hsmall hold hj haddr⟩

theorem countStep_far {j addr : Nat} (hsmall : addr < FSSIZE) (hold : 0 < count addr)
    (hfar : NDIRECT < j) :
    countStep ip count (.indirect j addr) = .error (.outOfBounds .addrs j) := by
  have hread : countAt count (Visit.indirect j addr).addr = .ok (count addr) := if_pos hsmall
  rw [countStep, hread, ok_bind]
  refine (if_pos hold).trans ?_
  rw [addrAt, if_neg hfar.not_ge, error_bind]

theorem countStep_ok_iff {count' : Nat → Nat} :
    countStep ip count v = .ok count' ↔
      (v.addr < FSSIZE ∧ ¬ 0 < count v.addr) ∧ counted count v = count' := by
  by_cases hsmall : v.addr < FSSIZE
  · by_cases hold : 0 < count v.addr
    · refine iff_of_false (fun h => ?_) (fun h => h.1.2 hold)
      have hread : countAt count v.addr = .ok (count v.addr) := if_pos hsmall
      rw [countStep, hread, ok_bind] at h
      rcases v with ⟨j, addr⟩ | ⟨j, addr⟩
      · have hstop := (if_pos hold).symm.trans h
        exact nomatch hstop
      · have hstop := (if_pos hold).symm.trans h
        obtain ⟨_, _, hrest⟩ := bind_eq_ok_iff.mp hstop
        obtain ⟨_, _, hexit⟩ := bind_eq_ok_iff.mp hrest
        exact nomatch hexit
    · rw [countStep_new hsmall hold, and_iff_right ⟨hsmall, hold⟩]
      exact ⟨Except.ok.inj, congrArg Except.ok⟩
  · refine iff_of_false (fun h => ?_) (fun h => hsmall h.1.1)
    have hread : countAt count v.addr = .error (.outOfBounds .address_count v.addr) :=
      if_neg hsmall
    rw [countStep, hread] at h
    exact nomatch h

end Step

/-! ### The loops -/

section Loop

variable {mmapped : Memory}

/-- An inode with indirect entries has thirteen addresses in `addrs[]` in use. -/
theorem direct_of_indirect {ip : dinode} {j addr : Nat}
    (h : Visit.indirect j addr ∈ inodeBlocks mmapped ip) {k : Nat} (hk : k ≤ NDIRECT) :
    Visit.direct k (ip.addrs k) ∈ inodeBlocks mmapped ip := by
  unfold inodeBlocks at h ⊢
  dsimp only at h ⊢
  split_ifs at h ⊢ with hsize hfew
  · exact absurd h List.not_mem_nil
  · obtain ⟨n, _, hn⟩ := List.mem_map.mp h
    exact nomatch hn
  · exact List.mem_append_left _ (List.mem_map.mpr ⟨k, List.mem_range.mpr (by omega), rfl⟩)

/-- The check is one loop over the blocks in use. -/
theorem address_check_7_8_eq (hfit : UsedFit mmapped) :
    address_check_7_8 mmapped = (ownedVisits mmapped).foldlM
      (fun count p => countStep (inodeAt mmapped p.1 (readSuperblock mmapped)) count p.2)
      (fun _ => 0) >>= fun _ => .ok () := by
  unfold address_check_7_8
  rw [eachUsed_eq hfit]
  rfl

/-- What the check does, given the first repeat. -/
theorem address_check_7_8_cases (hfit : UsedFit mmapped)
    (hsmall : ∀ a ∈ usedBlocks mmapped, a < FSSIZE) :
    (firstRepeat Visit.addr (usedVisits mmapped) = none → address_check_7_8 mmapped = .ok ()) ∧
      ∀ v, firstRepeat Visit.addr (usedVisits mmapped) = some v →
        ((∀ j a, v = .indirect j a → j ≤ NDIRECT) →
          ∃ n, address_check_7_8 mmapped = .error (usedTwice n)) ∧
        ∀ j a, v = .indirect j a → NDIRECT < j →
          address_check_7_8 mmapped = .error (.outOfBounds .addrs j) := by
  let sb := readSuperblock mmapped
  have hnew : ∀ p ∈ ownedVisits mmapped, ∀ count : Nat → Nat, ¬ 0 < count p.2.addr →
      ∃ count', countStep (inodeAt mmapped p.1 sb) count p.2 = .ok count' ∧
        ∀ a, 0 < count' a ↔ 0 < count a ∨ a = p.2.addr := by
    intro p hp count hzero
    exact ⟨_, countStep_new (hsmall _ (mem_usedBlocks hp)) hzero, fun a => counted_pos⟩
  have hzero : ∀ a, 0 < (fun _ => 0 : Nat → Nat) a ↔ a ∈ ([] : List Nat) := by
    intro a
    exact iff_of_false (lt_irrefl 0) List.not_mem_nil
  obtain ⟨hnone, hsome⟩ := foldlM_mark (fun p : Nat × Visit => p.2.addr)
    (fun (count : Nat → Nat) a => 0 < count a) hnew hzero
  have hrepeat : firstRepeat Visit.addr (usedVisits mmapped) =
      (firstRepeat (fun p : Nat × Visit => p.2.addr) (ownedVisits mmapped)).map Prod.snd := by
    rw [← ownedVisits_map_snd, firstRepeat_map]
  rw [hrepeat, address_check_7_8_eq hfit]
  constructor
  · intro h
    obtain ⟨count, hcount⟩ := hnone (Option.map_eq_none_iff.mp h)
    rw [hcount, ok_bind]
  · intro v h
    obtain ⟨⟨i, w⟩, hp, rfl⟩ := Option.map_eq_some_iff.mp h
    have hmem : (i, w) ∈ ownedVisits mmapped := firstRepeatAfter_mem _ hp
    have haddr : w.addr < FSSIZE := hsmall _ (mem_usedBlocks hmem)
    obtain ⟨count, hold, hstop⟩ := hsome (i, w) hp
    constructor
    · intro hnear
      have hother : ∀ j a, w = .indirect j a →
          j ≤ NDIRECT ∧ (inodeAt mmapped i sb).addrs j < FSSIZE := by
        rintro j a rfl
        have hj := hnear j a rfl
        obtain ⟨hslot, htype, hblock⟩ := mem_ownedVisits.mp hmem
        have hdirect := mem_ownedVisits.mpr ⟨hslot, htype, direct_of_indirect hblock hj⟩
        refine ⟨hj, ?_⟩
        rw [inodeAt_addrs hj]
        exact hsmall _ (mem_usedBlocks hdirect)
      obtain ⟨n, hn⟩ := countStep_repeat haddr hold hother
      refine ⟨n, ?_⟩
      rw [hstop _ hn, error_bind]
    · rintro j a rfl hfar
      rw [hstop _ (countStep_far haddr hold hfar), error_bind]

theorem not_nodup_of_repeat {v : Visit}
    (h : firstRepeat Visit.addr (usedVisits mmapped) = some v) : ¬ (usedBlocks mmapped).Nodup := by
  intro hnodup
  rw [(firstRepeat_eq_none_iff Visit.addr).mpr hnodup] at h
  exact nomatch h

theorem address_check_7_8_in_bounds_iff (hfit : UsedFit mmapped)
    (hsmall : ∀ a ∈ usedBlocks mmapped, a < FSSIZE) :
    InBounds (address_check_7_8 mmapped) ↔
      ∀ j a, firstRepeat Visit.addr (usedVisits mmapped) = some (.indirect j a) → j ≤ NDIRECT := by
  obtain ⟨hnone, hsome⟩ := address_check_7_8_cases hfit hsmall
  constructor
  · intro hbounds j a hrepeat
    by_contra hfar
    exact hbounds _ _ ((hsome _ hrepeat).2 j a rfl (not_le.mp hfar))
  · intro hnear
    rcases hrepeat : firstRepeat Visit.addr (usedVisits mmapped) with _ | v
    · rw [hnone hrepeat]
      exact inBounds_ok ()
    · obtain ⟨n, hn⟩ := (hsome v hrepeat).1 fun j a hv => hnear j a (hv ▸ hrepeat)
      rw [hn]
      exact inBounds_exit _

end Loop

/-- **When checks 7 and 8 decide.**  On an image whose inodes in use have at most 140 blocks, all
    of them below `FSSIZE`, the check exits iff an address is used twice and returns
    otherwise, unless the first repeat is an indirect entry behind the thirteenth. -/
theorem address_check_7_8_exact_iff (mmapped : Memory) (hfit : UsedFit mmapped)
    (hsmall : ∀ a ∈ usedBlocks mmapped, a < FSSIZE) :
    FindsDuplicates mmapped ↔
      ∀ j a, firstRepeat Visit.addr (usedVisits mmapped) = some (.indirect j a) → j ≤ NDIRECT := by
  obtain ⟨hnone, hsome⟩ := address_check_7_8_cases hfit hsmall
  constructor
  · rintro ⟨hexit, _⟩ j a hrepeat
    by_contra hfar
    obtain ⟨message, hmessage⟩ := hexit.mpr (not_nodup_of_repeat hrepeat)
    rw [(hsome _ hrepeat).2 j a rfl (not_le.mp hfar)] at hmessage
    exact nomatch hmessage
  · intro hnear
    rcases hrepeat : firstRepeat Visit.addr (usedVisits mmapped) with _ | v
    · have hclean : (usedBlocks mmapped).Nodup := (firstRepeat_eq_none_iff Visit.addr).mp hrepeat
      refine ⟨?_, iff_of_true (hnone hrepeat) hclean⟩
      rw [hnone hrepeat]
      exact iff_of_false (fun ⟨_, h⟩ => nomatch h) (not_not_intro hclean)
    · have hdup := not_nodup_of_repeat hrepeat
      obtain ⟨n, hn⟩ := (hsome v hrepeat).1 fun j a hv => hnear j a (hv ▸ hrepeat)
      refine ⟨iff_of_true ⟨_, hn⟩ hdup, ?_⟩
      rw [hn]
      exact iff_of_false (fun h => nomatch h) hdup

theorem smallImage_contents :
    (∀ i ∈ slots (readSuperblock smallImage),
      blockNum (rinode smallImage i (readSuperblock smallImage)).size ≤ NDIRECT + NINDIRECT ∧
        (rinode smallImage i (readSuperblock smallImage)).size ≤ 140 * 512) ∧
    (∀ a ∈ usedBlocks smallImage, a < FSSIZE) ∧
    (readSuperblock smallImage).bmapstart + 1 < 8 * BSIZE ∧
    (readSuperblock smallImage).nblocks ≤ FSSIZE := by
  decide +kernel

theorem usedFit_smallImage : UsedFit smallImage :=
  fun i hi _ => (smallImage_contents.1 i hi).1

/-- An image without a repeat. -/
theorem address_check_7_8_exact_smallImage :
    (UsedFit smallImage ∧ ∀ a ∈ usedBlocks smallImage, a < FSSIZE) ∧
      (FindsDuplicates smallImage ↔
        ∀ j a, firstRepeat Visit.addr (usedVisits smallImage) = some (.indirect j a) →
          j ≤ NDIRECT) :=
  ⟨⟨usedFit_smallImage, smallImage_contents.2.1⟩,
    address_check_7_8_exact_iff smallImage usedFit_smallImage smallImage_contents.2.1⟩

/-- One file of 28 blocks; entry 15 of its indirect block is its first block again. -/
def repeatImage : Memory := fun k =>
  if 1100 ≤ k ∧ k < 1152 ∧ k % 4 = 0 then UInt8.ofNat (59 + (k - 1100) / 4)
  else if 36352 ≤ k ∧ k < 36412 ∧ k % 4 = 0 then UInt8.ofNat (72 + (k - 36352) / 4)
  else ([(516, 173), (517, 3), (520, 1), (532, 2), (536, 58), (1088, 2), (1097, 56),
    (36412, 59)].lookup k).getD 0

theorem repeatImage_contents :
    (∀ i ∈ slots (readSuperblock repeatImage),
      blockNum (rinode repeatImage i (readSuperblock repeatImage)).size ≤ NDIRECT + NINDIRECT) ∧
    (∀ a ∈ usedBlocks repeatImage, a < FSSIZE) ∧ ¬ (usedBlocks repeatImage).Nodup ∧
    firstRepeat Visit.addr (usedVisits repeatImage) = some (.indirect 15 59) := by
  decide +kernel

/-- The repeat is found, and the choice of the message leads out of `addrs[]`. -/
theorem address_check_7_8_not_exact : ¬ ∀ mmapped : Memory, UsedFit mmapped →
    (∀ a ∈ usedBlocks mmapped, a < FSSIZE) → FindsDuplicates mmapped := by
  intro hfinds
  obtain ⟨hfit, hsmall, hdup, hrepeat⟩ := repeatImage_contents
  have hused : UsedFit repeatImage := fun i hi _ => hfit i hi
  obtain ⟨message, hmessage⟩ := (hfinds repeatImage hused hsmall).1.mpr hdup
  have hstop := ((address_check_7_8_cases hused hsmall).2 _ hrepeat).2 15 59 rfl (by decide)
  rw [hstop] at hmessage
  exact nomatch hmessage

end OstepProjects.FileSystemChecker
