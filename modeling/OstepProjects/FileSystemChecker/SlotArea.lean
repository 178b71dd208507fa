/-
  OstepProjects/FileSystemChecker/SlotArea.lean
  =============================================
  **The slot behind the last inode, and what a change of it leaves alone.**

  Inodes are numbered from 0 to `ninodes - 1`, and the loops of the checks run to
  `i <= ninodes`.  The 64 bytes that inode `ninodes` would have may also be read for other
  slots: they can lie in the bitmap, in an indirect block, in a directory, or, by
  wrap-around, in another inode.  `slotsFrom` are the slots from the first one on that is
  read from them, in an ordinary image slot `ninodes` alone (`slotsFrom_eq`).

  Two images that differ in the 64 bytes only look the same in front of these slots
  (`readsAt_eq_of_same`).
-/
import OstepProjects.FileSystemChecker.Verdicts

namespace OstepProjects.FileSystemChecker

open OstepProjects.Loops

/-! ### Places in an image -/

/-- Where `rsect` starts to copy. -/
def sectorStart (sec : Nat) : Nat := BSIZE * sec % 2 ^ 32

/-- `bn` in `rinode` -/
def inodeSector (sb : superblock) (inum : Nat) : Nat := (inum / IPB + sb.inodestart) % 2 ^ 32

/-- The first of the 64 bytes of an inode. -/
def inodeStart (sb : superblock) (inum : Nat) : Nat :=
  sectorStart (inodeSector sb inum) + 64 * (inum % IPB)

/-- Two images with the same superblock that differ in the slot behind the last inode only. -/
structure SameButSlot (mmapped mmapped' : Memory) : Prop where
  superblock : readSuperblock mmapped' = readSuperblock mmapped
  bytes : ∀ k, (k < inodeStart (readSuperblock mmapped) (readSuperblock mmapped).ninodes ∨
      inodeStart (readSuperblock mmapped) (readSuperblock mmapped).ninodes + 64 ≤ k) →
    mmapped' k = mmapped k

/-- `addrs[j]` of slot `i`. -/
def addrAtSlot (mmapped : Memory) (i j : Nat) : Nat :=
  (rinode mmapped i (readSuperblock mmapped)).addrs j

/-- The sector that has the 64 bytes of the slot behind the last inode in it. -/
def HoldsSlot (mmapped : Memory) (sec : Nat) : Prop :=
  sectorStart sec =
    sectorStart (inodeSector (readSuperblock mmapped) (readSuperblock mmapped).ninodes)

/-- The 64 bytes are among those that the checks read for slot `i`: its inode, the bitmap, its
    indirect block, or the first block of a directory. -/
def ReadsSlot (mmapped : Memory) (i : Nat) : Prop :=
  inodeStart (readSuperblock mmapped) i =
      inodeStart (readSuperblock mmapped) (readSuperblock mmapped).ninodes ∨
    HoldsSlot mmapped (readSuperblock mmapped).bmapstart ∨
    (NDIRECT < blocksAt mmapped i ∧ HoldsSlot mmapped (addrAtSlot mmapped i NDIRECT)) ∨
    (typeAt mmapped i = 1 ∧ HoldsSlot mmapped (addrAtSlot mmapped i 0))

instance (mmapped : Memory) (sec : Nat) : Decidable (HoldsSlot mmapped sec) :=
  inferInstanceAs (Decidable (_ = _))

instance (mmapped : Memory) (i : Nat) : Decidable (ReadsSlot mmapped i) :=
  inferInstanceAs (Decidable (_ ∨ _ ∨ _ ∧ _ ∨ _ ∧ _))

/-- The slots in front of the first one that is read from the 64 bytes. -/
def slotsBefore (mmapped : Memory) : List Nat :=
  (slots (readSuperblock mmapped)).takeWhile fun i => ¬ ReadsSlot mmapped i

/-- The slots from the first one on that is read from the 64 bytes. -/
def slotsFrom (mmapped : Memory) : List Nat :=
  (slots (readSuperblock mmapped)).dropWhile fun i => ¬ ReadsSlot mmapped i

section Slots

variable {mmapped : Memory}

theorem slots_eq_append :
    slots (readSuperblock mmapped) = slotsBefore mmapped ++ slotsFrom mmapped :=
  List.takeWhile_append_dropWhile.symm

theorem not_readsSlot {i : Nat} (hi : i ∈ slotsBefore mmapped) : ¬ ReadsSlot mmapped i := by
  have hfront := List.mem_takeWhile_imp hi
  exact of_decide_eq_true hfront

/-- **In an ordinary image only slot `ninodes` is read from its 64 bytes.** -/
theorem slotsFrom_eq (hpos : 0 < (readSuperblock mmapped).ninodes)
    (hreal : ∀ i, 1 ≤ i → i < (readSuperblock mmapped).ninodes → ¬ ReadsSlot mmapped i) :
    slotsFrom mmapped = [(readSuperblock mmapped).ninodes] := by
  obtain ⟨n, hn⟩ := Nat.exists_eq_add_of_lt hpos
  have hslots : slots (readSuperblock mmapped) =
      (List.range n).map (· + 1) ++ [(readSuperblock mmapped).ninodes] := by
    unfold slots
    rw [hn, Nat.zero_add, List.range_succ, List.map_append]
    rfl
  have hfront : ∀ i ∈ (List.range n).map (· + 1), decide (¬ ReadsSlot mmapped i) = true := by
    intro i hi
    obtain ⟨k, hk, rfl⟩ := List.mem_map.mp hi
    have hlt := List.mem_range.mp hk
    exact decide_eq_true (hreal (k + 1) (Nat.succ_pos k) (by omega))
  have hlast : ReadsSlot mmapped (readSuperblock mmapped).ninodes := Or.inl rfl
  rw [slotsFrom, hslots, List.dropWhile_append_of_pos hfront]
  exact List.dropWhile_cons_of_neg (by simpa using hlast)

end Slots

/-! ### What the two images have in common -/

section Common

variable {mmapped mmapped' : Memory} {sec i : Nat}

theorem rsect_eq_of_same (hsame : SameButSlot mmapped mmapped') (hsec : ¬ HoldsSlot mmapped sec) :
    ∀ k < BSIZE, rsect mmapped' sec k = rsect mmapped sec k := by
  intro k hk
  apply hsame.bytes
  unfold HoldsSlot at hsec
  unfold inodeStart sectorStart at *
  unfold BSIZE at *
  unfold IPB
  omega

theorem block_eq_of_same (hsame : SameButSlot mmapped mmapped') (hsec : ¬ HoldsSlot mmapped sec) :
    block mmapped' sec = block mmapped sec := by
  funext k
  unfold block
  split_ifs with hk
  · exact rsect_eq_of_same hsame hsec k hk
  · rfl

/-- The bytes of a slot that is elsewhere. -/
theorem inode_byte_eq (hsame : SameButSlot mmapped mmapped')
    (hi : inodeStart (readSuperblock mmapped) i ≠
      inodeStart (readSuperblock mmapped) (readSuperblock mmapped).ninodes) :
    ∀ k < 64, rsect mmapped' (inodeSector (readSuperblock mmapped) i) (64 * (i % IPB) + k) =
      rsect mmapped (inodeSector (readSuperblock mmapped) i) (64 * (i % IPB) + k) := by
  intro k hk
  apply hsame.bytes
  unfold inodeStart sectorStart at *
  unfold BSIZE at *
  omega

/-- The loops read the same inode. -/
theorem inodeAt_eq_of_same (hsame : SameButSlot mmapped mmapped') (hi : ¬ ReadsSlot mmapped i) :
    inodeAt mmapped' i (readSuperblock mmapped) = inodeAt mmapped i (readSuperblock mmapped) := by
  have hbyte := inode_byte_eq hsame fun h => hi (Or.inl h)
  have htype : (rinode mmapped' i (readSuperblock mmapped)).type =
      (rinode mmapped i (readSuperblock mmapped)).type := by
    have h0 := hbyte 0 (by decide)
    have h1 := hbyte 1 (by decide)
    rw [Nat.add_zero] at h0
    exact congrArg Int16.ofNat (by rw [inodeSector] at h0 h1; rw [h0, h1])
  have hsize : (rinode mmapped' i (readSuperblock mmapped)).size =
      (rinode mmapped i (readSuperblock mmapped)).size := by
    apply uintAt_congr
    intro k hk
    rw [Nat.add_assoc]
    exact hbyte (8 + k) (by omega)
  have haddrs : (inodeAt mmapped' i (readSuperblock mmapped)).addrs =
      (inodeAt mmapped i (readSuperblock mmapped)).addrs := by
    funext j
    unfold inodeAt
    dsimp only
    split_ifs with hj
    · apply uintAt_congr
      intro k hk
      rw [NDIRECT] at hj
      rw [Nat.add_assoc, Nat.add_assoc]
      exact hbyte (12 + (4 * j + k)) (by omega)
    · rfl
  exact dinode.ext htype hsize haddrs

theorem typeAt_eq_of_same (hsame : SameButSlot mmapped mmapped') (hi : ¬ ReadsSlot mmapped i) :
    typeAt mmapped' i = typeAt mmapped i := by
  have hinode := inodeAt_eq_of_same hsame hi
  unfold typeAt
  rw [hsame.superblock, ← inodeAt_type, ← inodeAt_type, hinode]

/-- The loops read the same addresses. -/
theorem readableAt_eq_of_same (hsame : SameButSlot mmapped mmapped') (hi : ¬ ReadsSlot mmapped i) :
    readableAt mmapped' i = readableAt mmapped i := by
  unfold readableAt readable
  dsimp only
  rw [hsame.superblock, inodeAt_eq_of_same hsame hi]
  split_ifs with hsize hfew
  · rfl
  · rfl
  · have hsec : ¬ HoldsSlot mmapped (addrAtSlot mmapped i NDIRECT) := fun h =>
      hi (Or.inr (Or.inr (Or.inl ⟨not_le.mp hfew, h⟩)))
    have hblock := block_eq_of_same hsame hsec
    rw [addrAtSlot] at hblock
    rw [inodeAt_addrs (le_refl _), hblock]

theorem readsAt_eq_of_same (hsame : SameButSlot mmapped mmapped') (hi : ¬ ReadsSlot mmapped i) :
    readsAt mmapped' i = readsAt mmapped i := by
  have hreadable := readableAt_eq_of_same hsame hi
  unfold readableAt at hreadable
  unfold readsAt reads
  rw [hreadable, hsame.superblock, inodeAt_eq_of_same hsame hi]

theorem usedAt_eq_of_same (hsame : SameButSlot mmapped mmapped') (hi : ¬ ReadsSlot mmapped i) :
    usedAt mmapped' i = usedAt mmapped i := by
  unfold usedAt
  rw [typeAt_eq_of_same hsame hi, readableAt_eq_of_same hsame hi]

theorem usedReads_eq_of_same (hsame : SameButSlot mmapped mmapped') (hi : ¬ ReadsSlot mmapped i) :
    usedReads mmapped' i = usedReads mmapped i := by
  unfold usedReads
  rw [typeAt_eq_of_same hsame hi, readsAt_eq_of_same hsame hi]

/-- A directory whose first block is elsewhere is formatted alike. -/
theorem readDirent_eq_of_same {j : Nat} (hsame : SameButSlot mmapped mmapped')
    (hsec : ¬ HoldsSlot mmapped sec) (hj : j < BSIZE / 16) :
    readDirent (rsect mmapped' sec) j = readDirent (rsect mmapped sec) j := by
  have hbyte : ∀ k < 16, rsect mmapped' sec (16 * j + k) = rsect mmapped sec (16 * j + k) := by
    intro k hk
    apply rsect_eq_of_same hsame hsec
    rw [BSIZE] at hj ⊢
    omega
  have h0 := hbyte 0 (by decide)
  rw [Nat.add_zero] at h0
  unfold readDirent
  rw [h0, hbyte 1 (by decide)]
  congr 1
  apply List.map_congr_left
  intro k hk
  have hlt := List.mem_range.mp hk
  rw [Nat.add_assoc]
  exact hbyte (2 + k) (by omega)

theorem formatted_eq_of_same (hsame : SameButSlot mmapped mmapped') (hi : ¬ ReadsSlot mmapped i) :
    formatted mmapped' i = formatted mmapped i := by
  have hinode := inodeAt_eq_of_same hsame hi
  have htype := congrArg dinode.type hinode
  have haddr := congrFun (congrArg dinode.addrs hinode) 0
  rw [inodeAt_type, inodeAt_type] at htype
  rw [inodeAt_addrs (Nat.zero_le _), inodeAt_addrs (Nat.zero_le _)] at haddr
  unfold formatted
  dsimp only
  rw [hsame.superblock, htype, haddr]
  split_ifs with hdir
  · have hsec : ¬ HoldsSlot mmapped ((rinode mmapped i (readSuperblock mmapped)).addrs 0) :=
      fun h => hi (Or.inr (Or.inr (Or.inr ⟨hdir, h⟩)))
    rw [readDirent_eq_of_same hsame hsec (by decide), readDirent_eq_of_same hsame hsec (by decide)]
  · rfl

/-- The bitmap is elsewhere as well. -/
theorem marks_eq_of_same (hsame : SameButSlot mmapped mmapped') (hi : ¬ ReadsSlot mmapped i)
    {b : Nat} (hb : b < 8 * BSIZE) : marks mmapped' b = marks mmapped b := by
  have hsec : ¬ HoldsSlot mmapped (readSuperblock mmapped).bmapstart := fun h =>
    hi (Or.inr (Or.inl h))
  unfold marks bitOf
  rw [hsame.superblock, rsect_eq_of_same hsame hsec _ (Nat.div_lt_of_lt_mul hb)]

end Common

end OstepProjects.FileSystemChecker
