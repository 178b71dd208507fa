/-
  OstepProjects/FileSystemChecker/BlockWrites.lean
  ================================================
  **What the checks are for: files do not share blocks.**

  On an image that all checks pass, the blocks of the inodes in use are a store: each place
  of a file has contents of its own.  A write to one place changes nothing but what stands
  there (`contents_write`), whatever is written, and the checks pass again.  So any
  sequence of writes is one to the store (`accepted_writes`).

  The inodes, the bitmap, the indirect blocks and the heads of the directories are what the
  checks read; a write to file contents leaves them alone (`SameStructure`).
-/
import OstepProjects.FileSystemChecker.Consistency

namespace OstepProjects.FileSystemChecker

open OstepProjects.Loops

/-! ### Two images with the same structure -/

/-- What the checks read is the same. -/
structure SameStructure (mmapped mmapped' : Memory) : Prop where
  superblock : readSuperblock mmapped' = readSuperblock mmapped
  inodes : ∀ i ∈ slots (readSuperblock mmapped),
    inodeAt mmapped' i (readSuperblock mmapped) = inodeAt mmapped i (readSuperblock mmapped)
  indirect : ∀ i ∈ slots (readSuperblock mmapped), NDIRECT < blocksAt mmapped i →
    block mmapped' ((rinode mmapped i (readSuperblock mmapped)).addrs NDIRECT) =
      block mmapped ((rinode mmapped i (readSuperblock mmapped)).addrs NDIRECT)
  bitmap : block mmapped' (readSuperblock mmapped).bmapstart =
    block mmapped (readSuperblock mmapped).bmapstart
  heads : ∀ i ∈ slots (readSuperblock mmapped), typeAt mmapped i = 1 →
    block mmapped' ((rinode mmapped i (readSuperblock mmapped)).addrs 0) =
      block mmapped ((rinode mmapped i (readSuperblock mmapped)).addrs 0)
  root : 1 ∈ slots (readSuperblock mmapped) ∧ typeAt mmapped 1 = 1

section Structure

variable {σ : Type} {mmapped mmapped' : Memory} {i : Nat}

theorem readDirent_block {sec j : Nat} (hj : j < BSIZE / 16) :
    readDirent (block mmapped sec) j = readDirent (rsect mmapped sec) j := by
  have hbyte : ∀ k < 16, block mmapped sec (16 * j + k) = rsect mmapped sec (16 * j + k) := by
    intro k hk
    apply if_pos
    rw [BSIZE] at hj ⊢
    omega
  have h0 := hbyte 0 (by decide)
  rw [Nat.add_zero] at h0
  unfold readDirent
  rw [h0, hbyte 1 (by decide)]
  congr 1
  apply List.map_congr_left
  intro k hk
  have hlt := List.mem_range.mp hk
  rw [Nat.add_assoc]
  exact hbyte (2 + k) (by omega)

namespace SameStructure

variable (h : SameStructure mmapped mmapped') (hi : i ∈ slots (readSuperblock mmapped))

include h hi

theorem type_eq : (rinode mmapped' i (readSuperblock mmapped)).type =
    (rinode mmapped i (readSuperblock mmapped)).type := by
  have htype := congrArg dinode.type (h.inodes i hi)
  rw [inodeAt_type, inodeAt_type] at htype
  exact htype

theorem typeAt_eq : typeAt mmapped' i = typeAt mmapped i := by
  unfold typeAt
  rw [h.superblock]
  exact h.type_eq hi

theorem addrs_eq {j : Nat} (hj : j ≤ NDIRECT) :
    (rinode mmapped' i (readSuperblock mmapped)).addrs j =
      (rinode mmapped i (readSuperblock mmapped)).addrs j := by
  rw [← inodeAt_addrs hj, h.inodes i hi, inodeAt_addrs hj]

/-- The loop over the blocks of an inode. -/
theorem eachBlock_eq {body : σ → Visit → Except Stop σ} (s : σ) :
    eachBlock mmapped' (inodeAt mmapped i (readSuperblock mmapped)) body s =
      eachBlock mmapped (inodeAt mmapped i (readSuperblock mmapped)) body s := by
  unfold eachBlock
  dsimp only
  split_ifs with hsize hfew
  · rfl
  · rfl
  · have hindirect := h.indirect i hi (not_le.mp hfew)
    rw [inodeAt_addrs (le_refl _), hindirect]

theorem readable_eq : readable mmapped' (inodeAt mmapped i (readSuperblock mmapped)) =
    readable mmapped (inodeAt mmapped i (readSuperblock mmapped)) := by
  unfold readable
  dsimp only
  split_ifs with hsize hfew
  · rfl
  · rfl
  · have hindirect := h.indirect i hi (not_le.mp hfew)
    rw [inodeAt_addrs (le_refl _), hindirect]

theorem owned_eq (hfit : blocksAt mmapped i ≤ NDIRECT + NINDIRECT) :
    owned mmapped' i = owned mmapped i := by
  have hfit' : blockNum (rinode mmapped' i (readSuperblock mmapped)).size ≤
      NDIRECT + NINDIRECT := by
    have hsize := congrArg dinode.size (h.inodes i hi)
    rw [inodeAt_size, inodeAt_size] at hsize
    rw [hsize]
    exact hfit
  have hblocks : inodeBlocks mmapped' (rinode mmapped' i (readSuperblock mmapped)) =
      inodeBlocks mmapped (rinode mmapped i (readSuperblock mmapped)) := by
    rw [← readable_inodeAt hfit', ← readable_inodeAt hfit, h.inodes i hi]
    exact h.readable_eq hi
  unfold owned
  dsimp only
  rw [h.superblock, h.type_eq hi, hblocks]

theorem formatted_eq : formatted mmapped' i = formatted mmapped i := by
  unfold formatted
  dsimp only
  rw [h.superblock, h.type_eq hi, h.addrs_eq hi (Nat.zero_le _)]
  split_ifs with htype
  · have hhead := h.heads i hi htype
    rw [← @readDirent_block mmapped' _ _ (by decide),
      ← @readDirent_block mmapped' _ _ (by decide), hhead,
      readDirent_block (by decide), readDirent_block (by decide)]
  · rfl

omit hi

/-- A loop over the slots whose bodies do the same. -/
theorem eachSlot_eq {body body' : Nat → dinode → σ → Except Stop σ}
    (hbody : ∀ i ∈ slots (readSuperblock mmapped), ∀ s,
      body' i (inodeAt mmapped i (readSuperblock mmapped)) s =
        body i (inodeAt mmapped i (readSuperblock mmapped)) s) (s : σ) :
    eachSlot mmapped' body' s = eachSlot mmapped body s := by
  unfold eachSlot
  dsimp only
  rw [h.superblock]
  apply foldlM_congr
  intro i hi s
  rw [h.inodes i hi]
  exact hbody i hi s

/-- A loop that skips free inodes. -/
theorem usedBody_eq (step : dinode → σ → Visit → Except Stop σ) (s : σ) :
    eachSlot mmapped' (usedBody mmapped' step) s = eachSlot mmapped (usedBody mmapped step) s := by
  apply h.eachSlot_eq
  intro i hi s
  unfold usedBody
  rw [h.eachBlock_eq hi]

theorem root_check_3_eq : root_check_3 mmapped' = root_check_3 mmapped := by
  have hhead := h.heads 1 h.root.1 h.root.2
  unfold root_check_3
  dsimp only
  rw [h.superblock, h.addrs_eq h.root.1 (Nat.zero_le _),
    ← @readDirent_block mmapped' _ _ (by decide), hhead, readDirent_block (by decide)]

/-- **The checks judge the two images alike.** -/
theorem accepted (hok : Accepted mmapped) : Accepted mmapped' := by
  have htypes : inode_detect_1 mmapped' = inode_detect_1 mmapped :=
    h.eachSlot_eq (fun _ _ _ => rfl) ()
  have haddresses : inodeaddr_detect_2 mmapped' = inodeaddr_detect_2 mmapped := by
    unfold inodeaddr_detect_2
    dsimp only
    rw [h.superblock]
    exact h.eachSlot_eq (fun i hi s => h.eachBlock_eq hi ()) ()
  have hmarked : Checked.bitmap_check_5 mmapped' = Checked.bitmap_check_5 mmapped := by
    unfold Checked.bitmap_check_5
    dsimp only
    rw [h.superblock, h.bitmap]
    exact h.usedBody_eq _ _
  have hunused : Checked.bitmap_check_6 mmapped' = Checked.bitmap_check_6 mmapped := by
    have hloop := h.usedBody_eq (fun _ => deleteStep)
      (block mmapped (readSuperblock mmapped).bmapstart)
    unfold Checked.bitmap_check_6
    dsimp only
    rw [h.superblock, h.bitmap]
    exact congrArg (fun x : Except Stop Memory =>
      x >>= fun buf => residueTest buf (readSuperblock mmapped)) hloop
  have hduplicates : address_check_7_8 mmapped' = address_check_7_8 mmapped := by
    have hloop := h.usedBody_eq countStep fun _ => 0
    unfold address_check_7_8
    exact congrArg (fun x : Except Stop (Nat → Nat) => x >>= fun _ => .ok ()) hloop
  have hdirectories : directory_check_4 mmapped' = true := by
    rw [directory_check_4_iff, h.superblock]
    intro i hi
    rw [h.formatted_eq hi]
    exact directory_check_4_iff.mp hok.directories i hi
  exact {
    types := htypes.trans hok.types
    addresses := haddresses.trans hok.addresses
    root := h.root_check_3_eq ▸ hok.root
    directories := hdirectories
    marked := hmarked ▸ hok.marked
    unused := hunused.trans hok.unused
    duplicates := hduplicates.trans hok.duplicates }

theorem ownedVisits_eq (hok : Accepted mmapped) : ownedVisits mmapped' = ownedVisits mmapped := by
  have hpasses := inodeaddr_detect_2_ok_iff.mp hok.addresses
  unfold ownedVisits
  rw [h.superblock]
  exact List.flatMap_congr fun i hi => h.owned_eq hi (hpasses i hi).1

end SameStructure

end Structure

/-! ### Writing a block -/

/-- The image when the bytes of block `a` are those of `data`. -/
def writeBlock (mmapped : Memory) (a : Nat) (data : Memory) : Memory :=
  fun k => if BSIZE * a ≤ k ∧ k < BSIZE * a + BSIZE then data (k - BSIZE * a) else mmapped k

/-- The order of the parts of a disk, as `fs.h` has it. -/
structure DiskLayout (sb : superblock) : Prop where
  inodes : 2 ≤ sb.inodestart
  bitmap : sb.inodestart + sb.ninodes / IPB < sb.bmapstart
  data : sb.bmapstart + 1 + sb.nblocks ≤ FSSIZE

/-- What no check asks for: free slots have no indirect block, directories have a block, and
    inode 1 is a directory. -/
structure Kept (mmapped : Memory) : Prop where
  free : ∀ i ∈ slots (readSuperblock mmapped), typeAt mmapped i = 0 → blocksAt mmapped i ≤ NDIRECT
  directories : ∀ i ∈ slots (readSuperblock mmapped), typeAt mmapped i = 1 →
    (rinode mmapped i (readSuperblock mmapped)).size ≠ 0
  root : 1 ∈ slots (readSuperblock mmapped) ∧ typeAt mmapped 1 = 1

/-- A place that holds contents of a file: not the address of the indirect block, and not the
    block of a directory with the entries `.` and `..`. -/
structure IsContents (mmapped : Memory) (p : Nat × Visit) : Prop where
  owned : p ∈ ownedVisits mmapped
  pointer : ∀ a, p.2 ≠ .direct NDIRECT a
  head : typeAt mmapped p.1 = 1 → ∀ a, p.2 ≠ .direct 0 a

/-- The contents of the places. -/
def contents (mmapped : Memory) (p : Nat × Visit) : Memory := block mmapped p.2.addr

/-- The first `BSIZE` bytes. -/
def cut (data : Memory) : Memory := fun k => if k < BSIZE then data k else 0

section Write

variable {mmapped data : Memory} {sec a : Nat}

theorem rsect_writeBlock (hsec : sec < FSSIZE) {k : Nat} (hk : k < BSIZE) :
    rsect (writeBlock mmapped a data) sec k = if sec = a then data k else rsect mmapped sec k := by
  have hsmall : BSIZE * sec % 2 ^ 32 = BSIZE * sec := by
    apply Nat.mod_eq_of_lt
    unfold BSIZE FSSIZE at *
    omega
  unfold rsect writeBlock
  rw [hsmall]
  unfold BSIZE FSSIZE at *
  split_ifs with hin heq heq
  · rw [heq]
    congr 1
    omega
  · omega
  · omega
  · rfl

theorem block_writeBlock (hsec : sec < FSSIZE) :
    block (writeBlock mmapped a data) sec = if sec = a then cut data else block mmapped sec := by
  funext k
  unfold block cut
  by_cases hk : k < BSIZE
  · rw [if_pos hk, rsect_writeBlock hsec hk]
    split_ifs with heq
    · exact (if_pos hk).symm
    · exact (if_pos hk).symm
  · rw [if_neg hk]
    split_ifs with heq
    · exact (if_neg hk).symm
    · exact (if_neg hk).symm

theorem block_writeBlock_ne (hsec : sec < FSSIZE) (hne : sec ≠ a) :
    block (writeBlock mmapped a data) sec = block mmapped sec := by
  rw [block_writeBlock hsec, if_neg hne]

theorem readSuperblock_writeBlock (hne : 1 ≠ a) :
    readSuperblock (writeBlock mmapped a data) = readSuperblock mmapped := by
  have hfield : ∀ offset, offset + 4 ≤ BSIZE →
      uintAt (rsect (writeBlock mmapped a data) 1) offset = uintAt (rsect mmapped 1) offset := by
    intro offset hle
    apply uintAt_congr
    intro k hk
    rw [rsect_writeBlock (by decide) (by omega), if_neg hne]
  unfold readSuperblock
  dsimp only
  rw [hfield 4 (by decide), hfield 8 (by decide), hfield 20 (by decide), hfield 24 (by decide)]

/-- The inodes of the other blocks. -/
theorem inodeAt_writeBlock {sb : superblock} {i : Nat} (hsec : i / IPB + sb.inodestart < FSSIZE)
    (hne : i / IPB + sb.inodestart ≠ a) :
    inodeAt (writeBlock mmapped a data) i sb = inodeAt mmapped i sb := by
  have hbn : (i / IPB + sb.inodestart) % 2 ^ 32 = i / IPB + sb.inodestart := by
    apply Nat.mod_eq_of_lt
    unfold FSSIZE at hsec
    omega
  have hmod : i % IPB < 8 := Nat.mod_lt _ (by decide)
  have hbyte : ∀ k < 64,
      rsect (writeBlock mmapped a data) (i / IPB + sb.inodestart) (64 * (i % IPB) + k) =
        rsect mmapped (i / IPB + sb.inodestart) (64 * (i % IPB) + k) := by
    intro k hk
    rw [rsect_writeBlock hsec (by unfold BSIZE; omega), if_neg hne]
  apply dinode.ext
  · have h0 := hbyte 0 (by decide)
    have h1 := hbyte 1 (by decide)
    rw [Nat.add_zero] at h0
    unfold inodeAt rinode shortAt
    dsimp only
    rw [hbn, h0, h1]
  · unfold inodeAt rinode
    dsimp only
    rw [hbn]
    apply uintAt_congr
    intro k hk
    rw [Nat.add_assoc]
    exact hbyte (8 + k) (by omega)
  · funext j
    unfold inodeAt rinode
    dsimp only
    rw [hbn]
    split_ifs with hj
    · apply uintAt_congr
      intro k hk
      unfold NDIRECT at hj
      rw [Nat.add_assoc, Nat.add_assoc]
      exact hbyte (12 + (4 * j + k)) (by omega)
    · rfl

end Write

/-! ### Writing to a place -/

section Place

variable {mmapped : Memory} {p q : Nat × Visit}

theorem direct_mem_inodeBlocks {ip : dinode} {k : Nat} (hk : k < blockNum ip.size)
    (hle : k ≤ NDIRECT) : Visit.direct k (ip.addrs k) ∈ inodeBlocks mmapped ip := by
  have hsize : ip.size ≠ 0 := by
    intro hzero
    rw [hzero, blockNum_zero] at hk
    exact Nat.not_lt_zero k hk
  unfold inodeBlocks
  rw [if_neg hsize]
  dsimp only
  split_ifs with hfew
  · exact List.mem_map.mpr ⟨k, List.mem_range.mpr hk, rfl⟩
  · exact List.mem_append_left _ (List.mem_map.mpr ⟨k, List.mem_range.mpr (by omega), rfl⟩)

theorem owned_range (hroom : (readSuperblock mmapped).bmapstart + 1 +
      (readSuperblock mmapped).nblocks ≤ FSSIZE) (hok : Accepted mmapped)
    (hp : p ∈ ownedVisits mmapped) :
    (readSuperblock mmapped).bmapstart < p.2.addr ∧ p.2.addr < FSSIZE := by
  have hpasses := inodeaddr_detect_2_ok_iff.mp hok.addresses
  have hused : p.2.addr ∈ usedBlocks mmapped := mem_usedBlocks (i := p.1) hp
  exact ⟨(used_range hroom hpasses _ hused).1, used_lt_of_passes hpasses _ hused⟩

/-- No two places are one block. -/
theorem addr_ne (hroom : (readSuperblock mmapped).bmapstart + 1 +
      (readSuperblock mmapped).nblocks ≤ FSSIZE) (hok : Accepted mmapped)
    (hp : p ∈ ownedVisits mmapped) (hq : q ∈ ownedVisits mmapped) (hne : q ≠ p) :
    q.2.addr ≠ p.2.addr := by
  obtain ⟨_, A, hA⟩ := hok.divided hroom
  exact fun heq => hne (hA.place_unique hq hp heq)

/-- **A write to file contents leaves what the checks read.** -/
theorem sameStructure_write (hlayout : DiskLayout (readSuperblock mmapped))
    (hok : Accepted mmapped) (hkept : Kept mmapped) (hp : IsContents mmapped p) (data : Memory) :
    SameStructure mmapped (writeBlock mmapped p.2.addr data) := by
  obtain ⟨hge, hlt⟩ := owned_range hlayout.data hok hp.owned
  have hinodes := hlayout.inodes
  have hbitmap := hlayout.bitmap
  have hstart := (Nat.le_add_right _ _).trans_lt hbitmap
  have hother : ∀ q ∈ ownedVisits mmapped, q ≠ p →
      block (writeBlock mmapped p.2.addr data) q.2.addr = block mmapped q.2.addr := by
    intro q hq hne
    exact block_writeBlock_ne (owned_range hlayout.data hok hq).2
      (addr_ne hlayout.data hok hp.owned hq hne)
  constructor
  case superblock => exact readSuperblock_writeBlock (by omega)
  case inodes =>
    intro i hi
    have hdiv : i / IPB ≤ (readSuperblock mmapped).ninodes / IPB :=
      Nat.div_le_div_right (mem_slots.mp hi).2
    exact inodeAt_writeBlock (by omega) (by omega)
  case indirect =>
    intro i hi hlong
    have hused : typeAt mmapped i ≠ 0 := fun hfree => (hkept.free i hi hfree).not_gt hlong
    have hmem := mem_ownedVisits.mpr
      ⟨hi, hused, direct_mem_inodeBlocks hlong (le_refl NDIRECT)⟩
    exact hother _ hmem fun heq => hp.pointer _ (congrArg Prod.snd heq).symm
  case bitmap => exact block_writeBlock_ne (by omega) (by omega)
  case heads =>
    intro i hi htype
    have hused : typeAt mmapped i ≠ 0 := by
      rw [htype]
      decide
    have hpos : 0 < blocksAt mmapped i :=
      Nat.pos_of_ne_zero fun hzero => hkept.directories i hi htype (blockNum_eq_zero hzero)
    have hmem := mem_ownedVisits.mpr
      ⟨hi, hused, direct_mem_inodeBlocks hpos (Nat.zero_le NDIRECT)⟩
    refine hother _ hmem fun heq => ?_
    have hinode : p.1 = i := (congrArg Prod.fst heq).symm
    exact hp.head (hinode ▸ htype) _ (congrArg Prod.snd heq).symm
  case root => exact hkept.root

/-- **A write changes one place of the store.** -/
theorem contents_write (hroom : (readSuperblock mmapped).bmapstart + 1 +
      (readSuperblock mmapped).nblocks ≤ FSSIZE) (hok : Accepted mmapped)
    (hp : p ∈ ownedVisits mmapped) (hq : q ∈ ownedVisits mmapped) (data : Memory) :
    contents (writeBlock mmapped p.2.addr data) q =
      Function.update (contents mmapped) p (cut data) q := by
  unfold contents
  rw [block_writeBlock (owned_range hroom hok hq).2]
  by_cases heq : q = p
  · rw [heq, if_pos rfl, Function.update_self]
  · rw [if_neg (addr_ne hroom hok hp hq heq), Function.update_of_ne heq]

namespace SameStructure

variable {mmapped' : Memory} (h : SameStructure mmapped mmapped')

include h

theorem kept (hkept : Kept mmapped) : Kept mmapped' := by
  have hsize : ∀ i ∈ slots (readSuperblock mmapped),
      (rinode mmapped' i (readSuperblock mmapped)).size =
        (rinode mmapped i (readSuperblock mmapped)).size := by
    intro i hi
    have hinode := congrArg dinode.size (h.inodes i hi)
    rw [inodeAt_size, inodeAt_size] at hinode
    exact hinode
  constructor
  case free =>
    rw [h.superblock]
    intro i hi hfree
    rw [h.typeAt_eq hi] at hfree
    unfold blocksAt
    rw [h.superblock, hsize i hi]
    exact hkept.free i hi hfree
  case directories =>
    rw [h.superblock]
    intro i hi htype
    rw [h.typeAt_eq hi] at htype
    rw [hsize i hi]
    exact hkept.directories i hi htype
  case root =>
    rw [h.superblock, h.typeAt_eq h.root.1]
    exact hkept.root

theorem isContents (hok : Accepted mmapped) (hp : IsContents mmapped p) :
    IsContents mmapped' p := by
  have hslot : p.1 ∈ slots (readSuperblock mmapped) :=
    (mem_ownedVisits (i := p.1) (v := p.2).mp hp.owned).1
  refine ⟨h.ownedVisits_eq hok ▸ hp.owned, hp.pointer, fun htype => ?_⟩
  exact hp.head (h.typeAt_eq hslot ▸ htype)

end SameStructure

end Place

/-! ### Sequences of writes -/

/-- Writes to places, one after the other. -/
def writeAll (mmapped : Memory) (ws : List ((Nat × Visit) × Memory)) : Memory :=
  ws.foldl (fun image w => writeBlock image w.1.2.addr w.2) mmapped

/-- The same writes to a store of blocks. -/
def storeAll (store : Nat × Visit → Memory) (ws : List ((Nat × Visit) × Memory)) :
    Nat × Visit → Memory :=
  ws.foldl (fun store w => Function.update store w.1 (cut w.2)) store

theorem storeAll_congr {store store' : Nat × Visit → Memory} {q : Nat × Visit}
    (h : store q = store' q) (ws : List ((Nat × Visit) × Memory)) :
    storeAll store ws q = storeAll store' ws q := by
  induction ws generalizing store store' with
  | nil => exact h
  | cons w ws ih =>
    apply ih
    dsimp only
    rw [Function.update_apply, Function.update_apply, h]

/-- **A sound image is a store of blocks.**  On an image that all checks pass, let writes go to
    places that hold file contents, in any order and whatever is written.  All checks pass
    again, the same inodes own the same blocks, and each block of a file holds what was
    written to its place last: no write shows at another place. -/
theorem accepted_writes (mmapped : Memory) (hlayout : DiskLayout (readSuperblock mmapped))
    (hok : Accepted mmapped) (hkept : Kept mmapped) (ws : List ((Nat × Visit) × Memory))
    (hws : ∀ w ∈ ws, IsContents mmapped w.1) :
    Accepted (writeAll mmapped ws) ∧ ownedVisits (writeAll mmapped ws) = ownedVisits mmapped ∧
      ∀ q ∈ ownedVisits mmapped,
        contents (writeAll mmapped ws) q = storeAll (contents mmapped) ws q := by
  induction ws generalizing mmapped with
  | nil => exact ⟨hok, rfl, fun _ _ => rfl⟩
  | cons w ws ih =>
    have hw := hws w List.mem_cons_self
    have hsame := sameStructure_write hlayout hok hkept hw w.2
    obtain ⟨haccepted, howned, hstore⟩ := ih (writeBlock mmapped w.1.2.addr w.2)
      (hsame.superblock ▸ hlayout) (hsame.accepted hok) (hsame.kept hkept)
      fun w' hw' => hsame.isContents hok (hws w' (List.mem_cons_of_mem w hw'))
    rw [hsame.ownedVisits_eq hok] at howned hstore
    refine ⟨haccepted, howned, fun q hq => (hstore q hq).trans ?_⟩
    exact storeAll_congr (contents_write hlayout.data hok hw.owned hq w.2) ws

/-- A direct block of the file `a` in `rootImage`, and the block behind its indirect one. -/
def twoWrites : List ((Nat × Visit) × Memory) :=
  [((2, .direct 3 64), fun _ => 7), ((2, .indirect 0 74), fun _ => 8)]

theorem rootImage_parts :
    (2 ≤ (readSuperblock rootImage).inodestart ∧
      (readSuperblock rootImage).inodestart + (readSuperblock rootImage).ninodes / IPB <
        (readSuperblock rootImage).bmapstart) ∧
    ((∀ i ∈ slots (readSuperblock rootImage),
        typeAt rootImage i = 0 → blocksAt rootImage i ≤ NDIRECT) ∧
      (∀ i ∈ slots (readSuperblock rootImage), typeAt rootImage i = 1 →
        (rinode rootImage i (readSuperblock rootImage)).size ≠ 0) ∧
      1 ∈ slots (readSuperblock rootImage) ∧ typeAt rootImage 1 = 1) ∧
    ∀ w ∈ twoWrites, w.1 ∈ ownedVisits rootImage ∧ typeAt rootImage w.1.1 ≠ 1 := by
  decide +kernel

theorem layout_rootImage : DiskLayout (readSuperblock rootImage) :=
  ⟨rootImage_parts.1.1, rootImage_parts.1.2, room_rootImage⟩

theorem kept_rootImage : Kept rootImage := by
  obtain ⟨_, ⟨hfree, hdirectories, hroot⟩, _⟩ := rootImage_parts
  exact ⟨hfree, hdirectories, hroot⟩

theorem isContents_twoWrites : ∀ w ∈ twoWrites, IsContents rootImage w.1 := by
  have hparts := rootImage_parts.2.2
  have hplace : ∀ w ∈ twoWrites, ∀ a, w.1.2 ≠ .direct NDIRECT a := by
    intro w hw a heq
    rcases List.mem_cons.mp hw with rfl | hw
    · exact absurd (Visit.direct.inj heq).1 (by decide)
    · obtain rfl := List.mem_singleton.mp hw
      exact nomatch heq
  intro w hw
  exact ⟨(hparts w hw).1, hplace w hw, fun htype => absurd htype (hparts w hw).2⟩

theorem accepted_writes_rootImage :
    Accepted (writeAll rootImage twoWrites) ∧
      contents (writeAll rootImage twoWrites) (2, .direct 3 64) 0 = 7 ∧
      contents (writeAll rootImage twoWrites) (2, .indirect 0 74) 511 = 8 := by
  obtain ⟨hok, _, hstore⟩ := accepted_writes rootImage layout_rootImage accepted_rootImage
    kept_rootImage twoWrites isContents_twoWrites
  have howned : ∀ w ∈ twoWrites, w.1 ∈ ownedVisits rootImage :=
    fun w hw => (rootImage_parts.2.2 w hw).1
  have hdirect := hstore (2, .direct 3 64) (howned _ (List.mem_cons_self ..))
  have hindirect := hstore (2, .indirect 0 74)
    (howned _ (List.mem_cons_of_mem _ (List.mem_cons_self ..)))
  exact ⟨hok, congrFun hdirect 0, congrFun hindirect 511⟩

end OstepProjects.FileSystemChecker
