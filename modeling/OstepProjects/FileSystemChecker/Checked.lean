/-
  OstepProjects/FileSystemChecker/Checked.lean
  ============================================
  **The checks of `xchecker.c` with every array access checked.**

  The loops of the checks index `addrs[]`, `indirect[]`, the bitmap and
  `address_count[]` with numbers from the image.  Here such an access either lies in
  its array or stops the check (`Stop.outOfBounds`), and so does a shift that C leaves
  undefined (`Stop.shift`); a check that finds an error stops with its message
  (`Stop.exit`).

  `eachBlock` is the loop over the blocks of one inode that four checks repeat.  It runs
  its body over the addresses that lie in the arrays (`eachBlock_fit`), and goes out of
  bounds behind them when the inode has more than 140 blocks (`eachBlock_long`).  So checks
  5 and 6 decide whether the bitmap is right (`checks_decide_bitmap`).
-/
import OstepProjects.FileSystemChecker.Bitmap
import OstepProjects.Lib.Loops

namespace OstepProjects.FileSystemChecker

open OstepProjects.Loops

/-! ### Arrays -/

inductive ArrayName
  | addrs
  | indirect
  | bitmap
  | address_count
deriving DecidableEq, Repr

/-- Why a check does not return: `exit(1)` behind a message, an access outside of an array, or a
    shift by at least as many bits as an `int` has. -/
inductive Stop
  | exit (message : String)
  | outOfBounds (array : ArrayName) (index : Int)
  | shift (count : Nat)
deriving DecidableEq, Repr

/-- The check makes no access outside of an array. -/
def InBounds {α : Type} (result : Except Stop α) : Prop :=
  ∀ array index, result ≠ .error (.outOfBounds array index)

theorem inBounds_ok {α : Type} (a : α) : InBounds (.ok a) := fun _ _ h => nomatch h

theorem inBounds_exit {α : Type} (message : String) :
    InBounds (.error (.exit message) : Except Stop α) := fun _ _ h => nomatch h

/-- `BSIZE / sizeof(uint)` -/
def NINDIRECT : Nat := 128

/-- A sector in an array of `BSIZE` bytes; behind them nothing is read. -/
def block (mmapped : Memory) (sec : Nat) : Memory :=
  fun k => if k < BSIZE then rsect mmapped sec k else 0

/-- The inode that `rinode` copies, with `NDIRECT + 1` addresses. -/
def inodeAt (mmapped : Memory) (inum : Nat) (sb : superblock) : dinode :=
  let ip := rinode mmapped inum sb
  { ip with addrs := fun j => if j ≤ NDIRECT then ip.addrs j else 0 }

@[simp] theorem inodeAt_type (mmapped : Memory) (i : Nat) (sb : superblock) :
    (inodeAt mmapped i sb).type = (rinode mmapped i sb).type := rfl

@[simp] theorem inodeAt_size (mmapped : Memory) (i : Nat) (sb : superblock) :
    (inodeAt mmapped i sb).size = (rinode mmapped i sb).size := rfl

theorem inodeAt_addrs {mmapped : Memory} {i j : Nat} {sb : superblock} (hj : j ≤ NDIRECT) :
    (inodeAt mmapped i sb).addrs j = (rinode mmapped i sb).addrs j := if_pos hj

/-- `ip->addrs[j]` -/
def addrAt (ip : dinode) (j : Nat) : Except Stop Nat :=
  if j ≤ NDIRECT then .ok (ip.addrs j) else .error (.outOfBounds .addrs j)

/-- `indirect[j]` -/
def indirectAt (indirect : Memory) (j : Nat) : Except Stop Nat :=
  if j < NINDIRECT then .ok (uintAt indirect (4 * j)) else .error (.outOfBounds .indirect j)

/-! ### The loops -/

variable {σ : Type}

def directStep (ip : dinode) (body : σ → Visit → Except Stop σ) (s : σ) (j : Nat) :
    Except Stop σ := do
  body s (.direct j (← addrAt ip j))

def indirectStep (indirect : Memory) (body : σ → Visit → Except Stop σ) (s : σ) (j : Nat) :
    Except Stop σ := do
  body s (.indirect j (← indirectAt indirect j))

/-- The loops over the blocks of an inode. -/
def eachBlock (mmapped : Memory) (ip : dinode) (body : σ → Visit → Except Stop σ) (s : σ) :
    Except Stop σ :=
  if ip.size = 0 then .ok s
  else
    let block_num := blockNum ip.size
    if block_num ≤ NDIRECT then (List.range block_num).foldlM (directStep ip body) s
    else do
      let s ← (List.range (NDIRECT + 1)).foldlM (directStep ip body) s
      let indirect := block mmapped (ip.addrs NDIRECT)
      (List.range (block_num - NDIRECT)).foldlM (indirectStep indirect body) s

/-- The loop `for(int i = 1; i <= sb->ninodes; i++)`. -/
def eachSlot (mmapped : Memory) (body : Nat → dinode → σ → Except Stop σ) (s : σ) :
    Except Stop σ :=
  let sb := readSuperblock mmapped
  (slots sb).foldlM (fun s i => body i (inodeAt mmapped i sb) s) s

/-! ### The checks -/

/-- The body of `inode_detect_1`. -/
def detectType (i : Nat) (ip : dinode) : Except Stop Unit :=
  if ip.type ≠ 0 ∧ ip.type ≠ 1 ∧ ip.type ≠ 2 ∧ ip.type ≠ 3 then
    .error (.exit ("Inode:" ++ toString i ++ " type allocate error\n"))
  else .ok ()

def inode_detect_1 (mmapped : Memory) : Except Stop Unit :=
  eachSlot mmapped (fun i ip _ => detectType i ip) ()

/-- `FSSIZE - sb->nblocks`, which is unsigned. -/
def firstData (sb : superblock) : Nat := (FSSIZE + 2 ^ 32 - sb.nblocks) % 2 ^ 32

/-- The message of `inodeaddr_detect_2` about an address of inode `i`. -/
def badAddress (i : Nat) : Visit → String
  | .direct j _ =>
    "ERROR: bad direct address in inode:" ++ toString i ++ " direct:" ++ toString j ++ "\n"
  | .indirect j _ =>
    "ERROR: bad indirect address in inode:" ++ toString i ++ " indirect:" ++
      toString (j + NDIRECT) ++ "\n"

def detectAddr (sb : superblock) (i : Nat) (v : Visit) : Except Stop Unit :=
  if FSSIZE ≤ v.addr ∨ v.addr < firstData sb then .error (.exit (badAddress i v)) else .ok ()

def inodeaddr_detect_2 (mmapped : Memory) : Except Stop Unit :=
  let sb := readSuperblock mmapped
  eachSlot mmapped (fun i ip _ => eachBlock mmapped ip (fun _ => detectAddr sb i) ()) ()

/-- The byte of the bitmap that `bitmap_exist` and `bitmap_delete` use, and the shift to its bit. -/
def bitmapByte (addr : Int) : Except Stop Unit :=
  if BSIZE ≤ charIndex addr then .error (.outOfBounds .bitmap (charIndex addr))
  else if 32 ≤ charLoca addr then .error (.shift (charLoca addr))
  else .ok ()

def lookUpStep (buf : Memory) (out : List Message) (v : Visit) : Except Stop (List Message) := do
  bitmapByte (toInt v.addr)
  return out ++ [lookUp buf v]

def Checked.bitmap_check_5 (mmapped : Memory) : Except Stop (List Message) :=
  let buf := block mmapped (readSuperblock mmapped).bmapstart
  eachSlot mmapped (fun _ ip out =>
    if ip.type = 0 then .ok out else eachBlock mmapped ip (lookUpStep buf) out) []

def deleteStep (buf : Memory) (v : Visit) : Except Stop Memory := do
  bitmapByte (toInt v.addr)
  return bitmap_delete (toInt v.addr) buf

/-- What `bitmap_check_6` does behind its loops. -/
def residueTest (buf : Memory) (sb : superblock) : Except Stop Unit :=
  let start_block := toInt ((sb.bmapstart + 1) % 2 ^ 32)
  let startblock_index := start_block.tdiv 8
  if startblock_index < 0 ∨ BSIZE ≤ startblock_index then
    .error (.outOfBounds .bitmap startblock_index)
  else if xorChar (buf startblock_index.toNat) (2 ^ (start_block.tmod 8).toNat - 1) ≠ 0 then
    .error (.exit "ERROR: bitmap marks block in use but it is not in use\n")
  else if ∃ i ∈ List.range BSIZE, startblock_index < i ∧ buf i ≠ 0 then
    .error (.exit "ERROR: bitmap marks block in use but it is not in use\n")
  else .ok ()

def Checked.bitmap_check_6 (mmapped : Memory) : Except Stop Unit := do
  let sb := readSuperblock mmapped
  let buf ← eachSlot mmapped (fun _ ip buf =>
    if ip.type = 0 then .ok buf else eachBlock mmapped ip deleteStep buf)
      (block mmapped sb.bmapstart)
  residueTest buf sb

/-- `address_count[a]` -/
def countAt (address_count : Nat → Nat) (a : Nat) : Except Stop Nat :=
  if a < FSSIZE then .ok (address_count a) else .error (.outOfBounds .address_count a)

/-- The message for an address with this count. -/
def usedTwice (count : Nat) : Stop :=
  .exit (if count = 1 then "ERROR: direct address used more than once.\n"
    else "ERROR: indirect address used more than once.\n")

/-- The loop bodies of `address_check_7_8`.  For an indirect address the error branch reads the
    count of `ip->addrs[j]`. -/
def countStep (ip : dinode) (address_count : Nat → Nat) (v : Visit) :
    Except Stop (Nat → Nat) := do
  let count ← countAt address_count v.addr
  match v with
  | .direct _ addr =>
    if count > 0 then .error (usedTwice count)
    else return Function.update address_count addr (count + 1)
  | .indirect j addr =>
    if count > 0 then
      let other ← countAt address_count (← addrAt ip j)
      .error (usedTwice other)
    else return Function.update address_count addr (count + 2)

def address_check_7_8 (mmapped : Memory) : Except Stop Unit := do
  let _ ← eachSlot mmapped (fun _ ip count =>
    if ip.type = 0 then .ok count else eachBlock mmapped ip (countStep ip) count) (fun _ => 0)
  return ()

/-! ### The blocks that a loop comes to -/

/-- The visits of an inode that lie in the arrays. -/
def readable (mmapped : Memory) (ip : dinode) : List Visit :=
  if ip.size = 0 then []
  else
    let block_num := blockNum ip.size
    if block_num ≤ NDIRECT then (List.range block_num).map fun j => .direct j (ip.addrs j)
    else
      let indirect := block mmapped (ip.addrs NDIRECT)
      ((List.range (NDIRECT + 1)).map fun j => .direct j (ip.addrs j)) ++
        (List.range (min (block_num - NDIRECT) NINDIRECT)).map
          fun j => .indirect j (uintAt indirect (4 * j))

section Enumeration

variable {mmapped : Memory} {ip : dinode} {indirect : Memory} {body : σ → Visit → Except Stop σ}

theorem blockNum_zero : blockNum 0 = 0 := rfl

theorem directStep_foldlM {n : Nat} (hn : n ≤ NDIRECT + 1) (s : σ) :
    (List.range n).foldlM (directStep ip body) s =
      ((List.range n).map fun j => Visit.direct j (ip.addrs j)).foldlM body s := by
  rw [List.foldlM_map]
  apply foldlM_congr
  intro j hj s
  have hle : j ≤ NDIRECT := by
    have hlt := List.mem_range.mp hj
    omega
  rw [directStep, addrAt, if_pos hle, ok_bind]

theorem indirectStep_foldlM {n : Nat} (hn : n ≤ NINDIRECT) (s : σ) :
    (List.range n).foldlM (indirectStep indirect body) s =
      ((List.range n).map fun j => Visit.indirect j (uintAt indirect (4 * j))).foldlM body s := by
  rw [List.foldlM_map]
  apply foldlM_congr
  intro j hj s
  have hlt : j < NINDIRECT := (List.mem_range.mp hj).trans_le hn
  rw [indirectStep, indirectAt, if_pos hlt, ok_bind]

/-- The loop over the indirect block goes out of bounds behind its 128 entries. -/
theorem indirectStep_foldlM_long {n : Nat} (hn : NINDIRECT < n) (s : σ) :
    (List.range n).foldlM (indirectStep indirect body) s =
      ((List.range NINDIRECT).map fun j =>
          Visit.indirect j (uintAt indirect (4 * j))).foldlM body s >>=
        fun _ => .error (.outOfBounds .indirect NINDIRECT) := by
  rw [← indirectStep_foldlM (le_refl NINDIRECT)]
  apply foldlM_range_stop _ hn
  intro s
  rw [indirectStep, indirectAt, if_neg (lt_irrefl NINDIRECT)]
  rfl

/-- **The loop over the blocks of an inode** of at most 140 blocks. -/
theorem eachBlock_fit (hfit : blockNum ip.size ≤ NDIRECT + NINDIRECT) (s : σ) :
    eachBlock mmapped ip body s = (readable mmapped ip).foldlM body s := by
  have hrest : blockNum ip.size - NDIRECT ≤ NINDIRECT := by omega
  simp only [eachBlock, readable]
  by_cases hsize : ip.size = 0
  · rw [if_pos hsize, if_pos hsize]
    rfl
  · rw [if_neg hsize, if_neg hsize]
    by_cases hfew : blockNum ip.size ≤ NDIRECT
    · rw [if_pos hfew, if_pos hfew, directStep_foldlM (hfew.trans (Nat.le_succ NDIRECT))]
    · rw [if_neg hfew, if_neg hfew, List.foldlM_append, min_eq_left hrest,
        directStep_foldlM (le_refl _)]
      apply bind_congr
      intro s
      exact indirectStep_foldlM hrest s

/-- An inode of more than 140 blocks leads the loop out of the indirect block. -/
theorem eachBlock_long (hlong : NDIRECT + NINDIRECT < blockNum ip.size) (s : σ) :
    eachBlock mmapped ip body s = (readable mmapped ip).foldlM body s >>= fun _ =>
      .error (.outOfBounds .indirect NINDIRECT) := by
  have hmany : ¬ blockNum ip.size ≤ NDIRECT := by omega
  have hrest : NINDIRECT < blockNum ip.size - NDIRECT := by omega
  have hsize : ip.size ≠ 0 := by
    intro hzero
    rw [hzero, blockNum_zero] at hlong
    exact Nat.not_lt_zero _ hlong
  simp only [eachBlock, readable, if_neg hsize, if_neg hmany]
  rw [List.foldlM_append, min_eq_right hrest.le, bind_assoc, directStep_foldlM (le_refl _)]
  apply bind_congr
  intro s
  exact indirectStep_foldlM_long hrest s

theorem uintAt_congr {buf buf' : Memory} {offset : Nat}
    (h : ∀ k < 4, buf (offset + k) = buf' (offset + k)) :
    uintAt buf offset = uintAt buf' offset := by
  have h0 := h 0 (by decide)
  rw [Nat.add_zero] at h0
  rw [uintAt, uintAt, h0, h 1 (by decide), h 2 (by decide), h 3 (by decide)]

theorem uintAt_block {sec j : Nat} (hj : j < NINDIRECT) :
    uintAt (block mmapped sec) (4 * j) = uintAt (rsect mmapped sec) (4 * j) := by
  apply uintAt_congr
  intro k hk
  apply if_pos
  rw [NINDIRECT] at hj
  rw [BSIZE]
  omega

/-- What a loop reads of an inode that fits the arrays is what `inodeBlocks` lists. -/
theorem readable_inodeAt {i : Nat} {sb : superblock}
    (hfit : blockNum (rinode mmapped i sb).size ≤ NDIRECT + NINDIRECT) :
    readable mmapped (inodeAt mmapped i sb) = inodeBlocks mmapped (rinode mmapped i sb) := by
  simp only [readable, inodeBlocks, inodeAt_size, inodeAt_addrs (le_refl NDIRECT)]
  have hdirect : ∀ n ≤ NDIRECT + 1,
      ((List.range n).map fun j => Visit.direct j ((inodeAt mmapped i sb).addrs j)) =
        (List.range n).map fun j => Visit.direct j ((rinode mmapped i sb).addrs j) := by
    intro n hn
    apply List.map_congr_left
    intro j hj
    have hlt := List.mem_range.mp hj
    rw [inodeAt_addrs (by omega)]
  have hmin : min (blockNum (rinode mmapped i sb).size - NDIRECT) NINDIRECT =
      blockNum (rinode mmapped i sb).size - NDIRECT := by omega
  split_ifs with hzero hfew
  · rfl
  · exact hdirect _ (hfew.trans (Nat.le_succ NDIRECT))
  · rw [hdirect _ (le_refl _), hmin]
    congr 1
    apply List.map_congr_left
    intro j hj
    have hlt : j < NINDIRECT := by
      have hrange := List.mem_range.mp hj
      omega
    rw [uintAt_block hlt]

theorem eachBlock_inodeAt {i : Nat} {sb : superblock}
    (hfit : blockNum (rinode mmapped i sb).size ≤ NDIRECT + NINDIRECT) (s : σ) :
    eachBlock mmapped (inodeAt mmapped i sb) body s =
      (inodeBlocks mmapped (rinode mmapped i sb)).foldlM body s := by
  have hsize : blockNum (inodeAt mmapped i sb).size ≤ NDIRECT + NINDIRECT := hfit
  rw [← readable_inodeAt hfit, eachBlock_fit hsize]

end Enumeration

/-! ### Inodes in use -/

/-- The blocks of an inode in use, each with the inode's number. -/
def owned (mmapped : Memory) (i : Nat) : List (Nat × Visit) :=
  let ip := rinode mmapped i (readSuperblock mmapped)
  if ip.type = 0 then [] else (inodeBlocks mmapped ip).map (Prod.mk i)

def ownedVisits (mmapped : Memory) : List (Nat × Visit) :=
  (slots (readSuperblock mmapped)).flatMap (owned mmapped)

/-- Every inode in use fits the arrays. -/
def UsedFit (mmapped : Memory) : Prop :=
  ∀ i ∈ slots (readSuperblock mmapped), (rinode mmapped i (readSuperblock mmapped)).type ≠ 0 →
    blockNum (rinode mmapped i (readSuperblock mmapped)).size ≤ NDIRECT + NINDIRECT

section Used

variable {mmapped : Memory}

theorem ownedVisits_map_snd : (ownedVisits mmapped).map Prod.snd = usedVisits mmapped := by
  rw [ownedVisits, usedVisits, List.map_flatMap]
  apply List.flatMap_congr
  intro i _
  unfold owned
  dsimp only
  split_ifs
  · rfl
  · rw [List.map_map]
    exact List.map_id _

theorem mem_ownedVisits {i : Nat} {v : Visit} :
    (i, v) ∈ ownedVisits mmapped ↔
      i ∈ slots (readSuperblock mmapped) ∧
        (rinode mmapped i (readSuperblock mmapped)).type ≠ 0 ∧
        v ∈ inodeBlocks mmapped (rinode mmapped i (readSuperblock mmapped)) := by
  rw [ownedVisits, List.mem_flatMap]
  unfold owned
  dsimp only
  constructor
  · rintro ⟨k, hk, hmem⟩
    split_ifs at hmem with htype
    · exact absurd hmem List.not_mem_nil
    · obtain ⟨w, hw, heq⟩ := List.mem_map.mp hmem
      obtain ⟨rfl, rfl⟩ := Prod.mk.inj heq
      exact ⟨hk, htype, hw⟩
  · rintro ⟨hi, htype, hv⟩
    refine ⟨i, hi, ?_⟩
    rw [if_neg htype]
    exact List.mem_map_of_mem hv

/-- The checks that skip free inodes are one loop over the blocks in use. -/
theorem eachUsed_eq (hfit : UsedFit mmapped) (body : dinode → σ → Visit → Except Stop σ) (s : σ) :
    eachSlot mmapped (fun _ ip s =>
        if ip.type = 0 then .ok s else eachBlock mmapped ip (body ip) s) s =
      (ownedVisits mmapped).foldlM
        (fun s p => body (inodeAt mmapped p.1 (readSuperblock mmapped)) s p.2) s := by
  rw [eachSlot, ownedVisits, foldlM_flatMap]
  apply foldlM_congr
  intro i hi s
  rw [inodeAt_type, owned]
  split_ifs with hfree
  · rfl
  · have hle := hfit i hi hfree
    rw [eachBlock_inodeAt hle, List.foldlM_map]

end Used

/-! ### Checks that stay in the arrays -/

section InRange

variable {mmapped : Memory} {sec : Nat}

theorem bitmapByte_ok {a : Nat} (ha : a < 8 * BSIZE) : bitmapByte (toInt a) = .ok () := by
  have hint : a < 2 ^ 31 := ha.trans (by decide)
  have hbyte : a / 8 < BSIZE := Nat.div_lt_of_lt_mul ha
  have hbit : a % 8 < 32 := (Nat.mod_lt a (by decide)).trans (by decide)
  rw [bitmapByte, toInt_of_lt hint, charIndex_eq ha, charLoca_eq, if_neg hbyte.not_ge,
    if_neg hbit.not_ge]

theorem lookUp_block {v : Visit} (ha : v.addr < 8 * BSIZE) :
    lookUp (block mmapped sec) v = lookUp (rsect mmapped sec) v := by
  have hint : v.addr < 2 ^ 31 := ha.trans (by decide)
  have hbyte : block mmapped sec (v.addr / 8) = rsect mmapped sec (v.addr / 8) :=
    if_pos (Nat.div_lt_of_lt_mul ha)
  simp only [lookUp, bitmap_exist, toInt_of_lt hint, charIndex_eq ha, hbyte]

theorem exists_owned {a : Nat} (h : a ∈ usedBlocks mmapped) :
    ∃ i v, (i, v) ∈ ownedVisits mmapped ∧ v.addr = a := by
  rw [usedBlocks, ← ownedVisits_map_snd] at h
  obtain ⟨v, hv, rfl⟩ := List.mem_map.mp h
  obtain ⟨⟨i, w⟩, hmem, rfl⟩ := List.mem_map.mp hv
  exact ⟨i, w, hmem, rfl⟩

theorem mem_usedBlocks {i : Nat} {v : Visit} (h : (i, v) ∈ ownedVisits mmapped) :
    v.addr ∈ usedBlocks mmapped := by
  rw [usedBlocks, ← ownedVisits_map_snd]
  exact List.mem_map_of_mem (List.mem_map_of_mem h)

/-- On an image with small addresses check 5 prints what `bitmap_check_5` lists. -/
theorem Checked.bitmap_check_5_eq (hfit : UsedFit mmapped)
    (hused : ∀ a ∈ usedBlocks mmapped, a < 8 * BSIZE) :
    Checked.bitmap_check_5 mmapped = .ok (FileSystemChecker.bitmap_check_5 mmapped) := by
  have hstep : ∀ p ∈ ownedVisits mmapped, ∀ out,
      lookUpStep (block mmapped (readSuperblock mmapped).bmapstart) out p.2 =
        .ok (out ++ [lookUp (rsect mmapped (readSuperblock mmapped).bmapstart) p.2]) := by
    intro p hp out
    have ha := hused p.2.addr (mem_usedBlocks hp)
    rw [lookUpStep, bitmapByte_ok ha, lookUp_block ha]
    rfl
  unfold Checked.bitmap_check_5
  dsimp only
  rw [eachUsed_eq hfit, foldlM_ok hstep, ← List.flatMap_eq_foldl, ← List.map_eq_flatMap,
    FileSystemChecker.bitmap_check_5, ← ownedVisits_map_snd, List.map_map]
  rfl

theorem bitmap_delete_congr {buf buf' : Memory} (h : ∀ k < BSIZE, buf k = buf' k) {a : Nat}
    (ha : a < 8 * BSIZE) : ∀ k < BSIZE, bitmap_delete a buf k = bitmap_delete a buf' k := by
  intro k hk
  have hbyte := h (a / 8) (Nat.div_lt_of_lt_mul ha)
  simp only [bitmap_delete, charIndex_eq ha, Function.update_apply, hbyte, h k hk]

theorem foldl_delete_congr {vs : List Visit} (ha : ∀ v ∈ vs, v.addr < 8 * BSIZE) {buf buf' : Memory}
    (h : ∀ k < BSIZE, buf k = buf' k) :
    ∀ k < BSIZE, vs.foldl (fun buf v => bitmap_delete (toInt v.addr) buf) buf k =
      vs.foldl (fun buf v => bitmap_delete (toInt v.addr) buf) buf' k := by
  induction vs generalizing buf buf' with
  | nil => exact h
  | cons v vs ih =>
    have hv := ha v List.mem_cons_self
    have hint : v.addr < 2 ^ 31 := hv.trans (by decide)
    rw [List.foldl_cons, List.foldl_cons, toInt_of_lt hint]
    exact ih (fun w hw => ha w (List.mem_cons_of_mem v hw)) (bitmap_delete_congr h hv)

/-- The residue test on a copy of the bitmap that has the same bytes. -/
theorem residueTest_eq {buf : Memory} (hbuf : ∀ k < BSIZE, buf k = remaining mmapped k)
    (hstart : (readSuperblock mmapped).bmapstart + 1 < 8 * BSIZE) :
    residueTest buf (readSuperblock mmapped) =
      (FileSystemChecker.bitmap_check_6 mmapped).mapError Stop.exit := by
  have hmod : ((readSuperblock mmapped).bmapstart + 1) % 2 ^ 32 =
      (readSuperblock mmapped).bmapstart + 1 := Nat.mod_eq_of_lt (hstart.trans (by decide))
  have hindex : ((((readSuperblock mmapped).bmapstart + 1 : Nat) : Int)).tdiv 8 =
      (((readSuperblock mmapped).bmapstart + 1) / 8 : Nat) := Int.ofNat_tdiv _ 8
  have hbit : ((((readSuperblock mmapped).bmapstart + 1 : Nat) : Int)).tmod 8 =
      (((readSuperblock mmapped).bmapstart + 1) % 8 : Nat) := Int.ofNat_tmod _ 8
  have hlt : ((readSuperblock mmapped).bmapstart + 1) / 8 < BSIZE := Nat.div_lt_of_lt_mul hstart
  unfold residueTest FileSystemChecker.bitmap_check_6
  dsimp only
  rw [hmod, toInt_of_lt (hstart.trans (by decide)), hindex, hbit, if_neg (by omega),
    Int.toNat_natCast, Int.toNat_natCast, hbuf _ hlt]
  by_cases hfirst : xorChar (remaining mmapped (((readSuperblock mmapped).bmapstart + 1) / 8))
      (2 ^ (((readSuperblock mmapped).bmapstart + 1) % 8) - 1) ≠ 0
  · rw [if_pos hfirst, if_pos hfirst]
    rfl
  · rw [if_neg hfirst, if_neg hfirst]
    have hrest : (∃ i ∈ List.range BSIZE,
          ((((readSuperblock mmapped).bmapstart + 1) / 8 : Nat) : Int) < i ∧ buf i ≠ 0) ↔
        ∃ i ∈ List.range BSIZE,
          ((readSuperblock mmapped).bmapstart + 1) / 8 < i ∧ remaining mmapped i ≠ 0 := by
      refine exists_congr fun i => and_congr_right fun hi => ?_
      rw [hbuf i (List.mem_range.mp hi), Int.ofNat_lt]
    by_cases hleft : ∃ i ∈ List.range BSIZE,
        ((readSuperblock mmapped).bmapstart + 1) / 8 < i ∧ remaining mmapped i ≠ 0
    · rw [if_pos (hrest.mpr hleft), if_pos hleft]
      rfl
    · rw [if_neg (mt hrest.mp hleft), if_neg hleft]
      rfl

/-- On an image with small addresses check 6 is `bitmap_check_6`. -/
theorem Checked.bitmap_check_6_eq (hfit : UsedFit mmapped)
    (hused : ∀ a ∈ usedBlocks mmapped, a < 8 * BSIZE)
    (hstart : (readSuperblock mmapped).bmapstart + 1 < 8 * BSIZE) :
    Checked.bitmap_check_6 mmapped =
      (FileSystemChecker.bitmap_check_6 mmapped).mapError Stop.exit := by
  have hstep : ∀ p ∈ ownedVisits mmapped, ∀ buf,
      deleteStep buf p.2 = .ok (bitmap_delete (toInt p.2.addr) buf) := by
    intro p hp buf
    rw [deleteStep, bitmapByte_ok (hused p.2.addr (mem_usedBlocks hp))]
    rfl
  have hvisits : ∀ v ∈ usedVisits mmapped, v.addr < 8 * BSIZE := fun v hv =>
    hused v.addr (List.mem_map_of_mem hv)
  have hvisit : ∀ buf,
      (ownedVisits mmapped).foldl (fun buf p => bitmap_delete (toInt p.2.addr) buf) buf =
        (usedVisits mmapped).foldl (fun buf v => bitmap_delete (toInt v.addr) buf) buf := by
    intro buf
    rw [← ownedVisits_map_snd, List.foldl_map]
  unfold Checked.bitmap_check_6
  dsimp only
  rw [eachUsed_eq hfit, foldlM_ok hstep, ok_bind]
  apply residueTest_eq _ hstart
  rw [hvisit]
  exact foldl_delete_congr hvisits fun k hk => if_pos hk

end InRange

/-! ### Checks 5 and 6 together -/

/-- **Checks 5 and 6 decide the bitmap.**  Check 5 reports no error and check 6 returns
    exactly when the data blocks marked in the bitmap are the addresses in use; so it is
    for the loops over the arrays and for the lists of what they look at. -/
theorem checks_decide_bitmap {mmapped : Memory} (h : WellFormed mmapped) :
    ((∃ out, Checked.bitmap_check_5 mmapped = .ok out ∧ Message.markedFree ∉ out) ∧
        Checked.bitmap_check_6 mmapped = .ok () ↔ MarksUsed mmapped) ∧
      (Message.markedFree ∉ bitmap_check_5 mmapped ∧ bitmap_check_6 mmapped = .ok () ↔
        MarksUsed mmapped) := by
  have hused : ∀ a ∈ usedBlocks mmapped, a < 8 * BSIZE := fun a ha =>
    (h.used ha).2.trans (by decide)
  have hstart : (readSuperblock mmapped).bmapstart + 1 < 8 * BSIZE := by
    have hroom := h.start
    rw [FSSIZE] at hroom
    rw [BSIZE]
    omega
  refine ⟨?_, h.silent_iff⟩
  rw [← h.silent_iff, Checked.bitmap_check_5_eq h.blocks hused,
    Checked.bitmap_check_6_eq h.blocks hused hstart]
  have hlines : (∃ out, (.ok (bitmap_check_5 mmapped) : Except Stop (List Message)) = .ok out ∧
      Message.markedFree ∉ out) ↔ Message.markedFree ∉ bitmap_check_5 mmapped := by
    simp
  have hreturns : (bitmap_check_6 mmapped).mapError Stop.exit = .ok () ↔
      bitmap_check_6 mmapped = .ok () := by
    cases bitmap_check_6 mmapped <;> simp [Except.mapError]
  rw [hlines, hreturns]

theorem checks_decide_bitmap_smallImage :
    usedBlocks smallImage = List.range' 59 16 ∧
      ((∃ out, Checked.bitmap_check_5 smallImage = .ok out ∧ Message.markedFree ∉ out) ∧
          Checked.bitmap_check_6 smallImage = .ok () ↔ MarksUsed smallImage) ∧
      (Message.markedFree ∉ bitmap_check_5 smallImage ∧ bitmap_check_6 smallImage = .ok () ↔
        MarksUsed smallImage) :=
  ⟨by decide +kernel, checks_decide_bitmap ⟨by decide +kernel, by decide +kernel,
    by decide +kernel, by decide +kernel⟩⟩

end OstepProjects.FileSystemChecker
