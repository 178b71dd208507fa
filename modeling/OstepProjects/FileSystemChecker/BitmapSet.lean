/-
  OstepProjects/FileSystemChecker/BitmapSet.lean
  ==============================================
  **The bitmap helpers implement a set of block numbers.**

  `bitmap_delete` reads a signed `char`, combines it as an `int` with the mask and stores
  the low byte; `andChar_eq` says that this is the conjunction of the two bytes.  A
  sequence of deletions is then set difference (`members_deletes`), so its order and its
  repetitions do not matter and no other bit changes (`bitmap_helpers_set`).  The loops of
  check 6 are such a sequence: what they leave depends on the set of addresses in use and
  not on the inodes that use them or how often (`remaining_eq_deletes`).
-/
import OstepProjects.FileSystemChecker.Bitmap

namespace OstepProjects.FileSystemChecker

open OstepProjects.Removal

/-! ### Bytes as signed chars -/

/-- The byte `bitmap[char_index] & temp`: both sides become `int`s, the `char` by its sign
    and the `uchar` with zeros, and the result is cut to a `char`. -/
def andChar (byte temp : UInt8) : UInt8 :=
  (byte.toInt8.toInt32 &&& temp.toUInt32.toInt32).toInt8.toUInt8

/-- The sign bits are cut off again. -/
theorem andChar_eq (byte temp : UInt8) : andChar byte temp = byte &&& temp := by
  have hcut : BitVec.signExtend 8 (BitVec.setWidth 32 temp.toBitVec) = temp.toBitVec := by
    rw [BitVec.signExtend_eq_setWidth_of_le _ (by decide)]
    exact BitVec.setWidth_setWidth_of_le _ (by decide)
  apply UInt8.toBitVec_inj.mp
  apply BitVec.eq_of_getLsbD_eq
  intro i hi
  simp [andChar, hi, hcut]

theorem bitmap_delete_char (addr : Int) (bitmap : Memory) :
    bitmap_delete addr bitmap = Function.update bitmap (charIndex addr)
      (andChar (bitmap (charIndex addr)) (rotated (charLoca addr))) := by
  rw [andChar_eq]
  rfl

/-! ### Sequences of deletions -/

/-- `bitmap_delete` of the addresses of a list, from the front. -/
def deletes (as : List Nat) (bitmap : Memory) : Memory :=
  as.foldl (fun bitmap (a : Nat) => bitmap_delete a bitmap) bitmap

/-- The block numbers marked in a bitmap. -/
def members (bitmap : Memory) : Set Nat := blockSet.elements bitmap

/-- **Deletions are set difference.** -/
theorem members_deletes {as : List Nat} (h : ∀ a ∈ as, a < 8 * BSIZE) (bitmap : Memory) :
    members (deletes as bitmap) = members bitmap \ {a | a ∈ as} :=
  SetOps.elements_removeAll h bitmap

/-- What `bitmap_exist` finds after a sequence of deletions. -/
theorem bitmap_exist_deletes {as : List Nat} (h : ∀ a ∈ as, a < 8 * BSIZE) (bitmap : Memory)
    {b : Nat} (hb : b < 8 * BSIZE) :
    bitmap_exist b (deletes as bitmap) = if b ∈ as then 0 else bitmap_exist b bitmap := by
  have hbit := bitOf_foldl_delete h bitmap b
  rw [bitmap_exist_eq hb, bitmap_exist_eq hb, deletes, hbit]
  by_cases hmem : b ∈ as
  · simp [hmem]
  · simp [hmem]

/-- The helpers as a set: what deleting the addresses `as` does to `bitmap`.  `others` is
    about every bit of memory, also of the bytes behind the block. -/
structure ImplementsSet (as : List Nat) (bitmap : Memory) : Prop where
  exist : ∀ b < 8 * BSIZE,
    bitmap_exist b (deletes as bitmap) = if b ∈ as then 0 else bitmap_exist b bitmap
  anyOrder : ∀ bs : List Nat, bs.Perm as → deletes bs bitmap = deletes as bitmap
  repeats : ∀ bs : List Nat, (∀ a, a ∈ bs ↔ a ∈ as) → deletes bs bitmap = deletes as bitmap
  commute : ∀ a ∈ as, ∀ c ∈ as,
    bitmap_delete a (bitmap_delete c bitmap) = bitmap_delete c (bitmap_delete a bitmap)
  idempotent : ∀ a ∈ as, bitmap_delete a (bitmap_delete a bitmap) = bitmap_delete a bitmap
  again : ∀ a ∈ as, bitmap_delete a (deletes as bitmap) = deletes as bitmap
  others : ∀ b ∉ as, bitOf (deletes as bitmap) b = bitOf bitmap b

/-- **The helpers implement a set**, on the addresses that a block of 512 bytes has bits
    for. -/
theorem bitmap_helpers_set (as : List Nat) (h : ∀ a ∈ as, a < 8 * BSIZE) (bitmap : Memory) :
    ImplementsSet as bitmap where
  exist _ hb := bitmap_exist_deletes h bitmap hb
  anyOrder _ hperm := SetOps.removeAll_perm (R := blockSet) h hperm bitmap
  repeats _ hsame := SetOps.removeAll_congr (R := blockSet) h hsame bitmap
  commute a ha c hc := SetOps.remove_comm (R := blockSet) (h a ha) (h c hc) bitmap
  idempotent a ha := SetOps.remove_remove (R := blockSet) (h a ha) bitmap
  again _ ha := SetOps.remove_removeAll (R := blockSet) h ha bitmap
  others b hb := by
    have hbit := bitOf_foldl_delete h bitmap b
    rw [deletes, hbit]
    simp [hb]

theorem bitmap_helpers_set_edges :
    ImplementsSet [9, 7, 9, 4095] (fun _ => 0xA7) :=
  bitmap_helpers_set [9, 7, 9, 4095] (by decide) fun _ => 0xA7

/-! ### The loops of check 6 -/

/-- **What check 6 looks at depends on the set of addresses in use only.** -/
theorem remaining_eq_deletes {mmapped : Memory}
    (h : ∀ a ∈ usedBlocks mmapped, a < 8 * BSIZE) {bs : List Nat}
    (hbs : ∀ a, a ∈ bs ↔ a ∈ usedBlocks mmapped) :
    remaining mmapped = deletes bs (rsect mmapped (readSuperblock mmapped).bmapstart) := by
  apply bitmap_ext
  intro b
  have hlt : ∀ a ∈ bs, a < 8 * BSIZE := fun a ha => h a ((hbs a).mp ha)
  have hbit := bitOf_foldl_delete hlt (rsect mmapped (readSuperblock mmapped).bmapstart) b
  rw [remaining_eq h, deletes, hbit, decide_eq_decide.mpr (not_congr (hbs b))]

end OstepProjects.FileSystemChecker
