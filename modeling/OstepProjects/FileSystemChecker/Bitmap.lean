/-
  OstepProjects/FileSystemChecker/Bitmap.lean
  ===========================================
  **The bitmap helpers, and checks 5 and 6 of `xchecker.c`.**

  `bitmap_exist` and `bitmap_delete` are membership in and removal from the set of
  block numbers that a bitmap block stands for (`bitmap_exist_eq`,
  `bitOf_bitmap_delete`).  Check 5 looks up every address in use, check 6 removes
  them all from a copy and looks at what is left; together they decide whether the
  bitmap marks exactly the data blocks in use (`WellFormed.silent_iff`).
-/
import OstepProjects.FileSystemChecker.Image
import OstepProjects.Lib.Removal
import Mathlib.Data.Nat.Bitwise
import Mathlib.Logic.Function.Basic

namespace OstepProjects.FileSystemChecker

open OstepProjects.Removal

/-- The `int` that a `uint` argument becomes. -/
def toInt (u : Nat) : Int := if u < 2 ^ 31 then u else u - 2 ^ 32

/-- The `ushort` that an `int` becomes. -/
def toUshort (i : Int) : Nat := (i % 2 ^ 16).toNat

/-! ### The helpers -/

/-- `char_index` -/
def charIndex (addr : Int) : Nat :=
  toUshort (if (addr + 1).tmod 8 = 0 then (addr + 1).tdiv 8 - 1 else (addr + 1).tdiv 8)

/-- `char_loca` -/
def charLoca (addr : Int) : Nat := toUshort (addr.tmod 8)

def bitmap_exist (addr : Int) (bitmap : Memory) : Nat :=
  let bit := ((bitmap (charIndex addr)).toNat >>> charLoca addr) &&& 0x1
  if bit = 0 then 0 else 1

/-- `temp`, the byte `0xFE` rotated. -/
def rotated (char_loca : Nat) : UInt8 :=
  UInt8.ofNat ((0xFE <<< char_loca) ||| (0xFE >>> (8 - char_loca)))

def bitmap_delete (addr : Int) (bitmap : Memory) : Memory :=
  let char_index := charIndex addr
  Function.update bitmap char_index (bitmap char_index &&& rotated (charLoca addr))

/-! ### The checks -/

/-- What `bitmap_check_5` prints for one address. -/
inductive Message
  | daddr (addr : Int) (bit : Nat)
  | iaddr (addr : Int) (bit : Nat)
  | markedFree
deriving DecidableEq

def Message.text : Message → String
  | .daddr addr bit => "DADDR:" ++ toString addr ++ " " ++ toString bit ++ "\n"
  | .iaddr addr bit => "IADDR:" ++ toString addr ++ " " ++ toString bit ++ "\n"
  | .markedFree => "ERROR: address used by inode but marked free by bitmap\n"

/-- The loop bodies of `bitmap_check_5`. -/
def lookUp (buf : Memory) (v : Visit) : Message :=
  let addr := toInt v.addr
  if bitmap_exist addr buf ≠ 0 then
    match v with
    | .direct .. => .daddr addr (bitmap_exist addr buf)
    | .indirect .. => .iaddr addr (bitmap_exist addr buf)
  else .markedFree

def bitmap_check_5 (mmapped : Memory) : List Message :=
  let buf := rsect mmapped (readSuperblock mmapped).bmapstart
  (usedVisits mmapped).map (lookUp buf)

/-- The copy of the bitmap after the loops of `bitmap_check_6`. -/
def remaining (mmapped : Memory) : Memory :=
  let buf := rsect mmapped (readSuperblock mmapped).bmapstart
  (usedVisits mmapped).foldl (fun buf v => bitmap_delete (toInt v.addr) buf) buf

/-- The test of one byte against an `int`; the byte is a `char`, so it is extended by
    its sign. -/
def xorChar (byte : UInt8) (expected : Nat) : Int32 :=
  byte.toInt8.toInt32 ^^^ Int32.ofNat expected

/-- `bitmap_check_6`: the message it exits with, if it does. -/
def bitmap_check_6 (mmapped : Memory) : Except String Unit :=
  let buf := remaining mmapped
  let start_block := (readSuperblock mmapped).bmapstart + 1
  let startblock_index := start_block / 8
  if xorChar (buf startblock_index) (2 ^ (start_block % 8) - 1) ≠ 0 then
    throw "ERROR: bitmap marks block in use but it is not in use\n"
  else if ∃ i ∈ List.range BSIZE, startblock_index < i ∧ buf i ≠ 0 then
    throw "ERROR: bitmap marks block in use but it is not in use\n"
  else return ()

/-! ### The helpers as operations on a set of block numbers -/

/-- Bit `b` of a bitmap. -/
def bitOf (bitmap : Memory) (b : Nat) : Bool := (bitmap (b / 8)).toNat.testBit (b % 8)

theorem charIndex_eq {a : Nat} (h : a < 8 * BSIZE) : charIndex a = a / 8 := by
  have hpos : (0 : Int) ≤ (a : Int) + 1 := by omega
  have ha : a < 4096 := h
  rw [charIndex, toUshort, Int.tmod_eq_emod_of_nonneg hpos, Int.tdiv_eq_ediv_of_nonneg hpos]
  split <;> omega

theorem charLoca_eq (a : Nat) : charLoca a = a % 8 := by
  have hpos : (0 : Int) ≤ (a : Int) := Int.natCast_nonneg a
  rw [charLoca, toUshort, Int.tmod_eq_emod_of_nonneg hpos]
  omega

theorem testBit_rotated : ∀ l < 8, ∀ k < 8, (rotated l).toNat.testBit k = decide (k ≠ l) := by
  decide

/-- The bit that the helpers use for an address. -/
def bitIndex (addr : Int) : Nat := 8 * charIndex addr + charLoca addr

theorem bitIndex_eq {a : Nat} (h : a < 8 * BSIZE) : bitIndex a = a := by
  rw [bitIndex, charIndex_eq h, charLoca_eq]
  exact Nat.div_add_mod a 8

/-- `bitmap_exist` reads the bit of its address. -/
theorem bitmap_exist_eq_bit {addr : Int} (h : charLoca addr < 8) (bitmap : Memory) :
    bitmap_exist addr bitmap = (bitOf bitmap (bitIndex addr)).toNat := by
  have hbit : ∀ b : Nat, ∀ i, (b >>> i) &&& 1 = (b.testBit i).toNat := by
    intro b i
    rw [Nat.testBit_eq_decide_div_mod_eq, Nat.and_one_is_mod, Nat.shiftRight_eq_div_pow]
    rcases Nat.mod_two_eq_zero_or_one (b / 2 ^ i) with h0 | h1
    · simp [h0]
    · simp [h1]
  have hbyte : bitIndex addr / 8 = charIndex addr := by
    unfold bitIndex
    omega
  have hloca : bitIndex addr % 8 = charLoca addr := by
    unfold bitIndex
    omega
  simp only [bitmap_exist, hbit, bitOf, hbyte, hloca]
  cases ((bitmap (charIndex addr)).toNat.testBit (charLoca addr)) <;> rfl

theorem bitmap_exist_eq {a : Nat} (h : a < 8 * BSIZE) (bitmap : Memory) :
    bitmap_exist a bitmap = (bitOf bitmap a).toNat := by
  have hloca : charLoca a < 8 := by
    rw [charLoca_eq]
    exact Nat.mod_lt a (by decide)
  rw [bitmap_exist_eq_bit hloca, bitIndex_eq h]

/-- **`bitmap_delete` clears the bit of its address and no other.** -/
theorem bitOf_delete_bit {addr : Int} (h : charLoca addr < 8) (bitmap : Memory) (b : Nat) :
    bitOf (bitmap_delete addr bitmap) b = (bitOf bitmap b && decide (b ≠ bitIndex addr)) := by
  simp only [bitOf, bitmap_delete]
  by_cases hbyte : b / 8 = charIndex addr
  · rw [hbyte, Function.update_self, UInt8.toNat_and, Nat.testBit_and,
      testBit_rotated _ h _ (Nat.mod_lt b (by decide))]
    have hiff : (b % 8 ≠ charLoca addr) ↔ b ≠ bitIndex addr := by
      unfold bitIndex
      omega
    simp only [hiff]
  · have hne : b ≠ bitIndex addr := by
      unfold bitIndex
      omega
    rw [Function.update_of_ne hbyte]
    simp [hne]

theorem bitOf_bitmap_delete {a : Nat} (h : a < 8 * BSIZE) (bitmap : Memory) (b : Nat) :
    bitOf (bitmap_delete a bitmap) b = (bitOf bitmap b && decide (b ≠ a)) := by
  have hloca : charLoca a < 8 := by
    rw [charLoca_eq]
    exact Nat.mod_lt a (by decide)
  rw [bitOf_delete_bit hloca, bitIndex_eq h]

/-- A byte is determined by its bits. -/
theorem byte_eq_iff (bitmap : Memory) (i : Nat) {e : Nat} (he : e < 2 ^ 8) :
    (bitmap i).toNat = e ↔ ∀ k < 8, bitOf bitmap (8 * i + k) = e.testBit k := by
  have hbit : ∀ k < 8, bitOf bitmap (8 * i + k) = (bitmap i).toNat.testBit k := by
    intro k hk
    have hdiv : (8 * i + k) / 8 = i := by omega
    have hmod : (8 * i + k) % 8 = k := by omega
    rw [bitOf, hdiv, hmod]
  constructor
  · intro h k hk
    rw [hbit k hk, h]
  · intro h
    apply Nat.eq_of_testBit_eq
    intro k
    rcases Nat.lt_or_ge k 8 with hk | hk
    · rw [← hbit k hk, h k hk]
    · have hpow : 2 ^ 8 ≤ 2 ^ k := Nat.pow_le_pow_right (by decide) hk
      have hbyte := (bitmap i).toNat_lt
      rw [Nat.testBit_lt_two_pow (hbyte.trans_le hpow), Nat.testBit_lt_two_pow (he.trans_le hpow)]

/-- Two bitmaps with the same bits are equal. -/
theorem bitmap_ext {bitmap bitmap' : Memory} (h : ∀ b, bitOf bitmap b = bitOf bitmap' b) :
    bitmap = bitmap' := by
  funext i
  apply UInt8.toNat_inj.mp
  apply (byte_eq_iff bitmap i (bitmap' i).toNat_lt).mpr
  intro k hk
  exact (h (8 * i + k)).trans ((byte_eq_iff bitmap' i (bitmap' i).toNat_lt).mp rfl k hk)

/-- The set of block numbers that a bitmap stands for. -/
def blockSet : SetOps Memory Nat where
  mem := bitOf
  remove a bitmap := bitmap_delete a bitmap
  valid a := a < 8 * BSIZE
  ext _ _ := bitmap_ext
  mem_remove bitmap _ b h := bitOf_bitmap_delete h bitmap b

/-- Removing a list of addresses, in whatever order. -/
theorem bitOf_foldl_delete {as : List Nat} (h : ∀ a ∈ as, a < 8 * BSIZE) (bitmap : Memory)
    (b : Nat) :
    bitOf (as.foldl (fun buf (a : Nat) => bitmap_delete a buf) bitmap) b =
      (bitOf bitmap b && decide (b ∉ as)) :=
  SetOps.mem_removeAll (R := blockSet) h bitmap b

/-! ### What is left after check 6 -/

theorem toInt_of_lt {a : Nat} (h : a < 2 ^ 31) : toInt a = a := by
  rw [toInt, if_pos h]

/-- The loops of check 6 remove the addresses in use. -/
theorem remaining_eq {mmapped : Memory} (h : ∀ a ∈ usedBlocks mmapped, a < 8 * BSIZE) (b : Nat) :
    bitOf (remaining mmapped) b =
      (bitOf (rsect mmapped (readSuperblock mmapped).bmapstart) b &&
        decide (b ∉ usedBlocks mmapped)) := by
  rw [← bitOf_foldl_delete h, usedBlocks, List.foldl_map, remaining]
  congr 1
  apply List.foldl_ext _ _ _
  intro buf v hv
  have hlt := h v.addr (List.mem_map.mpr ⟨v, hv, rfl⟩)
  rw [toInt_of_lt (by rw [BSIZE] at hlt; omega)]

/-- The test of the first byte compares it with the `int`. -/
theorem xorChar_eq_zero (byte : UInt8) {e : Nat} (h : e < 2 ^ 7) :
    xorChar byte e = 0 ↔ byte.toNat = e := by
  have hbyte := byte.toNat_lt
  have hsize : e < 2 ^ 31 := h.trans (by decide)
  have hchar : byte.toInt8.toInt32.toInt = (byte.toNat : Int).bmod (2 ^ 8) := by
    rw [Int8.toInt_toInt32]
    exact BitVec.toInt_eq_toNat_bmod _
  rw [xorChar, Int32.xor_eq_zero_iff, ← Int32.toInt_inj, hchar, Int32.toInt_ofNat_of_lt hsize,
    Int.bmod_def]
  split <;> omega

/-- **The residue test.**  From byte `first` on, exactly the first `k` bits are left. -/
theorem residue_iff (buf : Memory) (first : Nat) {k : Nat} (hk : k < 8) :
    (xorChar (buf first) (2 ^ k - 1) = 0 ∧ ∀ i, first < i → i < BSIZE → buf i = 0) ↔
      ∀ b, 8 * first ≤ b → (b < 8 * first + 8 ∨ b < 8 * BSIZE) →
        bitOf buf b = decide (b < 8 * first + k) := by
  have hexpected : 2 ^ k - 1 < 2 ^ 7 := by
    have hpow : 2 ^ k ≤ 2 ^ 7 := Nat.pow_le_pow_right (by decide) (by omega)
    have hone : 1 ≤ 2 ^ k := Nat.one_le_two_pow
    omega
  have hfirst : xorChar (buf first) (2 ^ k - 1) = 0 ↔
      ∀ n < 8, bitOf buf (8 * first + n) = decide (n < k) := by
    rw [xorChar_eq_zero _ hexpected, byte_eq_iff _ _ (hexpected.trans (by decide))]
    simp only [Nat.testBit_two_pow_sub_one]
  have hzero : ∀ i, buf i = 0 ↔ ∀ n < 8, bitOf buf (8 * i + n) = false := by
    intro i
    have hbyte := byte_eq_iff buf i (e := 0) (by decide)
    simp only [Nat.zero_testBit] at hbyte
    rw [← hbyte]
    exact UInt8.toNat_inj.symm
  rw [hfirst]
  constructor
  · rintro ⟨hhead, htail⟩ b hge hlt
    rcases Nat.lt_or_ge b (8 * first + 8) with hin | hout
    · have hbit := hhead (b - 8 * first) (by omega)
      have hsum : 8 * first + (b - 8 * first) = b := by omega
      rw [hsum] at hbit
      rw [hbit]
      exact decide_eq_decide.mpr (by omega)
    · have hb : b < 8 * BSIZE := hlt.resolve_left (by omega)
      rw [BSIZE] at hb
      have hbits := (hzero (b / 8)).mp (htail (b / 8) (by omega) (by rw [BSIZE]; omega)) (b % 8)
        (Nat.mod_lt _ (by decide))
      have hsum : 8 * (b / 8) + b % 8 = b := by omega
      rw [hsum] at hbits
      rw [hbits]
      exact (decide_eq_false (by omega)).symm
  · intro h
    refine ⟨?_, fun i hlt hi => (hzero i).mpr fun n hn => ?_⟩
    · intro n hn
      rw [h _ (by omega) (Or.inl (by omega))]
      exact decide_eq_decide.mpr (by omega)
    · rw [h _ (by omega) (Or.inr (by rw [BSIZE] at hi ⊢; omega))]
      exact decide_eq_false (by omega)

theorem bitmap_check_6_eq_ok {mmapped : Memory} :
    bitmap_check_6 mmapped = .ok () ↔
      ∀ b, 8 * (((readSuperblock mmapped).bmapstart + 1) / 8) ≤ b →
        (b < 8 * (((readSuperblock mmapped).bmapstart + 1) / 8) + 8 ∨ b < 8 * BSIZE) →
        bitOf (remaining mmapped) b =
          decide (b < (readSuperblock mmapped).bmapstart + 1) := by
  let start := (readSuperblock mmapped).bmapstart + 1
  have hok : bitmap_check_6 mmapped = .ok () ↔
      xorChar (remaining mmapped (start / 8)) (2 ^ (start % 8) - 1) = 0 ∧
        ∀ i, start / 8 < i → i < BSIZE → remaining mmapped i = 0 := by
    simp only [bitmap_check_6]
    by_cases h1 : xorChar (remaining mmapped (start / 8)) (2 ^ (start % 8) - 1) = 0
    · rw [if_neg (not_not.mpr h1)]
      by_cases h2 : ∃ i ∈ List.range BSIZE, start / 8 < i ∧ remaining mmapped i ≠ 0
      · rw [if_pos h2]
        obtain ⟨i, hi, hlt, hne⟩ := h2
        refine ⟨fun h => (by cases h), fun h => absurd (h.2 i hlt (List.mem_range.mp hi)) hne⟩
      · rw [if_neg h2]
        refine ⟨fun _ => ⟨h1, ?_⟩, fun _ => rfl⟩
        intro i hlt hi
        by_contra hne
        exact h2 ⟨i, List.mem_range.mpr hi, hlt, hne⟩
    · rw [if_pos h1]
      exact ⟨fun h => (by cases h), fun h => absurd h.1 h1⟩
  have hsum : 8 * (start / 8) + start % 8 = start := Nat.div_add_mod start 8
  rw [hok, residue_iff _ _ (Nat.mod_lt start (by decide)), hsum]

/-! ### The two checks together -/

/-- What checks 2 and 3 leave to checks 5 and 6: the data blocks follow
    the bitmap block, the blocks before them are marked, and inodes in use have at most
    140 blocks, all of them data blocks. -/
structure WellFormed (mmapped : Memory) : Prop where
  start : (readSuperblock mmapped).bmapstart + 1 + (readSuperblock mmapped).nblocks = FSSIZE
  reserved : ∀ b ≤ (readSuperblock mmapped).bmapstart,
    bitOf (rsect mmapped (readSuperblock mmapped).bmapstart) b = true
  blocks : ∀ i ∈ slots (readSuperblock mmapped),
    (rinode mmapped i (readSuperblock mmapped)).type ≠ 0 →
    blockNum (rinode mmapped i (readSuperblock mmapped)).size ≤ 140
  addresses : ∀ i ∈ slots (readSuperblock mmapped),
    (rinode mmapped i (readSuperblock mmapped)).type ≠ 0 →
    ∀ v ∈ inodeBlocks mmapped (rinode mmapped i (readSuperblock mmapped)),
      FSSIZE - (readSuperblock mmapped).nblocks ≤ v.addr ∧ v.addr < FSSIZE

theorem WellFormed.used {mmapped : Memory} (h : WellFormed mmapped) {a : Nat}
    (ha : a ∈ usedBlocks mmapped) :
    (readSuperblock mmapped).bmapstart + 1 ≤ a ∧ a < FSSIZE := by
  obtain ⟨v, hv, rfl⟩ := List.mem_map.mp ha
  obtain ⟨i, hi, hvisit⟩ := List.mem_flatMap.mp hv
  have hstart := h.start
  dsimp only at hvisit
  split at hvisit
  · cases hvisit
  · rename_i htype
    have hrange := h.addresses i hi htype v hvisit
    omega

/-- Check 5 is silent exactly when every address in use is marked. -/
theorem bitmap_check_5_silent {mmapped : Memory} (h : ∀ a ∈ usedBlocks mmapped, a < 8 * BSIZE) :
    Message.markedFree ∉ bitmap_check_5 mmapped ↔
      ∀ a ∈ usedBlocks mmapped,
        bitOf (rsect mmapped (readSuperblock mmapped).bmapstart) a = true := by
  have hlookUp : ∀ v ∈ usedVisits mmapped,
      lookUp (rsect mmapped (readSuperblock mmapped).bmapstart) v = .markedFree ↔
        ¬ bitOf (rsect mmapped (readSuperblock mmapped).bmapstart) v.addr = true := by
    intro v hv
    have hlt := h v.addr (List.mem_map.mpr ⟨v, hv, rfl⟩)
    have hint : toInt v.addr = v.addr := toInt_of_lt (by rw [BSIZE] at hlt; omega)
    simp only [lookUp, hint, bitmap_exist_eq hlt]
    cases bitOf (rsect mmapped (readSuperblock mmapped).bmapstart) v.addr
    · simp
    · cases v <;> simp
  constructor
  · intro hsilent a ha
    obtain ⟨v, hv, rfl⟩ := List.mem_map.mp ha
    by_contra hfree
    exact hsilent (List.mem_map.mpr ⟨v, hv, (hlookUp v hv).mpr hfree⟩)
  · intro hmarked hmem
    obtain ⟨v, hv, heq⟩ := List.mem_map.mp hmem
    exact (hlookUp v hv).mp heq (hmarked v.addr (List.mem_map.mpr ⟨v, hv, rfl⟩))

/-- The data blocks marked in the bitmap are the addresses in use. -/
def MarksUsed (mmapped : Memory) : Prop :=
  ∀ b, (readSuperblock mmapped).bmapstart + 1 ≤ b → b < 8 * BSIZE →
    (bitOf (rsect mmapped (readSuperblock mmapped).bmapstart) b = true ↔ b ∈ usedBlocks mmapped)

/-- Check 5 reports no error and check 6 returns. -/
theorem WellFormed.silent_iff {mmapped : Memory} (h : WellFormed mmapped) :
    (Message.markedFree ∉ bitmap_check_5 mmapped ∧ bitmap_check_6 mmapped = .ok ()) ↔
      MarksUsed mmapped := by
  have hlt : ∀ a ∈ usedBlocks mmapped, a < 8 * BSIZE := fun a ha =>
    (h.used ha).2.trans (by decide)
  have hstart : (readSuperblock mmapped).bmapstart + 1 ≤ 1000 := by
    have := h.start
    rw [FSSIZE] at this
    omega
  rw [bitmap_check_5_silent hlt, bitmap_check_6_eq_ok, MarksUsed]
  simp only [remaining_eq hlt]
  constructor
  · rintro ⟨hmarked, hleft⟩ b hge hb
    refine ⟨?_, hmarked b⟩
    intro hbit
    have hb' := hleft b (by omega) (Or.inr hb)
    have hdata : decide (b < (readSuperblock mmapped).bmapstart + 1) = false :=
      decide_eq_false (by omega)
    rw [hbit, hdata] at hb'
    simpa using hb'
  · intro hiff
    refine ⟨fun a ha => (hiff a (h.used ha).1 (hlt a ha)).mpr ha, ?_⟩
    intro b hge hb
    have hb' : b < 8 * BSIZE := by
      rw [BSIZE] at hb ⊢
      omega
    rcases Nat.lt_or_ge b ((readSuperblock mmapped).bmapstart + 1) with hlow | hhigh
    · have hunused : b ∉ usedBlocks mmapped := fun hmem => by
        have := (h.used hmem).1
        omega
      rw [h.reserved b (by omega)]
      simp [hunused, hlow]
    · have hbit := hiff b hhigh hb'
      have hdata : decide (b < (readSuperblock mmapped).bmapstart + 1) = false :=
        decide_eq_false (by omega)
      rw [hdata]
      by_cases hmem : b ∈ usedBlocks mmapped
      · simp [hmem]
      · have hfree := mt hbit.mp hmem
        simpa [hmem] using hfree

/-- Two inodes in use, the second one with an indirect block, and bits 0 to 74 set. -/
def smallImage : Memory := fun k =>
  if 29696 ≤ k ∧ k < 29705 then 255
  else if 1164 ≤ k ∧ k < 1216 ∧ k % 4 = 0 then UInt8.ofNat (61 + (k - 1164) / 4)
  else ([(516, 173), (517, 3), (520, 2), (532, 2), (536, 58), (1088, 1), (1097, 4), (1100, 59),
    (1104, 60), (1152, 2), (1161, 26), (29705, 7), (37376, 74)].lookup k).getD 0

end OstepProjects.FileSystemChecker
