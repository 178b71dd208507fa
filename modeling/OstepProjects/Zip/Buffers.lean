/-
  OstepProjects/Zip/Buffers.lean
  ==============================
  **How `handleFile` of `pzip2.c` divides the files into buffers.**

  A first pass over the files counts the buffers and allocates the list for them,
  a second pass fills it; the number of buffers of a file is its quotient by
  `BUFFER_SIZE`, and one more when the floating quotient is larger than the integer
  one.  Sizes are 64-bit numbers that both passes keep in an `int`.

  The floating quotient is any number as near to the exact one as a double is
  (`Quotient`), and the comparison does not depend on the rounding
  (`quotient_lt_iff`).  `coversFiles_iff` says for which files the buffers are the
  consecutive pieces of each file, as many as were counted: every size and the
  number of buffers have to fit in an `int`.
-/
import Mathlib.Algebra.BigOperators.Group.List.Basic
import Mathlib.Algebra.Order.Field.Rat
import Mathlib.Data.Rat.Floor
import Mathlib.Tactic.Linarith
import Mathlib.Tactic.NormNum
import Mathlib.Tactic.Positivity

namespace OstepProjects.Zip

def BUFFER_SIZE : Int := 10485760

/-- The value of `size / (double)BUFFER_SIZE`: a number with a mantissa of 53 bits, none
    of which is nearer to the exact quotient. -/
structure Quotient where
  div : Int → ℚ
  nearest : ∀ size m e : Int, |m| ≤ 2 ^ 53 →
    |div size - (size : ℚ) / BUFFER_SIZE| ≤ |(m : ℚ) * 2 ^ e - (size : ℚ) / BUFFER_SIZE|

/-- A quotient that needs no rounding. -/
def Quotient.exact : Quotient where
  div size := (size : ℚ) / BUFFER_SIZE
  nearest size m e _ := by
    rw [sub_self, abs_zero]
    exact abs_nonneg _

/-- The value of a number stored into an `int`. -/
def toInt (n : Int) : Int := (Int32.ofInt n).toInt

/-- `struct buffer` as `handleFile` fills it; `content` is an offset into the file. -/
structure Buffer where
  size : Int
  content : Int
deriving DecidableEq, Repr

/-- How many buffers a file of that size gets. -/
def numOfBuffer (q : Quotient) (size : Int) : Int :=
  (if q.div size > (size.tdiv BUFFER_SIZE : Int) then 1 else 0) + size.tdiv BUFFER_SIZE

/-- The body of the first loop of `handleFile`. -/
def countBuffers (q : Quotient) (listsize : Int32) (st_size : Nat) : Int32 :=
  let size := toInt st_size
  (if q.div size > (size.tdiv BUFFER_SIZE : Int) then listsize + 1 else listsize) +
    Int32.ofInt (size.tdiv BUFFER_SIZE)

/-- The first loop: the length of `bufferlist`, at which the workers stop. -/
def listsize (q : Quotient) (st_sizes : List Nat) : Int32 := st_sizes.foldl (countBuffers q) 0

/-- The loop over the buffers of one file. -/
def fileBuffers (q : Quotient) (st_size : Nat) : List Buffer :=
  let size := toInt st_size
  (List.range (numOfBuffer q size).toNat).map fun j : Nat =>
    { size := if (j : Int) = numOfBuffer q size - 1 then size - j * BUFFER_SIZE else BUFFER_SIZE
      content := j * BUFFER_SIZE }

/-- The second loop: the buffers put into `bufferlist`. -/
def handleFile (q : Quotient) (st_sizes : List Nat) : List Buffer :=
  st_sizes.flatMap (fileBuffers q)

/-! ### Both quotients -/

theorem toInt_of_lt {n : Nat} (h : n < 2 ^ 31) : toInt n = n := by
  rw [toInt]
  exact Int32.toInt_ofNat_of_lt h

theorem toInt_lt (n : Int) : toInt n < 2 ^ 31 := Int32.toInt_lt _

/-- The floating quotient does not exceed the integer one when the exact one does not. -/
theorem Quotient.div_le (q : Quotient) {size k : Int} (hk : |k| ≤ 2 ^ 53)
    (hle : size ≤ k * BUFFER_SIZE) : q.div size ≤ k := by
  have hnear := q.nearest size k 0 hk
  have hexact : (size : ℚ) / BUFFER_SIZE ≤ k := by
    rw [div_le_iff₀ (by norm_num [BUFFER_SIZE])]
    exact_mod_cast hle
  rw [zpow_zero, mul_one, abs_of_nonneg (a := (k : ℚ) - _) (by linarith)] at hnear
  have := (abs_le.mp hnear).2
  linarith

/-- Multiples of `2 ^ -24` lie closer together than the quotients of integers, so the
    rounding does not reach the next integer. -/
theorem Quotient.lt_div (q : Quotient) {size k : Int} (hsize : |size| < 2 ^ 31)
    (hlt : k * BUFFER_SIZE < size) : k < q.div size := by
  obtain ⟨m, hm⟩ : ∃ m, m = size * 2 ^ 24 / BUFFER_SIZE := ⟨_, rfl⟩
  have hbounds := abs_lt.mp hsize
  simp only [BUFFER_SIZE] at hm hlt
  have hmantissa : |m| ≤ 2 ^ 53 := abs_le.mpr (by omega)
  have hgrid : m * 10485760 ≤ size * 2 ^ 24 ∧ size * 2 ^ 24 < (m + 1) * 10485760 := by omega
  have hnear := q.nearest size m (-24) hmantissa
  have hexact : (k : ℚ) + 1 / 10485760 ≤ (size : ℚ) / BUFFER_SIZE := by
    have hnext : (k : ℚ) * 10485760 + 1 ≤ size := by exact_mod_cast hlt
    rw [BUFFER_SIZE, Int.cast_ofNat, le_div_iff₀ (by norm_num)]
    linarith
  have hbelow : |(m : ℚ) * 2 ^ (-24 : Int) - (size : ℚ) / BUFFER_SIZE| < 1 / 10485760 := by
    have hlow : (m : ℚ) * 10485760 ≤ size * 2 ^ 24 := by exact_mod_cast hgrid.1
    have hhigh : (size : ℚ) * 2 ^ 24 < (m + 1) * 10485760 := by exact_mod_cast hgrid.2
    rw [BUFFER_SIZE, Int.cast_ofNat, abs_lt, zpow_neg]
    norm_num at hlow hhigh ⊢
    constructor
    · linarith
    · linarith
  have := (abs_lt.mp (hnear.trans_lt hbelow)).1
  linarith

/-! ### The number of buffers -/

theorem tdiv_bufferSize {size : Int} (h : 0 ≤ size) : size.tdiv BUFFER_SIZE = size / BUFFER_SIZE :=
  Int.tdiv_eq_ediv_of_nonneg h

/-- **One buffer more than the integer quotient, when the division leaves a rest.** -/
theorem numOfBuffer_eq (q : Quotient) {size : Int} (h0 : 0 ≤ size) (h : size < 2 ^ 31) :
    numOfBuffer q size = (size + 10485759) / 10485760 := by
  obtain ⟨k, hk⟩ : ∃ k, k = size / 10485760 := ⟨_, rfl⟩
  have htdiv : size.tdiv BUFFER_SIZE = k := by rw [tdiv_bufferSize h0, hk, BUFFER_SIZE]
  rw [numOfBuffer, htdiv]
  by_cases hrest : k * 10485760 < size
  · have hsize : |size| < 2 ^ 31 := abs_lt.mpr (by omega)
    rw [if_pos (q.lt_div hsize hrest)]
    omega
  · have hmantissa : |k| ≤ 2 ^ 53 := abs_le.mpr (by omega)
    rw [if_neg (not_lt.mpr (q.div_le hmantissa (not_lt.mp hrest)))]
    omega

theorem foldl_listsize (q : Quotient) (st_sizes : List Nat) (start : Int32) :
    st_sizes.foldl (countBuffers q) start = start +
      Int32.ofInt (st_sizes.map fun st_size : Nat => numOfBuffer q (toInt st_size)).sum := by
  induction st_sizes generalizing start with
  | nil => simp
  | cons st_size st_sizes ih =>
    have hstep : countBuffers q start st_size =
        start + Int32.ofInt (numOfBuffer q (toInt st_size)) := by
      rw [countBuffers, numOfBuffer, Int32.ofInt_add]
      split_ifs
      · rw [← Int32.add_assoc]
        rfl
      · simp
    rw [List.foldl_cons, ih, hstep, List.map_cons, List.sum_cons, Int32.ofInt_add, Int32.add_assoc]

/-- The counter of the first loop is a sum that wraps like an `int`. -/
theorem listsize_eq (q : Quotient) (st_sizes : List Nat) :
    listsize q st_sizes =
      Int32.ofInt (st_sizes.map fun st_size : Nat => numOfBuffer q (toInt st_size)).sum := by
  rw [listsize, foldl_listsize, Int32.zero_add]

/-! ### The buffers of one file -/

/-- The buffers are the consecutive pieces of a file of that size. -/
structure CoversFile (buffers : List Buffer) (st_size : Nat) : Prop where
  content_eq : buffers.map (·.content) =
    (List.range buffers.length).map fun k : Nat => k * BUFFER_SIZE
  size_bounds : ∀ b ∈ buffers, 1 ≤ b.size ∧ b.size ≤ BUFFER_SIZE
  sizes_sum : (buffers.map (·.size)).sum = st_size
  empty : st_size = 0 → buffers = []

/-- All buffers but the last are full. -/
theorem fileBuffers_eq (q : Quotient) {st_size n : Nat}
    (h : numOfBuffer q (toInt st_size) = n + 1) :
    fileBuffers q st_size =
      ((List.range n).map fun j => ⟨BUFFER_SIZE, j * BUFFER_SIZE⟩) ++
        [⟨toInt st_size - n * BUFFER_SIZE, n * BUFFER_SIZE⟩] := by
  have htoNat : ((n : Int) + 1).toNat = n + 1 := rfl
  simp only [fileBuffers, h]
  rw [htoNat, List.range_succ, List.map_append, List.map_singleton, if_pos (by omega)]
  congr 1
  apply List.map_congr_left
  intro j hj
  have hlt := List.mem_range.mp hj
  rw [if_neg (by omega)]

theorem fileBuffers_of_nonpos (q : Quotient) {st_size : Nat}
    (h : numOfBuffer q (toInt st_size) ≤ 0) : fileBuffers q st_size = [] := by
  simp only [fileBuffers, Int.toNat_of_nonpos h]
  rfl

theorem length_fileBuffers (q : Quotient) (st_size : Nat) :
    (fileBuffers q st_size).length = (numOfBuffer q (toInt st_size)).toNat := by
  simp only [fileBuffers, List.length_map, List.length_range]

theorem map_content_fileBuffers (q : Quotient) (st_size : Nat) :
    (fileBuffers q st_size).map (·.content) =
      (List.range (fileBuffers q st_size).length).map fun k : Nat => k * BUFFER_SIZE := by
  rw [length_fileBuffers]
  simp only [fileBuffers, List.map_map]
  rfl

/-- The last size is what the full buffers leave. -/
theorem sizes_sum_eq (q : Quotient) {st_size n : Nat} (h : numOfBuffer q (toInt st_size) = n + 1) :
    ((fileBuffers q st_size).map (·.size)).sum = toInt st_size := by
  have hfull : ((List.range n).map fun j : Nat => (⟨BUFFER_SIZE, j * BUFFER_SIZE⟩ : Buffer)).map
      (·.size) = List.replicate n BUFFER_SIZE := by
    rw [List.map_map, List.eq_replicate_iff]
    simp
  rw [fileBuffers_eq q h, List.map_append, List.sum_append, hfull, List.sum_replicate]
  simp

/-- The sizes of the buffers of a file sum to a number that an `int` holds. -/
theorem sizes_sum_lt (q : Quotient) (st_size : Nat) :
    ((fileBuffers q st_size).map (·.size)).sum < 2 ^ 31 := by
  rcases lt_or_ge 0 (numOfBuffer q (toInt st_size)) with hpos | hnonpos
  · obtain ⟨n, hn⟩ : ∃ n : Nat, numOfBuffer q (toInt st_size) = n + 1 :=
      ⟨(numOfBuffer q (toInt st_size) - 1).toNat, by omega⟩
    rw [sizes_sum_eq q hn]
    exact toInt_lt _
  · rw [fileBuffers_of_nonpos q hnonpos]
    decide

/-- The number of buffers of a file whose size fits in an `int`. -/
theorem numOfBuffer_of_lt (q : Quotient) {st_size : Nat} (h : st_size < 2 ^ 31) :
    numOfBuffer q (toInt st_size) = ((st_size + 10485759) / 10485760 : Nat) := by
  rw [toInt_of_lt h, numOfBuffer_eq q (Int.natCast_nonneg st_size) (by exact_mod_cast h)]
  norm_cast

/-- **A size that fits in an `int` is covered.** -/
theorem coversFile_of_lt (q : Quotient) {st_size : Nat} (h : st_size < 2 ^ 31) :
    CoversFile (fileBuffers q st_size) st_size := by
  have hcount := numOfBuffer_of_lt q h
  by_cases h0 : st_size = 0
  · subst h0
    have hnone : fileBuffers q 0 = [] := fileBuffers_of_nonpos q hcount.le
    rw [hnone]
    exact ⟨rfl, fun b hb => absurd hb List.not_mem_nil, rfl, fun _ => rfl⟩
  · obtain ⟨n, hn⟩ : ∃ n, (st_size + 10485759) / 10485760 = n + 1 :=
      ⟨(st_size + 10485759) / 10485760 - 1, by omega⟩
    have hsucc : numOfBuffer q (toInt st_size) = n + 1 := by
      rw [hcount, hn]
      norm_cast
    refine ⟨map_content_fileBuffers q st_size, ?_, ?_, fun he => absurd he h0⟩
    · intro b hb
      rw [fileBuffers_eq q hsucc, List.mem_append, List.mem_singleton] at hb
      rcases hb with hb | rfl
      · obtain ⟨j, _, rfl⟩ := List.mem_map.mp hb
        change 1 ≤ BUFFER_SIZE ∧ BUFFER_SIZE ≤ BUFFER_SIZE
        decide
      · change 1 ≤ toInt st_size - n * 10485760 ∧ toInt st_size - n * 10485760 ≤ 10485760
        rw [toInt_of_lt h]
        omega
    · rw [sizes_sum_eq q hsucc, toInt_of_lt h]

/-! ### All files -/

/-- Every file is covered, and `listsize` counts the buffers. -/
structure CoversFiles (q : Quotient) (st_sizes : List Nat) : Prop where
  covers : ∀ st_size ∈ st_sizes, CoversFile (fileBuffers q st_size) st_size
  count : ((handleFile q st_sizes).length : Int) = (listsize q st_sizes).toInt

/-- The first loop adds up what the second one creates. -/
theorem length_handleFile (q : Quotient) {st_sizes : List Nat} (h : ∀ s ∈ st_sizes, s < 2 ^ 31) :
    (handleFile q st_sizes).length = (st_sizes.map fun s => (s + 10485759) / 10485760).sum ∧
      (st_sizes.map fun s : Nat => numOfBuffer q (toInt s)).sum =
        (handleFile q st_sizes).length := by
  induction st_sizes with
  | nil => exact ⟨rfl, rfl⟩
  | cons st_size st_sizes ih =>
    obtain ⟨hlength, hsum⟩ := ih fun s hs => h s (List.mem_cons_of_mem _ hs)
    have hcount := numOfBuffer_of_lt q (h st_size List.mem_cons_self)
    have hcons : (handleFile q (st_size :: st_sizes)).length =
        (st_size + 10485759) / 10485760 + (handleFile q st_sizes).length := by
      rw [handleFile, List.flatMap_cons, List.length_append, length_fileBuffers, hcount,
        Int.toNat_natCast, handleFile]
    rw [hcons, List.map_cons, List.sum_cons, List.map_cons, List.sum_cons, hsum, hcount, hlength]
    exact ⟨rfl, by norm_cast⟩

/-- **Which files `handleFile` divides as it should**: every size fits in an `int`, and
    so does the number of buffers. -/
theorem coversFiles_iff (q : Quotient) (st_sizes : List Nat) :
    CoversFiles q st_sizes ↔
      (∀ st_size ∈ st_sizes, st_size < 2 ^ 31) ∧
        (st_sizes.map fun st_size => (st_size + 10485759) / 10485760).sum < 2 ^ 31 := by
  constructor
  · rintro ⟨hcovers, hcount⟩
    have hfits : ∀ st_size ∈ st_sizes, st_size < 2 ^ 31 := by
      intro st_size hmem
      have hlt := sizes_sum_lt q st_size
      rw [(hcovers st_size hmem).sizes_sum] at hlt
      exact_mod_cast hlt
    have hlist := Int32.toInt_lt (listsize q st_sizes)
    rw [← hcount, (length_handleFile q hfits).1] at hlist
    exact ⟨hfits, by exact_mod_cast hlist⟩
  · rintro ⟨hfits, hnumber⟩
    obtain ⟨hlength, hsum⟩ := length_handleFile q hfits
    refine ⟨fun st_size hmem => coversFile_of_lt q (hfits st_size hmem), ?_⟩
    rw [listsize_eq, hsum]
    exact (Int32.toInt_ofNat_of_lt (by rw [hlength]; exact hnumber)).symm

/-- A file of 3 GiB is taken for one of negative size and gets no buffer. -/
theorem not_coversFiles_threeGiB :
    ¬ ∀ (q : Quotient) (st_sizes : List Nat), (∀ s ∈ st_sizes, s < 2 ^ 63) →
      CoversFiles q st_sizes := by
  intro h
  have hcovers := (h .exact [3221225472] (by decide)).covers 3221225472 (by decide)
  have hlt := sizes_sum_lt .exact 3221225472
  rw [hcovers.sizes_sum] at hlt
  exact absurd hlt (by decide)

end OstepProjects.Zip
