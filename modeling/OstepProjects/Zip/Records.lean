/-
  OstepProjects/Zip/Records.lean
  ==============================
  **Which records `wzip` writes and which ones `wunzip` reads.**

  The record that `wzip` writes at the end is not guarded by `count > 0` as the
  one in its loop is: files without a byte leave the initial pending record, and
  `(0, 0)` is written for them.  Everything else is canonical, and
  `canonical_written_iff` says so: the records are the maximal runs of the input
  exactly when there is a byte to write, or no file at all.

  `wunzip` tests that four bytes of a count were read, but not that a byte
  follows.  A file that ends in a count without a byte prints the byte of the
  record before, from this file or an earlier one (`dangling`).  The complete
  records are decoded as they should be, and `wunzip_stdout_iff` gives the exact
  condition for nothing else to be printed: no such count is positive.
-/
import OstepProjects.Zip.Wzip

namespace OstepProjects.Zip

open OstepProjects.RunLength

/-! ### The records of the encoder -/

/-- The records that `main` of `wzip.c` hands to `diwrite`. -/
def written : List Operand → List Record
  | [] => []
  | argv =>
    match readFiles .start argv with
    | (s, true) => s.flush
    | (s, false) => s.stream

/-- What is printed are these records, with a message behind them when there is
    no operand or one does not open. -/
theorem wzip_stdout (argv : List Operand) :
    ∃ complaint, (wzip argv).stdout = (written argv).flatMap diwrite ++ complaint ∧
      ((wzip argv).status = 0 → complaint = []) := by
  cases argv with
  | nil => exact ⟨_, rfl, fun h => absurd h (by decide)⟩
  | cons operand argv =>
    rcases h : readFiles .start (operand :: argv) with ⟨s, opened⟩
    cases opened with
    | true =>
      refine ⟨[], ?_, fun _ => rfl⟩
      simp only [wzip, written, h, List.append_nil]
    | false =>
      refine ⟨message "wzip: cannot open file\n", ?_, fun hstatus => ?_⟩
      · simp only [wzip, written, h]
      · simp only [wzip, h] at hstatus
        exact absurd hstatus (by decide)

theorem written_of_files {files : List (List UInt8)} (h : files ≠ []) :
    written (files.map some) = records files := by
  cases files with
  | nil => exact absurd rfl h
  | cons bytes files =>
    rw [List.map_cons, written, ← List.map_cons, records, readFiles_map_some]
    simp

/-- The records are the maximal runs of `xs`, one for each and in order. -/
structure Canonical (rs : List Record) (xs : List UInt8) : Prop where
  eq_runs : rs = (runs xs).map record
  pos : ∀ r ∈ rs, 1 ≤ r.1.toInt
  alternate : rs.IsChain fun r s => r.2 ≠ s.2
  length_eq : rs.length = (runs xs).length

/-- Runs that fit in an `int` are described by records of positive counts. -/
theorem canonical_map_record {xs : List UInt8} (hlt : ∀ r ∈ runs xs, r.1 ≤ 2 ^ 31 - 1) :
    Canonical ((runs xs).map record) xs := by
  have hruns := isRuns_runs xs
  refine ⟨rfl, ?_, ?_, List.length_map ..⟩
  · intro r hr
    obtain ⟨q, hq, rfl⟩ := List.mem_map.mp hr
    have hpos := hruns.pos q hq
    have hfits := hlt q hq
    rw [record, Int32.toInt_ofNat_of_lt (by omega)]
    omega
  · exact (List.isChain_map record).mpr hruns.alternate

/-- Files without a byte leave the pending record of the start. -/
theorem records_of_flatten_nil {files : List (List UInt8)} (h : files.flatten = []) :
    records files = [(0, 0)] := by
  rw [records_eq_emit, h]
  rfl

/-- **The output of `wzip` is canonical exactly when there is a byte to write**, or
    no file is named.  Files that are all empty get the record `(0, 0)`. -/
theorem canonical_written_iff (files : List (List UInt8))
    (hlt : ∀ r ∈ runs files.flatten, r.1 ≤ 2 ^ 31 - 1) :
    Canonical (written (files.map some)) files.flatten ↔ files = [] ∨ files.flatten ≠ [] := by
  by_cases hfiles : files = []
  · subst hfiles
    have hnone : Canonical (written []) [] := canonical_map_record hlt
    exact ⟨fun _ => Or.inl rfl, fun _ => hnone⟩
  · rw [written_of_files hfiles]
    by_cases hbytes : files.flatten = []
    · have hspurious : ¬ Canonical (records files) files.flatten := fun hcanonical => by
        have hlength := hcanonical.length_eq
        rw [records_of_flatten_nil hbytes, hbytes] at hlength
        exact absurd hlength (by decide)
      exact ⟨fun h => absurd h hspurious, fun h => absurd hbytes (h.resolve_left hfiles)⟩
    · have hrecords : records files = (runs files.flatten).map record :=
        records_eq_runs hbytes fun r hr => by have := hlt r hr; omega
      rw [hrecords]
      exact ⟨fun _ => Or.inr hbytes, fun _ => canonical_map_record hlt⟩

/-- Leading zero bytes and a run across an empty file. -/
theorem canonical_written_zeros :
    Canonical (written ([[0, 0], [], [0, 97]].map some)) [0, 0, 0, 97] :=
  (canonical_written_iff [[0, 0], [], [0, 97]] (by decide)).mpr (Or.inr (by decide))

/-- One empty file gets a record although it has no run. -/
theorem not_canonical_written_empty_file :
    ¬ ∀ files : List (List UInt8), (∀ r ∈ runs files.flatten, r.1 ≤ 2 ^ 31 - 1) →
      Canonical (written (files.map some)) files.flatten := by
  intro h
  have hlength := (h [[]] (by decide)).length_eq
  exact absurd hlength (by decide)

/-! ### The records of the decoder -/

/-- The complete records at the front of a file. -/
def wholeRecords : List UInt8 → List Record
  | b0 :: b1 :: b2 :: b3 :: c :: rest => (leInt b0 b1 b2 b3, c) :: wholeRecords rest
  | _ => []

/-- What the complete records of a file stand for. -/
def decode (bytes : List UInt8) : List UInt8 :=
  (wholeRecords bytes).flatMap fun r => List.replicate (max r.1.toInt 0).toNat r.2

/-- The bytes behind the complete records. -/
def leftover (bytes : List UInt8) : List UInt8 := bytes.drop (bytes.length / 5 * 5)

/-- The count of a last record that lacks its byte. -/
def dangling (bytes : List UInt8) : Option Int32 :=
  match leftover bytes with
  | [b0, b1, b2, b3] => some (leInt b0 b1 b2 b3)
  | _ => none

theorem dangling_record (b0 b1 b2 b3 c : UInt8) (rest : List UInt8) :
    dangling (b0 :: b1 :: b2 :: b3 :: c :: rest) = dangling rest := by
  have hwhole : (rest.length + 5) / 5 * 5 = rest.length / 5 * 5 + 5 := by omega
  have hleft : leftover (b0 :: b1 :: b2 :: b3 :: c :: rest) = leftover rest := by
    simp only [leftover, List.length_cons, hwhole, List.drop_succ_cons]
  rw [dangling, dangling, hleft]

/-- What the loop prints behind the complete records of a file: the dangling count
    is printed with the byte in `char_read`. -/
def surplus (char_read : UInt8) (bytes : List UInt8) : List UInt8 :=
  ((dangling bytes).map fun n => printRun n char_read).getD []

theorem printRun_eq_nil_iff (n : Int32) (char_read : UInt8) :
    printRun n char_read = [] ↔ n ≤ 0 := by
  rw [printRun, List.replicate_eq_nil_iff, Int32.le_iff_toInt_le, Int32.toInt_zero]
  omega

theorem surplus_eq_nil_iff (char_read : UInt8) (bytes : List UInt8) :
    surplus char_read bytes = [] ↔ ∀ n ∈ dangling bytes, n ≤ 0 := by
  rw [surplus]
  rcases dangling bytes with _ | n
  · simp
  · simpa using printRun_eq_nil_iff n char_read

/-- **What one file prints**: its complete records, and copies of the byte read
    last for a dangling count. -/
theorem unzipFile_fst (char_read : UInt8) (bytes : List UInt8) :
    (unzipFile char_read bytes).1 =
      decode bytes ++ surplus (unzipFile char_read bytes).2 bytes := by
  fun_induction unzipFile char_read bytes with
  | case1 char_read b0 b1 b2 b3 c rest out ih =>
    have hdecode : decode (b0 :: b1 :: b2 :: b3 :: c :: rest) =
        printRun (leInt b0 b1 b2 b3) c ++ decode rest := by
      have hcopies : (max (leInt b0 b1 b2 b3).toInt 0).toNat = (leInt b0 b1 b2 b3).toInt.toNat := by
        omega
      rw [decode, wholeRecords, List.flatMap_cons, printRun, decode, hcopies]
    have hsurplus : surplus out.2 (b0 :: b1 :: b2 :: b3 :: c :: rest) = surplus out.2 rest := by
      rw [surplus, dangling_record, surplus]
    rw [hdecode, hsurplus, List.append_assoc]
    exact congrArg (printRun (leInt b0 b1 b2 b3) c ++ ·) ih
  | case2 => simp [decode, wholeRecords, surplus, dangling, leftover]
  | case3 bytes char_read hfive hfour =>
    -- fewer than four bytes: no complete record and no count
    rcases bytes with _ | ⟨b0, _ | ⟨b1, _ | ⟨b2, _ | ⟨b3, _ | ⟨c, rest⟩⟩⟩⟩⟩
    · simp [decode, wholeRecords, surplus, dangling, leftover]
    · simp [decode, wholeRecords, surplus, dangling, leftover]
    · simp [decode, wholeRecords, surplus, dangling, leftover]
    · simp [decode, wholeRecords, surplus, dangling, leftover]
    · exact absurd rfl (hfour b0 b1 b2 b3)
    · exact absurd rfl (hfive b0 b1 b2 b3 c rest)

/-- The bytes printed for all files, one after the other. -/
def unzipAll (char_read : UInt8) : List (List UInt8) → List UInt8
  | [] => []
  | bytes :: rest => (unzipFile char_read bytes).1 ++ unzipAll (unzipFile char_read bytes).2 rest

theorem unzipFiles_map_some (char_read : UInt8) (printed : List UInt8)
    (files : List (List UInt8)) :
    unzipFiles char_read printed (files.map some) = ⟨printed ++ unzipAll char_read files, 0⟩ := by
  induction files generalizing char_read printed with
  | nil => rw [List.map_nil, unzipFiles, unzipAll, List.append_nil]
  | cons bytes files ih =>
    rw [List.map_cons, unzipFiles, ih, unzipAll, List.append_assoc]

theorem wunzip_of_files (junk : UInt8) {files : List (List UInt8)} (h : files ≠ []) :
    wunzip junk (files.map some) = ⟨unzipAll junk files, 0⟩ := by
  cases files with
  | nil => exact absurd rfl h
  | cons bytes files => exact unzipFiles_map_some junk [] (bytes :: files)

/-- Every complete record is printed. -/
theorem length_decode_le_unzipAll (char_read : UInt8) (files : List (List UInt8)) :
    (files.flatMap decode).length ≤ (unzipAll char_read files).length := by
  induction files generalizing char_read with
  | nil => exact Nat.le_refl 0
  | cons bytes files ih =>
    have htail := ih (unzipFile char_read bytes).2
    rw [unzipAll, unzipFile_fst]
    simp only [List.flatMap_cons, List.length_append]
    omega

theorem unzipAll_eq_iff (char_read : UInt8) (files : List (List UInt8)) :
    unzipAll char_read files = files.flatMap decode ↔
      ∀ bytes ∈ files, ∀ n ∈ dangling bytes, n ≤ 0 := by
  induction files generalizing char_read with
  | nil => simp [unzipAll]
  | cons bytes files ih =>
    have htail := length_decode_le_unzipAll (unzipFile char_read bytes).2 files
    rw [unzipAll, unzipFile_fst, List.flatMap_cons, List.append_assoc,
      List.append_cancel_left_eq, List.forall_mem_cons, ← ih (unzipFile char_read bytes).2,
      ← surplus_eq_nil_iff (unzipFile char_read bytes).2]
    constructor
    · intro heq
      -- the surplus is what makes the left side longer
      have hlength := congrArg List.length heq
      rw [List.length_append] at hlength
      have hnil : surplus (unzipFile char_read bytes).2 bytes = [] :=
        List.eq_nil_of_length_eq_zero (by omega)
      rw [hnil, List.nil_append] at heq
      exact ⟨hnil, heq⟩
    · rintro ⟨hnil, heq⟩
      rw [hnil, heq, List.nil_append]

/-- **`wunzip` decodes the complete records, and nothing else exactly when no file
    ends in a positive count without its byte.** -/
theorem wunzip_stdout_iff (junk : UInt8) (files : List (List UInt8)) (hne : files ≠ []) :
    (wunzip junk (files.map some)).stdout = files.flatMap decode ↔
      ∀ bytes ∈ files, ∀ n ∈ dangling bytes, n ≤ 0 := by
  rw [wunzip_of_files junk hne]
  exact unzipAll_eq_iff junk files

/-- Files cut inside a count and behind a count of zero. -/
theorem wunzip_stdout_truncated :
    (wunzip 7 ([[2, 0, 0, 0, 97, 3, 0], [0, 0, 0, 0], [1, 0, 0, 0, 98]].map some)).stdout =
      [[2, 0, 0, 0, 97, 3, 0], [0, 0, 0, 0], [1, 0, 0, 0, 98]].flatMap decode := by
  have hdangling : ∀ bytes ∈ [[2, 0, 0, 0, 97, 3, 0], [0, 0, 0, 0], [1, 0, 0, 0, 98]],
      dangling bytes = none ∨ dangling bytes = some 0 := by decide
  apply (wunzip_stdout_iff 7 _ (by decide)).mpr
  intro bytes hbytes n hn
  rcases hdangling bytes hbytes with hnone | hzero
  · rw [hnone] at hn
    cases hn
  · rw [hzero] at hn
    obtain rfl : 0 = n := Option.some.inj hn
    exact Int32.le_refl 0

/-- A file `[2, 0, 0, 0]` behind one that holds `(1, a)` prints `aa`. -/
theorem not_wunzip_stdout_dangling :
    ¬ ∀ (junk : UInt8) (files : List (List UInt8)), files ≠ [] →
      (wunzip junk (files.map some)).stdout = files.flatMap decode := by
  intro h
  have hout := h 0 [[1, 0, 0, 0, 97], [2, 0, 0, 0]] (by decide)
  exact absurd hout (by decide)

end OstepProjects.Zip
