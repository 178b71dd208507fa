/-
  OstepProjects/Zip/Wzip.lean
  ===========================
  **The sequential compressor `wzip` and the decompressor `wunzip`.**

  `wzip` reads its files one byte after the other and keeps the last byte read
  together with a counter; a different byte writes the pending record, unless the
  counter is not positive, and the end of the last file writes the pending record
  whatever it is.  The counter is an `int`, so a run longer than `2^31 - 1` wraps:
  its record is dropped by the guard or says too few copies.

  `initial-utilities/wzip/wzip.c` writes to standard output and
  `concurrency-pzip/wzip/wzip.c` to `a.z`; the loop is the same, and both are
  read off `records` here.  `emit_runsFrom` describes the records in terms of the
  maximal runs of the whole input, with the counter wrapped; from it follow the
  records of an input without long runs (`records_eq_runs`) and the exact limit
  of the round trip through `wunzip` (`wunzip_wzip_iff`).
-/
import OstepProjects.Lib.RunLength

namespace OstepProjects.Zip

open OstepProjects.RunLength

/-- One entry of the compressed format: an `int` count and a byte. -/
abbrev Record := Int32 × UInt8

/-- The record of a run whose length was counted in an `int`. -/
def record (r : Run UInt8) : Record := (Int32.ofNat r.1, r.2)

/-- What a file operand gives to `fopen`: its contents, or `none` when it cannot
    be opened. -/
abbrev Operand := Option (List UInt8)

/-- What a finished process leaves: its standard output and its exit status. -/
structure Exit where
  stdout : List UInt8
  status : Nat
deriving DecidableEq, Repr

/-- The bytes of a message of the source. -/
def message (text : String) : List UInt8 := text.toList.map fun c => UInt8.ofNat c.toNat

/-! ### The encoder -/

/-- The variables of `main` in `wzip.c`; `stream` holds the records written. -/
structure Encoder where
  last_read : UInt8
  count : Int32
  stream : List Record
deriving DecidableEq, Repr

def Encoder.start : Encoder := ⟨0, 0, []⟩

/-- The body of `while ((nread = fread(&char_read,1,1,fp)) == 1)`. -/
def readByte (s : Encoder) (char_read : UInt8) : Encoder :=
  if char_read = s.last_read then
    { s with count := s.count + 1 }
  else
    { last_read := char_read
      count := 1
      stream := if s.count > 0 then s.stream ++ [(s.count, s.last_read)] else s.stream }

/-- The `for` over the operands: the files up to the first that does not open. -/
def readFiles (s : Encoder) : List Operand → Encoder × Bool
  | [] => (s, true)
  | none :: _ => (s, false)
  | some bytes :: rest => readFiles (bytes.foldl readByte s) rest

/-- The record written by the final `diwrite(count, last_read)`. -/
def Encoder.flush (s : Encoder) : List Record := s.stream ++ [(s.count, s.last_read)]

/-- The record sequence `wzip` writes for files that all open. -/
def records (files : List (List UInt8)) : List Record :=
  (readFiles .start (files.map some)).1.flush

/-! ### The byte format -/

/-- `fwrite(&n, sizeof(int), 1, stream)` on a little-endian machine. -/
def leBytes (n : Int32) : List UInt8 :=
  [⟨n.toBitVec.extractLsb' 0 8⟩, ⟨n.toBitVec.extractLsb' 8 8⟩,
   ⟨n.toBitVec.extractLsb' 16 8⟩, ⟨n.toBitVec.extractLsb' 24 8⟩]

/-- The `int` that `fread` leaves after four bytes. -/
def leInt (b0 b1 b2 b3 : UInt8) : Int32 :=
  Int32.ofBitVec (b3.toBitVec ++ b2.toBitVec ++ b1.toBitVec ++ b0.toBitVec)

def diwrite (r : Record) : List UInt8 := leBytes r.1 ++ [r.2]

/-- `main` of `initial-utilities/wzip/wzip.c`. -/
def wzip : List Operand → Exit
  | [] => ⟨message "wzip: file1 [file2 ...]\n", 1⟩
  | argv =>
    match readFiles .start argv with
    | (s, true) => ⟨s.flush.flatMap diwrite, 0⟩
    | (s, false) => ⟨s.stream.flatMap diwrite ++ message "wzip: cannot open file\n", 1⟩

/-! ### The decoder -/

/-- `for (int j = 0; j < int_read; j++) printf("%c", char_read)`. -/
def printRun (int_read : Int32) (char_read : UInt8) : List UInt8 :=
  List.replicate int_read.toInt.toNat char_read

/-- The `while` loop of `wunzip.c` on one file: what it prints, and `char_read`
    at its end.  A count without a byte behind it is printed with the byte of the
    record before, since the second `fread` is not checked. -/
def unzipFile (char_read : UInt8) : List UInt8 → List UInt8 × UInt8
  | b0 :: b1 :: b2 :: b3 :: c :: rest =>
    let out := unzipFile c rest
    (printRun (leInt b0 b1 b2 b3) c ++ out.1, out.2)
  | [b0, b1, b2, b3] => (printRun (leInt b0 b1 b2 b3) char_read, char_read)
  | _ => ([], char_read)

/-- The `for` over the operands of `wunzip`, with what was printed so far. -/
def unzipFiles (char_read : UInt8) (printed : List UInt8) : List Operand → Exit
  | [] => ⟨printed, 0⟩
  | none :: _ => ⟨printed ++ message "wunzip: cannot open file\n", 1⟩
  | some bytes :: rest =>
    let out := unzipFile char_read bytes
    unzipFiles out.2 (printed ++ out.1) rest

/-- `main` of `wunzip.c`; `junk` is what the uninitialised `char_read` holds. -/
def wunzip (junk : UInt8) : List Operand → Exit
  | [] => ⟨message "wunzip: file1 [file2 ...]\n", 1⟩
  | argv => unzipFiles junk [] argv

/-! ### What the encoder writes -/

/-- The records of a list of pending runs: the last one is flushed, the others
    pass the guard `count > 0`. -/
def emit : List (Run UInt8) → List Record
  | [] => []
  | [r] => [record r]
  | r :: s :: rs => (if (record r).1 > 0 then [record r] else []) ++ emit (s :: rs)

theorem emit_cons {rs : List (Run UInt8)} (h : rs ≠ []) (r : Run UInt8) :
    emit (r :: rs) = (if (record r).1 > 0 then [record r] else []) ++ emit rs := by
  cases rs with
  | nil => exact absurd rfl h
  | cons s rs => rfl

/-- **The loop invariant of `wzip`.**  Started with `n` copies of `l` pending, the
    encoder writes the runs of those copies followed by the bytes read. -/
theorem flush_foldl_readByte (l : UInt8) (n : Nat) (w : List Record) (xs : List UInt8) :
    (xs.foldl readByte ⟨l, Int32.ofNat n, w⟩).flush = w ++ emit (runsFrom n l xs) := by
  induction xs generalizing l n w with
  | nil => rfl
  | cons x xs ih =>
    rw [List.foldl_cons, runsFrom]
    by_cases hx : x = l
    · have hcount : Int32.ofNat n + 1 = Int32.ofNat (n + 1) := (Int32.ofNat_add n 1).symm
      rw [if_pos hx, readByte, if_pos hx, hcount, ih]
    · rw [if_neg hx, readByte, if_neg hx, show (1 : Int32) = Int32.ofNat 1 from rfl, ih,
        emit_cons (runsFrom_ne_nil 1 x xs)]
      by_cases hpos : Int32.ofNat n > 0
      · simp [hpos, record]
      · simp [hpos, record]

theorem readFiles_map_some (s : Encoder) (files : List (List UInt8)) :
    readFiles s (files.map some) = (files.flatten.foldl readByte s, true) := by
  induction files generalizing s with
  | nil => rfl
  | cons bytes files ih =>
    rw [List.map_cons, readFiles, ih, List.flatten_cons, List.foldl_append]

/-- The records are those of the concatenated files, leading zero bytes counted
    from the initial `last_read`. -/
theorem records_eq_emit (files : List (List UInt8)) :
    records files = emit (runsFrom 0 0 files.flatten) := by
  rw [records, readFiles_map_some]
  exact flush_foldl_readByte 0 0 [] files.flatten

theorem wzip_of_files {files : List (List UInt8)} (h : files ≠ []) :
    wzip (files.map some) = ⟨(records files).flatMap diwrite, 0⟩ := by
  cases files with
  | nil => exact absurd rfl h
  | cons bytes files =>
    rw [List.map_cons, wzip, ← List.map_cons, records, readFiles_map_some]
    simp

/-! ### Wrapped counters -/

/-- How many copies `wunzip` prints for a run of `n` bytes. -/
def printedCopies (n : Nat) : Nat := (Int32.ofNat n).toInt.toNat

theorem printedCopies_of_lt {n : Nat} (h : n < 2 ^ 31) : printedCopies n = n := by
  rw [printedCopies, Int32.toInt_ofNat_of_lt h, Int.toNat_natCast]

/-- A wrapped counter never says more than the run had. -/
theorem printedCopies_le (n : Nat) : printedCopies n ≤ n := by
  rw [printedCopies, Int32.toInt_ofNat', Int.bmod_def]
  have hsize : ((Int32.size : Nat) : Int) = 4294967296 := rfl
  rw [hsize]
  split <;> omega

theorem printedCopies_lt {n : Nat} (h : 2 ^ 31 ≤ n) : printedCopies n < n := by
  rw [printedCopies, Int32.toInt_ofNat', Int.bmod_def]
  have hsize : ((Int32.size : Nat) : Int) = 4294967296 := rfl
  rw [hsize]
  split <;> omega

theorem printedCopies_eq_iff (n : Nat) : printedCopies n = n ↔ n ≤ 2 ^ 31 - 1 := by
  constructor
  · intro h
    by_contra hn
    have := printedCopies_lt (n := n) (by omega)
    omega
  · intro h
    exact printedCopies_of_lt (by omega)

/-- A count that fits is positive as an `int`. -/
theorem record_count_pos {r : Run UInt8} (hpos : 1 ≤ r.1) (hlt : r.1 < 2 ^ 31) :
    (record r).1 > 0 := by
  rw [gt_iff_lt, Int32.lt_iff_toInt_lt, record, Int32.toInt_ofNat_of_lt hlt]
  simp only [Int32.toInt_zero]
  omega

/-- Runs that fit in an `int` are written one record each. -/
theorem emit_eq_map {rs : List (Run UInt8)} (h : ∀ r ∈ rs, 1 ≤ r.1 ∧ r.1 < 2 ^ 31) :
    emit rs = rs.map record := by
  induction rs with
  | nil => rfl
  | cons r rs ih =>
    have htail := ih fun s hs => h s (by simp [hs])
    cases rs with
    | nil => rfl
    | cons s rs =>
      obtain ⟨hpos, hlt⟩ := h r (by simp)
      rw [emit_cons (by simp), htail, if_pos (record_count_pos hpos hlt)]
      rfl

/-- An empty pending run is dropped by the guard. -/
theorem emit_zero_cons {rs : List (Run UInt8)} (h : rs ≠ []) (a : UInt8) :
    emit ((0, a) :: rs) = emit rs := by
  rw [emit_cons h]
  rfl

/-- **`wzip` writes the maximal runs**, for files that hold at least one byte and
    no run that overflows the counter. -/
theorem records_eq_runs {files : List (List UInt8)} (hne : files.flatten ≠ [])
    (hlt : ∀ r ∈ runs files.flatten, r.1 < 2 ^ 31) :
    records files = (runs files.flatten).map record := by
  have hall : ∀ r ∈ runs files.flatten, 1 ≤ r.1 ∧ r.1 < 2 ^ 31 := fun r hr =>
    ⟨(isRuns_runs files.flatten).pos r hr, hlt r hr⟩
  rw [records_eq_emit, runsFrom_zero]
  split
  · exact emit_eq_map hall
  · rw [emit_zero_cons (runs_ne_nil hne), emit_eq_map hall]

/-! ### The round trip -/

theorem leInt_leBytes (n : Int32) :
    ∃ b0 b1 b2 b3, leBytes n = [b0, b1, b2, b3] ∧ leInt b0 b1 b2 b3 = n := by
  refine ⟨_, _, _, _, rfl, ?_⟩
  apply Int32.toBitVec_inj.mp
  simp only [leInt]
  rw [BitVec.extractLsb'_append_extractLsb'_eq_extractLsb' (by rfl),
    BitVec.extractLsb'_append_extractLsb'_eq_extractLsb' (by rfl),
    BitVec.extractLsb'_append_extractLsb'_eq_extractLsb' (by rfl)]
  exact BitVec.extractLsb'_eq_self

theorem unzipFile_diwrite (c : UInt8) (r : Record) (rest : List UInt8) :
    (unzipFile c (diwrite r ++ rest)).1 = printRun r.1 r.2 ++ (unzipFile r.2 rest).1 := by
  obtain ⟨b0, b1, b2, b3, hbytes, hint⟩ := leInt_leBytes r.1
  rw [diwrite, hbytes]
  simp only [List.cons_append, List.nil_append, unzipFile, hint]

/-- Whole records are decoded one by one. -/
theorem unzipFile_records (c : UInt8) (rs : List Record) :
    (unzipFile c (rs.flatMap diwrite)).1 = rs.flatMap fun r => printRun r.1 r.2 := by
  induction rs generalizing c with
  | nil => rfl
  | cons r rs ih => rw [List.flatMap_cons, unzipFile_diwrite, ih, List.flatMap_cons]

theorem wunzip_singleton (junk : UInt8) (bytes : List UInt8) :
    (wunzip junk [some bytes]).stdout = (unzipFile junk bytes).1 := by
  simp [wunzip, unzipFiles]

/-- Records dropped by the guard would have printed nothing. -/
theorem flatMap_printRun_emit (rs : List (Run UInt8)) :
    ((emit rs).flatMap fun r => printRun r.1 r.2) =
      rs.flatMap fun r => List.replicate (printedCopies r.1) r.2 := by
  induction rs with
  | nil => rfl
  | cons r rs ih =>
    cases rs with
    | nil => rfl
    | cons s rs =>
      rw [emit_cons (by simp), List.flatMap_append, ih, List.flatMap_cons]
      congr 1
      by_cases hpos : (record r).1 > 0
      · rw [if_pos hpos, List.flatMap_singleton]; rfl
      · have hzero : printedCopies r.1 = 0 := by
          simp only [gt_iff_lt, Int32.lt_iff_toInt_lt, record, Int32.toInt_zero] at hpos
          rw [printedCopies]; omega
        simp [hpos, hzero]

/-- Printing at most as many copies as each run has gives back the list exactly
    when no run is printed short. -/
theorem flatMap_replicate_eq_expand {f : Nat → Nat} (hf : ∀ n, f n ≤ n)
    (rs : List (Run UInt8)) :
    (rs.flatMap fun r => List.replicate (f r.1) r.2) = expand rs ↔ ∀ r ∈ rs, f r.1 = r.1 := by
  have hlen : ∀ rs : List (Run UInt8),
      (rs.flatMap fun r => List.replicate (f r.1) r.2).length ≤ (expand rs).length := by
    intro rs
    induction rs with
    | nil => simp
    | cons r rs ih =>
      have hr := hf r.1
      simp only [List.flatMap_cons, expand_cons, List.length_append, List.length_replicate]
      omega
  induction rs with
  | nil => simp
  | cons r rs ih =>
    have hr := hf r.1
    have hrs := hlen rs
    constructor
    · intro heq
      have hsum := congrArg List.length heq
      simp only [List.flatMap_cons, expand_cons, List.length_append,
        List.length_replicate] at hsum
      have hhead : f r.1 = r.1 := by omega
      rw [List.flatMap_cons, expand_cons, hhead, List.append_cancel_left_eq] at heq
      intro s hs
      rcases List.mem_cons.mp hs with rfl | hs
      · exact hhead
      · exact ih.mp heq s hs
    · intro hall
      rw [List.flatMap_cons, expand_cons, hall r (by simp),
        ih.mpr fun s hs => hall s (by simp [hs])]

/-- A property of run lengths that holds of zero does not see the empty pending
    run `wzip` starts with. -/
theorem forall_mem_runsFrom_zero (P : Nat → Prop) (h0 : P 0) (a : UInt8) (xs : List UInt8) :
    (∀ r ∈ runsFrom 0 a xs, P r.1) ↔ ∀ r ∈ runs xs, P r.1 := by
  rw [runsFrom_zero]
  split
  · exact Iff.rfl
  · simp [h0]

/-- **`wunzip` undoes `wzip` exactly up to the limit of the counter**: on the bytes
    `wzip` writes for at least one file it prints the concatenation of the files
    if and only if no maximal run is longer than `2^31 - 1`. -/
theorem wunzip_wzip_iff (junk : UInt8) (files : List (List UInt8)) (hne : files ≠ []) :
    (wunzip junk [some (wzip (files.map some)).stdout]).stdout = files.flatten ↔
      ∀ r ∈ runs files.flatten, r.1 ≤ 2 ^ 31 - 1 := by
  have hexp : expand (runsFrom 0 0 files.flatten) = files.flatten := by
    rw [expand_runsFrom]; rfl
  rw [wunzip_singleton, wzip_of_files hne, unzipFile_records, records_eq_emit,
    flatMap_printRun_emit]
  calc _ ↔ ∀ r ∈ runsFrom 0 0 files.flatten, printedCopies r.1 = r.1 := by
        rw [← flatMap_replicate_eq_expand printedCopies_le, hexp]
    _ ↔ ∀ r ∈ runsFrom 0 0 files.flatten, r.1 ≤ 2 ^ 31 - 1 := by
        simp only [printedCopies_eq_iff]
    _ ↔ _ := forall_mem_runsFrom_zero (fun n => n ≤ 2 ^ 31 - 1) (Nat.zero_le _) 0 _

/-- The round trip of two files whose runs of `a` meet at the border. -/
theorem wunzip_wzip_border :
    (wunzip 7 [some (wzip [some [0, 97, 97], some [97, 98]]).stdout]).stdout =
      [0, 97, 97, 97, 98] :=
  (wunzip_wzip_iff 7 [[0, 97, 97], [97, 98]] (by decide)).mpr (by decide)

end OstepProjects.Zip
