/-
  OstepProjects/Zip/Chunks.lean
  =============================
  **The two page-wise compressors and their merge passes.**

  `pzip3.c` compresses every page on its own (`RLECompress`) and repairs the page
  borders while it writes (`printOutput`): when the last run of a page and the
  first run of the next carry the same byte, the count moves into the next page
  and the page shrinks by one.  `pzip2.c` compresses every buffer with the loop of
  `wzip` (`compress`) and carries the last run of a buffer in `num_temp` and
  `char_temp` (`output`).

  Both write the maximal runs of the concatenated chunks, whatever the cut
  (`printOutput_RLECompress`, `output_compress`), so they agree with each other
  for any two cuts of one byte string (`output_eq_printOutput`).
-/
import OstepProjects.Zip.Wzip

namespace OstepProjects.Zip

open OstepProjects.RunLength

/-- The records of one page or buffer: `data[k]` and `count[k]` for `k < size`. -/
abbrev Output := List Record

/-! ### `pzip3.c` -/

/-- The two nested loops of `RLECompress` at the test of the inner one: `count`
    copies of `c` have been taken, and the rest of the page is to come. -/
def RLERun (c : UInt8) (count : Int32) : List UInt8 → Output
  | [] => [(count, c)]
  | d :: rest => if c = d then RLERun d (count + 1) rest else (count, c) :: RLERun d 1 rest

/-- `RLECompress` on the bytes of a page. -/
def RLECompress : List UInt8 → Output
  | [] => []
  | c :: rest => RLERun c 1 rest

/-- The `if` at the head of the loop of `printOutput`: page `i` and page `i + 1`
    with the run at the border moved into the latter. -/
def mergeBorder (out_i out_next : Output) : Output × Output :=
  match out_i.getLast?, out_next with
  | some (num, character), (count0, data0) :: rest =>
    if character = data0 then (out_i.dropLast, (count0 + num, data0) :: rest)
    else (out_i, out_next)
  | _, _ => (out_i, out_next)

/-- The loop of `printOutput` from a page on, the pages behind it untouched. -/
def printFrom (out_i : Output) : List Output → List Record
  | [] => out_i
  | out_next :: rest =>
    (mergeBorder out_i out_next).1 ++ printFrom (mergeBorder out_i out_next).2 rest

/-- The records `printOutput` writes for `out[0], ..., out[total_pages - 1]`. -/
def printOutput : List Output → List Record
  | [] => []
  | out_0 :: rest => printFrom out_0 rest

/-! ### `pzip2.c` -/

/-- The `for` of `compress`.  Its `if` is the one of `wzip` with `current_char` for
    `last_read` and `char_count` for `count`; at `i == max - 1` the pending run is
    put at the end of `result`. -/
def compressLoop (s : Encoder) : List UInt8 → Output
  | [] => s.stream
  | [c] => (readByte s c).stream ++ [((readByte s c).count, c)]
  | c :: d :: rest => compressLoop (readByte s c) (d :: rest)

def compress (textString : List UInt8) : Output := compressLoop .start textString

/-- The locals of `output`. -/
structure Merger where
  char_temp : UInt8
  num_temp : Int32
  outputString : List Record
deriving DecidableEq, Repr

/-- The first `if` of `output`: a pending run that does not go on is written. -/
def Merger.settle (s : Merger) (r : Record) : Merger :=
  if s.char_temp ≠ r.2 then
    { s with outputString := s.outputString ++ [(s.num_temp, s.char_temp)], num_temp := 0 }
  else s

/-- The last run of a buffer that is not the last one is kept back. -/
def Merger.keep (s : Merger) (r : Record) : Merger :=
  { s with num_temp := s.num_temp + r.1, char_temp := r.2 }

/-- Any other run is written, with the pending count when the bytes agree. -/
def Merger.write (s : Merger) (r : Record) : Merger :=
  if s.char_temp = r.2 then
    { s with outputString := s.outputString ++ [(r.1 + s.num_temp, s.char_temp)], num_temp := 0 }
  else { s with outputString := s.outputString ++ [r] }

/-- The inner loop of `output` over `bufferlist[i].result`. -/
def outputBuffer (i listsize numOfResultset : Nat) : Nat → Merger → Output → Merger
  | _, s, [] => s
  | j, s, r :: rest =>
    let s := if 0 < i ∧ j = 0 then s.settle r else s
    let s := if j = numOfResultset - 1 ∧ i ≠ listsize - 1 then s.keep r else s.write r
    outputBuffer i listsize numOfResultset (j + 1) s rest

/-- The outer loop of `output`. -/
def outputFrom (listsize : Nat) : Nat → Merger → List Output → Merger
  | _, s, [] => s
  | i, s, result :: rest =>
    outputFrom listsize (i + 1) (outputBuffer i listsize result.length 0 s result) rest

/-- The records `output` writes for `bufferlist[0], ..., bufferlist[listsize - 1]`. -/
def output (bufferlist : List Output) : List Record :=
  (outputFrom bufferlist.length 0 ⟨0, 0, []⟩ bufferlist).outputString

/-! ### Pages are compressed to their runs -/

theorem RLERun_eq (c : UInt8) (n : Nat) (xs : List UInt8) :
    RLERun c (Int32.ofNat n) xs = (runsFrom n c xs).map record := by
  induction xs generalizing c n with
  | nil => rfl
  | cons x xs ih =>
    rw [RLERun, runsFrom]
    by_cases hx : x = c
    · have hcount : Int32.ofNat n + 1 = Int32.ofNat (n + 1) := (Int32.ofNat_add n 1).symm
      rw [if_pos hx.symm, if_pos hx, hcount, hx, ih]
    · rw [if_neg fun h => hx h.symm, if_neg hx, show (1 : Int32) = Int32.ofNat 1 from rfl, ih]
      rfl

theorem RLECompress_eq (xs : List UInt8) : RLECompress xs = (runs xs).map record := by
  cases xs with
  | nil => rfl
  | cons x xs => exact RLERun_eq x 1 xs

theorem compressLoop_eq_flush (s : Encoder) {xs : List UInt8} (h : xs ≠ []) :
    compressLoop s xs = (xs.foldl readByte s).flush := by
  induction xs generalizing s with
  | nil => exact absurd rfl h
  | cons x xs ih =>
    cases xs with
    | nil =>
      have hlast : (readByte s x).last_read = x := by
        unfold readByte
        split
        · rename_i heq; exact heq.symm
        · rfl
      rw [compressLoop, List.foldl_cons, List.foldl_nil, Encoder.flush, hlast]
    | cons y ys => rw [compressLoop, List.foldl_cons, ih _ (by simp)]

/-- A buffer is what `wzip` would write for it alone. -/
theorem compress_eq {xs : List UInt8} (hne : xs ≠ []) (hlt : ∀ r ∈ runs xs, r.1 < 2 ^ 31) :
    compress xs = (runs xs).map record := by
  have hrec : records [xs] = (runs [xs].flatten).map record :=
    records_eq_runs (by simpa using hne) (by simpa using hlt)
  rw [compress, compressLoop_eq_flush _ hne]
  simpa [records, readFiles] using hrec

/-! ### The merge pass of `pzip3` -/

/-- `mergeBorder` on two pages given by their runs. -/
theorem mergeBorder_map (rs ss : List (Run UInt8)) (r s : Run UInt8) :
    mergeBorder ((rs ++ [r]).map record) ((s :: ss).map record) =
      if r.2 = s.2 then (rs.map record, ((r.1 + s.1, s.2) :: ss).map record)
      else ((rs ++ [r]).map record, (s :: ss).map record) := by
  have hlast : ((rs ++ [r]).map record).getLast? = some (record r) := by simp
  have hcomm : Int32.ofNat s.1 + Int32.ofNat r.1 = Int32.ofNat (r.1 + s.1) := by
    rw [← Int32.ofNat_add, Nat.add_comm]
  simp only [mergeBorder, hlast, List.map_cons, record]
  by_cases h : r.2 = s.2
  · rw [if_pos h, if_pos h, hcomm]; simp
  · rw [if_neg h, if_neg h]

/-- **The loop invariant of `printOutput`.**  With the runs `rs` in the current page,
    the pages from here on are written as `rs` joined to the runs of the rest. -/
theorem printFrom_eq {chunks : List (List UInt8)} (h : ∀ c ∈ chunks, c ≠ [])
    {rs : List (Run UInt8)} (hrs : rs ≠ []) :
    printFrom (rs.map record) (chunks.map RLECompress) =
      (join rs (runs chunks.flatten)).map record := by
  induction chunks generalizing rs with
  | nil => simp [printFrom]
  | cons c chunks ih =>
    have htail : ∀ c ∈ chunks, c ≠ [] := fun d hd => h d (by simp [hd])
    obtain ⟨s, ss, hc⟩ := List.exists_cons_of_ne_nil (runs_ne_nil (h c (by simp)))
    obtain ⟨init, r, rfl⟩ : ∃ init r, rs = init ++ [r] :=
      ⟨rs.dropLast, rs.getLast hrs, (List.dropLast_append_getLast hrs).symm⟩
    rw [List.map_cons, printFrom, RLECompress_eq, hc, mergeBorder_map, List.flatten_cons,
      runs_append, hc, join_append_singleton, join_singleton_join]
    by_cases hb : r.2 = s.2
    · rw [if_pos hb, if_pos hb, ih htail (by simp), ← List.map_append]
    · rw [if_neg hb, if_neg hb, ih htail (by simp), ← List.map_append]
      simp

/-- **`printOutput` writes the maximal runs of the chunks laid end to end.** -/
theorem printOutput_RLECompress {chunks : List (List UInt8)} (h : ∀ c ∈ chunks, c ≠ []) :
    printOutput (chunks.map RLECompress) = (runs chunks.flatten).map record := by
  cases chunks with
  | nil => rfl
  | cons c chunks =>
    rw [List.map_cons, printOutput, RLECompress_eq,
      printFrom_eq (fun d hd => h d (by simp [hd])) (runs_ne_nil (h c (by simp))),
      List.flatten_cons, runs_append]

/-! ### The merge pass of `pzip2` -/

/-- With nothing pending a run is written as it is, whatever `char_temp` holds. -/
theorem Merger.write_of_zero (s : Merger) (r : Record) (h : s.num_temp = 0) :
    s.write r = { s with outputString := s.outputString ++ [r] } := by
  unfold Merger.write
  by_cases hc : s.char_temp = r.2
  · have hr : (r.1 + 0, s.char_temp) = r := by rw [hc]; simp
    rw [if_pos hc, h, hr]
  · rw [if_neg hc]

theorem outputBuffer_cons (i listsize n j : Nat) (s : Merger) (r : Record) (rest : Output) :
    outputBuffer i listsize n j s (r :: rest) =
      outputBuffer i listsize n (j + 1)
        (if j = n - 1 ∧ i ≠ listsize - 1 then
          (if 0 < i ∧ j = 0 then s.settle r else s).keep r
        else (if 0 < i ∧ j = 0 then s.settle r else s).write r) rest := rfl

/-- The runs behind the first one of the last buffer are written one by one. -/
theorem outputBuffer_last (i n j : Nat) (s : Merger) (rs : Output) (h : s.num_temp = 0)
    (hj : 0 < i → 0 < j) :
    outputBuffer i (i + 1) n j s rs = { s with outputString := s.outputString ++ rs } := by
  induction rs generalizing j s with
  | nil => simp [outputBuffer]
  | cons r rs ih =>
    have hfirst : ¬ (0 < i ∧ j = 0) := fun hij => by have := hj hij.1; omega
    have hkeep : ¬ (j = n - 1 ∧ i ≠ i + 1 - 1) := fun hij => hij.2 (by omega)
    rw [outputBuffer_cons, if_neg hkeep, if_neg hfirst, Merger.write_of_zero s r h,
      ih (j + 1) { s with outputString := s.outputString ++ [r] } h fun _ => Nat.succ_pos j]
    simp

/-- The runs behind the first one of an earlier buffer are written up to the last,
    which is kept back. -/
theorem outputBuffer_keep (i listsize j : Nat) (s : Merger) (rs : Output) (r : Record)
    (h : s.num_temp = 0) (hi : i ≠ listsize - 1) (hj : 0 < i → 0 < j) :
    outputBuffer i listsize (j + rs.length + 1) j s (rs ++ [r]) =
      ⟨r.2, r.1, s.outputString ++ rs⟩ := by
  induction rs generalizing j s with
  | nil =>
    have hfirst : ¬ (0 < i ∧ j = 0) := fun hij => by have := hj hij.1; omega
    simp [outputBuffer, hfirst, hi, Merger.keep, h]
  | cons q rs ih =>
    have hfirst : ¬ (0 < i ∧ j = 0) := fun hij => by have := hj hij.1; omega
    have hlast : ¬ (j = j + (q :: rs).length + 1 - 1 ∧ i ≠ listsize - 1) := fun hij => by
      have := hij.1; simp at this
    rw [List.cons_append, outputBuffer_cons, if_neg hlast, if_neg hfirst,
      Merger.write_of_zero s q h]
    have hlen : j + (q :: rs).length + 1 = (j + 1) + rs.length + 1 := by simp; omega
    rw [hlen, ih (j + 1) { s with outputString := s.outputString ++ [q] } h
      fun _ => Nat.succ_pos j]
    simp

/-- The merger with the runs `rs ++ [r]` read, the last one kept back. -/
def Merger.pending (rs : List (Run UInt8)) (r : Run UInt8) : Merger :=
  ⟨r.2, (record r).1, rs.map record⟩

/-- How the first run of a buffer meets the pending one. -/
theorem Merger.settle_pending (rs : List (Run UInt8)) (r s : Run UInt8) :
    (Merger.pending rs r).settle (record s) =
      if r.2 = s.2 then Merger.pending rs r
      else ⟨r.2, 0, (rs ++ [r]).map record⟩ := by
  by_cases h : r.2 = s.2
  · simp [Merger.settle, Merger.pending, record, h]
  · simp [Merger.settle, Merger.pending, record, h]

/-- One buffer that is not the last: the runs read so far are joined to its runs,
    and the last of them is pending. -/
theorem outputBuffer_pending {i listsize : Nat} (h0 : 0 < i) (hi : i ≠ listsize - 1)
    (rs : List (Run UInt8)) (r : Run UInt8) {ss : List (Run UInt8)} (hss : ss ≠ []) :
    ∃ ts t, join (rs ++ [r]) ss = ts ++ [t] ∧
      outputBuffer i listsize ss.length 0 (.pending rs r) (ss.map record) = .pending ts t := by
  obtain ⟨s, ss, rfl⟩ := List.exists_cons_of_ne_nil hss
  have hfirst : 0 < i ∧ 0 = 0 := ⟨h0, rfl⟩
  rw [join_append_singleton]
  rcases List.eq_nil_or_concat ss with rfl | ⟨mid, t, rfl⟩
  · -- the buffer is a single run, which is kept back in its turn
    have hlast : 0 = [s].length - 1 ∧ i ≠ listsize - 1 := ⟨rfl, hi⟩
    rw [List.map_singleton, outputBuffer_cons, if_pos hlast, if_pos hfirst,
      Merger.settle_pending, join, outputBuffer]
    by_cases hb : r.2 = s.2
    · refine ⟨rs, (r.1 + s.1, s.2), by rw [if_pos hb], ?_⟩
      rw [if_pos hb]
      simp [Merger.keep, Merger.pending, record, Int32.ofNat_add]
    · refine ⟨rs ++ [r], s, by rw [if_neg hb]; simp, ?_⟩
      rw [if_neg hb]
      simp [Merger.keep, Merger.pending, record]
  · simp only [List.concat_eq_append]
    have hnotlast : ¬ (0 = (s :: (mid ++ [t])).length - 1 ∧ i ≠ listsize - 1) := fun hij => by
      have := hij.1; simp at this
    have hlen : (s :: (mid ++ [t])).length = 1 + (mid.map record).length + 1 := by
      simp; omega
    have hmid : (mid ++ [t]).map record = mid.map record ++ [record t] := by simp
    rw [List.map_cons, outputBuffer_cons, if_neg hnotlast, if_pos hfirst,
      Merger.settle_pending, hlen, hmid]
    by_cases hb : r.2 = s.2
    · refine ⟨rs ++ (r.1 + s.1, s.2) :: mid, t, by simp [join, hb], ?_⟩
      have hwrite : (Merger.pending rs r).write (record s) =
          ⟨r.2, 0, (rs ++ [(r.1 + s.1, s.2)]).map record⟩ := by
        simp [Merger.write, Merger.pending, record, hb, Int32.ofNat_add, Int32.add_comm]
      rw [if_pos hb, hwrite, outputBuffer_keep i listsize 1 _ _ _ rfl hi fun _ => Nat.one_pos]
      simp [Merger.pending, record]
    · refine ⟨rs ++ r :: s :: mid, t, by simp [join, hb], ?_⟩
      rw [if_neg hb, Merger.write_of_zero _ _ rfl,
        outputBuffer_keep i listsize 1 _ _ _ rfl hi fun _ => Nat.one_pos]
      simp [Merger.pending, record]

/-- The last buffer writes everything. -/
theorem outputBuffer_final {i : Nat} (h0 : 0 < i) (rs : List (Run UInt8)) (r : Run UInt8)
    {ss : List (Run UInt8)} (hss : ss ≠ []) :
    (outputBuffer i (i + 1) ss.length 0 (.pending rs r) (ss.map record)).outputString =
      (join (rs ++ [r]) ss).map record := by
  obtain ⟨s, ss, rfl⟩ := List.exists_cons_of_ne_nil hss
  rw [join_append_singleton]
  have hkeep : ¬ (0 = (s :: ss).length - 1 ∧ i ≠ i + 1 - 1) := fun hij => hij.2 (by omega)
  have hfirst : 0 < i ∧ 0 = 0 := ⟨h0, rfl⟩
  rw [List.map_cons, outputBuffer_cons, if_neg hkeep, if_pos hfirst, Merger.settle_pending, join]
  by_cases hb : r.2 = s.2
  · have hwrite : (Merger.pending rs r).write (record s) =
        ⟨r.2, 0, (rs ++ [(r.1 + s.1, s.2)]).map record⟩ := by
      simp [Merger.write, Merger.pending, record, hb, Int32.ofNat_add, Int32.add_comm]
    rw [if_pos hb, if_pos hb, hwrite, outputBuffer_last _ _ _ _ _ rfl fun _ => Nat.one_pos]
    simp
  · rw [if_neg hb, if_neg hb, Merger.write_of_zero _ _ rfl,
      outputBuffer_last _ _ _ _ _ rfl fun _ => Nat.one_pos]
    simp

/-- The buffers behind the first one, with the runs before them pending. -/
theorem outputFrom_pending {bufferlist : List (List (Run UInt8))}
    (hne : ∀ b ∈ bufferlist, b ≠ []) (hlist : bufferlist ≠ []) {i : Nat} (h0 : 0 < i)
    (rs : List (Run UInt8)) (r : Run UInt8) :
    (outputFrom (i + bufferlist.length) i (.pending rs r)
        (bufferlist.map (List.map record))).outputString =
      (bufferlist.foldl join (rs ++ [r])).map record := by
  induction bufferlist generalizing i rs r with
  | nil => exact absurd rfl hlist
  | cons b bs ih =>
    have hb : b ≠ [] := hne b (by simp)
    have hbs : ∀ c ∈ bs, c ≠ [] := fun c hc => hne c (by simp [hc])
    rw [List.map_cons, outputFrom, List.length_map, List.foldl_cons]
    cases hcases : bs with
    | nil =>
      rw [List.map_nil, outputFrom, List.foldl_nil, List.length_singleton,
        outputBuffer_final h0 rs r hb]
    | cons c cs =>
      have hi : i ≠ i + (b :: bs).length - 1 := by rw [hcases]; simp
      obtain ⟨ts, t, hjoin, hbuf⟩ := outputBuffer_pending h0 hi rs r hb
      rw [← hcases, hbuf, hjoin, ← ih hbs (by rw [hcases]; simp) (Nat.succ_pos i)]
      congr 2; simp; omega

/-- Joining the runs of chunk after chunk gives the runs of the whole. -/
theorem foldl_join_runs (chunks : List (List UInt8)) (xs : List UInt8) :
    (chunks.map runs).foldl join (runs xs) = runs (xs ++ chunks.flatten) := by
  induction chunks generalizing xs with
  | nil => simp
  | cons c chunks ih =>
    rw [List.map_cons, List.foldl_cons, ← runs_append, ih]
    simp

/-- **`output` writes the maximal runs of the chunks laid end to end.** -/
theorem output_compress {chunks : List (List UInt8)} (hne : ∀ c ∈ chunks, c ≠ [])
    (hlt : ∀ c ∈ chunks, ∀ r ∈ runs c, r.1 < 2 ^ 31) :
    output (chunks.map compress) = (runs chunks.flatten).map record := by
  have hmap : chunks.map compress = (chunks.map runs).map (List.map record) := by
    rw [List.map_map]
    exact List.map_congr_left fun c hc => compress_eq (hne c hc) (hlt c hc)
  rw [hmap]
  cases chunks with
  | nil => rfl
  | cons c cs =>
    have hcs : ∀ b ∈ cs.map runs, b ≠ [] := by
      intro b hb
      obtain ⟨d, hd, rfl⟩ := List.mem_map.mp hb
      exact runs_ne_nil (hne d (by simp [hd]))
    rw [List.flatten_cons, ← foldl_join_runs, output, List.map_cons, List.map_cons, outputFrom]
    cases hcases : cs with
    | nil =>
      have hlast := outputBuffer_last 0 ((runs c).map record).length 0 ⟨0, 0, []⟩
        ((runs c).map record) rfl fun h => absurd h (lt_irrefl 0)
      rw [List.map_nil, List.map_nil, outputFrom, List.foldl_nil, List.length_singleton, hlast]
      rfl
    | cons d ds =>
      rw [← hcases]
      obtain ⟨init, r, hr⟩ : ∃ init r, runs c = init ++ [r] :=
        ⟨_, _, (List.dropLast_append_getLast (runs_ne_nil (hne c (by simp)))).symm⟩
      have hi : 0 ≠ (1 + (cs.map runs).length) - 1 := by rw [hcases]; simp
      have hkeep := outputBuffer_keep 0 (1 + (cs.map runs).length) 0 ⟨0, 0, []⟩
        (init.map record) (record r) rfl hi fun h => absurd h (lt_irrefl 0)
      have hlen : ((runs c).map record).length = 0 + (init.map record).length + 1 := by
        rw [hr]; simp
      have htotal : ((runs c).map record :: (cs.map runs).map (List.map record)).length =
          1 + (cs.map runs).length := by simp; omega
      rw [hlen, htotal, hr, List.map_append, List.map_singleton, hkeep]
      exact outputFrom_pending hcs (by rw [hcases]; simp) Nat.one_pos init r

/-- **The two compressors agree whatever the chunking.**  For two cuts of one byte
    string into non-empty chunks, `pzip2` and `pzip3` write the same records: its
    maximal runs in order, with positive counts that did not wrap and different
    bytes in neighbouring records. -/
theorem output_eq_printOutput (bytes : List UInt8) (hlen : bytes.length ≤ 2 ^ 31 - 1)
    (cut cut' : List (List UInt8)) (hcut : cut.flatten = bytes) (hcut' : cut'.flatten = bytes)
    (hchunk : ∀ c ∈ cut, c ≠ []) (hchunk' : ∀ c ∈ cut', c ≠ []) :
    output (cut.map compress) = printOutput (cut'.map RLECompress) ∧
      output (cut.map compress) = (runs bytes).map record ∧
      (∀ r ∈ runs bytes, (record r).1.toInt = r.1 ∧ 1 ≤ (record r).1.toInt) ∧
      (output (cut.map compress)).IsChain fun r s => r.2 ≠ s.2 := by
  have hshort : ∀ c ∈ cut, ∀ r ∈ runs c, r.1 < 2 ^ 31 := by
    intro c hc r hr
    have hr' := le_length_of_mem_runs hr
    have hc' := (List.sublist_flatten_of_mem hc).length_le
    rw [hcut] at hc'
    omega
  have hout : output (cut.map compress) = (runs bytes).map record := by
    rw [output_compress hchunk hshort, hcut]
  have hprint : printOutput (cut'.map RLECompress) = (runs bytes).map record := by
    rw [printOutput_RLECompress hchunk', hcut']
  refine ⟨hout.trans hprint.symm, hout, ?_, ?_⟩
  · intro r hr
    have hle := le_length_of_mem_runs hr
    have hpos := (isRuns_runs bytes).pos r hr
    have hint : (record r).1.toInt = r.1 := Int32.toInt_ofNat_of_lt (by omega)
    exact ⟨hint, by omega⟩
  · rw [hout, List.isChain_map]
    exact (isRuns_runs bytes).alternate

/-- A zero byte at the start and a run that crosses every chunk border. -/
theorem output_eq_printOutput_cuts :
    output ([[0, 5], [5], [5, 0]].map compress) =
      printOutput ([[0], [5, 5, 5], [0]].map RLECompress) :=
  (output_eq_printOutput [0, 5, 5, 5, 0] (by decide) [[0, 5], [5], [5, 0]]
    [[0], [5, 5, 5], [0]] rfl rfl (by decide) (by decide)).1

end OstepProjects.Zip
