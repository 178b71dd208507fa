/-
  OstepProjects/Zip/Pzip.lean
  ===========================
  **The first parallel compressor, `pzip.c`.**

  `main` prints all files into one buffer, cuts the buffer into four segments (a
  quarter of the length rounded up three times, and what is left), compresses
  them with `datazip` and repairs the three borders before it writes.  The lengths
  come from the sizes of the files, the bytes through `%s` and `strncpy`, which
  stop at a zero byte.

  `none` stands for a run that leaves what the C library or its own arrays allow:
  a file that cannot be mapped, a buffer longer than `sprintf` can count or than its
  block, a segment of negative length, a read in front of an empty segment.  Under
  the convention that the string of a segment ends where the segment does,
  `agreesWithWzip_iff` says for which files the four segments are cut as intended and
  the records are those of `wzip`.
-/
import OstepProjects.Lib.Bytes
import OstepProjects.Lib.Loops
import OstepProjects.Zip.Chunks

namespace OstepProjects.Zip

open OstepProjects.RunLength OstepProjects.Bytes OstepProjects.Loops

/-! ### A segment -/

/-- The variables of the loop in `datazip`; `zip_len` is the length of `zip_data`. -/
structure DataZip where
  count : Int32
  zip_data : List Record
deriving DecidableEq, Repr

/-- The body of the loop of `datazip`. -/
def zipStep (data : List UInt8) (s : DataZip) (i : Nat) : Option DataZip := do
  let c ← data[i]?
  let d ← data[i + 1]?
  some (if c = d then { s with count := s.count + 1 }
    else { count := 1, zip_data := s.zip_data ++ [(s.count, c)] })

/-- `datazip` on the string of a segment: `data_len` is its length, and the byte
    `data[data_len - 1]` is read whatever the length. -/
def datazip (data : List UInt8) : Option Output := do
  let s ← (List.range (data.length - 1)).foldlM (zipStep data) ⟨1, []⟩
  let c ← data[data.length - 1]?
  some (s.zip_data ++ [(s.count, c)])

theorem datazip_nil : datazip [] = none := rfl

/-- **The loop invariant of `datazip`.**  From index `k` on the loop compares the
    bytes of the rest with their successors, and leaves the last run pending. -/
theorem foldlM_zipStep (front : List UInt8) (c : UInt8) (rest : List UInt8) (s : DataZip) :
    ∃ t, (List.range' front.length rest.length).foldlM (zipStep (front ++ c :: rest)) s = some t ∧
      t.zip_data ++ [(t.count, (c :: rest).getLast (List.cons_ne_nil c rest))] =
        s.zip_data ++ RLERun c s.count rest := by
  induction rest generalizing front c s with
  | nil => exact ⟨s, rfl, rfl⟩
  | cons d rest ih =>
    have hstep : zipStep (front ++ c :: d :: rest) s front.length =
        some (if c = d then { s with count := s.count + 1 }
          else { count := 1, zip_data := s.zip_data ++ [(s.count, c)] }) := by
      have hc : (front ++ c :: d :: rest)[front.length]? = some c := by simp
      have hd : (front ++ c :: d :: rest)[front.length + 1]? = some d := by simp
      simp only [zipStep, hc, hd]
      rfl
    have hmove : front ++ c :: d :: rest = (front ++ [c]) ++ d :: rest := by simp
    have hfront : front.length + 1 = (front ++ [c]).length := by simp
    obtain ⟨t, hloop, ht⟩ := ih (front ++ [c]) d
      (if c = d then { s with count := s.count + 1 }
        else { count := 1, zip_data := s.zip_data ++ [(s.count, c)] })
    refine ⟨t, ?_, ?_⟩
    · rw [List.length_cons, List.range'_succ, List.foldlM_cons, hstep, hmove, hfront]
      exact hloop
    · rw [List.getLast_cons (List.cons_ne_nil d rest), ht, RLERun]
      by_cases hcd : c = d
      · rw [if_pos hcd, if_pos hcd]
      · rw [if_neg hcd, if_neg hcd, List.append_assoc]
        rfl

/-- **A segment that is not empty is read within its bounds**, and compressed as
    `pzip3` compresses a page. -/
theorem datazip_eq {data : List UInt8} (h : data ≠ []) :
    datazip data = some (RLECompress data) := by
  obtain ⟨c, rest, rfl⟩ := List.exists_cons_of_ne_nil h
  obtain ⟨t, hloop, ht⟩ := foldlM_zipStep [] c rest ⟨1, []⟩
  have hlast : (c :: rest)[(c :: rest).length - 1]? =
      some ((c :: rest).getLast (List.cons_ne_nil c rest)) := by
    rw [← List.getLast?_eq_getElem?, List.getLast?_eq_some_getLast]
  rw [datazip, List.range_eq_range', hlast]
  simp only [List.length_cons, Nat.add_sub_cancel]
  rw [show (List.range' 0 rest.length).foldlM (zipStep (c :: rest)) ⟨1, []⟩ = some t from hloop]
  exact congrArg some ht

theorem isSome_datazip_iff (data : List UInt8) : (datazip data).isSome ↔ data ≠ [] := by
  constructor
  · rintro h rfl
    exact absurd h (by decide)
  · intro h
    rw [datazip_eq h]
    rfl

/-! ### The borders -/

/-- The loop of `main` over the borders, from the first of the segments on. -/
def mergeBorders : List Output → List Output
  | z_i :: z_next :: zipped =>
    (mergeBorder z_i z_next).1 :: mergeBorders ((mergeBorder z_i z_next).2 :: zipped)
  | zipped => zipped
termination_by zipped => zipped.length

/-- `pzip3` repairs its borders while it writes, with the same records. -/
theorem flatten_mergeBorders (zipped : List Output) :
    (mergeBorders zipped).flatten = printOutput zipped := by
  fun_induction mergeBorders zipped with
  | case1 z_i z_next zipped ih => rw [List.flatten_cons, ih, printOutput, printOutput, printFrom]
  | case2 zipped hshort =>
    rcases zipped with _ | ⟨z, _ | ⟨z', zipped⟩⟩
    · rfl
    · simp [printOutput, printFrom]
    · exact absurd rfl (hshort z z' zipped)

/-! ### The cut -/

def core_number : Nat := 4

/-- `(off_t) ceil((double) total_len / core_number)`: the quotient by four is exact. -/
def seperate_len (total_len : Nat) : Nat := (total_len + (core_number - 1)) / core_number

def final_len (total_len : Nat) : Int :=
  total_len - ((core_number - 1) * seperate_len total_len : Nat)

/-- The length of segment `i`. -/
def segmentLen (total_len i : Nat) : Int :=
  if i < core_number - 1 then seperate_len total_len else final_len total_len

def segmentLens (total_len : Nat) : List Int := (List.range core_number).map (segmentLen total_len)

/-- The largest number of bytes `sprintf` can report. -/
def INT_MAX : Nat := 2147483647

/-- `my_mmap_read`: there is no mapping of length zero. -/
def my_mmap_read (file : List UInt8) : Option (List UInt8) := if file = [] then none else some file

section Memory

/-- What the program meets in memory: the size of a page, how many bytes of the block that
    `malloc` gives for the buffer it may use, and what is left in them. -/
structure Memory where
  page_size : Nat
  usable : Nat
  leftover : List UInt8

variable (mem : Memory)

/-- What `%s` reads of a mapping.  The rest of its last page is zero; a file that fills its
    pages is read on into the memory `behind` it. -/
def Memory.mappedString (behind mmapped : List UInt8) : List UInt8 :=
  cstr (if mem.page_size ∣ mmapped.length then mmapped ++ behind else mmapped)

/-- `sprintf(buffer, "%s%s", buffer, mmapped[i-1])`, which writes a terminator, too. -/
def appendFile (behind buffer file : List UInt8) : Option (List UInt8) := do
  let mmapped ← my_mmap_read file
  let printed := buffer ++ mem.mappedString behind mmapped
  if printed.length ≤ INT_MAX ∧ printed.length < mem.usable then some printed else none

/-- The loop over the files, from file `i` on. -/
def appendFiles (behind : Nat → List UInt8) : Nat → List UInt8 → List (List UInt8) →
    Option (List UInt8)
  | _, buffer, [] => some buffer
  | i, buffer, file :: files => do
    let buffer ← appendFile mem (behind i) buffer file
    appendFiles behind (i + 1) buffer files

/-- The string that `strncpy` leaves in a block of `len` bytes. -/
def segment (memory : List UInt8) (start : Nat) (len : Int) : Option (List UInt8) :=
  if len < 0 then none else some ((cstr (memory.drop start)).take len.toNat)

/-- The strings the threads get, cut from the memory at `buffer`. -/
def segments (memory : List UInt8) (total_len : Nat) : Option (List (List UInt8)) :=
  (List.range core_number).mapM fun i =>
    segment memory (i * seperate_len total_len) (segmentLen total_len i)

/-- The strings `main` hands to `datazip`; `junk` is the memory behind the string in
    `buffer` and its terminator. -/
def paraData (behind : Nat → List UInt8) (junk : List UInt8) (files : List (List UInt8)) :
    Option (List (List UInt8)) := do
  let buffer ← appendFiles mem behind 0 (cstr mem.leftover) files
  segments (buffer ++ 0 :: junk) files.flatten.length

/-- The records `main` writes to `a.z`. -/
def pzip (behind : Nat → List UInt8) (junk : List UInt8) (files : List (List UInt8)) :
    Option (List Record) := do
  let para ← paraData mem behind junk files
  let zipped ← para.mapM datazip
  some (mergeBorders zipped).flatten

end Memory

theorem final_len_pos_iff {total_len : Nat} (h : total_len ≠ 0) :
    0 < final_len total_len ↔ total_len ∉ [1, 2, 3, 5, 6, 9] := by
  simp only [final_len, seperate_len, core_number, List.mem_cons, List.not_mem_nil, or_false,
    not_or]
  constructor
  · intro hpos
    omega
  · intro hlen
    omega

/-- The quarters are positive whenever there is a byte. -/
theorem forall_segmentLens_pos_iff {total_len : Nat} (h : total_len ≠ 0) :
    (∀ len ∈ segmentLens total_len, 0 < len) ↔ 0 < final_len total_len := by
  have hquarter : 0 < (seperate_len total_len : Int) := by
    rw [seperate_len, core_number]
    omega
  have hlens : segmentLens total_len = [(seperate_len total_len : Int), seperate_len total_len,
      seperate_len total_len, final_len total_len] := rfl
  rw [hlens]
  simp only [List.forall_mem_cons, List.not_mem_nil, false_imp_iff, implies_true, and_true]
  exact ⟨fun hall => hall.2.2.2, fun hfinal => ⟨hquarter, hquarter, hquarter, hfinal⟩⟩

theorem segmentLens_sum (total_len : Nat) : (segmentLens total_len).sum = total_len := by
  have hlens : segmentLens total_len = [(seperate_len total_len : Int), seperate_len total_len,
      seperate_len total_len, final_len total_len] := rfl
  rw [hlens]
  simp only [final_len, core_number, List.sum_cons, List.sum_nil]
  omega

/-! ### The buffer -/

section Buffer

variable {mem : Memory} {behind : Nat → List UInt8}

/-- The strings of the files from file `i` on. -/
def mappedStrings (mem : Memory) (behind : Nat → List UInt8) : Nat → List (List UInt8) → List UInt8
  | _, [] => []
  | i, file :: files => mem.mappedString (behind i) file ++ mappedStrings mem behind (i + 1) files

/-- The files are put into the buffer one behind the other, each as the string it is read as. -/
theorem appendFiles_eq_some_iff {files : List (List UInt8)} (hfiles : files ≠ []) {i : Nat}
    {buffer printed : List UInt8} :
    appendFiles mem behind i buffer files = some printed ↔
      [] ∉ files ∧ printed = buffer ++ mappedStrings mem behind i files ∧
        printed.length ≤ INT_MAX ∧ printed.length < mem.usable := by
  induction files generalizing i buffer with
  | nil => exact absurd rfl hfiles
  | cons file files ih =>
    obtain ⟨strings, hstrings⟩ : ∃ strings, strings = buffer ++ mem.mappedString (behind i) file :=
      ⟨_, rfl⟩
    have hstep : appendFile mem (behind i) buffer file =
        if file ≠ [] ∧ strings.length ≤ INT_MAX ∧ strings.length < mem.usable then some strings
        else none := by
      rw [appendFile, my_mmap_read, hstrings]
      by_cases hfile : file = []
      · simp [hfile]
      · simp [hfile]
    rw [appendFiles, hstep, mappedStrings, ← List.append_assoc, ← hstrings, List.mem_cons, not_or,
      eq_comm (a := []), and_assoc]
    by_cases hfits : file ≠ [] ∧ strings.length ≤ INT_MAX ∧ strings.length < mem.usable
    · rw [if_pos hfits, and_iff_right hfits.1]
      change appendFiles mem behind (i + 1) strings files = some printed ↔ _
      by_cases hlast : files = []
      · subst hlast
        rw [appendFiles, mappedStrings, List.append_nil, Option.some_inj, eq_comm]
        refine ⟨?_, fun h => h.2.1⟩
        rintro rfl
        exact ⟨List.not_mem_nil, rfl, hfits.2⟩
      · exact ih hlast
    · rw [if_neg hfits]
      refine iff_of_false (fun h => nomatch h) ?_
      rintro ⟨hfile, _, rfl, hmax, husable⟩
      rw [List.length_append] at hmax husable
      exact hfits ⟨hfile, by omega, by omega⟩

/-- Files that leave a part of their last page. -/
theorem mappedStrings_eq_flatten {files : List (List UInt8)} (hzero : 0 ∉ files.flatten)
    (hpages : ∀ file ∈ files, ¬ mem.page_size ∣ file.length) (i : Nat) :
    mappedStrings mem behind i files = files.flatten := by
  induction files generalizing i with
  | nil => rfl
  | cons file files ih =>
    rw [List.flatten_cons, List.mem_append, not_or] at hzero
    rw [mappedStrings, List.flatten_cons, Memory.mappedString,
      if_neg (hpages file List.mem_cons_self), cstr_eq_self hzero.1,
      ih hzero.2 fun f hf => hpages f (List.mem_cons_of_mem file hf)]

/-- With nothing but a terminator behind the pages. -/
theorem mappedStrings_nil {files : List (List UInt8)} (hzero : 0 ∉ files.flatten) (i : Nat) :
    mappedStrings mem (fun _ => []) i files = files.flatten := by
  induction files generalizing i with
  | nil => rfl
  | cons file files ih =>
    rw [List.flatten_cons, List.mem_append, not_or] at hzero
    rw [mappedStrings, List.flatten_cons, Memory.mappedString, List.append_nil, ite_self,
      cstr_eq_self hzero.1, ih hzero.2]

/-- A file that fills its pages is read on. -/
theorem length_le_mappedStrings {files : List (List UInt8)} (hzero : 0 ∉ files.flatten)
    {file : List UInt8} (hfile : file ∈ files) (hpages : mem.page_size ∣ file.length)
    {tail : List UInt8} (htail : 0 ∉ tail) (i : Nat) :
    tail.length ≤ (mappedStrings mem (fun _ => tail) i files).length := by
  induction files generalizing i with
  | nil => cases hfile
  | cons f files ih =>
    rw [List.flatten_cons, List.mem_append, not_or] at hzero
    rw [mappedStrings, List.length_append]
    rcases List.mem_cons.mp hfile with rfl | hfile
    · have hmem : 0 ∉ file ++ tail := by
        rw [List.mem_append, not_or]
        exact ⟨hzero.1, htail⟩
      rw [Memory.mappedString, if_pos hpages, cstr_eq_self hmem, List.length_append]
      omega
    · exact (ih hzero.2 hfile (i + 1)).trans (Nat.le_add_left _ _)

end Buffer

/-! ### The segments -/

theorem segment_eq {buffer : List UInt8} (hzero : 0 ∉ buffer) (junk : List UInt8) {start : Nat}
    (hstart : start ≤ buffer.length) {len : Int} (hlen : 0 ≤ len) :
    segment (buffer ++ 0 :: junk) start len = some ((buffer.drop start).take len.toNat) := by
  have hdrop : 0 ∉ buffer.drop start := fun h => hzero (List.mem_of_mem_drop h)
  rw [segment, if_neg (by omega), List.drop_append_of_le_length hstart, cstr_append_nul,
    cstr_eq_self hdrop]

/-- A piece of a list behind what is in front of it. -/
theorem take_append_piece (buffer : List UInt8) (start len : Nat) :
    buffer.take start ++ (buffer.drop start).take len = buffer.take (start + len) := by
  rw [List.take_add]

/-- The lengths of the segments. -/
theorem segmentLens_eq {total_len s f : Nat} (hs : seperate_len total_len = s)
    (hf : final_len total_len = f) : segmentLen total_len 0 = s ∧ segmentLen total_len 1 = s ∧
      segmentLen total_len 2 = s ∧ segmentLen total_len 3 = f := by
  rw [← hs, ← hf]
  exact ⟨rfl, rfl, rfl, rfl⟩

/-- **The segments of a buffer without zero bytes** are its first `total_len` bytes, and
    none is empty when the last length is positive. -/
theorem segments_eq {buffer : List UInt8} (hzero : 0 ∉ buffer) (junk : List UInt8) {total_len : Nat}
    (htotal : total_len ≤ buffer.length) (hfinal : 0 < final_len total_len) :
    ∃ para, segments (buffer ++ 0 :: junk) total_len = some para ∧
      para.flatten = buffer.take total_len ∧ [] ∉ para := by
  obtain ⟨s, hs⟩ : ∃ s, seperate_len total_len = s := ⟨_, rfl⟩
  obtain ⟨f, hf⟩ : ∃ f : Nat, final_len total_len = f :=
    ⟨_, (Int.toNat_of_nonneg hfinal.le).symm⟩
  have hsum : total_len = s + s + s + f := by
    rw [final_len, hs, core_number] at hf
    omega
  have hpos : 0 < s ∧ 0 < f := by
    rw [seperate_len, core_number] at hs
    omega
  obtain ⟨h0, h1, h2, h3⟩ := segmentLens_eq hs hf
  have hcut : ∀ start, start ≤ 3 * s → ∀ len : Nat,
      segment (buffer ++ 0 :: junk) start len = some ((buffer.drop start).take len) :=
    fun start hstart len => segment_eq hzero junk (by omega) (Int.natCast_nonneg len)
  refine ⟨[(buffer.drop 0).take s, (buffer.drop s).take s, (buffer.drop (s + s)).take s,
    (buffer.drop (s + s + s)).take f], mapM_eq_some_iff.mpr ?_, ?_, ?_⟩
  · have hrange : List.range core_number = [0, 1, 2, 3] := rfl
    rw [hrange, hs]
    simp only [List.map_cons, List.map_nil, h0, h1, h2, h3, Nat.zero_mul, Nat.one_mul]
    rw [hcut 0 (by omega), hcut s (by omega), hcut (2 * s) (by omega), hcut (3 * s) (by omega),
      Nat.two_mul, show 3 * s = s + s + s by omega]
  · simp only [List.flatten_cons, List.flatten_nil, List.append_nil, List.drop_zero]
    rw [← List.append_assoc, ← List.append_assoc, take_append_piece, take_append_piece,
      take_append_piece, hsum]
  · intro hnil
    have hlength : ∀ start len : Nat, 0 < len → start + len ≤ total_len →
        [] ≠ (buffer.drop start).take len := by
      intro start len hlen hle heq
      have hzero := congrArg List.length heq
      rw [List.length_nil, List.length_take, List.length_drop] at hzero
      omega
    simp only [List.mem_cons, List.not_mem_nil, or_false] at hnil
    rcases hnil with h | h | h | h
    · exact hlength 0 s hpos.1 (by omega) h
    · exact hlength s s hpos.1 (by omega) h
    · exact hlength (s + s) s hpos.1 (by omega) h
    · exact hlength (s + s + s) f hpos.2 (by omega) h

/-- A segment that is cut is a piece of the memory, and no longer than asked for. -/
theorem segment_eq_some {memory data : List UInt8} {start : Nat} {len : Int}
    (h : segment memory start len = some data) :
    0 ≤ len ∧ 0 ∉ data ∧ data.length ≤ len.toNat ∧ data <+: memory.drop start := by
  rw [segment] at h
  split_ifs at h with hneg
  obtain rfl := Option.some.inj h
  refine ⟨by omega, fun hmem => zero_not_mem_cstr _ (List.mem_of_mem_take hmem),
    List.length_take_le _ _, (List.take_prefix _ _).trans (List.takeWhile_prefix _)⟩

/-- Segments that hold as many bytes as asked for are the front of the memory. -/
theorem flatten_prefix_of_segments {memory : List UInt8} {total_len : Nat}
    {para : List (List UInt8)} (h : segments memory total_len = some para)
    (hlength : para.flatten.length = total_len) : para.flatten <+: memory ∧ 0 ∉ para.flatten := by
  have hmap := mapM_eq_some_iff.mp h
  have hrange : List.range core_number = [0, 1, 2, 3] := rfl
  rw [hrange] at hmap
  obtain ⟨a, b, c, d, rfl⟩ : ∃ a b c d, para = [a, b, c, d] := by
    have hfour := congrArg List.length hmap
    rw [List.length_map, List.length_map] at hfour
    exact List.length_eq_four.mp hfour.symm
  simp only [List.map_cons, List.map_nil, List.cons.injEq, and_true, Nat.zero_mul, Nat.one_mul]
    at hmap
  obtain ⟨ha, hb, hc, hd⟩ := hmap
  obtain ⟨_, ha0, hale, ⟨ta, hta⟩⟩ := segment_eq_some ha
  obtain ⟨_, hb0, hble, ⟨tb, htb⟩⟩ := segment_eq_some hb
  obtain ⟨_, hc0, hcle, ⟨tc, htc⟩⟩ := segment_eq_some hc
  obtain ⟨hfinal, hd0, hdle, ⟨td, htd⟩⟩ := segment_eq_some hd
  obtain ⟨s, hs⟩ : ∃ s, seperate_len total_len = s := ⟨_, rfl⟩
  obtain ⟨f, hf⟩ : ∃ f : Nat, final_len total_len = f := ⟨_, (Int.toNat_of_nonneg hfinal).symm⟩
  obtain ⟨h0, h1, h2, h3⟩ := segmentLens_eq hs hf
  rw [h0] at hale
  rw [h1] at hble
  rw [h2] at hcle
  rw [h3] at hdle
  rw [hs] at htb htc htd
  simp only [List.flatten_cons, List.flatten_nil, List.append_nil, List.length_append,
    Int.toNat_natCast] at hlength hale hble hcle hdle
  -- the lengths add up only if none of them falls short
  have hsum : total_len = 3 * s + f := by
    rw [final_len, hs, core_number] at hf
    omega
  rw [List.drop_zero] at hta
  have hdrop : ∀ (start : Nat) {piece rest : List UInt8}, piece ++ rest = memory.drop start →
      piece.length = s → memory.drop (start + s) = rest := by
    intro start piece rest heq hlen
    rw [← List.drop_drop, ← heq, ← hlen, List.drop_left]
  have hb' := hdrop 0 hta (by omega)
  have hc' := hdrop _ htb (by omega)
  have hd' := hdrop _ htc (by omega)
  rw [Nat.zero_add] at hb'
  rw [← Nat.two_mul] at hc'
  rw [← Nat.succ_mul] at hd'
  constructor
  · refine ⟨td, ?_⟩
    simp only [List.flatten_cons, List.flatten_nil, List.append_nil, List.append_assoc]
    rw [htd, hd', htc, hc', htb, hb', hta]
  · simp only [List.flatten_cons, List.flatten_nil, List.append_nil, List.mem_append, not_or]
    exact ⟨ha0, hb0, hc0, hd0⟩

/-! ### The agreement with `wzip` -/

/-- The segments have positive lengths that sum to the total and are cut from the files, `datazip`
    reads within them, and the records are those of `wzip`; whatever memory is behind the
    files and behind the string in the buffer. -/
structure AgreesWithWzip (mem : Memory) (files : List (List UInt8)) : Prop where
  lens_pos : ∀ len ∈ segmentLens files.flatten.length, 0 < len
  lens_sum : (segmentLens files.flatten.length).sum = files.flatten.length
  within : ∀ behind junk, ∃ para, paraData mem behind junk files = some para ∧
    para.flatten = files.flatten ∧ ∀ data ∈ para, (datazip data).isSome
  records_eq : ∀ behind junk, pzip mem behind junk files = some (records files)

section Agreement

variable {mem : Memory} {behind : Nat → List UInt8} {junk : List UInt8}
  {files para : List (List UInt8)}

/-- Segments that are not empty are written as the runs of what they hold together. -/
theorem pzip_of_paraData (hpara : paraData mem behind junk files = some para) (hne : [] ∉ para) :
    pzip mem behind junk files = some ((runs para.flatten).map record) := by
  have hne' : ∀ data ∈ para, data ≠ [] := fun data hdata he => hne (he ▸ hdata)
  have hzip : para.mapM datazip = some (para.map RLECompress) := by
    apply mapM_eq_some_iff.mpr
    rw [List.map_map]
    exact List.map_congr_left fun data hdata => datazip_eq (hne' data hdata)
  rw [pzip, hpara]
  change (para.mapM datazip).bind (fun zipped => some (mergeBorders zipped).flatten) = _
  rw [hzip, Option.bind_some, flatten_mergeBorders, printOutput_RLECompress hne']

theorem ne_nil_of_flatten (hne : files.flatten ≠ []) : files ≠ [] := by
  rintro rfl
  exact hne rfl

/-- The files reach the segments, and there are four segments to fill. -/
theorem agreesWithWzip_of (hne : files.flatten ≠ []) (hempty : [] ∉ files)
    (hzero : 0 ∉ files.flatten) (hfinal : 0 < final_len files.flatten.length)
    (hpages : ∀ file ∈ files, ¬ mem.page_size ∣ file.length)
    (hmax : (cstr mem.leftover ++ files.flatten).length ≤ INT_MAX)
    (husable : (cstr mem.leftover ++ files.flatten).length < mem.usable)
    (hleft : files.flatten <+: cstr mem.leftover ++ files.flatten) : AgreesWithWzip mem files := by
  have hprinted : 0 ∉ cstr mem.leftover ++ files.flatten := by
    rw [List.mem_append, not_or]
    exact ⟨zero_not_mem_cstr _, hzero⟩
  have hpara : ∀ behind junk, ∃ para, paraData mem behind junk files = some para ∧
      para.flatten = files.flatten ∧ [] ∉ para := by
    intro behind junk
    have hbuffer : appendFiles mem behind 0 (cstr mem.leftover) files =
        some (cstr mem.leftover ++ files.flatten) := by
      rw [appendFiles_eq_some_iff (ne_nil_of_flatten hne), mappedStrings_eq_flatten hzero hpages]
      exact ⟨hempty, rfl, hmax, husable⟩
    obtain ⟨para, hsegs, hflat, hnil⟩ := segments_eq hprinted junk hleft.length_le hfinal
    rw [paraData, hbuffer]
    exact ⟨para, hsegs, hflat.trans (List.prefix_iff_eq_take.mp hleft).symm, hnil⟩
  refine ⟨?_, segmentLens_sum _, ?_, ?_⟩
  · exact (forall_segmentLens_pos_iff fun he => hne (List.eq_nil_of_length_eq_zero he)).mpr hfinal
  · intro behind junk
    obtain ⟨para, hsome, hflat, hnil⟩ := hpara behind junk
    exact ⟨para, hsome, hflat, fun data hdata =>
      (isSome_datazip_iff data).mpr fun he => hnil (he ▸ hdata)⟩
  · intro behind junk
    obtain ⟨para, hsome, hflat, hnil⟩ := hpara behind junk
    rw [pzip_of_paraData hsome hnil, hflat, records_eq_runs hne]
    intro r hr
    have hle := le_length_of_mem_runs hr
    rw [List.length_append, INT_MAX] at hmax
    omega

/-- What has been printed, when the segments are those of the files. -/
theorem printed_of_paraData (hne : files.flatten ≠ [])
    (hpara : paraData mem behind junk files = some para) (hflat : para.flatten = files.flatten) :
    [] ∉ files ∧ 0 ∉ files.flatten ∧
      ∃ printed, printed = cstr mem.leftover ++ mappedStrings mem behind 0 files ∧
        printed.length ≤ INT_MAX ∧ printed.length < mem.usable ∧
        files.flatten <+: printed ++ 0 :: junk := by
  obtain ⟨printed, hbuffer, hsegs⟩ := Option.bind_eq_some_iff.mp hpara
  obtain ⟨hempty, hprinted, hmax, husable⟩ :=
    (appendFiles_eq_some_iff (ne_nil_of_flatten hne)).mp hbuffer
  obtain ⟨hfront, hzero⟩ := flatten_prefix_of_segments hsegs (congrArg List.length hflat)
  rw [hflat] at hfront hzero
  exact ⟨hempty, hzero, printed, hprinted, hmax, husable, hfront⟩

end Agreement

/-- A block of zero bytes with room for the terminator. -/
def zeroedBlock : Memory where
  page_size := 4096
  usable := 24
  leftover := List.replicate 24 0

end OstepProjects.Zip
