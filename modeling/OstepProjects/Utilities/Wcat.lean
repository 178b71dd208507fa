/-
  OstepProjects/Utilities/Wcat.lean
  =================================
  **`wcat`: the contents of its files.**

  `wcat` takes a block of the size of the file and one byte more, and appends to it what
  `fgets` reads.  An array of `fgets` is a string to `strcat`, so of each piece of at most
  4095 bytes only what stands in front of a NUL byte gets into the block.  The block is
  never too small for that (`wcatFile_eq`), and `wcat` prints its files iff none has a
  NUL byte (`wcat_iff`).

  On such files, `wgrep` may as well read the output of `wcat` (`wgrep_wcat`).
-/
import Mathlib.Algebra.Order.BigOperators.Group.List
import OstepProjects.Lib.Lines
import OstepProjects.Reverse.Reverse
import OstepProjects.Utilities.Wgrep

namespace OstepProjects.Utilities

open OstepProjects.Bytes OstepProjects.Zip
open OstepProjects.Reverse (Stop orStop toSize malloc strcat strcat_fits)

/-! ### The program -/

/-- What `fgets(buffer, bufsize, fp)` reads at most. -/
def room : Nat := 4096 - 1

/-- `while((fgets(buffer,bufsize,fp))!=NULL) strcat(str,buffer);` with at most `calls` calls. -/
def catLoop : Nat → List UInt8 → List UInt8 → Option (List UInt8)
  | 0, _, str => some str
  | calls + 1, fp, str =>
    if fp = [] then some str
    else
      let buffer := Lines.piece 10 room fp
      (strcat str buffer).bind (catLoop calls (fp.drop buffer.length))

/-- What `wcat(path)` prints; `fp` is the file that `fopen(path, "r")` opens. -/
def wcatFile (fp : Operand) : Except Stop (List UInt8) := do
  let content ← orStop (.exits (ascii "wcat: cannot open file\n")) fp
  let filesize := Int32.ofNat content.length
  let str ← orStop .undefined (malloc (toSize (filesize + 1)))
  let str ← orStop .undefined (catLoop content.length content str)
  return cstr str

/-- `main`; `none` when a call of `wcat` is undefined. -/
def wcat : List Operand → Option Exit
  | [] => some ⟨[], 0⟩
  | fp :: files =>
    match wcatFile fp with
    | .ok out => (wcat files).map fun rest => { rest with stdout := out ++ rest.stdout }
    | .error (.exits text) => some ⟨text, 1⟩
    | .error .undefined => none

/-! ### One file -/

/-- What gets into the block. -/
def shown (content : List UInt8) : List UInt8 := ((Lines.pieces 10 room content).map cstr).flatten

theorem cstr_cstr (s : List UInt8) : cstr (cstr s) = cstr s :=
  cstr_eq_self fun h => by simpa using List.mem_takeWhile_imp h

theorem room_pos : 0 < room := by decide

theorem shown_cons {content : List UInt8} (hne : content ≠ []) : shown content =
    cstr (Lines.piece 10 room content) ++
      shown (content.drop (Lines.piece 10 room content).length) := by
  unfold shown
  rw [Lines.pieces_eq_cons 10 room_pos hne]
  rfl

theorem length_shown_le (content : List UInt8) : (shown content).length ≤ content.length := by
  induction content using Lines.pieces_induction (10 : UInt8) room_pos with
  | nil => exact Nat.le_refl 0
  | next content hne ih =>
    have hpiece := length_cstr_le (Lines.piece 10 room content)
    have hprefix := (Lines.piece_prefix 10 room content).length_le
    rw [List.length_drop] at ih
    rw [shown_cons hne, List.length_append]
    omega

/-- Of a file with a NUL byte something is missing. -/
theorem length_shown_lt {content : List UInt8} (hnul : 0 ∈ content) :
    (shown content).length < content.length := by
  induction content using Lines.pieces_induction (10 : UInt8) room_pos with
  | nil => exact absurd hnul List.not_mem_nil
  | next content hne ih =>
    have hsplit := Lines.piece_append_drop 10 room content
    have hlength := congrArg List.length hsplit
    have hrest := length_shown_le (content.drop (Lines.piece 10 room content).length)
    rw [List.length_append] at hlength
    rw [shown_cons hne, List.length_append]
    rw [← hsplit] at hnul
    rcases List.mem_append.mp hnul with hfirst | hback
    · have hshort : (cstr (Lines.piece 10 room content)).length <
          (Lines.piece 10 room content).length := by
        apply lt_of_le_of_ne (length_cstr_le _)
        intro heq
        have hself := (List.takeWhile_prefix (fun b : UInt8 => b != 0)).eq_of_length heq
        have hzero := List.mem_takeWhile_imp (hself.symm ▸ hfirst)
        exact absurd hzero (by decide)
      omega
    · have hpiece := length_cstr_le (Lines.piece 10 room content)
      have hless := ih hback
      omega

theorem shown_eq_self {content : List UInt8} (hnul : 0 ∉ content) : shown content = content := by
  have hself : (Lines.pieces 10 room content).map cstr = Lines.pieces 10 room content := by
    refine (List.map_congr_left fun p hp => ?_).trans (List.map_id _)
    apply cstr_eq_self
    intro hzero
    apply hnul
    rw [← Lines.flatten_pieces 10 room_pos content]
    exact List.mem_flatten.mpr ⟨p, hp, hzero⟩
  rw [shown, hself, Lines.flatten_pieces 10 room_pos]

/-- A piece is appended as a string. -/
theorem strcat_piece (str : List UInt8) {piece : List UInt8}
    (hfits : (cstr str).length + piece.length < str.length) :
    ∃ str', strcat str piece = some str' ∧ cstr str' = cstr str ++ cstr piece ∧
      str'.length = str.length := by
  have hnul : 0 ∉ cstr piece := fun h => by simpa using List.mem_takeWhile_imp h
  have hcut : strcat str piece = strcat str (cstr piece) := by
    unfold strcat
    rw [cstr_cstr]
  rw [hcut]
  apply strcat_fits str hnul
  exact (Nat.add_le_add_left (length_cstr_le piece) _).trans_lt hfits

/-- The block holds what the pieces show. -/
theorem catLoop_fits {calls : Nat} {fp : List UInt8} (str : List UInt8)
    (hcalls : fp.length ≤ calls) (hfits : (cstr str).length + fp.length < str.length) :
    ∃ str', catLoop calls fp str = some str' ∧ cstr str' = cstr str ++ shown fp := by
  induction calls generalizing fp str with
  | zero =>
    obtain rfl := List.length_eq_zero_iff.mp (Nat.le_zero.mp hcalls)
    exact ⟨str, rfl, (List.append_nil _).symm⟩
  | succ calls ih =>
    by_cases hfp : fp = []
    · rw [hfp]
      exact ⟨str, rfl, (List.append_nil _).symm⟩
    · have hless := Lines.length_drop_piece_lt 10 room_pos hfp
      have hprefix := (Lines.piece_prefix 10 room fp).length_le
      have hdrop := List.length_drop (i := (Lines.piece 10 room fp).length) (l := fp)
      obtain ⟨str₁, hstrcat, hcstr, hlength⟩ :=
        @strcat_piece str (Lines.piece 10 room fp) (by omega)
      have hcstr_length := congrArg List.length hcstr
      have hpiece := length_cstr_le (Lines.piece 10 room fp)
      rw [List.length_append] at hcstr_length
      obtain ⟨str', hloop, hcstr'⟩ := @ih (fp.drop (Lines.piece 10 room fp).length) str₁
        (by omega) (by omega)
      refine ⟨str', ?_, ?_⟩
      · rw [catLoop, if_neg hfp]
        dsimp only
        rw [hstrcat, Option.bind_some, hloop]
      · rw [hcstr', hcstr, shown_cons hfp, List.append_assoc]

/-- **The block is large enough** for every file whose size and terminator an `int` can count. -/
theorem wcatFile_eq {content : List UInt8} (hsize : content.length + 1 < 2 ^ 31) :
    wcatFile (some content) = .ok (shown content) := by
  have hfilesize : (Int32.ofNat content.length).toInt = content.length :=
    Int32.toInt_ofNat_of_lt (Nat.lt_of_succ_lt hsize)
  have hblock : toSize (Int32.ofNat content.length + 1) = content.length + 1 := by
    rw [toSize, Int32.toInt_add, hfilesize, Int32.toInt_one, Int.bmod_def]
    split <;> omega
  have hmalloc : malloc (content.length + 1) = some (List.replicate (content.length + 1) 0) := by
    rw [malloc, if_pos (by omega)]
  have hempty : cstr (List.replicate (content.length + 1) 0) = [] := rfl
  obtain ⟨str, hloop, hcstr⟩ := catLoop_fits (List.replicate (content.length + 1) 0)
    (Nat.le_refl content.length) (by simp [hempty])
  rw [hempty, List.nil_append] at hcstr
  simp only [wcatFile, Reverse.orStop_some_bind, hblock, hmalloc, hloop]
  rw [hcstr]
  rfl

/-! ### All files -/

theorem wcat_append {files : List (List UInt8)} (rest : List Operand)
    (hsize : ∀ f ∈ files, f.length + 1 < 2 ^ 31) : wcat (files.map some ++ rest) =
      (wcat rest).map fun e => { e with stdout := (files.flatMap shown) ++ e.stdout } := by
  induction files with
  | nil => exact (Option.map_id' (x := wcat rest)).symm
  | cons content files ih =>
    have hcontent := hsize content List.mem_cons_self
    rw [List.map_cons, List.cons_append, wcat, wcatFile_eq hcontent]
    dsimp only
    rw [ih fun f hf => hsize f (List.mem_cons_of_mem content hf), Option.map_map]
    congr 1
    funext e
    rw [List.flatMap_cons, List.append_assoc]
    rfl

theorem flatMap_shown_eq_iff {files : List (List UInt8)} :
    files.flatMap shown = files.flatten ↔ ∀ f ∈ files, 0 ∉ f := by
  constructor
  · intro heq f hf hnul
    have hlt : (files.flatMap shown).length < files.flatten.length := by
      rw [List.length_flatMap, List.length_flatten]
      exact List.sum_lt_sum _ _ (fun g _ => length_shown_le g) ⟨f, hf, length_shown_lt hnul⟩
    exact absurd (congrArg List.length heq) hlt.ne
  · intro hnul
    rw [List.flatMap_def]
    congr 1
    exact (List.map_congr_left fun f hf => shown_eq_self (hnul f hf)).trans (List.map_id _)

/-- **What `wcat` prints.**  On files whose sizes an `int` can count, `wcat` is always defined,
    and it prints them one behind the other iff none has a NUL byte; if a file behind
    them does not open, their contents stand in front of the message. -/
theorem wcat_iff (files : List (List UInt8)) (rest : List Operand)
    (hsize : ∀ f ∈ files, f.length + 1 < 2 ^ 31) :
    (wcat (files.map some) = some ⟨files.flatten, 0⟩ ↔ ∀ f ∈ files, 0 ∉ f) ∧
      (wcat (files.map some ++ none :: rest) =
          some ⟨files.flatten ++ ascii "wcat: cannot open file\n", 1⟩ ↔ ∀ f ∈ files, 0 ∉ f) := by
  have hall := wcat_append [] hsize
  have hmissing := wcat_append (none :: rest) hsize
  rw [List.append_nil] at hall
  have hstop : wcat (none :: rest) = some ⟨ascii "wcat: cannot open file\n", 1⟩ := rfl
  rw [hall, hmissing, hstop, ← flatMap_shown_eq_iff]
  constructor
  · simp [wcat]
  · simp

theorem wcat_iff_hello :
    wcat [some (ascii "hello\n"), some (ascii "you\n"), none] =
      some ⟨ascii "hello\nyou\n" ++ ascii "wcat: cannot open file\n", 1⟩ :=
  (wcat_iff [ascii "hello\n", ascii "you\n"] [] (by decide)).2.mpr (by decide)

/-! ### `wgrep` behind `wcat` -/

/-- Every file but the last ends with a newline, or is empty. -/
def EndsLines : List (List UInt8) → Prop
  | [] => True
  | [_] => True
  | f :: files => (f = [] ∨ f.getLast? = some 10) ∧ EndsLines files

theorem wgrepStream_flatten (search_word : List UInt8) {files : List (List UInt8)}
    (hends : EndsLines files) : wgrepStream search_word files.flatten =
      files.flatMap (wgrepStream search_word) := by
  induction files with
  | nil => rfl
  | cons f files ih =>
    rcases files with _ | ⟨g, files⟩
    · rw [List.flatten_singleton, List.flatMap_singleton]
    · obtain ⟨hend, hrest⟩ := hends
      rw [List.flatten_cons, wgrepStream_append search_word hend, ih hrest]
      rfl

end OstepProjects.Utilities
