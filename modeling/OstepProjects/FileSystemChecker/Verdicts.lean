/-
  OstepProjects/FileSystemChecker/Verdicts.lean
  =============================================
  **What each check says about an image, whatever the image is.**

  The loops of the checks stop at the first thing they do not like.  Here is what that is
  for checks 1 to 6, in terms of the types, the sizes, the addresses and the bits of the
  image: the first slot with a bad type, the first bad address (`firstBad`), the number of
  addresses that the bitmap marks free, the bits that no address in use has.

  A check that leaves an array, or shifts by too much, has no verdict.
-/
import OstepProjects.FileSystemChecker.DirectoryWalk
import OstepProjects.FileSystemChecker.Addresses
import Mathlib.Data.List.Find
import Mathlib.Data.List.ReduceOption

namespace OstepProjects.FileSystemChecker

open OstepProjects.Loops

/-! ### What a loop over blocks reads -/

def typeAt (mmapped : Memory) (i : Nat) : Int16 := (rinode mmapped i (readSuperblock mmapped)).type

/-- The words that the loop over the blocks of an inode reads: the addresses in the arrays, and
    `none` for the one behind the indirect block. -/
def reads (mmapped : Memory) (ip : dinode) : List (Option Visit) :=
  (readable mmapped ip).map some ++
    if NDIRECT + NINDIRECT < blockNum ip.size then [none] else []

def readsAt (mmapped : Memory) (i : Nat) : List (Option Visit) :=
  reads mmapped (inodeAt mmapped i (readSuperblock mmapped))

/-- The same for the loops that skip free inodes. -/
def usedReads (mmapped : Memory) (i : Nat) : List (Option Visit) :=
  if typeAt mmapped i = 0 then [] else readsAt mmapped i

/-- The addresses of slot `i` if it is in use. -/
def usedAt (mmapped : Memory) (i : Nat) : List Visit :=
  if typeAt mmapped i = 0 then [] else readableAt mmapped i

/-- If slot `i` is in use, it fits the arrays and its addresses are as `P` says. -/
def UsedWith (P : Visit → Prop) (mmapped : Memory) (i : Nat) : Prop :=
  (typeAt mmapped i ≠ 0 → blocksAt mmapped i ≤ NDIRECT + NINDIRECT) ∧ ∀ v ∈ usedAt mmapped i, P v

/-- The body of the loops that skip free inodes. -/
def usedBody {σ : Type} (mmapped : Memory) (step : dinode → σ → Visit → Except Stop σ)
    (_ : Nat) (ip : dinode) (s : σ) : Except Stop σ :=
  if ip.type = 0 then .ok s else eachBlock mmapped ip (step ip) s

/-- A loop body at a word. -/
def atRead {σ : Type} (body : σ → Visit → Except Stop σ) (s : σ) : Option Visit → Except Stop σ
  | some v => body s v
  | none => .error (.outOfBounds .indirect NINDIRECT)

section Reads

variable {σ : Type} {mmapped : Memory} {i : Nat}

theorem eachBlock_eq_reads (ip : dinode) (body : σ → Visit → Except Stop σ) (s : σ) :
    eachBlock mmapped ip body s = (reads mmapped ip).foldlM (atRead body) s := by
  have hreadable : ((readable mmapped ip).map some).foldlM (atRead body) s =
      (readable mmapped ip).foldlM body s := List.foldlM_map ..
  rw [reads, List.foldlM_append, hreadable]
  rcases Nat.lt_or_ge (NDIRECT + NINDIRECT) (blockNum ip.size) with hlong | hfit
  · rw [eachBlock_long hlong, if_pos hlong]
    rfl
  · rw [eachBlock_fit hfit, if_neg hfit.not_gt]
    exact (bind_pure _).symm

theorem reduceOption_map_some (vs : List Visit) : (vs.map some).reduceOption = vs := by
  unfold List.reduceOption
  rw [List.filterMap_map]
  exact List.filterMap_some

/-- Every word that is read of slot `i` is an address with `P`. -/
theorem usedWith_iff {P : Visit → Prop} :
    UsedWith P mmapped i ↔ ∀ r ∈ usedReads mmapped i, ∃ v, r = some v ∧ P v := by
  unfold UsedWith usedReads usedAt
  by_cases hfree : typeAt mmapped i = 0
  · rw [if_pos hfree, if_pos hfree]
    exact iff_of_true ⟨absurd hfree, fun _ hv => absurd hv List.not_mem_nil⟩
      fun _ hr => absurd hr List.not_mem_nil
  · rw [if_neg hfree, if_neg hfree, imp_iff_right hfree, readsAt, reads, List.forall_mem_append,
      List.forall_mem_map]
    have haddrs : (∀ v ∈ readable mmapped (inodeAt mmapped i (readSuperblock mmapped)),
        ∃ w, some v = some w ∧ P w) ↔ ∀ v ∈ readableAt mmapped i, P v := by
      refine forall₂_congr fun v _ => ?_
      exact ⟨fun ⟨_, heq, hw⟩ => Option.some.inj heq ▸ hw, fun hv => ⟨v, rfl, hv⟩⟩
    rw [haddrs, and_comm]
    refine and_congr_right fun _ => ?_
    have hsize : blockNum (inodeAt mmapped i (readSuperblock mmapped)).size =
      blocksAt mmapped i := rfl
    rw [hsize]
    split_ifs with hlong
    · refine iff_of_false hlong.not_ge fun h => ?_
      obtain ⟨_, hnone, _⟩ := h none List.mem_cons_self
      exact nomatch hnone
    · exact iff_of_true (not_lt.mp hlong) fun _ hr => absurd hr List.not_mem_nil

/-- A check that skips free inodes and looks at addresses only is one loop over these words. -/
theorem eachSlot_usedBody (step : σ → Visit → Except Stop σ) (s : σ) :
    eachSlot mmapped (usedBody mmapped fun _ => step) s =
      ((slots (readSuperblock mmapped)).flatMap (usedReads mmapped)).foldlM (atRead step) s := by
  unfold eachSlot
  rw [foldlM_flatMap]
  apply foldlM_congr
  intro i _ s
  rw [usedBody, usedReads, inodeAt_type]
  change (if typeAt mmapped i = 0 then _ else _) = _
  split_ifs
  · rfl
  · exact eachBlock_eq_reads _ _ s

theorem usedReads_eq {P : Visit → Prop} (h : UsedWith P mmapped i) :
    usedReads mmapped i = (usedAt mmapped i).map some := by
  unfold usedReads usedAt
  split_ifs with hfree
  · rfl
  · have hfit : ¬ NDIRECT + NINDIRECT <
        blockNum (inodeAt mmapped i (readSuperblock mmapped)).size := (h.1 hfree).not_gt
    unfold readsAt reads
    rw [if_neg hfit, List.append_nil]
    rfl

/-- The addresses of those of some slots that are in use. -/
def usedIn (mmapped : Memory) (l : List Nat) : List Visit := l.flatMap (usedAt mmapped)

theorem flatMap_usedReads {P : Visit → Prop} {l : List Nat}
    (h : ∀ i ∈ l, UsedWith P mmapped i) :
    l.flatMap (usedReads mmapped) = (usedIn mmapped l).map some := by
  rw [usedIn, List.map_flatMap]
  exact List.flatMap_congr fun i hi => usedReads_eq (h i hi)

end Reads

/-! ### Verdicts -/

/-- What C says that a check does: it exits behind a message or returns. -/
def verdict {α : Type} : Except Stop α → Option (Except String α)
  | .ok a => some (.ok a)
  | .error (.exit message) => some (.error message)
  | .error (.outOfBounds _ _) | .error (.shift _) => none

/-- The verdict of a check that stops at the first bad thing tells what that is. -/
theorem elim_eq_elim_iff {γ V : Type} {ok : V} {stop : γ → V} (hinj : Function.Injective stop)
    (hok : ∀ c, stop c ≠ ok) {x x' : Option γ} : x.elim ok stop = x'.elim ok stop ↔ x = x' := by
  constructor
  · intro h
    cases x with
    | none =>
      cases x' with
      | none => rfl
      | some c' => exact absurd h.symm (hok c')
    | some c =>
      cases x' with
      | none => exact absurd h (hok c)
      | some c' => exact congrArg some (hinj h)
  · exact congrArg (Option.elim · ok stop)

/-- A number in a message can be read off when no digit follows it. -/
theorem toString_append_inj {n n' : Nat} {text text' : String}
    (htext : text.toList.takeWhile Char.isDigit = [])
    (htext' : text'.toList.takeWhile Char.isDigit = [])
    (h : toString n ++ text = toString n' ++ text') : n = n' ∧ text = text' := by
  have hdigits : ∀ (k : Nat) (rest : String), rest.toList.takeWhile Char.isDigit = [] →
      (toString k ++ rest).toList.takeWhile Char.isDigit = Nat.toDigits 10 k := by
    intro k rest hrest
    have hk : ∀ c ∈ Nat.toDigits 10 k, c.isDigit = true := fun c hc =>
      Nat.isDigit_of_mem_toDigits (by decide) (by decide) hc
    have hlist : (toString k ++ rest).toList = Nat.toDigits 10 k ++ rest.toList := by
      rw [String.toList_append]
      exact congrArg (· ++ rest.toList) Nat.toList_repr
    rw [hlist, List.takeWhile_append_of_pos hk, hrest, List.append_nil]
  have hsame : Nat.toDigits 10 n = Nat.toDigits 10 n' := by
    rw [← hdigits n text htext, h, hdigits n' text' htext']
  have hn : n = n' := by
    rw [← Nat.ofDigitChars_ten_toDigits (n := n), hsame, Nat.ofDigitChars_ten_toDigits]
  subst hn
  exact ⟨rfl, (String.append_right_inj _).mp h⟩

/-- The same when a blank follows the number. -/
theorem toString_append_append_inj {n n' : Nat} {blank text text' : String}
    (hblank : blank.toList.head? = some ' ')
    (h : toString n ++ (blank ++ text) = toString n' ++ (blank ++ text')) :
    n = n' ∧ text = text' := by
  have hend : ∀ rest : String, (blank ++ rest).toList.takeWhile Char.isDigit = [] := by
    intro rest
    obtain ⟨cs, hcs⟩ := List.head?_eq_some_iff.mp hblank
    rw [String.toList_append, hcs]
    rfl
  obtain ⟨hn, hrest⟩ := toString_append_inj (hend text) (hend text') h
  exact ⟨hn, (String.append_right_inj blank).mp hrest⟩

/-- A check that has the verdict `v` under a condition, and none otherwise. -/
theorem guarded_eq_iff {V : Type} {x x' : Option V} {v v' : V} {P P' : Prop} (hin : P → x = some v)
    (hout : ¬ P → x = none) (hin' : P' → x' = some v') (hout' : ¬ P' → x' = none) :
    x = x' ↔ (P ↔ P') ∧ (P → v = v') := by
  by_cases hP : P
  · by_cases hP' : P'
    · rw [hin hP, hin' hP', and_iff_right (iff_of_true hP hP'), imp_iff_right hP,
        Option.some.injEq]
    · rw [hin hP, hout' hP']
      exact iff_of_false (fun h => nomatch h) fun h => hP' (h.1.mp hP)
  · by_cases hP' : P'
    · rw [hout hP, hin' hP']
      exact iff_of_false (fun h => nomatch h) fun h => hP (h.1.mpr hP')
    · rw [hout hP, hout' hP']
      exact iff_of_true rfl ⟨iff_of_false hP hP', fun h => absurd h hP⟩

/-! ### Check 1 -/

def ValidType (type : Int16) : Prop := type = 0 ∨ type = 1 ∨ type = 2 ∨ type = 3

instance : DecidablePred ValidType := fun type =>
  inferInstanceAs (Decidable (type = 0 ∨ type = 1 ∨ type = 2 ∨ type = 3))

/-- The first of some slots with a type that no inode has. -/
def firstInvalid (mmapped : Memory) (l : List Nat) : Option Nat :=
  l.find? fun i => ¬ ValidType (typeAt mmapped i)

section Types

variable {mmapped : Memory}

theorem detectType_ok_iff {i : Nat} {ip : dinode} :
    detectType i ip = .ok () ↔ ValidType ip.type := by
  unfold detectType ValidType
  split_ifs with hbad
  · exact iff_of_false (fun h => nomatch h) (by tauto)
  · exact iff_of_true rfl (by tauto)

theorem detectType_invalid {i : Nat} {ip : dinode} (h : ¬ ValidType ip.type) :
    detectType i ip = .error (.exit ("Inode:" ++ toString i ++ " type allocate error\n")) := by
  apply if_pos
  unfold ValidType at h
  tauto

/-- Check 1 exits at the first slot with a bad type. -/
theorem inode_detect_1_eq : inode_detect_1 mmapped =
    (firstInvalid mmapped (slots (readSuperblock mmapped))).elim (.ok ()) fun i =>
      .error (.exit ("Inode:" ++ toString i ++ " type allocate error\n")) := by
  have hrun : inode_detect_1 mmapped =
      run (fun i => detectType i (inodeAt mmapped i (readSuperblock mmapped)))
        (slots (readSuperblock mmapped)) := rfl
  rw [hrun, firstInvalid, List.find?_eq_findSome?_guard]
  apply run_eq_elim
  intro i _
  by_cases hvalid : ValidType (typeAt mmapped i)
  · rw [Option.guard, if_neg (by simpa using hvalid)]
    exact detectType_ok_iff.mpr hvalid
  · rw [Option.guard, if_pos (by simpa using hvalid)]
    exact detectType_invalid hvalid

theorem firstInvalid_eq_none_iff {l : List Nat} :
    firstInvalid mmapped l = none ↔ ∀ i ∈ l, ValidType (typeAt mmapped i) := by
  simp [firstInvalid]

/-- The message of check 1 names the slot. -/
theorem inode_detect_1_same_iff {mmapped' : Memory} :
    verdict (inode_detect_1 mmapped) = verdict (inode_detect_1 mmapped') ↔
      firstInvalid mmapped (slots (readSuperblock mmapped)) =
        firstInvalid mmapped' (slots (readSuperblock mmapped')) := by
  have hinj : Function.Injective fun i : Nat => (some (.error
      ("Inode:" ++ toString i ++ " type allocate error\n")) : Option (Except String Unit)) := by
    intro i i' h
    have htext := Except.error.inj (Option.some.inj h)
    rw [String.append_assoc, String.append_assoc, String.append_right_inj] at htext
    exact (toString_append_inj rfl rfl htext).1
  have hverdict : ∀ m : Memory, verdict (inode_detect_1 m) =
      (firstInvalid m (slots (readSuperblock m))).elim (some (.ok ())) fun i =>
        some (.error ("Inode:" ++ toString i ++ " type allocate error\n")) := by
    intro m
    rw [inode_detect_1_eq]
    cases firstInvalid m (slots (readSuperblock m)) <;> rfl
  rw [hverdict, hverdict]
  refine elim_eq_elim_iff hinj fun _ h => ?_
  cases h

end Types

/-! ### Check 2 -/

instance (sb : superblock) : DecidablePred (GoodAddr sb) := fun v =>
  inferInstanceAs (Decidable (v.addr < FSSIZE ∧ firstData sb ≤ v.addr))

/-- Where a bad address stands: in `addrs[]` or in the indirect block of a slot, or behind an
    indirect block. -/
inductive Place
  | direct (slot index : Nat)
  | indirect (slot index : Nat)
  | behind
deriving DecidableEq

def Visit.place (i : Nat) : Visit → Place
  | .direct j _ => .direct i j
  | .indirect j _ => .indirect i j

def badPlace (sb : superblock) (i : Nat) : Option Visit → Option Place
  | some v => if GoodAddr sb v then none else some (v.place i)
  | none => some .behind

/-- The place of the first bad address of some slots. -/
def firstBad (mmapped : Memory) (l : List Nat) : Option Place :=
  l.findSome? fun i => (readsAt mmapped i).findSome? (badPlace (readSuperblock mmapped) i)

/-- How check 2 stops there. -/
def Place.stop : Place → Stop
  | .direct i j => .exit (badAddress i (.direct j 0))
  | .indirect i j => .exit (badAddress i (.indirect j 0))
  | .behind => .outOfBounds .indirect NINDIRECT

section Places

variable {mmapped : Memory}

theorem detectAddr_eq (sb : superblock) (i : Nat) (r : Option Visit) :
    atRead (fun _ => detectAddr sb i) () r =
      (badPlace sb i r).elim (.ok ()) fun c => .error c.stop := by
  cases r with
  | none => rfl
  | some v =>
    by_cases hgood : GoodAddr sb v
    · rw [badPlace, if_pos hgood]
      exact detectAddr_ok_iff.mpr hgood
    · have hbad : FSSIZE ≤ v.addr ∨ v.addr < firstData sb := by
        unfold GoodAddr at hgood
        omega
      rw [badPlace, if_neg hgood]
      refine (if_pos hbad).trans ?_
      cases v <;> rfl

theorem detectSlot_eq_elim (i : Nat) : detectSlot mmapped i =
    ((readsAt mmapped i).findSome? (badPlace (readSuperblock mmapped) i)).elim (.ok ()) fun c =>
      .error c.stop := by
  unfold detectSlot
  rw [eachBlock_eq_reads]
  exact run_eq_elim fun r _ => detectAddr_eq (readSuperblock mmapped) i r

/-- Check 2 stops at the first bad address, whatever the type of the slot is. -/
theorem inodeaddr_detect_2_eq_elim : inodeaddr_detect_2 mmapped =
    (firstBad mmapped (slots (readSuperblock mmapped))).elim (.ok ()) fun c =>
      .error c.stop := by
  rw [inodeaddr_detect_2_eq, firstBad]
  exact run_eq_elim fun i _ => detectSlot_eq_elim i

theorem firstBad_eq_none_iff {l : List Nat} :
    firstBad mmapped l = none ↔ ∀ i ∈ l, SlotPasses mmapped i := by
  rw [firstBad, List.findSome?_eq_none_iff]
  refine forall₂_congr fun i _ => ?_
  rw [← detectSlot_ok_iff, detectSlot_eq_elim]
  cases (readsAt mmapped i).findSome? (badPlace (readSuperblock mmapped) i) with
  | none => exact iff_of_true rfl rfl
  | some c => exact iff_of_false (fun h => nomatch h) fun h => nomatch h

theorem badAddress_direct_inj {i j i' j' : Nat}
    (h : badAddress i (.direct j 0) = badAddress i' (.direct j' 0)) : i = i' ∧ j = j' := by
  unfold badAddress at h
  simp only [String.append_assoc, String.append_right_inj] at h
  obtain ⟨hi, hrest⟩ := toString_append_append_inj rfl h
  exact ⟨hi, (toString_append_inj rfl rfl hrest).1⟩

theorem badAddress_indirect_inj {i j i' j' : Nat}
    (h : badAddress i (.indirect j 0) = badAddress i' (.indirect j' 0)) : i = i' ∧ j = j' := by
  unfold badAddress at h
  simp only [String.append_assoc, String.append_right_inj] at h
  obtain ⟨hi, hrest⟩ := toString_append_append_inj rfl h
  exact ⟨hi, Nat.add_right_cancel (toString_append_inj rfl rfl hrest).1⟩

/-- `bad d…` is not `bad i…`. -/
theorem badAddress_kind_ne {i j i' j' : Nat} :
    badAddress i (.direct j 0) ≠ badAddress i' (.indirect j' 0) := by
  intro h
  unfold badAddress at h
  simp only [String.append_assoc] at h
  have hchar := congrArg (fun text : String => text.toList[11]?) h
  simp only [String.toList_append] at hchar
  rw [List.getElem?_append_left (by decide), List.getElem?_append_left (by decide)] at hchar
  exact absurd hchar (by decide)

theorem verdict_stop_injective : Function.Injective fun c : Place =>
    verdict (.error c.stop : Except Stop Unit) := by
  intro c c' h
  cases c with
  | direct i j =>
    cases c' with
    | direct i' j' =>
      obtain ⟨rfl, rfl⟩ := badAddress_direct_inj (Except.error.inj (Option.some.inj h))
      rfl
    | indirect i' j' => exact absurd (Except.error.inj (Option.some.inj h)) badAddress_kind_ne
    | behind => exact nomatch h
  | indirect i j =>
    cases c' with
    | direct i' j' =>
      exact absurd (Except.error.inj (Option.some.inj h)).symm badAddress_kind_ne
    | indirect i' j' =>
      obtain ⟨rfl, rfl⟩ := badAddress_indirect_inj (Except.error.inj (Option.some.inj h))
      rfl
    | behind => exact nomatch h
  | behind =>
    cases c' with
    | direct i' j' => exact nomatch h
    | indirect i' j' => exact nomatch h
    | behind => rfl

/-- The messages of check 2 name the place. -/
theorem inodeaddr_detect_2_same_iff {mmapped' : Memory} :
    verdict (inodeaddr_detect_2 mmapped) = verdict (inodeaddr_detect_2 mmapped') ↔
      firstBad mmapped (slots (readSuperblock mmapped)) =
        firstBad mmapped' (slots (readSuperblock mmapped')) := by
  have hverdict : ∀ m : Memory, verdict (inodeaddr_detect_2 m) =
      (firstBad m (slots (readSuperblock m))).elim (some (.ok ())) fun c =>
        verdict (.error c.stop) := by
    intro m
    rw [inodeaddr_detect_2_eq_elim]
    cases firstBad m (slots (readSuperblock m)) <;> rfl
  rw [hverdict, hverdict]
  refine elim_eq_elim_iff verdict_stop_injective fun c h => ?_
  cases c <;> exact nomatch h

end Places

/-! ### Check 4 -/

/-- A directory begins with entries named `.` and `..`, the first of them its own. -/
def formatted (mmapped : Memory) (i : Nat) : Bool :=
  let ip := rinode mmapped i (readSuperblock mmapped)
  if ip.type = 1 then
    let buf := rsect mmapped (ip.addrs 0)
    let direct := readDirent buf 0
    let father_direct := readDirent buf 1
    direntIs direct "." && direntIs father_direct ".." && direct.inum == i
  else true

theorem directory_check_4_iff {mmapped : Memory} : directory_check_4 mmapped = true ↔
    ∀ i ∈ slots (readSuperblock mmapped), formatted mmapped i = true :=
  List.all_eq_true

/-! ### Checks 5 and 6 -/

/-- The bit of a block in the bitmap. -/
def marks (mmapped : Memory) (b : Nat) : Bool :=
  bitOf (rsect mmapped (readSuperblock mmapped).bmapstart) b

/-- The bit that checks 5 and 6 use for an address. -/
def Visit.bit (v : Visit) : Nat := bitIndex (toInt v.addr)

/-- That bit is in the copy of the bitmap. -/
def InBitmap (v : Visit) : Prop :=
  charIndex (toInt v.addr) < BSIZE ∧ charLoca (toInt v.addr) < 8

/-- How many addresses of those of some slots that are in use the bitmap marks free. -/
def unmarkedIn (mmapped : Memory) (l : List Nat) : Nat :=
  (usedIn mmapped l).countP fun v => !marks mmapped v.bit

/-- The error lines among what check 5 has printed. -/
def errorLines (out : List Message) : List Message := out.filter (· = .markedFree)

/-- `start_block` in check 6. -/
def startBlock (sb : superblock) : Int := toInt ((sb.bmapstart + 1) % 2 ^ 32)

/-- The byte at which check 6 begins is in the copy of the bitmap. -/
def StartInBitmap (sb : superblock) : Prop :=
  0 ≤ (startBlock sb).tdiv 8 ∧ (startBlock sb).tdiv 8 < BSIZE

/-- From that byte on, the blocks that are marked and belong to no slot in use are those in front
    of the data. -/
def LeavesReserved (mmapped : Memory) : Prop :=
  ∀ b : Nat, 8 * (startBlock (readSuperblock mmapped)).tdiv 8 ≤ b → b < 8 * BSIZE →
    ((marks mmapped b = true ∧
        ∀ v ∈ usedIn mmapped (slots (readSuperblock mmapped)), v.bit ≠ b) ↔
      b < startBlock (readSuperblock mmapped))

section BitmapChecks

variable {σ : Type} {mmapped : Memory} {v : Visit} {buf : Memory}

theorem charLoca_lt_iff (addr : Int) : charLoca addr < 32 ↔ charLoca addr < 8 := by
  have hlt : addr.tmod 8 < 8 := Int.tmod_lt_of_pos addr (by decide)
  have hgt : -8 < addr.tmod 8 := Int.lt_tmod_of_pos addr (by decide)
  unfold charLoca toUshort
  omega

theorem bitmapByte_of_inBitmap (h : InBitmap v) : bitmapByte (toInt v.addr) = .ok () := by
  have hbit := (charLoca_lt_iff _).mpr h.2
  rw [bitmapByte, if_neg h.1.not_ge, if_neg hbit.not_ge]

theorem InBitmap.bit_lt (h : InBitmap v) : v.bit < 8 * BSIZE := by
  obtain ⟨hbyte, hbit⟩ := h
  rw [BSIZE] at hbyte ⊢
  unfold Visit.bit bitIndex
  omega

theorem bitmapByte_of_not (h : ¬ InBitmap v) :
    ∃ e, bitmapByte (toInt v.addr) = .error e ∧ verdict (.error e : Except Stop Unit) = none := by
  unfold bitmapByte
  split_ifs with hbyte hbit
  · exact ⟨_, rfl, rfl⟩
  · exact ⟨_, rfl, rfl⟩
  · exact absurd ⟨not_le.mp hbyte, (charLoca_lt_iff _).mp (not_le.mp hbit)⟩ h

theorem verdict_error_eq_none {α β : Type} {e : Stop}
    (h : verdict (.error e : Except Stop α) = none) : verdict (.error e : Except Stop β) = none := by
  cases e with
  | exit message => exact nomatch h
  | outOfBounds array index => rfl
  | shift count => rfl

/-- A loop over the addresses in use that looks at their bits: it comes to its end when all of
    them are in the bitmap. -/
theorem eachSlot_inBitmap {step : σ → Visit → Except Stop σ} {next : σ → Visit → σ}
    (hstep : ∀ s v, step s v = bitmapByte (toInt v.addr) >>= fun _ => .ok (next s v))
    (h : ∀ i ∈ slots (readSuperblock mmapped), UsedWith InBitmap mmapped i) (s : σ) :
    eachSlot mmapped (usedBody mmapped fun _ => step) s =
      .ok ((usedIn mmapped (slots (readSuperblock mmapped))).foldl next s) := by
  have hpass : ∀ v ∈ usedIn mmapped (slots (readSuperblock mmapped)), ∀ s,
      step s v = .ok (next s v) := by
    intro v hv s
    obtain ⟨i, hi, hvi⟩ := List.mem_flatMap.mp hv
    rw [hstep, bitmapByte_of_inBitmap ((h i hi).2 v hvi)]
    rfl
  have hsome : ((usedIn mmapped (slots (readSuperblock mmapped))).map some).foldlM
      (atRead step) s = (usedIn mmapped (slots (readSuperblock mmapped))).foldlM step s :=
    List.foldlM_map ..
  rw [eachSlot_usedBody, flatMap_usedReads h, hsome, foldlM_ok hpass]

/-- Otherwise it has no verdict. -/
theorem eachSlot_not_inBitmap {step : σ → Visit → Except Stop σ} {next : σ → Visit → σ}
    (hstep : ∀ s v, step s v = bitmapByte (toInt v.addr) >>= fun _ => .ok (next s v))
    (h : ¬ ∀ i ∈ slots (readSuperblock mmapped), UsedWith InBitmap mmapped i) (s : σ) :
    ∃ e, verdict (.error e : Except Stop Unit) = none ∧
      eachSlot mmapped (usedBody mmapped fun _ => step) s = .error e := by
  rw [eachSlot_usedBody]
  apply foldlM_stops
  · rintro (_ | v) _ s e he
    · obtain rfl := Except.error.inj he
      rfl
    · have hv : (bitmapByte (toInt v.addr) >>= fun _ => .ok (next s v)) = .error e :=
        (hstep s v).symm.trans he
      by_cases hin : InBitmap v
      · rw [bitmapByte_of_inBitmap hin] at hv
        exact nomatch hv
      · obtain ⟨e', he', hnone⟩ := bitmapByte_of_not hin
        rw [he'] at hv
        obtain rfl := Except.error.inj hv
        exact hnone
  · simp only [usedWith_iff, not_forall] at h
    obtain ⟨i, hi, r, hr, hbad⟩ := h
    refine ⟨r, List.mem_flatMap.mpr ⟨i, hi, hr⟩, fun s t hok => ?_⟩
    rcases r with _ | v
    · exact nomatch hok
    · have hout : ¬ InBitmap v := fun hin => hbad ⟨v, rfl, hin⟩
      obtain ⟨e, he, _⟩ := bitmapByte_of_not hout
      have hv : (bitmapByte (toInt v.addr) >>= fun _ => .ok (next s v)) = .ok t :=
        (hstep s v).symm.trans hok
      rw [he] at hv
      exact nomatch hv

theorem lookUp_eq_markedFree_iff (h : InBitmap v) :
    lookUp (block mmapped (readSuperblock mmapped).bmapstart) v = .markedFree ↔
      marks mmapped v.bit = false := by
  have hbyte : block mmapped (readSuperblock mmapped).bmapstart (charIndex (toInt v.addr)) =
      rsect mmapped (readSuperblock mmapped).bmapstart (charIndex (toInt v.addr)) := if_pos h.1
  have hindex : v.bit / 8 = charIndex (toInt v.addr) := by
    have hlt := h.2
    unfold Visit.bit bitIndex
    omega
  have hbit : bitOf (block mmapped (readSuperblock mmapped).bmapstart) v.bit =
      marks mmapped v.bit := by
    unfold marks bitOf
    rw [hindex, hbyte]
  unfold lookUp
  dsimp only
  rw [bitmap_exist_eq_bit h.2, ← Visit.bit, hbit]
  cases marks mmapped v.bit
  · simp
  · cases v <;> simp

theorem bitmap_check_5_of_inBitmap
    (h : ∀ i ∈ slots (readSuperblock mmapped), UsedWith InBitmap mmapped i) :
    (Checked.bitmap_check_5 mmapped).map errorLines =
      .ok (List.replicate (unmarkedIn mmapped (slots (readSuperblock mmapped))) .markedFree) := by
  have hcheck : Checked.bitmap_check_5 mmapped = eachSlot mmapped (usedBody mmapped fun _ =>
      lookUpStep (block mmapped (readSuperblock mmapped).bmapstart)) [] := rfl
  have hloop : eachSlot mmapped (usedBody mmapped fun _ =>
      lookUpStep (block mmapped (readSuperblock mmapped).bmapstart)) [] =
        .ok ((usedIn mmapped (slots (readSuperblock mmapped))).map
          (lookUp (block mmapped (readSuperblock mmapped).bmapstart))) := by
    rw [List.map_eq_flatMap, List.flatMap_eq_foldl]
    exact eachSlot_inBitmap (fun _ _ => rfl) h []
  have hfree : ∀ v ∈ usedIn mmapped (slots (readSuperblock mmapped)),
      lookUp (block mmapped (readSuperblock mmapped).bmapstart) v = .markedFree ↔
        marks mmapped v.bit = false := by
    intro v hv
    obtain ⟨i, hi, hvi⟩ := List.mem_flatMap.mp hv
    exact lookUp_eq_markedFree_iff ((h i hi).2 v hvi)
  rw [hcheck, hloop]
  refine congrArg Except.ok ?_
  rw [errorLines, List.filter_eq, List.count, List.countP_map, unmarkedIn]
  congr 1
  apply List.countP_congr
  intro v hv
  simpa using hfree v hv

theorem bitmap_check_5_of_not
    (h : ¬ ∀ i ∈ slots (readSuperblock mmapped), UsedWith InBitmap mmapped i) :
    verdict ((Checked.bitmap_check_5 mmapped).map errorLines) = none := by
  obtain ⟨e, he, hstop⟩ : ∃ e, verdict (.error e : Except Stop Unit) = none ∧
      eachSlot mmapped (usedBody mmapped fun _ =>
        lookUpStep (block mmapped (readSuperblock mmapped).bmapstart)) [] = .error e :=
    eachSlot_not_inBitmap (fun _ _ => rfl) h []
  have hcheck : Checked.bitmap_check_5 mmapped = .error e := hstop
  rw [hcheck]
  exact verdict_error_eq_none he

/-- The error lines of check 5 count the addresses that the bitmap marks free. -/
theorem bitmap_check_5_same_iff {mmapped' : Memory} :
    verdict ((Checked.bitmap_check_5 mmapped).map errorLines) =
        verdict ((Checked.bitmap_check_5 mmapped').map errorLines) ↔
      ((∀ i ∈ slots (readSuperblock mmapped), UsedWith InBitmap mmapped i) ↔
        ∀ i ∈ slots (readSuperblock mmapped'), UsedWith InBitmap mmapped' i) ∧
      ((∀ i ∈ slots (readSuperblock mmapped), UsedWith InBitmap mmapped i) →
        unmarkedIn mmapped (slots (readSuperblock mmapped)) =
          unmarkedIn mmapped' (slots (readSuperblock mmapped'))) := by
  have hin : ∀ m : Memory, (∀ i ∈ slots (readSuperblock m), UsedWith InBitmap m i) →
      verdict ((Checked.bitmap_check_5 m).map errorLines) = some (.ok
        (List.replicate (unmarkedIn m (slots (readSuperblock m))) .markedFree)) := by
    intro m hm
    rw [bitmap_check_5_of_inBitmap hm]
    rfl
  rw [guarded_eq_iff (hin mmapped) bitmap_check_5_of_not (hin mmapped') bitmap_check_5_of_not]
  refine and_congr_right fun _ => imp_congr_right fun _ => ?_
  rw [Except.ok.injEq]
  constructor
  · intro hlines
    have hlength := congrArg List.length hlines
    rwa [List.length_replicate, List.length_replicate] at hlength
  · exact congrArg (List.replicate · _)

/-! ### The test behind the loops of check 6 -/

theorem residueTest_of_not_start {sb : superblock} (h : ¬ StartInBitmap sb) :
    ∃ e, verdict (.error e : Except Stop Unit) = none ∧ residueTest buf sb = .error e := by
  have hout : (startBlock sb).tdiv 8 < 0 ∨ BSIZE ≤ (startBlock sb).tdiv 8 := by
    unfold StartInBitmap at h
    omega
  exact ⟨_, rfl, if_pos hout⟩

/-- It returns iff the bits from its first byte on are those in front of the data. -/
theorem residueTest_of_start {sb : superblock} (h : StartInBitmap sb) :
    ((∀ b : Nat, 8 * (startBlock sb).tdiv 8 ≤ b → b < 8 * BSIZE →
        (bitOf buf b = true ↔ b < startBlock sb)) → residueTest buf sb = .ok ()) ∧
      (¬ (∀ b : Nat, 8 * (startBlock sb).tdiv 8 ≤ b → b < 8 * BSIZE →
        (bitOf buf b = true ↔ b < startBlock sb)) → residueTest buf sb =
          .error (.exit "ERROR: bitmap marks block in use but it is not in use\n")) := by
  obtain ⟨hge, hlt⟩ := h
  obtain ⟨first, hfirst⟩ := Int.eq_ofNat_of_zero_le hge
  have hsum := Int.mul_tdiv_add_tmod (startBlock sb) 8
  have hmodlt : (startBlock sb).tmod 8 < 8 := Int.tmod_lt_of_pos _ (by decide)
  have hk : ((startBlock sb).tmod 8).toNat < 8 := by omega
  -- A negative `start_block` is read as zero.
  have hfront : ∀ b : Nat, 8 * first ≤ b →
      (b < 8 * first + ((startBlock sb).tmod 8).toNat ↔ (b : Int) < startBlock sb) := by
    intro b hb
    rcases lt_or_ge (startBlock sb) 0 with hneg | hpos
    · have hmod : (startBlock sb).tmod 8 ≤ 0 := by omega
      omega
    · have hmod := Int.tmod_nonneg 8 hpos
      omega
  have hbits : (∀ b : Nat, 8 * (startBlock sb).tdiv 8 ≤ b → b < 8 * BSIZE →
        (bitOf buf b = true ↔ b < startBlock sb)) ↔
      xorChar (buf first) (2 ^ ((startBlock sb).tmod 8).toNat - 1) = 0 ∧
        ∀ i, first < i → i < BSIZE → buf i = 0 := by
    rw [residue_iff buf first hk, hfirst]
    refine forall_congr' fun b => ?_
    constructor
    · intro hiff hb hor
      have hlast : b < 8 * BSIZE := by
        rw [BSIZE] at *
        omega
      rw [Bool.eq_iff_iff, decide_eq_true_iff, hfront b hb]
      exact hiff (by omega) hlast
    · intro hbit hb hlast
      have hnat : 8 * first ≤ b := by omega
      rw [← hfront b hnat, hbit hnat (Or.inr hlast), decide_eq_true_iff]
  have hin : ¬ ((startBlock sb).tdiv 8 < 0 ∨ BSIZE ≤ (startBlock sb).tdiv 8) := by omega
  have htest : residueTest buf sb =
      if xorChar (buf first) (2 ^ ((startBlock sb).tmod 8).toNat - 1) ≠ 0 then
        .error (.exit "ERROR: bitmap marks block in use but it is not in use\n")
      else if ∃ i ∈ List.range BSIZE, (first : Int) < i ∧ buf i ≠ 0 then
        .error (.exit "ERROR: bitmap marks block in use but it is not in use\n")
      else .ok () := by
    refine (if_neg hin).trans ?_
    rw [← startBlock, hfirst]
    rfl
  have hrest : (∀ i, first < i → i < BSIZE → buf i = 0) ↔
      ¬ ∃ i ∈ List.range BSIZE, (first : Int) < i ∧ buf i ≠ 0 := by
    simp only [List.mem_range, Int.ofNat_lt, not_exists, not_and, not_not]
    exact forall_congr' fun i => ⟨fun h hi hlt => h hlt hi, fun h hlt hi => h hi hlt⟩
  rw [hbits, hrest, htest]
  split_ifs with hbyte hbytes
  · exact ⟨fun h => absurd h.1 hbyte, fun _ => rfl⟩
  · exact ⟨fun h => absurd hbytes h.2, fun _ => rfl⟩
  · exact ⟨fun _ => rfl, fun h => absurd ⟨not_not.mp hbyte, hbytes⟩ h⟩

/-- What the loops of check 6 leave of the copy. -/
theorem bitOf_foldl_delete_bit {vs : List Visit} (h : ∀ v ∈ vs, InBitmap v) (b : Nat) :
    bitOf (vs.foldl (fun buf v => bitmap_delete (toInt v.addr) buf) buf) b = true ↔
      bitOf buf b = true ∧ ∀ v ∈ vs, v.bit ≠ b := by
  induction vs generalizing buf with
  | nil => simp
  | cons v vs ih =>
    have hv := h v List.mem_cons_self
    rw [List.foldl_cons, ih fun w hw => h w (List.mem_cons_of_mem v hw),
      bitOf_delete_bit hv.2, Bool.and_eq_true, decide_eq_true_iff, List.forall_mem_cons,
      and_assoc, ne_comm]
    rfl

theorem bitOf_block {b : Nat} (hb : b < 8 * BSIZE) :
    bitOf (block mmapped (readSuperblock mmapped).bmapstart) b = marks mmapped b := by
  have hbyte : block mmapped (readSuperblock mmapped).bmapstart (b / 8) =
      rsect mmapped (readSuperblock mmapped).bmapstart (b / 8) :=
    if_pos (Nat.div_lt_of_lt_mul hb)
  unfold marks bitOf
  rw [hbyte]

/-- Check 6 returns iff the blocks that are marked and not in use are those in front of the
    data. -/
theorem bitmap_check_6_of_inBitmap (hstart : StartInBitmap (readSuperblock mmapped))
    (h : ∀ i ∈ slots (readSuperblock mmapped), UsedWith InBitmap mmapped i) :
    (LeavesReserved mmapped → Checked.bitmap_check_6 mmapped = .ok ()) ∧
      (¬ LeavesReserved mmapped → Checked.bitmap_check_6 mmapped =
        .error (.exit "ERROR: bitmap marks block in use but it is not in use\n")) := by
  have hbits : ∀ v ∈ usedIn mmapped (slots (readSuperblock mmapped)), InBitmap v := by
    intro v hv
    obtain ⟨i, hi, hvi⟩ := List.mem_flatMap.mp hv
    exact (h i hi).2 v hvi
  have hloop : eachSlot mmapped (usedBody mmapped fun _ => deleteStep)
      (block mmapped (readSuperblock mmapped).bmapstart) =
        .ok ((usedIn mmapped (slots (readSuperblock mmapped))).foldl
          (fun buf v => bitmap_delete (toInt v.addr) buf)
          (block mmapped (readSuperblock mmapped).bmapstart)) :=
    eachSlot_inBitmap (fun _ _ => rfl) h _
  have hcheck : Checked.bitmap_check_6 mmapped =
      eachSlot mmapped (usedBody mmapped fun _ => deleteStep)
        (block mmapped (readSuperblock mmapped).bmapstart) >>=
          (residueTest · (readSuperblock mmapped)) := rfl
  have hleft : LeavesReserved mmapped ↔ ∀ b : Nat,
      8 * (startBlock (readSuperblock mmapped)).tdiv 8 ≤ b → b < 8 * BSIZE →
        (bitOf ((usedIn mmapped (slots (readSuperblock mmapped))).foldl
          (fun buf v => bitmap_delete (toInt v.addr) buf)
          (block mmapped (readSuperblock mmapped).bmapstart)) b = true ↔
            b < startBlock (readSuperblock mmapped)) := by
    refine forall_congr' fun b => imp_congr_right fun _ => forall_congr' fun hb => ?_
    rw [bitOf_foldl_delete_bit hbits, bitOf_block hb]
  rw [hcheck, hloop, hleft]
  exact residueTest_of_start hstart

theorem bitmap_check_6_of_not
    (h : ¬ ∀ i ∈ slots (readSuperblock mmapped), UsedWith InBitmap mmapped i) :
    verdict (Checked.bitmap_check_6 mmapped) = none := by
  obtain ⟨e, he, hstop⟩ : ∃ e, verdict (.error e : Except Stop Unit) = none ∧
      eachSlot mmapped (usedBody mmapped fun _ => deleteStep)
        (block mmapped (readSuperblock mmapped).bmapstart) = .error e :=
    eachSlot_not_inBitmap (fun _ _ => rfl) h _
  have hcheck : Checked.bitmap_check_6 mmapped = (.error e >>=
      fun buf : Memory => residueTest buf (readSuperblock mmapped)) := by
    rw [← hstop]
    rfl
  rw [hcheck]
  exact he

theorem bitmap_check_6_of_not_start (h : ¬ StartInBitmap (readSuperblock mmapped)) :
    verdict (Checked.bitmap_check_6 mmapped) = none := by
  have hcheck : Checked.bitmap_check_6 mmapped =
      eachSlot mmapped (usedBody mmapped fun _ => deleteStep)
        (block mmapped (readSuperblock mmapped).bmapstart) >>=
          (residueTest · (readSuperblock mmapped)) := rfl
  by_cases hin : ∀ i ∈ slots (readSuperblock mmapped), UsedWith InBitmap mmapped i
  · obtain ⟨buf, hbuf⟩ : ∃ buf, eachSlot mmapped (usedBody mmapped fun _ => deleteStep)
        (block mmapped (readSuperblock mmapped).bmapstart) = .ok buf :=
      ⟨_, eachSlot_inBitmap (fun _ _ => rfl) hin _⟩
    obtain ⟨e, he, hstop⟩ := @residueTest_of_not_start buf _ h
    rw [hcheck, hbuf, ok_bind, hstop]
    exact he
  · exact bitmap_check_6_of_not hin

/-- Check 6 on two images with the same superblock. -/
theorem bitmap_check_6_same_iff {mmapped' : Memory}
    (hsuper : readSuperblock mmapped' = readSuperblock mmapped) :
    verdict (Checked.bitmap_check_6 mmapped) = verdict (Checked.bitmap_check_6 mmapped') ↔
      (StartInBitmap (readSuperblock mmapped) →
        ((∀ i ∈ slots (readSuperblock mmapped), UsedWith InBitmap mmapped i) ↔
          ∀ i ∈ slots (readSuperblock mmapped'), UsedWith InBitmap mmapped' i) ∧
        ((∀ i ∈ slots (readSuperblock mmapped), UsedWith InBitmap mmapped i) →
          (LeavesReserved mmapped ↔ LeavesReserved mmapped'))) := by
  classical
  by_cases hstart : StartInBitmap (readSuperblock mmapped)
  · have hin : ∀ m : Memory, StartInBitmap (readSuperblock m) →
        (∀ i ∈ slots (readSuperblock m), UsedWith InBitmap m i) →
        verdict (Checked.bitmap_check_6 m) = some (if LeavesReserved m then .ok () else
          .error "ERROR: bitmap marks block in use but it is not in use\n") := by
      intro m hm hall
      obtain ⟨hleaves, hnot⟩ := bitmap_check_6_of_inBitmap hm hall
      split_ifs with hreserved
      · rw [hleaves hreserved]
        rfl
      · rw [hnot hreserved]
        rfl
    have hstart' : StartInBitmap (readSuperblock mmapped') := hsuper ▸ hstart
    rw [guarded_eq_iff (hin mmapped hstart) bitmap_check_6_of_not (hin mmapped' hstart')
      bitmap_check_6_of_not, imp_iff_right hstart]
    refine and_congr_right fun _ => imp_congr_right fun _ => ?_
    split_ifs with h h'
    · exact iff_of_true rfl (iff_of_true h h')
    · exact iff_of_false (fun heq => nomatch heq) fun hiff => h' (hiff.mp h)
    · exact iff_of_false (fun heq => nomatch heq) fun hiff => h (hiff.mpr ‹_›)
    · exact iff_of_true rfl (iff_of_false h ‹_›)
  · have hstart' : ¬ StartInBitmap (readSuperblock mmapped') := hsuper ▸ hstart
    rw [bitmap_check_6_of_not_start hstart, bitmap_check_6_of_not_start hstart']
    exact iff_of_true rfl fun h => absurd h hstart

end BitmapChecks

end OstepProjects.FileSystemChecker
