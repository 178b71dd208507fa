/-
  OstepProjects/FileSystemChecker/Clashes.lean
  ============================================
  **What checks 7 and 8 say about an image, whatever the image is.**

  Checks 7 and 8 count the addresses of the inodes in use, and stop at the first one that
  was used before or has no count (`firstClash`); `Visit.clash` is the message.  What the
  loops keep are the uses so far (`uses`), and they come to their end iff nothing clashes
  (`Tracks`).
-/
import OstepProjects.FileSystemChecker.Verdicts
import OstepProjects.FileSystemChecker.DuplicateKind
import Mathlib.Data.List.ReduceOption

namespace OstepProjects.FileSystemChecker

open OstepProjects.Loops

/-- Why checks 7 and 8 stop: out of an array, or behind one of the two messages. -/
inductive Clash
  | outside
  | direct
  | indirect
deriving DecidableEq

/-- `v` has the address of `w`, which was used before.  For an entry of the indirect block the
    message is chosen by an address in `addrs[]`, which has been used once. -/
def Visit.clash (w : Visit) : Visit → Clash
  | .direct _ _ =>
    match w with
    | .direct _ _ => .direct
    | .indirect _ _ => .indirect
  | .indirect j _ => if j ≤ NDIRECT then .direct else .outside

/-- The first word that is not an address below `FSSIZE`, or one that was used before. -/
def firstClash (earlier : List Visit) : List (Option Visit) → Option Clash
  | [] => none
  | none :: _ => some .outside
  | some v :: rest =>
    if FSSIZE ≤ v.addr then some .outside
    else
      match earlier.find? fun w => w.addr = v.addr with
      | some w => some (w.clash v)
      | none => firstClash (earlier ++ [v]) rest

def Clash.verdict : Clash → Option (Except String Unit)
  | .outside => none
  | .direct => some (.error "ERROR: direct address used more than once.\n")
  | .indirect => some (.error "ERROR: indirect address used more than once.\n")

/-- The counts when these addresses have been used. -/
def uses (earlier : List Visit) (a : Nat) : Nat :=
  ((earlier.find? fun w => w.addr = a).map Visit.weight).getD 0

/-- What the loops have let pass. -/
structure Clean (earlier : List Visit) : Prop where
  small : ∀ w ∈ earlier, w.addr < FSSIZE
  nodup : (earlier.map Visit.addr).Nodup

/-- The loop over some words comes to its end when none of them clashes, and stops at the first
    one that does. -/
structure Tracks (earlier : List Visit) (es : List (Option Visit))
    (loop : Except Stop (Nat → Nat)) : Prop where
  passes : firstClash earlier es = none →
    loop = .ok (uses (earlier ++ es.reduceOption)) ∧ Clean (earlier ++ es.reduceOption)
  stops : ∀ c, firstClash earlier es = some c →
    ∃ e, verdict (.error e : Except Stop Unit) = c.verdict ∧ loop = .error e

section Clashes

variable {mmapped : Memory} {ip : dinode} {earlier : List Visit} {es es' : List (Option Visit)}
  {v : Visit}

theorem find?_addr_eq_none_iff {a : Nat} :
    (earlier.find? fun w => w.addr = a) = none ↔ ∀ w ∈ earlier, w.addr ≠ a := by
  simp

theorem uses_of_new (hnew : (earlier.find? fun w => w.addr = v.addr) = none) :
    counted (uses earlier) v = uses (earlier ++ [v]) := by
  funext a
  by_cases ha : a = v.addr
  · rw [ha, counted_self, uses, uses, List.find?_append, hnew]
    simp
  · have hother : ([v].find? fun w => w.addr = a) = none :=
      find?_addr_eq_none_iff.mpr fun w hw => List.mem_singleton.mp hw ▸ Ne.symm ha
    rw [counted_of_ne ha, uses, uses, List.find?_append, hother, Option.or_none]

theorem Clean.uses_eq (hclean : Clean earlier) {w : Visit} (hw : w ∈ earlier) :
    uses earlier w.addr = w.weight := by
  rcases hfind : earlier.find? fun u => u.addr = w.addr with _ | u
  · exact absurd rfl (find?_addr_eq_none_iff.mp hfind w hw)
  · have hu := List.mem_of_find?_eq_some hfind
    have haddr : u.addr = w.addr := by simpa using List.find?_some hfind
    obtain rfl := List.inj_on_of_nodup_map hclean.nodup hu hw haddr
    rw [uses, hfind]
    rfl

theorem Clean.append (hclean : Clean earlier) (hsmall : v.addr < FSSIZE)
    (hnew : (earlier.find? fun w => w.addr = v.addr) = none) : Clean (earlier ++ [v]) where
  small := by
    intro w hw
    rcases List.mem_append.mp hw with hw | hw
    · exact hclean.small w hw
    · exact List.mem_singleton.mp hw ▸ hsmall
  nodup := by
    rw [List.map_append]
    refine hclean.nodup.append (List.nodup_singleton _) ?_
    intro a ha hv
    obtain ⟨w, hw, rfl⟩ := List.mem_map.mp ha
    exact find?_addr_eq_none_iff.mp hnew w hw (List.mem_singleton.mp hv)

theorem firstClash_new (hsmall : ¬ FSSIZE ≤ v.addr)
    (hnew : (earlier.find? fun w => w.addr = v.addr) = none) :
    firstClash earlier (some v :: es) = firstClash (earlier ++ [v]) es := by
  rw [firstClash, if_neg hsmall]
  simp only [hnew]

theorem firstClash_old {w : Visit} (hsmall : ¬ FSSIZE ≤ v.addr)
    (hold : (earlier.find? fun w => w.addr = v.addr) = some w) :
    firstClash earlier (some v :: es) = some (w.clash v) := by
  rw [firstClash, if_neg hsmall]
  simp only [hold]

theorem firstClash_append : firstClash earlier (es ++ es') =
    (firstClash earlier es).or (firstClash (earlier ++ es.reduceOption) es') := by
  induction es generalizing earlier with
  | nil =>
    change _ = firstClash (earlier ++ []) es'
    rw [List.append_nil]
    rfl
  | cons r es ih =>
    cases r with
    | none => rfl
    | some v =>
      rw [List.cons_append, List.reduceOption_cons_of_some]
      by_cases hlarge : FSSIZE ≤ v.addr
      · rw [firstClash, firstClash, if_pos hlarge, if_pos hlarge]
        rfl
      · rcases hfind : earlier.find? fun w => w.addr = v.addr with _ | w
        · rw [firstClash_new hlarge hfind, firstClash_new hlarge hfind, ih, List.append_assoc]
          rfl
        · rw [firstClash_old hlarge hfind, firstClash_old hlarge hfind]
          rfl

/-- Nothing clashes iff all words are addresses below `FSSIZE` and no two are equal. -/
theorem firstClash_eq_none_iff (hclean : Clean earlier) : firstClash earlier es = none ↔
    (∀ r ∈ es, ∃ v, r = some v ∧ v.addr < FSSIZE) ∧
      ((earlier ++ es.reduceOption).map Visit.addr).Nodup := by
  induction es generalizing earlier with
  | nil =>
    change _ ↔ _ ∧ ((earlier ++ []).map Visit.addr).Nodup
    rw [List.append_nil]
    exact iff_of_true rfl ⟨fun _ h => absurd h List.not_mem_nil, hclean.nodup⟩
  | cons r es ih =>
    rw [List.forall_mem_cons]
    cases r with
    | none => exact iff_of_false (fun h => nomatch h) fun h => nomatch h.1.1
    | some v =>
      have hsome : (∃ u, some v = some u ∧ u.addr < FSSIZE) ↔ v.addr < FSSIZE :=
        ⟨fun ⟨_, heq, hu⟩ => Option.some.inj heq ▸ hu, fun hv => ⟨v, rfl, hv⟩⟩
      rw [hsome, List.reduceOption_cons_of_some]
      by_cases hlarge : FSSIZE ≤ v.addr
      · rw [firstClash, if_pos hlarge]
        exact iff_of_false (fun h => nomatch h) fun h => absurd hlarge h.1.1.not_ge
      · rcases hfind : earlier.find? fun w => w.addr = v.addr with _ | w
        · have hassoc : earlier ++ [v] ++ es.reduceOption = earlier ++ v :: es.reduceOption :=
            List.append_assoc ..
          rw [firstClash_new hlarge hfind, ih (hclean.append (not_le.mp hlarge) hfind), hassoc,
            and_iff_right (not_le.mp hlarge)]
        · rw [firstClash_old hlarge hfind]
          refine iff_of_false (fun h => nomatch h) fun h => ?_
          have haddr : w.addr = v.addr := by simpa using List.find?_some hfind
          have hw := List.mem_map_of_mem (f := Visit.addr) (List.mem_of_find?_eq_some hfind)
          have hv := List.mem_map_of_mem (f := Visit.addr)
            (List.mem_cons_self : v ∈ v :: es.reduceOption)
          rw [List.map_append, List.nodup_append] at h
          exact h.2.2.2 _ hw _ hv haddr

theorem clean_nil : Clean [] where
  small _ h := absurd h List.not_mem_nil
  nodup := List.nodup_nil

/-- The same for the slots in use. -/
theorem firstClash_slots_eq_none_iff {l : List Nat} :
    firstClash [] (l.flatMap (usedReads mmapped)) = none ↔
      (∀ i ∈ l, UsedWith (fun v => v.addr < FSSIZE) mmapped i) ∧
        ((usedIn mmapped l).map Visit.addr).Nodup := by
  have hused : (∀ r ∈ l.flatMap (usedReads mmapped), ∃ v, r = some v ∧ v.addr < FSSIZE) ↔
      ∀ i ∈ l, UsedWith (fun v => v.addr < FSSIZE) mmapped i := by
    rw [List.forall_mem_flatMap]
    exact forall₂_congr fun i _ => usedWith_iff.symm
  rw [firstClash_eq_none_iff clean_nil, hused, List.nil_append]
  refine and_congr_right fun h => ?_
  rw [flatMap_usedReads h, reduceOption_map_some]

theorem Tracks.append {loop : Except Stop (Nat → Nat)}
    {rest : (Nat → Nat) → Except Stop (Nat → Nat)} (h : Tracks earlier es loop)
    (hrest : Clean (earlier ++ es.reduceOption) →
      Tracks (earlier ++ es.reduceOption) es' (rest (uses (earlier ++ es.reduceOption)))) :
    Tracks earlier (es ++ es') (loop >>= rest) := by
  rcases hfirst : firstClash earlier es with _ | c
  · obtain ⟨hok, hclean⟩ := h.passes hfirst
    have hwhole : firstClash earlier (es ++ es') =
        firstClash (earlier ++ es.reduceOption) es' := by
      rw [firstClash_append, hfirst]
      rfl
    constructor
    · intro hnone
      obtain ⟨hok', hclean'⟩ := (hrest hclean).passes (hwhole.symm.trans hnone)
      rw [hok, ok_bind, hok', List.reduceOption_append, ← List.append_assoc]
      exact ⟨rfl, hclean'⟩
    · intro c hc
      rw [hok, ok_bind]
      exact (hrest hclean).stops c (hwhole.symm.trans hc)
  · have hwhole : firstClash earlier (es ++ es') = some c := by
      rw [firstClash_append, hfirst]
      rfl
    obtain ⟨e, he, hstop⟩ := h.stops c hfirst
    constructor
    · intro hnone
      exact nomatch hwhole.symm.trans hnone
    · intro c' hc'
      obtain rfl := Option.some.inj (hwhole.symm.trans hc')
      exact ⟨e, he, by rw [hstop, error_bind]⟩

theorem Tracks.of_error {c : Clash} {e : Stop} (hfirst : firstClash earlier es = some c)
    (he : verdict (.error e : Except Stop Unit) = c.verdict) : Tracks earlier es (.error e) where
  passes hnone := nomatch hfirst.symm.trans hnone
  stops c' hc' := by
    obtain rfl := Option.some.inj (hfirst.symm.trans hc')
    exact ⟨e, he, rfl⟩

theorem tracks_nil (hclean : Clean earlier) : Tracks earlier [] (.ok (uses earlier)) where
  passes _ := by
    change Except.ok (uses earlier) = .ok (uses (earlier ++ [])) ∧ Clean (earlier ++ [])
    rw [List.append_nil]
    exact ⟨rfl, hclean⟩
  stops _ h := nomatch h

theorem countStep_large {count : Nat → Nat} (hlarge : FSSIZE ≤ v.addr) :
    countStep ip count v = .error (.outOfBounds .address_count v.addr) := by
  have hread : countAt count v.addr = .error (.outOfBounds .address_count v.addr) :=
    if_neg hlarge.not_gt
  rw [countStep, hread, error_bind]

theorem verdict_usedTwice (w : Visit) : verdict (.error (usedTwice w.weight) : Except Stop Unit) =
    (w.clash (.direct 0 0)).verdict := by
  cases w <;> rfl

/-- What the loop body does with an address that was used by `w`. -/
theorem countStep_clash (hclean : Clean earlier) {w : Visit} (hw : w ∈ earlier)
    (haddr : w.addr = v.addr)
    (hdirect : ∀ j a, v = .indirect j a → j ≤ NDIRECT →
      Visit.direct j (ip.addrs j) ∈ earlier) :
    ∃ e, countStep ip (uses earlier) v = .error e ∧
      verdict (.error e : Except Stop Unit) = (w.clash v).verdict := by
  have hsmall : v.addr < FSSIZE := haddr ▸ hclean.small w hw
  have hcount : uses earlier v.addr = w.weight := haddr ▸ hclean.uses_eq hw
  have hold : 0 < uses earlier v.addr := by
    rw [hcount]
    cases w <;> exact Nat.succ_pos _
  cases v with
  | direct j a =>
    refine ⟨_, countStep_direct hsmall hold, ?_⟩
    rw [show uses earlier a = w.weight from hcount, verdict_usedTwice]
    cases w <;> rfl
  | indirect j a =>
    by_cases hj : j ≤ NDIRECT
    · have hmem := hdirect j a rfl hj
      refine ⟨_, countStep_indirect hsmall hold hj (hclean.small _ hmem), ?_⟩
      have hone : uses earlier (ip.addrs j) = 1 := hclean.uses_eq hmem
      rw [hone, Visit.clash, if_pos hj]
      rfl
    · refine ⟨_, countStep_far hsmall hold (not_le.mp hj), ?_⟩
      rw [Visit.clash, if_neg hj]
      rfl

/-- The loop over the words of one inode; its addresses in `addrs[]` have been used before its
    indirect entries. -/
theorem tracks_reads (hclean : Clean earlier)
    (hdirect : ∀ j a, some (.indirect j a) ∈ es → j ≤ NDIRECT →
      Visit.direct j (ip.addrs j) ∈ earlier) :
    Tracks earlier es (es.foldlM (atRead (countStep ip)) (uses earlier)) := by
  induction es generalizing earlier with
  | nil => exact tracks_nil hclean
  | cons r es ih =>
    rw [List.foldlM_cons]
    cases r with
    | none => exact Tracks.of_error rfl rfl
    | some v =>
      change Tracks earlier (some v :: es) (countStep ip (uses earlier) v >>= _)
      by_cases hlarge : FSSIZE ≤ v.addr
      · have hfirst : firstClash earlier (some v :: es) = some .outside := by
          rw [firstClash, if_pos hlarge]
        rw [countStep_large hlarge, error_bind]
        exact Tracks.of_error hfirst rfl
      · rcases hfind : earlier.find? fun w => w.addr = v.addr with _ | w
        · have hzero : ¬ 0 < uses earlier v.addr := by
            rw [uses, hfind]
            exact lt_irrefl 0
          have hnext := ih (hclean.append (not_le.mp hlarge) hfind) fun j a h hj =>
            List.mem_append_left _ (hdirect j a (List.mem_cons_of_mem _ h) hj)
          rw [countStep_new (not_le.mp hlarge) hzero, ok_bind, uses_of_new hfind]
          have hassoc : earlier ++ [v] ++ es.reduceOption = earlier ++ v :: es.reduceOption :=
            List.append_assoc ..
          constructor
          · intro hnone
            rw [firstClash_new hlarge hfind] at hnone
            rw [List.reduceOption_cons_of_some, ← hassoc]
            exact hnext.passes hnone
          · intro c hc
            rw [firstClash_new hlarge hfind] at hc
            exact hnext.stops c hc
        · have haddr : w.addr = v.addr := by simpa using List.find?_some hfind
          obtain ⟨e, he, hverdict⟩ := countStep_clash hclean (List.mem_of_find?_eq_some hfind) haddr
            fun j a hv hj => hdirect j a (hv ▸ List.mem_cons_self) hj
          rw [he, error_bind]
          exact Tracks.of_error (firstClash_old hlarge hfind) hverdict

/-- The loop over the blocks of a slot. -/
theorem tracks_eachBlock (hclean : Clean earlier) :
    Tracks earlier (reads mmapped ip) (eachBlock mmapped ip (countStep ip) (uses earlier)) := by
  rw [eachBlock_eq_reads]
  by_cases hfew : blockNum ip.size ≤ NDIRECT
  · refine tracks_reads hclean fun j a h _ => ?_
    have hfit : ¬ NDIRECT + NINDIRECT < blockNum ip.size := by omega
    unfold reads readable at h
    dsimp only at h
    rw [if_pos hfew, if_neg hfit, List.append_nil] at h
    split_ifs at h
    · exact absurd h List.not_mem_nil
    · obtain ⟨v, hv, heq⟩ := List.mem_map.mp h
      obtain ⟨k, _, rfl⟩ := List.mem_map.mp hv
      exact nomatch heq
  · have hsize : ip.size ≠ 0 := by
      intro hzero
      rw [hzero, blockNum_zero] at hfew
      exact hfew (Nat.zero_le _)
    -- First the thirteen addresses of `addrs[]`, then the indirect block.
    obtain ⟨rest, hreads⟩ : ∃ rest, reads mmapped ip =
        ((List.range (NDIRECT + 1)).map fun j => Visit.direct j (ip.addrs j)).map some ++ rest := by
      unfold reads readable
      dsimp only
      rw [if_neg hsize, if_neg hfew, List.map_append, List.append_assoc]
      exact ⟨_, rfl⟩
    rw [hreads, List.foldlM_append]
    refine (tracks_reads hclean fun j a h _ => ?_).append fun hclean' =>
      tracks_reads hclean' fun j a _ hj => ?_
    · obtain ⟨v, hv, heq⟩ := List.mem_map.mp h
      obtain ⟨k, _, rfl⟩ := List.mem_map.mp hv
      exact nomatch heq
    · rw [reduceOption_map_some]
      exact List.mem_append_right _
        (List.mem_map.mpr ⟨j, List.mem_range.mpr (Nat.lt_succ_of_le hj), rfl⟩)

theorem tracks_slots (hclean : Clean earlier) (l : List Nat) :
    Tracks earlier (l.flatMap (usedReads mmapped))
      (l.foldlM (fun s i => usedBody mmapped countStep i
        (inodeAt mmapped i (readSuperblock mmapped)) s) (uses earlier)) := by
  induction l generalizing earlier with
  | nil => exact tracks_nil hclean
  | cons i l ih =>
    have hslot : Tracks earlier (usedReads mmapped i) (usedBody mmapped countStep i
        (inodeAt mmapped i (readSuperblock mmapped)) (uses earlier)) := by
      unfold usedReads usedBody
      rw [inodeAt_type]
      by_cases hfree : typeAt mmapped i = 0
      · have htype : (rinode mmapped i (readSuperblock mmapped)).type = 0 := hfree
        rw [if_pos hfree, if_pos htype]
        exact tracks_nil hclean
      · have htype : (rinode mmapped i (readSuperblock mmapped)).type ≠ 0 := hfree
        rw [if_neg hfree, if_neg htype]
        exact tracks_eachBlock hclean
    rw [List.flatMap_cons, List.foldlM_cons]
    exact hslot.append ih

/-- Checks 7 and 8 stop at the first clash. -/
theorem address_check_7_8_verdict : verdict (address_check_7_8 mmapped) =
    (firstClash [] ((slots (readSuperblock mmapped)).flatMap (usedReads mmapped))).elim
      (some (.ok ())) Clash.verdict := by
  have hcheck : address_check_7_8 mmapped =
      (slots (readSuperblock mmapped)).foldlM (fun s i => usedBody mmapped countStep i
        (inodeAt mmapped i (readSuperblock mmapped)) s) (uses []) >>= fun _ => .ok () := rfl
  have htracks : Tracks [] ((slots (readSuperblock mmapped)).flatMap (usedReads mmapped))
      ((slots (readSuperblock mmapped)).foldlM (fun s i => usedBody mmapped countStep i
        (inodeAt mmapped i (readSuperblock mmapped)) s) (uses [])) :=
    tracks_slots clean_nil _
  rcases hfirst : firstClash [] ((slots (readSuperblock mmapped)).flatMap (usedReads mmapped))
    with _ | c
  · rw [hcheck, (htracks.passes hfirst).1]
    rfl
  · obtain ⟨e, he, hstop⟩ := htracks.stops c hfirst
    rw [hcheck, hstop]
    exact he

theorem address_check_7_8_same_iff {mmapped' : Memory} :
    verdict (address_check_7_8 mmapped) = verdict (address_check_7_8 mmapped') ↔
      firstClash [] ((slots (readSuperblock mmapped)).flatMap (usedReads mmapped)) =
        firstClash [] ((slots (readSuperblock mmapped')).flatMap (usedReads mmapped')) := by
  have hinj : Function.Injective Clash.verdict := by
    intro c c' h
    cases c <;> cases c' <;> first | rfl | exact absurd h (by decide)
  rw [address_check_7_8_verdict, address_check_7_8_verdict]
  refine elim_eq_elim_iff hinj fun c h => ?_
  cases c <;> cases h

end Clashes

end OstepProjects.FileSystemChecker
