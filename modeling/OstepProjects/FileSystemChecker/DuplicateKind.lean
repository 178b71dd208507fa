/-
  OstepProjects/FileSystemChecker/DuplicateKind.lean
  ==================================================
  **Checks 7 and 8: how was the block used before?**

  A count of 1 stands for an address in `addrs[]` and a count of 2 for an entry of an
  indirect block, so the count of the repeated address says which message is right
  (`counts_addr`).  The loops over `addrs[]` choose by it.

  The loop over the indirect block chooses by the count of `ip->addrs[j]`.  Up to entry 12
  that is an address which the loop in front of it has just counted, once
  (`direct_before_indirect`), so the message is always the direct one; behind it there is
  no such address.  So the check names the right kind iff a repeat in an indirect block is
  of one of these entries and the address was used in `addrs[]`
  (`address_check_7_8_names_iff`).
-/
import OstepProjects.FileSystemChecker.Addresses

namespace OstepProjects.FileSystemChecker

open OstepProjects.Loops

/-- The message for an address that was used so before. -/
def Visit.message : Visit → String
  | .direct _ _ => "ERROR: direct address used more than once.\n"
  | .indirect _ _ => "ERROR: indirect address used more than once.\n"

/-- What a use adds to `address_count`. -/
def Visit.weight : Visit → Nat
  | .direct _ _ => 1
  | .indirect _ _ => 2

/-- `v` is the first visit of an address that has been used, and `w` used it. -/
def Repeats (mmapped : Memory) (w v : Visit) : Prop :=
  ∃ front back, usedVisits mmapped = front ++ v :: back ∧ (front.map Visit.addr).Nodup ∧
    w ∈ front ∧ w.addr = v.addr

/-- The check reports the first repeat by the kind of the use before. -/
def NamesKind (mmapped : Memory) : Prop :=
  ∀ w v, Repeats mmapped w v → address_check_7_8 mmapped = .error (.exit w.message)

/-! ### Counts of distinct addresses -/

/-- `countStep` on an address below `FSSIZE`; here every repeat stops alike. -/
def countNew (address_count : Nat → Nat) (v : Visit) : Except Stop (Nat → Nat) :=
  if 0 < address_count v.addr then .error (usedTwice (address_count v.addr))
  else .ok (counted address_count v)

theorem countNew_ok_iff {v : Visit} {count count' : Nat → Nat} :
    countNew count v = .ok count' ↔ ¬ 0 < count v.addr ∧ counted count v = count' := by
  unfold countNew
  split_ifs with hold
  · exact iff_of_false (fun h => nomatch h) (fun h => h.1 hold)
  · exact ⟨fun h => ⟨hold, Except.ok.inj h⟩, fun h => congrArg Except.ok h.2⟩

theorem countStep_iff_countNew {ip : dinode} {v : Visit} {count count' : Nat → Nat} :
    countStep ip count v = .ok count' ↔ v.addr < FSSIZE ∧ countNew count v = .ok count' := by
  rw [countStep_ok_iff, countNew_ok_iff, and_assoc]

theorem usedTwice_weight (w : Visit) : usedTwice w.weight = .exit w.message := by
  cases w <;> rfl

theorem messages_differ (k b : Nat) :
    (Visit.indirect k b).message ≠ "ERROR: direct address used more than once.\n" := by
  rw [Visit.message]
  decide

theorem counted_self (count : Nat → Nat) (v : Visit) :
    counted count v v.addr = count v.addr + v.weight := by
  rcases v with ⟨j, addr⟩ | ⟨j, addr⟩
  · exact Function.update_self ..
  · exact Function.update_self ..

theorem counted_of_ne {count : Nat → Nat} {v : Visit} {a : Nat} (h : a ≠ v.addr) :
    counted count v a = count a := by
  rcases v with ⟨j, addr⟩ | ⟨j, addr⟩
  · exact Function.update_of_ne h ..
  · exact Function.update_of_ne h ..

theorem foldl_counted_of_not_mem {vs : List Visit} {count : Nat → Nat} {a : Nat}
    (h : ∀ v ∈ vs, v.addr ≠ a) : vs.foldl counted count a = count a := by
  induction vs generalizing count with
  | nil => rfl
  | cons v vs ih =>
    rw [List.foldl_cons, ih fun w hw => h w (List.mem_cons_of_mem v hw)]
    exact counted_of_ne (h v List.mem_cons_self).symm

/-- **The count of an address says how it was used.** -/
theorem counts_addr {vs : List Visit} (hnodup : (vs.map Visit.addr).Nodup) {w : Visit}
    (hw : w ∈ vs) {count : Nat → Nat} (hzero : count w.addr = 0) :
    vs.foldl counted count w.addr = w.weight := by
  induction vs generalizing count with
  | nil => cases hw
  | cons v vs ih =>
    rw [List.map_cons, List.nodup_cons] at hnodup
    obtain ⟨hnew, hnodup⟩ := hnodup
    rw [List.foldl_cons]
    rcases List.mem_cons.mp hw with rfl | hw
    · have hothers : ∀ u ∈ vs, u.addr ≠ w.addr := fun u hu heq =>
        hnew (heq ▸ List.mem_map_of_mem hu)
      rw [foldl_counted_of_not_mem hothers, counted_self, hzero, Nat.zero_add]
    · have hne : w.addr ≠ v.addr := fun heq => hnew (heq ▸ List.mem_map_of_mem hw)
      apply ih hnodup hw
      rw [counted_of_ne hne, hzero]

/-! ### The order of the visits -/

section Order

variable {mmapped : Memory}

/-- The entries of the indirect block come behind `addrs[]`. -/
theorem inodeBlocks_pairwise (ip : dinode) :
    (inodeBlocks mmapped ip).Pairwise fun v v' =>
      ∀ j a k b, v = .indirect j a → v' ≠ .direct k b := by
  have hdirect : ∀ n, ((List.range n).map fun j => Visit.direct j (ip.addrs j)).Pairwise
      fun v v' => ∀ j a k b, v = .indirect j a → v' ≠ .direct k b := by
    intro n
    refine List.pairwise_map.mpr (List.pairwise_of_forall ?_)
    intro _ _ j a k b h
    cases h
  unfold inodeBlocks
  dsimp only
  split_ifs
  · exact List.Pairwise.nil
  · exact hdirect _
  · refine List.pairwise_append.mpr ⟨hdirect _, ?_, ?_⟩
    · refine List.pairwise_map.mpr (List.pairwise_of_forall ?_)
      intro _ _ j a k b _ h
      cases h
    · intro v hv v' _ j a k b h
      obtain ⟨n, _, rfl⟩ := List.mem_map.mp hv
      cases h

variable (mmapped) in
theorem ownedVisits_pairwise :
    (ownedVisits mmapped).Pairwise fun p q =>
      ∀ j a k b, p.2 = .indirect j a → q = (p.1, .direct k b) → False := by
  refine List.pairwise_flatMap.mpr ⟨?_, ?_⟩
  · intro i _
    unfold owned
    dsimp only
    split_ifs
    · exact List.Pairwise.nil
    · refine List.pairwise_map.mpr ((inodeBlocks_pairwise _).imp ?_)
      intro v v' hbehind j a k b h h'
      exact hbehind j a k b h (Prod.mk.inj h').2
  · refine slots_pairwise.imp ?_
    rintro i i' hlt p hp q hq j a k b _ rfl
    have hfst : ∀ {n : Nat} {p : Nat × Visit}, p ∈ owned mmapped n → p.1 = n := by
      intro n p hp
      unfold owned at hp
      dsimp only at hp
      split_ifs at hp
      · cases hp
      · obtain ⟨_, _, rfl⟩ := List.mem_map.mp hp
        rfl
    have hi := hfst hp
    have hi' := hfst hq
    exact absurd (hi.symm.trans hi') hlt.ne

/-- When the loop comes to an entry of the indirect block, it has been to all of `addrs[]`. -/
theorem direct_before_indirect {front back : List (Nat × Visit)} {i j a k : Nat}
    (h : ownedVisits mmapped = front ++ (i, .indirect j a) :: back) (hk : k ≤ NDIRECT) :
    (i, .direct k ((rinode mmapped i (readSuperblock mmapped)).addrs k)) ∈ front := by
  obtain ⟨hslot, htype, hblock⟩ := mem_ownedVisits.mp (h ▸ List.mem_append_right front
    List.mem_cons_self : (i, Visit.indirect j a) ∈ ownedVisits mmapped)
  have hdirect := mem_ownedVisits.mpr ⟨hslot, htype, direct_of_indirect hblock hk⟩
  have hpairwise := ownedVisits_pairwise mmapped
  rw [h] at hdirect hpairwise
  rcases List.mem_append.mp hdirect with hfront | hrest
  · exact hfront
  · rcases List.mem_cons.mp hrest with heq | hback
    · cases (Prod.mk.inj heq).2
    · have hbehind := (List.pairwise_cons.mp (List.pairwise_append.mp hpairwise).2.1).1 _ hback
      exact (hbehind j a k _ rfl rfl).elim

end Order

/-! ### At the first repeat -/

section FirstRepeat

variable {mmapped : Memory}

variable (mmapped) in
/-- As long as the addresses are distinct, the loop counts them. -/
theorem foldlM_countStep {ps : List (Nat × Visit)} (hsmall : ∀ p ∈ ps, p.2.addr < FSSIZE)
    (hnodup : ((ps.map Prod.snd).map Visit.addr).Nodup) :
    ps.foldlM
        (fun count p => countStep (inodeAt mmapped p.1 (readSuperblock mmapped)) count p.2)
        (fun _ => 0) = .ok ((ps.map Prod.snd).foldl counted fun _ => 0) := by
  have hnew : ∀ (count : Nat → Nat) (p : Nat × Visit) (count' : Nat → Nat),
      countNew count p.2 = .ok count' ↔ ¬ 0 < count p.2.addr ∧ counted count p.2 = count' :=
    fun _ _ _ => countNew_ok_iff
  refine (foldlM_ok_iff (P := fun p => p.2.addr < FSSIZE) fun p _ _ _ =>
    countStep_iff_countNew).mpr ⟨hsmall, ?_⟩
  refine (foldlM_mark_ok_iff (fun p : Nat × Visit => p.2.addr) (fun count a => 0 < count a) hnew
    fun _ _ _ => counted_pos).mpr ⟨⟨fun _ _ => lt_irrefl 0, ?_⟩, ?_⟩
  · rw [List.map_map] at hnodup
    exact hnodup
  · rw [List.foldl_map]

/-- **The counts when the loop comes to the first repeat**, in inode `i`. -/
theorem counts_at_repeat (hfit : UsedFit mmapped)
    (hsmall : ∀ a ∈ usedBlocks mmapped, a < FSSIZE) {w v : Visit} (h : Repeats mmapped w v) :
    ∃ (i : Nat) (count : Nat → Nat), v.addr < FSSIZE ∧ count v.addr = w.weight ∧
      (∀ e, countStep (inodeAt mmapped i (readSuperblock mmapped)) count v = .error e →
        address_check_7_8 mmapped = .error e) ∧
      ∀ j a, v = .indirect j a → j ≤ NDIRECT →
        (inodeAt mmapped i (readSuperblock mmapped)).addrs j < FSSIZE ∧
          count ((inodeAt mmapped i (readSuperblock mmapped)).addrs j) = 1 := by
  obtain ⟨front, back, hvisits, hnodup, hw, haddr⟩ := h
  rw [← ownedVisits_map_snd] at hvisits
  obtain ⟨frontOwned, rest, howned, rfl, hrest⟩ := List.map_eq_append_iff.mp hvisits
  obtain ⟨⟨i, v⟩, backOwned, rfl, rfl, rfl⟩ := List.map_eq_cons_iff.mp hrest
  have hlt : ∀ p ∈ ownedVisits mmapped, p.2.addr < FSSIZE := fun p hp =>
    hsmall _ (mem_usedBlocks hp)
  have hbefore : ∀ p ∈ frontOwned, p.2.addr < FSSIZE := fun p hp =>
    hlt p (howned ▸ List.mem_append_left _ hp)
  have hweight : ∀ u ∈ frontOwned.map Prod.snd,
      (frontOwned.map Prod.snd).foldl counted (fun _ => 0) u.addr = u.weight :=
    fun u hu => counts_addr hnodup hu rfl
  refine ⟨i, (frontOwned.map Prod.snd).foldl counted fun _ => 0, ?_, ?_, ?_, ?_⟩
  · exact hlt (i, v) (howned ▸ List.mem_append_right _ List.mem_cons_self)
  · exact haddr ▸ hweight w hw
  · intro e he
    rw [address_check_7_8_eq hfit, howned, List.foldlM_append,
      foldlM_countStep mmapped hbefore hnodup, ok_bind, List.foldlM_cons, he]
    rfl
  · rintro j a rfl hj
    have hdirect := direct_before_indirect howned hj
    rw [inodeAt_addrs hj]
    exact ⟨hbefore _ hdirect, hweight _ (List.mem_map_of_mem hdirect)⟩

/-- What the check does at the first repeat. -/
theorem address_check_7_8_repeat (hfit : UsedFit mmapped)
    (hsmall : ∀ a ∈ usedBlocks mmapped, a < FSSIZE) {w v : Visit} (h : Repeats mmapped w v) :
    (∀ k b, v = .direct k b → address_check_7_8 mmapped = .error (.exit w.message)) ∧
      ∀ j a, v = .indirect j a → address_check_7_8 mmapped =
        .error (if j ≤ NDIRECT then .exit "ERROR: direct address used more than once.\n"
          else .outOfBounds .addrs j) := by
  obtain ⟨i, count, hv, hold, hstop, hother⟩ := counts_at_repeat hfit hsmall h
  have hpos : 0 < count v.addr := by
    rw [hold]
    cases w <;> exact Nat.succ_pos _
  constructor
  · rintro k b rfl
    apply hstop
    have hreport : countStep (inodeAt mmapped i (readSuperblock mmapped)) count (.direct k b) =
        .error (usedTwice (count (Visit.direct k b).addr)) := countStep_direct hv hpos
    rw [hreport, hold, usedTwice_weight]
  · rintro j a rfl
    apply hstop
    split_ifs with hj
    · obtain ⟨hsmallOther, hone⟩ := hother j a rfl hj
      refine (countStep_indirect hv hpos hj hsmallOther).trans ?_
      rw [hone]
      rfl
    · exact countStep_far hv hpos (not_le.mp hj)

end FirstRepeat

/-- **When checks 7 and 8 name the right kind.**  On an image whose inodes in use have at most 140
    blocks, all of them below `FSSIZE`, they do iff a first repeat in an indirect block is one of
    its first thirteen entries and repeats an address in `addrs[]`. -/
theorem address_check_7_8_names_iff (mmapped : Memory) (hfit : UsedFit mmapped)
    (hsmall : ∀ a ∈ usedBlocks mmapped, a < FSSIZE) :
    NamesKind mmapped ↔
      ∀ w j a, Repeats mmapped w (.indirect j a) → j ≤ NDIRECT ∧ ∃ k b, w = .direct k b := by
  constructor
  · intro hnames w j a hrepeat
    have hreport := (address_check_7_8_repeat hfit hsmall hrepeat).2 j a rfl
    rw [hnames w _ hrepeat] at hreport
    split_ifs at hreport with hj
    · refine ⟨hj, ?_⟩
      rcases w with ⟨k, b⟩ | ⟨k, b⟩
      · exact ⟨k, b, rfl⟩
      · exact absurd (Stop.exit.inj (Except.error.inj hreport)) (messages_differ k b)
    · cases hreport
  · intro hkind w v hrepeat
    obtain ⟨hdirect, hindirect⟩ := address_check_7_8_repeat hfit hsmall hrepeat
    rcases v with ⟨k, b⟩ | ⟨j, a⟩
    · exact hdirect k b rfl
    · obtain ⟨hj, k, b, rfl⟩ := hkind w j a hrepeat
      rw [hindirect j a rfl, if_pos hj]
      rfl

/-- One file of fourteen blocks, the last two of them the same. -/
def twinImage : Memory := fun k =>
  if 1100 ≤ k ∧ k < 1152 ∧ k % 4 = 0 then UInt8.ofNat (59 + (k - 1100) / 4)
  else ([(516, 173), (517, 3), (520, 1), (532, 2), (536, 58), (1088, 2), (1097, 28), (36352, 80),
    (36356, 80)].lookup k).getD 0

theorem twinImage_contents :
    (∀ i ∈ slots (readSuperblock twinImage),
      blockNum (rinode twinImage i (readSuperblock twinImage)).size ≤ NDIRECT + NINDIRECT) ∧
    (∀ a ∈ usedBlocks twinImage, a < FSSIZE) ∧
    usedVisits twinImage = (usedVisits twinImage).take 14 ++ [.indirect 1 80] ∧
    (((usedVisits twinImage).take 14).map Visit.addr).Nodup ∧
    Visit.indirect 0 80 ∈ (usedVisits twinImage).take 14 := by
  decide +kernel

theorem usedFit_twinImage : UsedFit twinImage := fun i hi _ => twinImage_contents.1 i hi

theorem address_check_7_8_names_twinImage :
    (UsedFit twinImage ∧ ∀ a ∈ usedBlocks twinImage, a < FSSIZE) ∧
      (NamesKind twinImage ↔
        ∀ w j a, Repeats twinImage w (.indirect j a) → j ≤ NDIRECT ∧ ∃ k b, w = .direct k b) :=
  ⟨⟨usedFit_twinImage, twinImage_contents.2.1⟩,
    address_check_7_8_names_iff twinImage usedFit_twinImage twinImage_contents.2.1⟩

/-- The repeated entry is called a direct address. -/
theorem address_check_7_8_not_names : ¬ ∀ mmapped : Memory, UsedFit mmapped →
    (∀ a ∈ usedBlocks mmapped, a < FSSIZE) → NamesKind mmapped := by
  intro hnames
  obtain ⟨_, hsmall, hvisits, hnodup, hmem⟩ := twinImage_contents
  have hrepeat : Repeats twinImage (.indirect 0 80) (.indirect 1 80) :=
    ⟨_, [], hvisits, hnodup, hmem, rfl⟩
  have hreport := (address_check_7_8_repeat usedFit_twinImage hsmall hrepeat).2 1 80 rfl
  rw [hnames twinImage usedFit_twinImage hsmall _ _ hrepeat, if_pos (by decide)] at hreport
  exact messages_differ 0 80 (Stop.exit.inj (Except.error.inj hreport))

end OstepProjects.FileSystemChecker
