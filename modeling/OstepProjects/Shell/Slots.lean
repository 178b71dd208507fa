/-
  OstepProjects/Shell/Slots.lean
  ==============================
  **The tables of redirections, segment by segment.**

  `label_list` and `file_list` are indexed by the number of commands found so far, so a
  segment that is not launched writes into the slot of the next command that is.
  `Treated` says what one segment does to the tables and to descriptor 1, and `Slots`
  what they hold after some segments of a line: the slot of a launched segment without
  `>` holds a file exactly if a segment since the last launched one has left it there
  (`Stale`), and descriptor 1 is lost to a redirected `exit` (`leaks`).
-/
import OstepProjects.Shell.Arguments

namespace OstepProjects.Shell

open OstepProjects.Bytes OstepProjects.Descriptors OstepProjects.Words

variable {W : Type}

/-! ### What a segment names -/

/-- What a segment writes into `file_list`: it has one `>` and words on both sides. -/
def recorded (v : List UInt8) : Option (List UInt8) :=
  match (v.splitOn 62).map (Words.words 32) with
  | [_ :: _, file :: files] => some (operand (file :: files))
  | _ => none

/-- A redirected `exit`, which is left at the error behind `dup2`. -/
def leaks (v : List UInt8) : Bool :=
  match (v.splitOn 62).map (Words.words 32) with
  | [token :: _, file :: files] =>
    token = ascii "exit" && !((operand (file :: files)).findIdx? (· == 32)).any fun i => 0 < i
  | _ => false

/-- One of the segments in front of segment `n`, behind all that were launched there, has
    left a file. -/
def Stale (segs : List (List UInt8)) (launched : List Nat) (n : Nat) : Prop :=
  ∃ j, j < n ∧ ((segs[j]?).bind recorded).isSome ∧ ∀ m ∈ launched, m < n → m < j

instance (segs : List (List UInt8)) (launched : List Nat) (n : Nat) :
    Decidable (Stale segs launched n) :=
  inferInstanceAs (Decidable (∃ j, j < n ∧ _))

/-! ### One segment -/

/-- What a command changes in a shell. -/
structure Effect (W : Type) where
  world : W
  command_path : List (List UInt8)
  found : Option Command
  error : Bool

def Effect.apply (e : Effect W) (sh : Wish W) : Wish W :=
  { sh with
    world := e.world
    command_path := e.command_path
    commands := sh.commands ++ e.found.toList
    errors := if e.error then sh.errors + 1 else sh.errors }

variable (os : Os W)

/-- **What a command changes depends on the world and the search path only.** -/
theorem command_effect {k : Nat} {temp : List UInt8} {sh sh' : Wish W} {leave : Bool}
    (h : command os k temp sh = .ok (leave, sh')) :
    ∃ e : Effect W, sh' = e.apply sh ∧ (∀ c, e.found = some c → c.segment = k) ∧
      (leave = true ↔ (strsep (fun c => c == 32 || c == 10) temp).1 = ascii "exit") ∧
      ∀ t : Wish W, t.world = sh.world → t.command_path = sh.command_path →
        t.commands.length < 100 → command os k temp t = .ok (leave, e.apply t) := by
  rw [command] at h
  simp only at h
  by_cases hexit : (strsep (fun c => c == 32 || c == 10) temp).1 = ascii "exit"
  · rw [if_pos hexit] at h
    split at h
    · cases h
    next hrest =>
      cases h
      refine ⟨⟨sh.world, sh.command_path, none, true⟩, ?_, by simp, by simp [hexit], ?_⟩
      · simp [Effect.apply, Wish.report]
      · rintro ⟨_, _, _, _, _, _, _⟩ rfl rfl _
        simp only [command, if_pos hexit, if_neg hrest]
        simp [Effect.apply, Wish.report]
  rw [if_neg hexit] at h
  by_cases hcd : (strsep (fun c => c == 32 || c == 10) temp).1 = ascii "cd"
  · rw [if_pos hcd] at h
    let dir := (strsep (fun c => c == 32 || c == 10)
      ((strsep (fun c => c == 32 || c == 10) temp).2.getD [])).1
    have heffect : ∀ t : Wish W, (if (os.chdir sh.world dir).2 then
        { t with world := (os.chdir sh.world dir).1 }
      else ({ t with world := (os.chdir sh.world dir).1 } : Wish W).report) =
        Effect.apply ⟨(os.chdir sh.world dir).1, t.command_path, none,
          !(os.chdir sh.world dir).2⟩ t := by
      intro t
      cases (os.chdir sh.world dir).2 <;> simp [Effect.apply, Wish.report]
    cases h
    refine ⟨_, heffect sh, by simp, by simp [hexit], ?_⟩
    intro t hworld hpath _
    simp only [command, if_neg hexit, if_pos hcd, hworld, ← hpath]
    exact congrArg (fun t => Except.ok (false, t)) (heffect t)
  rw [if_neg hcd] at h
  by_cases hbuilt : (strsep (fun c => c == 32 || c == 10) temp).1 = ascii "path"
  · rw [if_pos hbuilt] at h
    obtain ⟨command_path, hzx, h⟩ := of_bind_eq_ok h
    cases h
    refine ⟨⟨sh.world, command_path, none, false⟩, ?_, by simp, by simp [hexit], ?_⟩
    · simp [Effect.apply]
    · rintro ⟨_, _, _, _, _, _, _⟩ rfl rfl _
      simp only [command, if_neg hexit, if_neg hcd, if_pos hbuilt, hzx, ok_bind, Effect.apply,
        Option.toList_none, List.append_nil]
      rfl
  rw [if_neg hbuilt] at h
  obtain ⟨⟨final_command, parameter⟩, hexec, h⟩ := of_bind_eq_ok h
  simp only at h
  split at h
  next haccess =>
    split at h
    · cases h
      refine ⟨⟨sh.world, sh.command_path, some ⟨final_command, parameter, k⟩, false⟩, rfl, ?_,
        by simp [hexit], ?_⟩
      · intro c hc
        cases hc
        rfl
      · rintro ⟨_, _, _, _, _, _, _⟩ rfl rfl hroom
        simp only [command, if_neg hexit, if_neg hcd, if_neg hbuilt, hexec, ok_bind, if_pos haccess,
          if_pos hroom]
        rfl
    · cases h
  next haccess =>
    cases h
    refine ⟨⟨sh.world, sh.command_path, none, true⟩, ?_, by simp, by simp [hexit], ?_⟩
    · simp [Effect.apply, Wish.report]
    · rintro ⟨_, _, _, _, _, _, _⟩ rfl rfl _
      simp only [command, if_neg hexit, if_neg hcd, if_neg hbuilt, hexec, ok_bind, if_neg haccess,
        Effect.apply, Option.toList_none, List.append_nil]
      rfl

theorem command_frame {k : Nat} {temp : List UInt8} {sh sh' : Wish W} {leave : Bool}
    (h : command os k temp sh = .ok (leave, sh')) :
    sh'.fds = sh.fds ∧ sh'.label_list = sh.label_list ∧ sh'.file_list = sh.file_list ∧
    (leave = true ↔ (strsep (fun c => c == 32 || c == 10) temp).1 = ascii "exit") ∧
    (sh'.commands = sh.commands ∨
      ∃ c : Command, c.segment = k ∧ sh'.commands = sh.commands ++ [c]) := by
  obtain ⟨e, rfl, hsegment, hleave, _⟩ := command_effect os h
  refine ⟨rfl, rfl, rfl, hleave, ?_⟩
  cases hfound : e.found with
  | none =>
    left
    simp [Effect.apply, hfound]
  | some c =>
    right
    exact ⟨c, hsegment c hfound, by simp [Effect.apply, hfound]⟩

theorem mem_of_mem_words {s w : List UInt8} (hw : w ∈ Words.words 32 s) {c : UInt8}
    (hc : c ∈ w) : c ∈ s := by
  exact mem_of_mem_piece (List.mem_filter.mp hw).1 hc

/-- The command in front of `>` is its first word. -/
theorem token_squeeze {front token : List UInt8} {args : List (List UInt8)} (h10 : 10 ∉ front)
    (hwords : Words.words 32 front = token :: args) :
    (strsep (fun c => c == 32 || c == 10) (squeeze 32 false front ++ [10])).1 = token := by
  have hmem : ∀ v ∈ token :: args, IsWord 32 v ∧ 10 ∉ v := by
    intro v hv
    rw [← hwords] at hv
    exact ⟨isWord_of_mem_words hv, fun h => h10 (mem_of_mem_words hv h)⟩
  obtain ⟨spaced, htrail⟩ : ∃ spaced : Bool, trail 32 front = if spaced then [32] else [] := by
    rcases trail_eq_nil_or (b := (32 : UInt8)) front with h | h
    · exact ⟨false, h⟩
    · exact ⟨true, h⟩
  have hargs : ∀ v ∈ args, 10 ∉ v := fun v hv => (hmem v (by simp [hv])).2
  obtain ⟨rest, hstrsep, _⟩ := strsep_command (hmem token List.mem_cons_self) hargs spaced
  rw [squeeze_false, hwords, htrail, hstrsep]

theorem mem_of_recorded {v file : List UInt8} (h : recorded v = some file) : 62 ∈ v := by
  by_contra h62
  simp [recorded, List.splitOn_eq_singleton h62] at h

theorem recorded_of_not_mem {v : List UInt8} (h62 : 62 ∉ v) : recorded v = none :=
  Option.eq_none_iff_forall_ne_some.mpr fun _ hfile => h62 (mem_of_recorded hfile)

theorem leaks_of_not_recorded {v : List UInt8} (h : recorded v = none) : leaks v = false := by
  unfold recorded at h
  unfold leaks
  split
  next heq =>
    rw [heq] at h
    cases h
  next => rfl

/-- What a segment comes to, whatever the state: nothing, its command, a mark in
    `label_list`, or a command with a file. -/
inductive Treatment (k : Nat) (v : List UInt8) : Prop
  | blank (h62 : 62 ∉ v) (run : ∀ sh, writtenSegment os k v sh = .ok sh)
  | plain (h62 : 62 ∉ v) (temp : List UInt8)
      (run : ∀ sh, writtenSegment os k v sh = command os k temp sh >>= fun r => .ok r.2)
  | marked (h62 : 62 ∈ v) (hrecorded : recorded v = none) (lone : Bool)
      (run : ∀ sh, writtenSegment os k v sh =
        if sh.commands.length < 100 then .ok (if lone then sh.label else sh.label.report)
        else .error .overrun)
  | file (front token file : List UInt8) (args : List (List UInt8)) (h62 : 62 ∈ v)
      (hfront : front ∈ v.splitOn 62) (hwords : Words.words 32 front = token :: args)
      (hrecorded : recorded v = some file)
      (hleaks : leaks v = (decide (token = ascii "exit") &&
        !(file.findIdx? (· == 32)).any fun i => 0 < i))
      (run : ∀ sh, writtenSegment os k v sh =
        if sh.commands.length < 100 then redirected os k front file sh else .error .overrun)

theorem writtenSegment_cases (k : Nat) (v : List UInt8) : Treatment os k v := by
  by_cases hv : Words.words 32 v = []
  · have h62 : 62 ∉ v := fun hc => absurd (forall_eq_of_words_eq_nil hv 62 hc) (by decide)
    exact .blank h62 fun sh => by rw [writtenSegment, if_pos hv]
  rcases hsplit : v.splitOn 62 with _ | ⟨v₀, _ | ⟨v₁, _ | ⟨v₂, vs⟩⟩⟩
  · exact absurd hsplit (List.splitOn_ne_nil 62 v)
  · -- no `>`
    refine .plain (mt mem_iff_splitOn.mp ?_) (unwords 32 (Words.words 32 v) ++ [10]) fun sh => ?_
    · rw [hsplit]
      exact lt_irrefl 1
    · rw [writtenSegment, if_neg hv, hsplit]
      rfl
  · -- one `>`
    have h62 : 62 ∈ v := mem_iff_splitOn.mpr (by rw [hsplit]; exact Nat.one_lt_two)
    have hrun : ∀ sh, writtenSegment os k v sh = if sh.commands.length < 100 then
        if Words.words 32 v₀ = [] ∧ Words.words 32 v₁ = [] then .ok sh.label
        else if Words.words 32 v₀ = [] ∨ Words.words 32 v₁ = [] then .ok sh.label.report
        else redirected os k v₀ (operand (Words.words 32 v₁)) sh
      else .error .overrun := by
      intro sh
      rw [writtenSegment, if_neg hv, hsplit]
      exact ite_not _ _ _
    rcases hwords₀ : Words.words 32 v₀ with _ | ⟨token, args⟩
    · refine .marked h62 (by simp [recorded, hsplit, hwords₀]) (decide (Words.words 32 v₁ = []))
        fun sh => ?_
      rw [hrun, hwords₀]
      by_cases hwords₁ : Words.words 32 v₁ = []
      · simp [hwords₁]
      · simp [hwords₁]
    rcases hwords₁ : Words.words 32 v₁ with _ | ⟨file, files⟩
    · refine .marked h62 (by simp [recorded, hsplit, hwords₁]) false fun sh => ?_
      rw [hrun, hwords₀, hwords₁]
      simp
    · refine .file v₀ token (operand (file :: files)) args h62 (by simp [hsplit]) hwords₀
        (by simp [recorded, hsplit, hwords₀, hwords₁]) (by simp [leaks, hsplit, hwords₀, hwords₁])
        fun sh => ?_
      rw [hrun, hwords₀, hwords₁]
      simp
  · -- several `>`
    have h62 : 62 ∈ v := mem_iff_splitOn.mpr (by simp [hsplit])
    refine .marked h62 (by simp [recorded, hsplit]) false fun sh => ?_
    rw [writtenSegment, if_neg hv, hsplit]
    exact ite_not _ _ _

/-- **What a segment does to the tables.** -/
structure Treated (k : Nat) (v : List UInt8) (sh sh' : Wish W) : Prop where
  commands : sh'.commands = sh.commands ∨
    (62 ∈ v → (recorded v).isSome) ∧
      ∃ c : Command, c.segment = k ∧ sh'.commands = sh.commands ++ [c]
  label_list : sh'.label_list =
    if 62 ∈ v then Function.update sh.label_list sh.commands.length true else sh.label_list
  file_list : sh'.file_list = (recorded v).elim sh.file_list fun file =>
    Function.update sh.file_list sh.commands.length (some file)
  kept : leaks v = false → lookup sh'.fds 1 = lookup sh.fds 1
  leaked : leaks v = true → ∃ file, recorded v = some file ∧
    (lookup sh'.fds 1 = some (.file file) ∨
      lookup sh'.fds 1 = lookup sh.fds 1 ∧ ∃ w, (os.openFile w file).2 = false)

/-- A segment that lacks the command or the file, or has several `>`. -/
theorem label_treated (k : Nat) {v : List UInt8} (h62 : 62 ∈ v) (hrecorded : recorded v = none)
    (lone : Bool) (sh : Wish W) :
    Treated os k v sh (if lone then sh.label else sh.label.report) := by
  have hleaked : leaks v ≠ true := by simp [leaks_of_not_recorded hrecorded]
  cases lone with
  | true =>
    exact ⟨Or.inl rfl, (if_pos h62).symm, by rw [hrecorded]; rfl, fun _ => rfl,
      fun hl => absurd hl hleaked⟩
  | false =>
    exact ⟨Or.inl rfl, (if_pos h62).symm, by rw [hrecorded]; rfl, fun _ => rfl,
      fun hl => absurd hl hleaked⟩

/-- A command without `>`. -/
theorem command_treated {k : Nat} {v temp : List UInt8} (h62 : 62 ∉ v) {sh sh' : Wish W}
    {leave : Bool} (h : command os k temp sh = .ok (leave, sh')) : Treated os k v sh sh' := by
  obtain ⟨hfds, hlabel, hfile, _, hcommands⟩ := command_frame os h
  have hrecorded := recorded_of_not_mem h62
  refine ⟨hcommands.imp_right fun hc => ⟨fun hmem => absurd hmem h62, hc⟩, ?_, ?_, ?_, ?_⟩
  · rw [if_neg h62, hlabel]
  · rw [hrecorded, hfile]
    rfl
  · intro _
    rw [hfds]
  · intro hl
    rw [leaks_of_not_recorded hrecorded] at hl
    cases hl

theorem redirected_treated {k : Nat} {v front : List UInt8} {token file : List UInt8}
    {args : List (List UInt8)} (h10 : 10 ∉ front)
    (hwords : Words.words 32 front = token :: args) (hrecorded : recorded v = some file)
    (hleaks : leaks v = (decide (token = ascii "exit") &&
      !(file.findIdx? (· == 32)).any fun i => 0 < i))
    (h62 : 62 ∈ v) {sh sh' : Wish W} {g : OpenFile} (hfd : lookup sh.fds 1 = some g)
    (h : redirected os k front file sh = .ok sh') : Treated os k v sh sh' := by
  rw [redirected] at h
  by_cases hspace : (file.findIdx? (· == 32)).any (fun i => decide (0 < i)) = true
  · rw [if_pos hspace] at h
    cases h
    refine ⟨Or.inl rfl, by rw [if_pos h62]; rfl, by rw [hrecorded]; rfl, fun _ => rfl, ?_⟩
    intro hl
    rw [hleaks, hspace] at hl
    simp at hl
  · rw [if_neg hspace] at h
    simp only at h
    obtain ⟨⟨leave, sh₁⟩, hrun, h⟩ := of_bind_eq_ok h
    obtain ⟨hfds, hlabel, hfile, hleave, hcommands⟩ := command_frame os hrun
    rw [token_squeeze h10 hwords] at hleave
    have hopened : lookup sh₁.fds 1 = some
        ((if (os.openFile sh.world file).2 then some (OpenFile.file file) else none).getD g) := by
      rw [hfds]
      exact lookup_redirect hfd _
    have hsame : leaks v = leave := by
      rw [hleaks, Bool.eq_iff_iff, hleave]
      simp [hspace]
    have hlabels : sh₁.label_list =
        if 62 ∈ v then Function.update sh.label_list sh.commands.length true
        else sh.label_list := by
      rw [if_pos h62]
      exact hlabel
    have hfiles : sh₁.file_list = (recorded v).elim sh.file_list fun file =>
        Function.update sh.file_list sh.commands.length (some file) := by
      rw [hrecorded]
      exact hfile
    have hfound := hcommands.imp_right fun hc =>
      And.intro (fun _ : 62 ∈ v => Option.isSome_of_eq_some hrecorded) hc
    cases leave with
    | true =>
      cases h
      refine ⟨hfound, hlabels, hfiles, ?_, fun _ => ⟨file, hrecorded, ?_⟩⟩
      · intro hl
        rw [hsame] at hl
        cases hl
      · cases hopen : (os.openFile sh.world file).2 with
        | true =>
          rw [hopen] at hopened
          exact Or.inl hopened
        | false =>
          rw [hopen] at hopened
          exact Or.inr ⟨hopened.trans hfd.symm, _, hopen⟩
    | false =>
      cases h
      refine ⟨hfound, hlabels, hfiles, ?_, ?_⟩
      · intro _
        rw [hfds, hfd]
        exact lookup_restore hfd _
      · intro hl
        rw [hsame] at hl
        cases hl

theorem writtenSegment_treated {k : Nat} {v : List UInt8} (h10 : 10 ∉ v) {sh sh' : Wish W}
    {g : OpenFile} (hfd : lookup sh.fds 1 = some g) (h : writtenSegment os k v sh = .ok sh') :
    Treated os k v sh sh' := by
  rcases writtenSegment_cases os k v with ⟨h62, run⟩ | ⟨h62, temp, run⟩ |
    ⟨h62, hrecorded, lone, run⟩ |
    ⟨front, token, file, args, h62, hfront, hwords, hrecorded, hleaks, run⟩ <;> rw [run] at h
  · cases h
    have hrecorded := recorded_of_not_mem h62
    refine ⟨Or.inl rfl, (if_neg h62).symm, by rw [hrecorded]; rfl, fun _ => rfl, ?_⟩
    intro hl
    rw [leaks_of_not_recorded hrecorded] at hl
    cases hl
  · obtain ⟨⟨leave, sh₁⟩, hrun, h⟩ := of_bind_eq_ok h
    cases h
    exact command_treated os h62 hrun
  · split at h
    · cases h
      exact label_treated os k h62 hrecorded lone sh
    · cases h
  · split at h
    · have hfront10 : 10 ∉ front := fun hc => h10 (mem_of_mem_piece hfront hc)
      exact redirected_treated os hfront10 hwords hrecorded hleaks h62 hfd h
    · cases h

/-! ### The slots of a line -/

section Stale

variable {segs : List (List UInt8)} {launched : List Nat} {n k : Nat}

theorem stale_append (h : n ≤ k) : Stale segs (launched ++ [k]) n ↔ Stale segs launched n := by
  apply exists_congr
  intro j
  refine and_congr_right fun _ => and_congr_right fun _ => ?_
  constructor
  · intro hall m hm
    exact hall m (List.mem_append_left _ hm)
  · intro hall m hm hlt
    rcases List.mem_append.mp hm with hm | hm
    · exact hall m hm hlt
    · rw [List.mem_singleton.mp hm] at hlt
      omega

theorem stale_succ {v : List UInt8} (hv : segs[k]? = some v) (hlaunched : ∀ m ∈ launched, m < k) :
    Stale segs launched (k + 1) ↔ (recorded v).isSome ∨ Stale segs launched k := by
  constructor
  · rintro ⟨j, hj, hrecorded, hall⟩
    rcases Nat.lt_succ_iff_lt_or_eq.mp hj with hlt | rfl
    · exact Or.inr ⟨j, hlt, hrecorded, fun m hm _ => hall m hm (by have := hlaunched m hm; omega)⟩
    · rw [hv] at hrecorded
      exact Or.inl hrecorded
  · rintro (hrecorded | ⟨j, hj, hrecorded, hall⟩)
    · refine ⟨k, Nat.lt_succ_self k, ?_, fun m hm _ => hlaunched m hm⟩
      rw [hv]
      exact hrecorded
    · exact ⟨j, by omega, hrecorded, fun m hm _ => hall m hm (hlaunched m hm)⟩

theorem not_stale_succ (h : k ∈ launched) : ¬ Stale segs launched (k + 1) := by
  rintro ⟨j, hj, _, hall⟩
  have hlt := hall k h (Nat.lt_succ_self k)
  omega

end Stale

namespace Treated

variable {os} {k : Nat} {v : List UInt8} {sh sh' : Wish W}

theorem file_of_ne (h : Treated os k v sh sh') {i : Nat} (hi : i ≠ sh.commands.length) :
    sh'.file_list i = sh.file_list i := by
  rw [h.file_list]
  cases recorded v with
  | none => rfl
  | some file => exact Function.update_of_ne hi _ _

theorem file_self (h : Treated os k v sh sh') :
    sh'.file_list sh.commands.length = (recorded v).or (sh.file_list sh.commands.length) := by
  rw [h.file_list]
  cases recorded v with
  | none => rfl
  | some file => exact Function.update_self ..

theorem label_of_label (h : Treated os k v sh sh') {i : Nat} (hi : sh.label_list i = true) :
    sh'.label_list i = true := by
  rw [h.label_list]
  split
  · by_cases heq : i = sh.commands.length
    · rw [heq, Function.update_self]
    · rw [Function.update_of_ne heq, hi]
  · exact hi

theorem label_self (h : Treated os k v sh sh') (h62 : 62 ∈ v) :
    sh'.label_list sh.commands.length = true := by
  rw [h.label_list, if_pos h62, Function.update_self]

end Treated

/-- The file that the slot of a launched segment `v` holds: its own, or one left behind. -/
def Owned (segs : List (List UInt8)) (launched : List Nat) (n : Nat) (v : List UInt8)
    (file : Option (List UInt8)) : Prop :=
  62 ∈ v ∧ (recorded v).isSome ∧ file = recorded v ∨
    62 ∉ v ∧ (file.isSome ↔ Stale segs launched n)

theorem owned_append {segs : List (List UInt8)} {launched : List Nat} {n k : Nat} (h : n ≤ k)
    {v : List UInt8} {file : Option (List UInt8)} :
    Owned segs (launched ++ [k]) n v file ↔ Owned segs launched n v file := by
  unfold Owned
  rw [stale_append h]

/-- The files that the segments name can be opened. -/
def Openable (segs : List (List UInt8)) : Prop :=
  ∀ u ∈ segs, ∀ file, recorded u = some file → ∀ w, (os.openFile w file).2 = true

/-- The files in the tables come from segments, and their slots are marked. -/
structure FromSegments (segs : List (List UInt8)) (sh : Wish W) : Prop where
  labelled : ∀ i, (sh.file_list i).isSome → sh.label_list i = true
  named : ∀ i file, sh.file_list i = some file → ∃ u ∈ segs, recorded u = some file

/-- Descriptor 1 after the first `k` segments of a line, which it began as `g`. -/
structure Stdout (segs : List (List UInt8)) (g : OpenFile) (k : Nat) (sh : Wish W) : Prop where
  opened : ∃ g', lookup sh.fds 1 = some g'
  kept : (∀ u ∈ segs.take k, leaks u = false) → lookup sh.fds 1 = some g
  leaked : Openable os segs → (∃ u ∈ segs.take k, leaks u = true) →
    ∃ file, lookup sh.fds 1 = some (.file file)

/-- **The shell after the first `k` segments of a line.** -/
structure Slots (segs : List (List UInt8)) (g : OpenFile) (k : Nat) (sh : Wish W) : Prop
    extends FromSegments segs sh, Stdout os segs g k sh where
  before : ∀ c ∈ sh.commands, c.segment < k
  free : ∀ i, sh.commands.length < i → sh.file_list i = none
  pending : (sh.file_list sh.commands.length).isSome ↔
    Stale segs (sh.commands.map Command.segment) k
  found : ∀ i c, sh.commands[i]? = some c → ∃ v, segs[c.segment]? = some v ∧
    Owned segs (sh.commands.map Command.segment) c.segment v (sh.file_list i)

/-- The tables are as at the start of a line. -/
structure Wish.Ready (sh : Wish W) (g : OpenFile) : Prop where
  commands : sh.commands = []
  label_list : sh.label_list = fun _ => false
  file_list : sh.file_list = fun _ => none
  stdout : lookup sh.fds 1 = some g

variable {os} {segs : List (List UInt8)} {g : OpenFile}

theorem Wish.Ready.slots {sh : Wish W} (h : sh.Ready g) : Slots os segs g 0 sh where
  before := by simp [h.commands]
  free := by simp [h.file_list]
  labelled := by simp [h.file_list]
  named := by simp [h.file_list]
  pending := by simp [h.file_list, Stale]
  found := by simp [h.commands]
  opened := ⟨g, h.stdout⟩
  kept _ := h.stdout
  leaked := by simp

theorem FromSegments.step {k : Nat} {v : List UInt8} (hv : v ∈ segs) {sh sh' : Wish W}
    (h : FromSegments segs sh) (ht : Treated os k v sh sh') : FromSegments segs sh' := by
  have hself := ht.file_self
  constructor
  · intro i hi
    by_cases heq : i = sh.commands.length
    · subst heq
      cases hrecorded : recorded v with
      | some file => exact ht.label_self (mem_of_recorded hrecorded)
      | none =>
        rw [hself, hrecorded, Option.none_or] at hi
        exact ht.label_of_label (h.labelled _ hi)
    · rw [ht.file_of_ne heq] at hi
      exact ht.label_of_label (h.labelled i hi)
  · intro i file hi
    by_cases heq : i = sh.commands.length
    · subst heq
      rw [hself] at hi
      cases hrecorded : recorded v with
      | some _ =>
        rw [hrecorded, Option.some_or] at hi
        exact ⟨v, hv, hrecorded.trans hi⟩
      | none =>
        rw [hrecorded, Option.none_or] at hi
        exact h.named _ file hi
    · rw [ht.file_of_ne heq] at hi
      exact h.named i file hi

theorem Stdout.step {k : Nat} {v : List UInt8} (hv : segs[k]? = some v) {sh sh' : Wish W}
    (h : Stdout os segs g k sh) (ht : Treated os k v sh sh') : Stdout os segs g (k + 1) sh' := by
  have htake : segs.take (k + 1) = segs.take k ++ [v] := by
    rw [List.take_add_one, hv]
    rfl
  cases hlv : leaks v with
  | false =>
    have hfd := ht.kept hlv
    refine ⟨?_, fun hleaks => ?_, fun hopen => ?_⟩ <;> rw [hfd]
    · exact h.opened
    · rw [htake] at hleaks
      exact h.kept fun u hu => hleaks u (List.mem_append_left _ hu)
    · rintro ⟨u, hu, hleak⟩
      rw [htake] at hu
      rcases List.mem_append.mp hu with hu | hu
      · exact h.leaked hopen ⟨u, hu, hleak⟩
      · rw [List.mem_singleton.mp hu, hlv] at hleak
        cases hleak
  | true =>
    obtain ⟨file, hrecorded, hfd⟩ := ht.leaked hlv
    refine ⟨?_, ?_, ?_⟩
    · rcases hfd with hfd | ⟨hfd, _⟩
      · exact ⟨_, hfd⟩
      · rw [hfd]
        exact h.opened
    · intro hleaks
      have hfalse := hleaks v (by simp [htake])
      rw [hlv] at hfalse
      cases hfalse
    · intro hopen _
      rcases hfd with hfd | ⟨_, w, hw⟩
      · exact ⟨file, hfd⟩
      · rw [hopen v (List.mem_of_getElem? hv) file hrecorded w] at hw
        cases hw

/-- A segment that is not launched. -/
theorem Slots.step_of_eq {k : Nat} {v : List UInt8} (hv : segs[k]? = some v) {sh sh' : Wish W}
    (h : Slots os segs g k sh) (ht : Treated os k v sh sh') (hsame : sh'.commands = sh.commands) :
    Slots os segs g (k + 1) sh' := by
  refine ⟨h.toFromSegments.step (List.mem_of_getElem? hv) ht, h.toStdout.step hv ht, ?_, ?_, ?_, ?_⟩
  · intro c hc
    rw [hsame] at hc
    exact Nat.lt_succ_of_lt (h.before c hc)
  · intro i hi
    rw [hsame] at hi
    rw [ht.file_of_ne (Nat.ne_of_gt hi)]
    exact h.free i hi
  · have hbefore : ∀ m ∈ sh.commands.map Command.segment, m < k := by
      simpa using h.before
    rw [hsame, stale_succ hv hbefore, ht.file_self, ← h.pending]
    simp
  · intro i c hi
    rw [hsame] at hi ⊢
    have hlt := (List.getElem?_eq_some_iff.mp hi).1
    rw [ht.file_of_ne (Nat.ne_of_lt hlt)]
    exact h.found i c hi

/-- What the slot of a segment holds when its command is found. -/
theorem Slots.owned {k : Nat} {v : List UInt8} {sh sh' : Wish W} (h : Slots os segs g k sh)
    (ht : Treated os k v sh sh') (hredirected : 62 ∈ v → (recorded v).isSome) :
    Owned segs (sh.commands.map Command.segment) k v (sh'.file_list sh.commands.length) := by
  rw [ht.file_self]
  by_cases h62 : 62 ∈ v
  · obtain ⟨file, hfile⟩ := Option.isSome_iff_exists.mp (hredirected h62)
    exact Or.inl ⟨h62, by simp [hfile], by simp [hfile]⟩
  · rw [recorded_of_not_mem h62, Option.none_or]
    exact Or.inr ⟨h62, h.pending⟩

/-- A segment whose command is found. -/
theorem Slots.step_of_append {k : Nat} {v : List UInt8} (hv : segs[k]? = some v)
    {sh sh' : Wish W} (h : Slots os segs g k sh) (ht : Treated os k v sh sh')
    (hredirected : 62 ∈ v → (recorded v).isSome) {c : Command} (hc : c.segment = k)
    (happend : sh'.commands = sh.commands ++ [c]) : Slots os segs g (k + 1) sh' := by
  have hmap : sh'.commands.map Command.segment = sh.commands.map Command.segment ++ [k] := by
    rw [happend, List.map_append, List.map_singleton, hc]
  have hlen : sh'.commands.length = sh.commands.length + 1 := by
    rw [happend, List.length_append, List.length_singleton]
  refine ⟨h.toFromSegments.step (List.mem_of_getElem? hv) ht, h.toStdout.step hv ht, ?_, ?_, ?_, ?_⟩
  · intro d hd
    rw [happend] at hd
    rcases List.mem_append.mp hd with hd | hd
    · exact Nat.lt_succ_of_lt (h.before d hd)
    · rw [List.mem_singleton.mp hd, hc]
      exact Nat.lt_succ_self k
  · intro i hi
    rw [hlen] at hi
    rw [ht.file_of_ne (by omega)]
    exact h.free i (by omega)
  · rw [hmap, hlen, ht.file_of_ne (Nat.succ_ne_self _), h.free _ (Nat.lt_succ_self _)]
    simpa using not_stale_succ (List.mem_append_right _ (List.mem_singleton_self k))
  · intro i d hi
    rw [hmap]
    rw [happend] at hi
    rcases Nat.lt_or_ge i sh.commands.length with hlt | hge
    · rw [List.getElem?_append_left hlt] at hi
      have hd := h.before d (List.mem_of_getElem? hi)
      obtain ⟨u, hu, howned⟩ := h.found i d hi
      rw [ht.file_of_ne (Nat.ne_of_lt hlt)]
      exact ⟨u, hu, (owned_append (Nat.le_of_lt hd)).mpr howned⟩
    · rw [List.getElem?_append_right hge, List.getElem?_singleton] at hi
      split at hi
      · obtain rfl := Option.some.inj hi
        obtain rfl : i = sh.commands.length := by omega
        rw [hc, hv]
        exact ⟨v, rfl, (owned_append (le_refl k)).mpr (h.owned ht hredirected)⟩
      · cases hi

/-- **A segment keeps the tables as they should be.** -/
theorem Slots.step {k : Nat} {v : List UInt8} (hv : segs[k]? = some v) {sh sh' : Wish W}
    (h : Slots os segs g k sh) (ht : Treated os k v sh sh') : Slots os segs g (k + 1) sh' := by
  rcases ht.commands with hsame | ⟨hredirected, c, hc, happend⟩
  · exact h.step_of_eq hv ht hsame
  · exact h.step_of_append hv ht hredirected hc happend

/-- All segments of a line, from segment `k` on. -/
theorem Slots.run (h10 : ∀ u ∈ segs, 10 ∉ u) {k : Nat} {vs : List (List UInt8)}
    (hvs : segs.drop k = vs) {sh sh' : Wish W} (h : Slots os segs g k sh)
    (hrun : writtenSegments os k vs sh = .ok sh') :
    Slots os segs g (k + vs.length) sh' := by
  induction vs generalizing k sh with
  | nil =>
    cases hrun
    exact h
  | cons v vs ih =>
    obtain ⟨sh₁, hseg, hrest⟩ := of_bind_eq_ok hrun
    have hv : segs[k]? = some v := by
      rw [← List.head?_drop, hvs]
      rfl
    have htail : segs.drop (k + 1) = vs := by
      rw [← List.tail_drop, hvs]
      rfl
    obtain ⟨g', hg'⟩ := h.opened
    have hmem := h10 v (List.mem_of_getElem? hv)
    have hstep := h.step hv (writtenSegment_treated os hmem hg' hseg)
    rw [List.length_cons, Nat.add_comm vs.length, ← Nat.add_assoc]
    exact ih htail hstep hrest

end OstepProjects.Shell
