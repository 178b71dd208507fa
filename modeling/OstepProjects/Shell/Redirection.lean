/-
  OstepProjects/Shell/Redirection.lean
  ====================================
  **Where the programs of a line write.**

  A command without `>` meets the file that a segment in front of it has left in its
  slot, and every command meets the descriptor that a refused `exit` has left behind.
  A line redirects its commands one by one exactly when neither happens
  (`stdout_iff`), in every session, as long as the strings of the line itself end where
  they should: what is left in memory behind them can be anything else.  Which segments
  are launched is said on the line and the state in front of it (`launchedSegments`).
-/
import OstepProjects.Shell.Slots

namespace OstepProjects.Shell

open OstepProjects.Bytes OstepProjects.Descriptors OstepProjects.Words

variable {W : Type} {os : Os W} {segs : List (List UInt8)} {g : OpenFile}

/-! ### The children -/

theorem child_segment {w : W} {sh : Wish W} {i : Nat} {c : Command} {made : Child}
    (h : child os w sh i c = .ok made) : made.segment = c.segment := by
  rw [child] at h
  split at h
  · cases h
    rfl
  · cases h

/-- A child writes to the file of its slot, if there is one. -/
theorem child_stdout {w : W} {sh : Wish W} {i : Nat} {c : Command} {made : Child}
    (hlabel : (sh.file_list i).isSome → sh.label_list i = true)
    (hopen : ∀ file, sh.file_list i = some file → (os.openFile w file).2 = true)
    {g' : OpenFile} (hfd : lookup sh.fds 1 = some g') (h : child os w sh i c = .ok made) :
    made.stdout = some (((sh.file_list i).map OpenFile.file).getD g') := by
  rw [child] at h
  split at h
  · cases h
    cases hfile : sh.file_list i with
    | none =>
      simp only [Option.map_none, Option.getD_none]
      split
      · exact lookup_redirect hfd none
      · exact hfd
    | some file =>
      have hlabelled : sh.label_list i = true := hlabel (by simp [hfile])
      simp only [hlabelled, if_true, Option.bind_eq_bind, Option.bind_some, hopen file hfile]
      exact lookup_redirect hfd _
  · cases h

/-- Child `n` is the child of command `n`. -/
theorem launch_children {after : Nat → W} {sh : Wish W} {i : Nat} {commands : List Command}
    {children : List Child} (h : launch os after sh i commands = .ok children) :
    children.map Child.segment = commands.map Command.segment ∧
    ∀ made ∈ children, ∃ n c, commands[n]? = some c ∧
      child os (after (i + n)) sh (i + n) c = .ok made := by
  induction commands generalizing i children with
  | nil =>
    cases h
    exact ⟨rfl, by simp⟩
  | cons c commands ih =>
    obtain ⟨first, hfirst, h⟩ := of_bind_eq_ok h
    obtain ⟨others, hothers, h⟩ := of_bind_eq_ok h
    cases h
    obtain ⟨hmap, hall⟩ := ih hothers
    refine ⟨by rw [List.map_cons, List.map_cons, hmap, child_segment hfirst], ?_⟩
    intro made hmade
    rcases List.mem_cons.mp hmade with rfl | hmade
    · exact ⟨0, c, rfl, hfirst⟩
    · obtain ⟨n, d, hd, hchild⟩ := hall made hmade
      refine ⟨n + 1, d, hd, ?_⟩
      rw [← Nat.add_assoc, Nat.add_right_comm]
      exact hchild

/-! ### Which segments are launched -/

variable (os) in
/-- The segments from `k` on that are launched: those that would be if they were alone on
    their line, in the world and with the search path that the ones in front leave. -/
def launchedSegments : Nat → List (List UInt8) → W → List (List UInt8) → List Nat
  | _, [], _, _ => []
  | k, v :: vs, world, command_path =>
    match writtenSegment os k v { start world with command_path } with
    | .error _ => []
    | .ok alone =>
      alone.commands.map Command.segment ++
        launchedSegments (k + 1) vs alone.world alone.command_path

/-- `t'` comes from `t`, which has found no command yet, as `sh'` comes from `sh`. -/
structure Alike (sh sh' t' : Wish W) : Prop where
  world : t'.world = sh'.world
  command_path : t'.command_path = sh'.command_path
  commands : sh'.commands = sh.commands ++ t'.commands

theorem command_alike {k : Nat} {temp : List UInt8} {sh sh' t : Wish W} {leave : Bool}
    (h : command os k temp sh = .ok (leave, sh')) (hworld : t.world = sh.world)
    (hpath : t.command_path = sh.command_path) (hempty : t.commands = []) :
    ∃ t', command os k temp t = .ok (leave, t') ∧ Alike sh sh' t' := by
  obtain ⟨e, rfl, _, _, hall⟩ := command_effect os h
  refine ⟨e.apply t, hall t hworld hpath (by simp [hempty]), rfl, rfl, ?_⟩
  simp [Effect.apply, hempty]

theorem redirected_alike {k : Nat} {front file : List UInt8} {sh sh' t : Wish W}
    (h : redirected os k front file sh = .ok sh') (hworld : t.world = sh.world)
    (hpath : t.command_path = sh.command_path) (hempty : t.commands = []) :
    ∃ t', redirected os k front file t = .ok t' ∧ Alike sh sh' t' := by
  have hnone : sh.commands = sh.commands ++ t.commands := by rw [hempty, List.append_nil]
  rw [redirected] at h ⊢
  split at h
  next hspace =>
    rw [if_pos hspace]
    cases h
    exact ⟨_, rfl, hworld, hpath, hnone⟩
  next hspace =>
    rw [if_neg hspace]
    simp only at h ⊢
    obtain ⟨⟨leave, sh₁⟩, hrun, h⟩ := of_bind_eq_ok h
    have hopened : (os.openFile t.world file).1 = (os.openFile sh.world file).1 := by rw [hworld]
    obtain ⟨t₁, hrun', hworld₁, hpath₁, hcommands₁⟩ := command_alike (t := { t.label.file file with
      world := (os.openFile t.world file).1
      fds := (redirect t.fds 1
        (if (os.openFile t.world file).2 then some (.file file) else none)).1 })
      hrun hopened hpath hempty
    rw [hrun', ok_bind]
    cases h
    refine ⟨_, rfl, ?_⟩
    cases leave with
    | true => exact ⟨hworld₁, hpath₁, hcommands₁⟩
    | false => exact ⟨hworld₁, hpath₁, hcommands₁⟩

theorem writtenSegment_alike {k : Nat} {v : List UInt8} {sh sh' t : Wish W}
    (h : writtenSegment os k v sh = .ok sh') (hworld : t.world = sh.world)
    (hpath : t.command_path = sh.command_path) (hempty : t.commands = []) :
    ∃ t', writtenSegment os k v t = .ok t' ∧ Alike sh sh' t' := by
  have hroom : t.commands.length < 100 := by simp [hempty]
  have hnone : sh.commands = sh.commands ++ t.commands := by rw [hempty, List.append_nil]
  rcases writtenSegment_cases os k v with ⟨_, run⟩ | ⟨_, temp, run⟩ | ⟨_, _, lone, run⟩ |
    ⟨front, _, file, _, _, _, _, _, _, run⟩ <;> rw [run] at h ⊢
  · cases h
    exact ⟨t, rfl, hworld, hpath, hnone⟩
  · obtain ⟨⟨leave, sh₁⟩, hrun, h⟩ := of_bind_eq_ok h
    cases h
    obtain ⟨t', hrun', halike⟩ := command_alike hrun hworld hpath hempty
    exact ⟨t', by rw [hrun', ok_bind], halike⟩
  · rw [if_pos hroom]
    split at h
    · cases h
      refine ⟨_, rfl, ?_⟩
      cases lone with
      | true => exact ⟨hworld, hpath, hnone⟩
      | false => exact ⟨hworld, hpath, hnone⟩
    · cases h
  · rw [if_pos hroom]
    split at h
    · exact redirected_alike h hworld hpath hempty
    · cases h

theorem launched_eq {k : Nat} {vs : List (List UInt8)} {sh sh' : Wish W}
    (h : writtenSegments os k vs sh = .ok sh') :
    sh'.commands.map Command.segment =
      sh.commands.map Command.segment ++ launchedSegments os k vs sh.world sh.command_path := by
  induction vs generalizing k sh with
  | nil =>
    cases h
    simp [launchedSegments]
  | cons v vs ih =>
    obtain ⟨sh₁, hseg, hrest⟩ := of_bind_eq_ok h
    obtain ⟨t', halone, hworld, hpath, hcommands⟩ :=
      writtenSegment_alike (t := { start sh.world with command_path := sh.command_path })
        hseg rfl rfl rfl
    rw [ih hrest, launchedSegments, halone, hcommands, ← hworld, ← hpath, List.map_append,
      List.append_assoc]

/-! ### Lines -/

/-- The states between the lines of a session that begins in world `w`, whatever the lines
    are and whatever is left in memory behind their strings. -/
inductive Session (os : Os W) (w : W) : Wish W → Prop
  | start : Session os w (start w)
  | line {sh sh' : Wish W} {mem : Memory} {after : Nat → W} {str : List UInt8}
      {children : List Child} :
      Session os w sh → line os mem after str sh = .ok (sh', children) → Session os w sh'

/-- A line comes down to its slots. -/
theorem line_slots {mem : Memory} (hmem : mem.Zeroed) {after : Nat → W} {text : List UInt8}
    (h10 : 10 ∉ text) (h0 : 0 ∉ text) {sh sh' : Wish W} (hready : sh.Ready g)
    {children : List Child} (h : line os mem after (text ++ [10]) sh = .ok (sh', children)) :
    ∃ sh₁, Slots os (text.splitOn 38) g (text.splitOn 38).length sh₁ ∧
      launch os after sh₁ 0 sh₁.commands = .ok children ∧
      sh₁.commands.map Command.segment =
        launchedSegments os 0 (text.splitOn 38) sh.world sh.command_path ∧
      sh' = { sh₁ with
        commands := []
        label_list := fun _ => false
        file_list := fun _ => none } := by
  rw [line_eq os hmem h10 h0] at h
  obtain ⟨sh₁, hrun, h⟩ := of_bind_eq_ok h
  obtain ⟨_, hlaunch, h⟩ := of_bind_eq_ok h
  cases h
  have hsegs : ∀ u ∈ text.splitOn 38, 10 ∉ u := by
    intro u hu hc
    exact h10 (mem_of_mem_piece hu hc)
  have hslots := hready.slots.run hsegs rfl hrun
  rw [Nat.zero_add] at hslots
  have hlaunched := launched_eq hrun
  rw [hready.commands, List.map_nil, List.nil_append] at hlaunched
  exact ⟨sh₁, hslots, hlaunch, hlaunched, rfl⟩

section AnyMemory

variable {mem : Memory} {k : Nat} {sh sh' : Wish W}

theorem runCommand_fds {l : Locals} {leave : Bool}
    (h : runCommand os k l sh = .ok (leave, sh')) : sh'.fds = sh.fds := by
  rw [runCommand] at h
  split at h
  · exact (command_frame os h).1
  · cases h
    rfl

/-- Descriptor 1 of the shell is moved and given back, or lost to a file: it stays open. -/
theorem piece_stdout {redi_char : List UInt8} {l l' : Locals} {leave : Bool}
    (hfd : (lookup sh.fds 1).isSome) (h : piece os mem k redi_char l sh = .ok (leave, l', sh')) :
    (lookup sh'.fds 1).isSome := by
  obtain ⟨g, hg⟩ := Option.isSome_iff_exists.mp hfd
  simp only [piece] at h
  split at h
  · -- the command in front
    obtain ⟨⟨left, sh₁⟩, hrun, h⟩ := of_bind_eq_ok h
    rw [← runCommand_fds hrun] at hfd
    cases left with
    | true =>
      cases h
      exact hfd
    | false =>
      cases h
      exact hfd
  · -- a file behind it
    split at h
    · cases h
      split
      · exact hfd
      · exact hfd
    · generalize hnamed : (if sh.label_list sh.commands.length = true then _ else sh) = named at h
      have hsame : named.fds = sh.fds := by
        rw [← hnamed]
        split <;> rfl
      rw [hsame] at h
      obtain ⟨⟨left, sh₁⟩, hrun, h⟩ := of_bind_eq_ok h
      have hfds := runCommand_fds hrun
      cases left with
      | true =>
        cases h
        rw [hfds, lookup_redirect hg]
        rfl
      | false =>
        cases h
        rw [hfds, lookup_restore hg]
        rfl

theorem pieces_stdout {fields : List (List UInt8)} {l l' : Locals}
    (hfd : (lookup sh.fds 1).isSome) (h : pieces os mem k fields l sh = .ok (l', sh')) :
    (lookup sh'.fds 1).isSome := by
  induction fields generalizing l sh with
  | nil =>
    cases h
    exact hfd
  | cons redi_char rest ih =>
    rw [pieces] at h
    split at h
    · cases h
      exact hfd
    · split at h
      · exact ih hfd h
      · obtain ⟨⟨leave, l₁, sh₁⟩, hpiece, h⟩ := of_bind_eq_ok h
        have hkept := piece_stdout hfd hpiece
        cases leave with
        | true =>
          cases h
          exact hkept
        | false => exact ih hkept h

theorem segment_stdout {part : List UInt8} (hfd : (lookup sh.fds 1).isSome)
    (h : segment os mem k part sh = .ok sh') : (lookup sh'.fds 1).isSome := by
  simp only [segment] at h
  split at h
  · cases h
    exact hfd
  · split at h
    · cases h
    · obtain ⟨⟨l, sh₁⟩, hpieces, h⟩ := of_bind_eq_ok h
      have hkept : (lookup sh₁.fds 1).isSome := by
        refine pieces_stdout ?_ hpieces
        split
        · exact hfd
        · exact hfd
      cases h
      split
      · exact hkept
      · exact hkept

theorem segments_stdout {parts : List (List UInt8)} (hfd : (lookup sh.fds 1).isSome)
    (h : segments os mem k parts sh = .ok sh') : (lookup sh'.fds 1).isSome := by
  induction parts generalizing k sh with
  | nil =>
    cases h
    exact hfd
  | cons part parts ih =>
    obtain ⟨sh₁, hsegment, hrest⟩ := of_bind_eq_ok h
    exact ih (segment_stdout hfd hsegment) hrest

/-- **Between two lines** the tables are empty and descriptor 1 is open. -/
theorem line_ready {after : Nat → W} {str : List UInt8} {children : List Child}
    (hready : sh.Ready g) (h : line os mem after str sh = .ok (sh', children)) :
    ∃ g', sh'.Ready g' := by
  obtain ⟨sh₀, hfirst, h⟩ := of_bind_eq_ok h
  obtain ⟨sh₁, hrun, h⟩ := of_bind_eq_ok h
  obtain ⟨_, _, h⟩ := of_bind_eq_ok h
  have hfd : (lookup sh.fds 1).isSome := Option.isSome_iff_exists.mpr ⟨g, hready.stdout⟩
  obtain ⟨g', hg'⟩ :=
    Option.isSome_iff_exists.mp (segments_stdout (segment_stdout hfd hfirst) hrun)
  cases h
  exact ⟨g', rfl, rfl, rfl, hg'⟩

end AnyMemory

theorem Session.ready {w : W} {sh : Wish W} (h : Session os w sh) : ∃ g, sh.Ready g := by
  induction h with
  | start => exact ⟨.inherited 1, rfl, rfl, rfl, rfl⟩
  | line _ hline ih =>
    obtain ⟨g, hready⟩ := ih
    exact line_ready hready hline

/-! ### The files that are asked for -/

/-- The file of a segment: the one word behind the only `>`. -/
def target (v : List UInt8) : Option (List UInt8) :=
  match (v.splitOn 62).map (Words.words 32) with
  | [_, [file]] => some file
  | _ => none

/-- A file of one word is recorded as it is. -/
theorem recorded_of_target {v file : List UInt8} (h : target v = some file)
    (hrecorded : (recorded v).isSome) : recorded v = some file := by
  unfold target at h
  unfold recorded at hrecorded ⊢
  split at h
  next front w hmap =>
    cases h
    obtain ⟨u, _, hu⟩ : ∃ u ∈ v.splitOn 62, Words.words 32 u = [file] := by
      rw [← List.mem_map, hmap]
      simp
    have hword : IsWord 32 file := isWord_of_mem_words (s := u) (by simp [hu])
    rw [hmap] at hrecorded ⊢
    cases front with
    | nil => simp at hrecorded
    | cons token args =>
      simp only
      rw [operand_singleton hword]
  next => cases h

theorem target_eq_none {v : List UInt8} (h : 62 ∉ v) : target v = none := by
  simp [target, List.splitOn_eq_singleton h]

/-- The standard output of a child is what its own segment asks for. -/
def Child.Obeys (segs : List (List UInt8)) (c : Child) : Prop :=
  ∃ v, segs[c.segment]? = some v ∧ c.stdout = some ((target v).elim (.inherited 1) .file)

/-- What segment `n` needs: a file of its own, or that no `>` elsewhere has left anything. -/
def Undisturbed (segs : List (List UInt8)) (launched : List Nat) (stdout : Option OpenFile)
    (n : Nat) : Prop :=
  ∃ v, segs[n]? = some v ∧ ((target v).isSome ∨
    62 ∉ v ∧ stdout = some (.inherited 1) ∧ (∀ u ∈ segs, leaks u = false) ∧
      ¬ Stale segs launched n)

/-- Descriptor 1 behind the line is what it was at first, unless a segment leaks. -/
theorem Slots.inherited_iff {sh : Wish W} (h : Slots os segs g segs.length sh)
    (hopen : Openable os segs) {g' : OpenFile} (hg' : lookup sh.fds 1 = some g') :
    g' = .inherited 1 ↔ some g = some (.inherited 1) ∧ ∀ u ∈ segs, leaks u = false := by
  have hkept := h.kept
  have hleaked := h.leaked hopen
  rw [List.take_length] at hkept hleaked
  by_cases hleaks : ∀ u ∈ segs, leaks u = false
  · rw [hkept hleaks] at hg'
    rw [hg', Option.some.injEq]
    exact ⟨fun hg => ⟨hg, hleaks⟩, fun hg => hg.1⟩
  · constructor
    · rintro rfl
      push Not at hleaks
      obtain ⟨u, hu, hleak⟩ := hleaks
      obtain ⟨file, hfile⟩ := hleaked ⟨u, hu, by simpa using hleak⟩
      rw [hg'] at hfile
      cases hfile
    · rintro ⟨_, hall⟩
      exact absurd hall hleaks

/-- A child writes where its segment says if its slot holds no file of another one. -/
theorem obeys_iff {sh : Wish W} (h : Slots os segs g segs.length sh) (hopen : Openable os segs)
    {w : W} {n : Nat} {c : Command} (hc : sh.commands[n]? = some c) {made : Child}
    (hmade : child os w sh n c = .ok made) :
    made.Obeys segs ↔
      Undisturbed segs (sh.commands.map Command.segment) (some g) made.segment := by
  obtain ⟨v, hv, howned⟩ := h.found n c hc
  obtain ⟨g', hg'⟩ := h.opened
  have hfiles : ∀ file, sh.file_list n = some file → (os.openFile w file).2 = true := by
    intro file hfile
    obtain ⟨u, hu, hrecorded⟩ := h.named n file hfile
    exact hopen u hu file hrecorded w
  have hstdout := child_stdout (h.labelled n) hfiles hg' hmade
  have hsegment := child_segment hmade
  unfold Child.Obeys Undisturbed
  rw [hsegment, hv, hstdout]
  simp only [Option.some.injEq, exists_eq_left']
  rcases howned with ⟨h62, hrecorded, hfile⟩ | ⟨h62, hstale⟩
  · cases htarget : target v with
    | some file =>
      rw [hfile, recorded_of_target htarget hrecorded]
      simp
    | none =>
      obtain ⟨file, hsome⟩ := Option.isSome_iff_exists.mp hrecorded
      rw [hfile, hsome]
      simp [h62]
  · have hinherited := h.inherited_iff hopen hg'
    rw [Option.some.injEq] at hinherited
    rw [target_eq_none h62, ← and_assoc (a := g = _), ← hinherited, ← hstale]
    cases sh.file_list n <;> simp [h62]

/-- **Where the commands of a line write.**  Every command of a line whose strings end where
    they should, in any session, writes where its own segment says if and only if each of
    them has one file of its own, or has no `>` while descriptor 1 is the one the shell was
    started with, no segment is a refused `exit` with a file, and no segment since the
    command before has left a file. -/
theorem stdout_iff (os : Os W) {w : W} {sh : Wish W} (hsession : Session os w sh)
    {mem : Memory} (hmem : mem.Zeroed) {text : List UInt8} (h10 : 10 ∉ text) (h0 : 0 ∉ text)
    (hopen : Openable os (text.splitOn 38)) {after : Nat → W} {sh' : Wish W}
    {children : List Child}
    (hline : line os mem after (text ++ [10]) sh = .ok (sh', children)) :
    (∀ c ∈ children, c.Obeys (text.splitOn 38)) ↔
    ∀ n ∈ launchedSegments os 0 (text.splitOn 38) sh.world sh.command_path,
      Undisturbed (text.splitOn 38)
        (launchedSegments os 0 (text.splitOn 38) sh.world sh.command_path) (lookup sh.fds 1) n := by
  obtain ⟨g, hready⟩ := hsession.ready
  obtain ⟨sh₁, hslots, hlaunch, hlaunched, _⟩ := line_slots hmem h10 h0 hready hline
  obtain ⟨hmap, hall⟩ := launch_children hlaunch
  rw [← hlaunched, hready.stdout, ← hmap, List.forall_mem_map]
  apply forall₂_congr
  intro made hmade
  obtain ⟨n, c, hc, hchild⟩ := hall made hmade
  rw [Nat.zero_add] at hchild
  rw [hmap]
  exact obeys_iff hslots hopen hc hchild

theorem of_toOption_map {α β : Type} {x : Except Stop (α × β)} {b : β}
    (h : x.toOption.map Prod.snd = some b) : ∃ a, x = .ok (a, b) := by
  cases x with
  | error e => cases h
  | ok r =>
    obtain ⟨a, b'⟩ := r
    cases h
    exact ⟨a, rfl⟩

theorem stdout_ls_echo :
    ∃ sh' children,
      line disk Memory.fresh (fun _ => bin) (ascii "ls>out & nosuch & echo hi" ++ [10])
        (start bin) = .ok (sh', children) ∧
      children.map Child.segment = [0, 2] ∧
      ∀ c ∈ children, c.Obeys ((ascii "ls>out & nosuch & echo hi").splitOn 38) := by
  have hrun : (line disk Memory.fresh (fun _ => bin) (ascii "ls>out & nosuch & echo hi" ++ [10])
      (start bin)).toOption.map Prod.snd =
      some [⟨ascii "/bin/ls", [ascii "ls"], some (.file (ascii "out")), 0⟩,
        ⟨ascii "/bin/echo", [ascii "echo", ascii "hi"], some (.inherited 1), 2⟩] := by
    decide +kernel
  obtain ⟨sh', hline⟩ := of_toOption_map hrun
  refine ⟨sh', _, hline, rfl, ?_⟩
  have hopen : Openable disk ((ascii "ls>out & nosuch & echo hi").splitOn 38) := by
    have hnames : ∀ u ∈ (ascii "ls>out & nosuch & echo hi").splitOn 38,
        recorded u = none ∨ recorded u = some (ascii "out") := by
      decide
    intro u hu file hfile w
    rcases hnames u hu with hnone | hout
    · rw [hnone] at hfile
      cases hfile
    · rw [hout] at hfile
      cases hfile
      rfl
  apply (stdout_iff disk .start Memory.zeroed_fresh (by decide) (by decide) hopen hline).mpr
  rw [show launchedSegments disk 0 _ _ _ = [0, 2] by decide +kernel]
  intro n hn
  rcases List.mem_pair.mp hn with rfl | rfl
  · exact ⟨ascii "ls>out ", by decide, Or.inl (by decide)⟩
  · exact ⟨ascii " echo hi", by decide, Or.inr ⟨by decide, rfl, by decide, by decide⟩⟩

/-- A refused `exit` takes the output of the whole line along. -/
example : (line disk Memory.fresh (fun _ => bin) (ascii "ls & exit now > foo" ++ [10])
    (start bin)).toOption.map (fun r => r.2.map Child.stdout) =
      some [some (.file (ascii "foo"))] := by
  decide +kernel

/-- **A command that does not exist passes its file on to the next one.** -/
theorem stdout_after_nosuch :
    ∃ sh' children,
      line disk Memory.fresh (fun _ => bin) (ascii "nosuch > foo & ls" ++ [10]) (start bin) =
        .ok (sh', children) ∧
      children.map Child.stdout = [some (.file (ascii "foo"))] ∧
      ¬ ∀ c ∈ children, c.Obeys ((ascii "nosuch > foo & ls").splitOn 38) := by
  have hrun : (line disk Memory.fresh (fun _ => bin) (ascii "nosuch > foo & ls" ++ [10])
      (start bin)).toOption.map Prod.snd =
      some [⟨ascii "/bin/ls", [ascii "ls"], some (.file (ascii "foo")), 1⟩] := by
    decide +kernel
  obtain ⟨sh', hline⟩ := of_toOption_map hrun
  refine ⟨sh', _, hline, rfl, ?_⟩
  intro hall
  obtain ⟨v, hv, hstdout⟩ := hall _ (List.mem_singleton_self _)
  have hseg : ((ascii "nosuch > foo & ls").splitOn 38)[1]? = some (ascii " ls") := by decide
  rw [hseg] at hv
  obtain rfl := Option.some.inj hv
  exact absurd hstdout (by decide)

end OstepProjects.Shell
