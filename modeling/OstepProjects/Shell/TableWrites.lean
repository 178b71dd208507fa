/-
  OstepProjects/Shell/TableWrites.lean
  ====================================
  **The writes of `wish3.c` to its tables of fixed size.**

  The model of the shell keeps lists and stops where they outgrow their tables.  Here the
  loops give the writes themselves, each with its table and its index, in the order of the
  source (`lineEvents`, `sessionEvents`).  A trace ends behind a loop that has left its
  table, since nothing is known of the program then.

  The traces are the model's: a session whose writes are all inside their tables is
  never stopped by an overrun (`session_keeps`).
-/
import OstepProjects.Shell.Acceptance
import OstepProjects.Shell.SearchPath

namespace OstepProjects.Shell

open OstepProjects.Bytes OstepProjects.Descriptors OstepProjects.Words

variable {W : Type}

/-! ### Tables and events -/

inductive TableName
  | parameter
  | command_path
  | final_command
  | final_command_list
  | parameter_list
  | label_list
  | file_list
deriving DecidableEq

def TableName.slots : TableName → Nat
  | .parameter => MAX_PARAMETER
  | .command_path => MAX_COMMAND
  | .final_command => 200
  | .final_command_list | .parameter_list | .label_list | .file_list => 100

/-- The slots of `parameter` when the arguments are stored, from slot `para_num` on. -/
def storeParameters : Nat → List (List UInt8) → List (Option (List UInt8)) →
    List (Option (List UInt8))
  | _, [], parameter => parameter
  | para_num, real_para :: rest, parameter =>
    storeParameters (para_num + 1) rest (parameter.set para_num (some real_para))

/-- A store to a slot of a table, or the vector that `exec_zx` returns. -/
inductive Event
  | store (table : TableName) (index : Nat)
  | vector (parameter : List (List UInt8))
deriving DecidableEq

/-- A store is inside its table; behind the last used slot of a vector is a NULL slot. -/
def Event.InTable : Event → Prop
  | .store table index => index < table.slots
  | .vector parameter =>
    (storeParameters 0 parameter (List.replicate MAX_PARAMETER none))[parameter.length]? = some none

instance : ∀ e : Event, Decidable e.InTable
  | .store table index => inferInstanceAs (Decidable (index < table.slots))
  | .vector parameter => inferInstanceAs (Decidable
      ((storeParameters 0 parameter (List.replicate MAX_PARAMETER none))[parameter.length]? =
        some none))

/-- All writes of a trace are inside their tables. -/
def AllInTable (es : List Event) : Prop := ∀ e ∈ es, e.InTable

instance (es : List Event) : Decidable (AllInTable es) :=
  inferInstanceAs (Decidable (∀ e ∈ es, e.InTable))

/-- Stores to `n` slots in turn. -/
def stores (table : TableName) (first n : Nat) : List Event :=
  (List.range' first n).map (Event.store table)

/-- The events behind a step, if it does not stop. -/
def behind {α : Type} (x : Except Stop α) (es : α → List Event) : List Event :=
  match x with
  | .error _ => []
  | .ok a => es a

/-! ### The events of the loops -/

/-- `path_zx` clears the table and stores the fields of `token`, without a look at
    `max_command`. -/
def pathEvents (token : List UInt8) : List Event :=
  stores .command_path 0 MAX_COMMAND ++
    if token = [] then [] else stores .command_path 0 (token.splitOn 32).length

variable (os : Os W) (mem : Memory)

/-- The search of `exec_zx`: `strcpy` and `strcat` with their terminators, and `memset`. -/
def findEvents (w : W) (command : List UInt8) : List (List UInt8) → List Event
  | [] => []
  | dir :: command_path =>
    stores .final_command 0 (dir.length + 1) ++
      stores .final_command dir.length (command.length + 1) ++
      if (dir ++ command).length < 200 ∧ ¬ os.access w (dir ++ command) = true then
        stores .final_command 0 200 ++ findEvents w command command_path
      else []

def execEvents (w : W) (command para : List UInt8) (command_path : List (List UInt8)) :
    List Event :=
  let parameter := command :: if para = [] then [] else para.splitOn 32
  stores .parameter 0 MAX_PARAMETER ++ findEvents os w command command_path ++
    behind (findCommand os w command command_path) fun _ =>
      stores .parameter 0 parameter.length ++ [.vector parameter]

/-- The command in `temp`. -/
def commandEvents (temp : List UInt8) (sh : Wish W) : List Event :=
  let blank : UInt8 → Bool := fun c => c == 32 || c == 10
  let newline : UInt8 → Bool := fun c => c == 10
  let token := (strsep blank temp).1
  let para := (strsep newline ((strsep blank temp).2.getD [])).1
  if token = ascii "exit" ∨ token = ascii "cd" then []
  else if token = ascii "path" then pathEvents para
  else
    stores .final_command 0 200 ++ execEvents os sh.world token para sh.command_path ++
      behind (execZx os sh.world token para sh.command_path) fun r =>
        if os.access sh.world r.1 then
          [.store .final_command_list sh.commands.length, .store .parameter_list sh.commands.length]
        else []

def runEvents (l : Locals) (sh : Wish W) : List Event :=
  if l.redirect = 0 then commandEvents os l.temp sh else []

def pieceEvents (segment : Nat) (redi_char : List UInt8) (l : Locals) (sh : Wish W) :
    List Event :=
  if l.count_file = 0 then
    runEvents os { l with temp := cstr (redi_char ++ [10] ++ mem.final_str segment) } sh
  else
    let final_file_str := cstr (inputFix redi_char ++ mem.final_file_str segment l.count_file)
    (if sh.label_list sh.commands.length then [.store .file_list sh.commands.length] else []) ++
      if (final_file_str.findIdx? (· == 32)).any fun temp_mr => 0 < temp_mr then []
      else runEvents os l { sh with world := (os.openFile sh.world final_file_str).1 }

def piecesEvents (segment : Nat) : List (List UInt8) → Locals → Wish W → List Event
  | [], _, _ => []
  | redi_char :: rest, l, sh =>
    if 1 < l.redirect then []
    else if redi_char = [] ∨ redi_char = [32] then piecesEvents segment rest l sh
    else
      pieceEvents os mem segment redi_char l sh ++
        behind (piece os mem segment redi_char l sh) fun r =>
          if r.1 then [] else piecesEvents segment rest r.2.1 r.2.2

/-- Every `>` of a segment marks the slot of the next command. -/
def segmentEvents (k : Nat) (command_part : List UInt8) (sh : Wish W) : List Event :=
  if command_part = [] ∨ command_part = [32] then []
  else
    let command_part_new := cstr (command_part ++ [10] ++ mem.command_part_new k)
    let fix_command_part := cstr (inputFix command_part_new ++ mem.fix_command_part k)
    let redirect := fix_command_part.count 62
    List.replicate redirect (.store .label_list sh.commands.length) ++
      if 0 < redirect ∧ ¬ sh.commands.length < 100 then []
      else
        piecesEvents os mem k ([] :: fix_command_part.splitOnP fun c => c == 62 || c == 10)
          ⟨redirect, decide (0 < redirect), 0, []⟩ (if 0 < redirect then sh.label else sh)

def segmentsEvents : Nat → List (List UInt8) → Wish W → List Event
  | _, [], _ => []
  | k, command_part :: rest, sh =>
    segmentEvents os mem k command_part sh ++
      behind (segment os mem k command_part sh) (segmentsEvents (k + 1) rest)

/-- The loop at the end of a line. -/
def clearEvents : List Event :=
  stores .final_command_list 0 100 ++ stores .parameter_list 0 100 ++ stores .file_list 0 100 ++
    stores .label_list 0 100

def lineEvents (after : Nat → W) (str : List UInt8) (sh : Wish W) : List Event :=
  segmentsEvents os mem 0 (lineSegments mem str) sh ++
    behind (line os mem after str sh) fun _ => clearEvents

/-- The lines of a session in turn, from line `i` on. -/
def sessionEvents (mem : Nat → Memory) (after : Nat → W) :
    Nat → List (List UInt8) → Wish W → List Event
  | _, [], _ => []
  | i, str :: lines, sh =>
    lineEvents os (mem i) after str sh ++ behind (line os (mem i) after str sh) fun r =>
      sessionEvents mem after (i + 1) lines r.1

/-! ### Traces -/

@[simp] theorem allInTable_nil : AllInTable [] := by
  intro e he
  cases he

@[simp] theorem allInTable_append {es es' : List Event} :
    AllInTable (es ++ es') ↔ AllInTable es ∧ AllInTable es' :=
  List.forall_mem_append

theorem allInTable_singleton {e : Event} : AllInTable [e] ↔ e.InTable := by
  simp [AllInTable]

theorem allInTable_replicate {n : Nat} {e : Event} :
    AllInTable (List.replicate n e) ↔ (0 < n → e.InTable) := by
  simp only [AllInTable, List.mem_replicate, Nat.pos_iff_ne_zero]
  constructor
  · intro h hn
    exact h e ⟨hn, rfl⟩
  · rintro h _ ⟨hn, rfl⟩
    exact h hn

/-- The last store of a loop decides. -/
theorem allInTable_stores {table : TableName} {first n : Nat} :
    AllInTable (stores table first n) ↔ (0 < n → first + n ≤ table.slots) := by
  simp only [AllInTable, stores, List.forall_mem_map, List.mem_range'_1]
  constructor
  · intro h hn
    have hlast : first + (n - 1) < table.slots := h (first + (n - 1)) (by omega)
    omega
  · intro h i hi
    have hle := h (by omega)
    change i < table.slots
    omega

theorem allInTable_behind {α : Type} {x : Except Stop α} {es : α → List Event} :
    AllInTable (behind x es) ↔ ∀ a, x = .ok a → AllInTable (es a) := by
  rcases x with stop | a
  · exact iff_of_true allInTable_nil fun a h => by cases h
  · constructor
    · rintro h _ ⟨⟩
      exact h
    · intro h
      exact h a rfl

theorem behind_ok {α : Type} (a : α) (es : α → List Event) : behind (.ok a) es = es a := rfl

/-- The array behind a vector that fits: its strings, and NULL in the slots left. -/
theorem storeParameters_eq (before parameter : List (List UInt8))
    (slots : List (Option (List UInt8))) (h : parameter.length ≤ slots.length) :
    storeParameters before.length parameter (before.map some ++ slots) =
      (before ++ parameter).map some ++ slots.drop parameter.length := by
  induction parameter generalizing before slots with
  | nil => simp [storeParameters]
  | cons real_para rest ih =>
    obtain ⟨slot, slots, rfl⟩ := List.exists_cons_of_length_pos (Nat.lt_of_lt_of_le
      (Nat.succ_pos _) h)
    have hset : (before.map some ++ slot :: slots).set before.length (some real_para) =
        (before ++ [real_para]).map some ++ slots := by
      rw [List.set_append_right _ _ (by simp)]
      simp
    have hrest := ih (before ++ [real_para]) slots (Nat.le_of_succ_le_succ h)
    rw [List.length_append, List.length_singleton] at hrest
    rw [storeParameters, hset, hrest]
    simp

theorem length_storeParameters (para_num : Nat) (parameter : List (List UInt8))
    (slots : List (Option (List UInt8))) :
    (storeParameters para_num parameter slots).length = slots.length := by
  induction parameter generalizing para_num slots with
  | nil => rfl
  | cons real_para rest ih => rw [storeParameters, ih, List.length_set]

/-- **The vector keeps its terminator if one of the slots is left.** -/
theorem vector_inTable {parameter : List (List UInt8)} :
    (Event.vector parameter).InTable ↔ parameter.length < MAX_PARAMETER := by
  constructor
  · intro h
    have hlt := (List.getElem?_eq_some_iff.mp h).1
    rwa [length_storeParameters, List.length_replicate] at hlt
  · intro h
    let empty : List (Option (List UInt8)) := List.replicate MAX_PARAMETER none
    have hle : parameter.length ≤ empty.length := by
      rw [List.length_replicate]
      exact Nat.le_of_lt h
    have harray := storeParameters_eq [] parameter empty hle
    simp only [List.length_nil, List.map_nil, List.nil_append] at harray
    have hbehind : (parameter.map some).length ≤ parameter.length := by rw [List.length_map]
    change (storeParameters 0 parameter empty)[parameter.length]? = some none
    rw [harray, List.getElem?_append_right hbehind, List.length_map, Nat.sub_self,
      List.drop_replicate, List.getElem?_replicate, if_pos (Nat.sub_pos_of_lt h)]

/-- The search stays in `final_command` if no directory it tries is too long. -/
theorem allInTable_findEvents {w : W} {name : List UInt8} {command_path : List (List UInt8)} :
    AllInTable (findEvents os w name command_path) ↔ Fits os w name command_path := by
  induction command_path with
  | nil => exact iff_of_true allInTable_nil trivial
  | cons dir command_path ih =>
    have hcopy : AllInTable (stores .final_command 0 (dir.length + 1) ++
        stores .final_command dir.length (name.length + 1)) ↔ (dir ++ name).length < 200 := by
      have hslots : TableName.final_command.slots = 200 := rfl
      rw [allInTable_append, allInTable_stores, allInTable_stores, hslots, List.length_append]
      omega
    rw [findEvents, Fits, allInTable_append, hcopy]
    apply and_congr_right
    intro hfits
    by_cases haccess : os.access w (dir ++ name) = true
    · rw [if_neg fun h => h.2 haccess]
      exact iff_of_true allInTable_nil (Or.inl haccess)
    · have hclear : AllInTable (stores .final_command 0 200) :=
        allInTable_stores.mpr fun _ => le_refl 200
      rw [if_pos ⟨hfits, haccess⟩, allInTable_append, ih]
      constructor
      · rintro ⟨_, hrest⟩
        exact Or.inr hrest
      · intro hrest
        exact ⟨hclear, hrest.resolve_left haccess⟩

theorem findCommand_ok {w : W} {name : List UInt8} {command_path : List (List UInt8)}
    (h : Fits os w name command_path) :
    ∃ final_command, findCommand os w name command_path = .ok final_command ∧
      (os.access w final_command = true ↔ CommandExists os w name command_path) := by
  by_cases hexists : CommandExists os w name command_path
  · obtain ⟨final_command, hfind, haccess⟩ := findCommand_of_fits os hexists h
    exact ⟨final_command, hfind, iff_of_true haccess hexists⟩
  · refine ⟨[], findCommand_missing h hexists, iff_of_false ?_ hexists⟩
    rw [os.access_empty]
    exact Bool.false_ne_true

theorem allInTable_execEvents {w : W} {name para : List UInt8}
    {command_path : List (List UInt8)} :
    AllInTable (execEvents os w name para command_path) ↔ Fits os w name command_path ∧
      (name :: if para = [] then [] else para.splitOn 32).length < MAX_PARAMETER := by
  have hclear : AllInTable (stores .parameter 0 MAX_PARAMETER) :=
    allInTable_stores.mpr fun _ => le_refl MAX_PARAMETER
  rw [execEvents, allInTable_append, allInTable_append, allInTable_findEvents]
  constructor
  · rintro ⟨⟨_, hfits⟩, hvector⟩
    obtain ⟨final_command, hfind, _⟩ := findCommand_ok os hfits
    rw [hfind, behind_ok, allInTable_append, allInTable_singleton] at hvector
    exact ⟨hfits, vector_inTable.mp hvector.2⟩
  · rintro ⟨hfits, hlen⟩
    refine ⟨⟨hclear, hfits⟩, allInTable_behind.mpr fun _ _ => allInTable_append.mpr ⟨?_, ?_⟩⟩
    · apply allInTable_stores.mpr
      intro _
      rw [Nat.zero_add]
      exact Nat.le_of_lt hlen
    · exact allInTable_singleton.mpr (vector_inTable.mpr hlen)

theorem execZx_ok {w : W} {name para : List UInt8} {command_path : List (List UInt8)}
    (hfits : Fits os w name command_path)
    (hlen : (name :: if para = [] then [] else para.splitOn 32).length < MAX_PARAMETER) :
    ∃ final_command, execZx os w name para command_path =
        .ok (final_command, name :: if para = [] then [] else para.splitOn 32) ∧
      (os.access w final_command = true ↔ CommandExists os w name command_path) := by
  obtain ⟨final_command, hfind, haccess⟩ := findCommand_ok os hfits
  refine ⟨final_command, ?_, haccess⟩
  rw [execZx, hfind, ok_bind]
  dsimp only
  rw [if_pos (Nat.le_of_lt hlen)]
  rfl

theorem allInTable_pathEvents {token : List UInt8} :
    AllInTable (pathEvents token) ↔
      (if token = [] then [] else token.splitOn 32).length ≤ MAX_COMMAND := by
  have hclear : AllInTable (stores .command_path 0 MAX_COMMAND) :=
    allInTable_stores.mpr fun _ => le_refl MAX_COMMAND
  have hslots : TableName.command_path.slots = MAX_COMMAND := rfl
  rw [pathEvents, allInTable_append, and_iff_right hclear]
  by_cases htoken : token = []
  · rw [if_pos htoken, if_pos htoken]
    exact iff_of_true allInTable_nil (Nat.zero_le _)
  · have hpos : 0 < (token.splitOn 32).length :=
      List.length_pos_of_ne_nil (List.splitOn_ne_nil 32 token)
    rw [if_neg htoken, if_neg htoken, allInTable_stores, hslots, Nat.zero_add]
    exact ⟨fun h => h hpos, fun h _ => h⟩

theorem pathZx_ok {token : List UInt8}
    (h : (if token = [] then [] else token.splitOn 32).length ≤ MAX_COMMAND) :
    ∃ command_path, pathZx token = .ok command_path := by
  unfold pathZx
  by_cases htoken : token = []
  · exact ⟨[], if_pos htoken⟩
  · rw [if_neg htoken] at h
    dsimp only
    rw [if_neg htoken, List.length_map, if_pos h]
    exact ⟨_, rfl⟩

/-! ### The model is not stopped -/

/-- A step is not stopped by an overrun, and what it gives has the property. -/
def Keeps {α : Type} (x : Except Stop α) (P : α → Prop) : Prop :=
  x ≠ .error .overrun ∧ ∀ a, x = .ok a → P a

section Keeps

variable {α β : Type} {x : Except Stop α} {P : α → Prop} {Q : β → Prop}

theorem keeps_ok {a : α} (h : P a) : Keeps (.ok a) P :=
  ⟨nofun, fun _ hok => Except.ok.inj hok ▸ h⟩

theorem keeps_exit : Keeps (.error .exit) P := ⟨nofun, nofun⟩

theorem Keeps.bind {f : α → Except Stop β} (h : Keeps x P)
    (hf : ∀ a, x = .ok a → P a → Keeps (f a) Q) : Keeps (x >>= f) Q := by
  rcases x with stop | a
  · refine ⟨fun herror => ?_, nofun⟩
    cases herror
    exact h.1 rfl
  · exact hf a rfl (h.2 a rfl)

end Keeps

/-- The vectors of the commands found so far end in NULL. -/
def Wish.Terminated (sh : Wish W) : Prop :=
  ∀ c ∈ sh.commands, c.parameter.length < MAX_PARAMETER

variable {os} {mem : Memory}

theorem command_keeps {k : Nat} {temp : List UInt8} {sh : Wish W} (hsh : sh.Terminated)
    (h : AllInTable (commandEvents os temp sh)) :
    Keeps (command os k temp sh) fun r => r.2.Terminated := by
  unfold commandEvents at h
  unfold command
  dsimp only at h ⊢
  by_cases hexit : (strsep (fun c => c == 32 || c == 10) temp).1 = ascii "exit"
  · rw [if_pos hexit]
    split_ifs
    · exact keeps_exit
    · exact keeps_ok hsh
  rw [if_neg hexit]
  by_cases hcd : (strsep (fun c => c == 32 || c == 10) temp).1 = ascii "cd"
  · rw [if_pos hcd]
    apply keeps_ok
    dsimp only
    split_ifs
    · exact hsh
    · exact hsh
  rw [if_neg hcd]
  rw [if_neg fun hor => hor.elim hexit hcd] at h
  by_cases hpath : (strsep (fun c => c == 32 || c == 10) temp).1 = ascii "path"
  · rw [if_pos hpath, allInTable_pathEvents] at h
    obtain ⟨command_path, hzx⟩ := pathZx_ok h
    rw [if_pos hpath, hzx]
    exact keeps_ok hsh
  · rw [if_neg hpath] at h ⊢
    rw [allInTable_append, allInTable_append, allInTable_execEvents] at h
    obtain ⟨⟨_, hfits, hlen⟩, hlists⟩ := h
    obtain ⟨final_command, hexec, _⟩ := execZx_ok os hfits hlen
    rw [hexec, behind_ok] at hlists
    rw [hexec, ok_bind]
    dsimp only at hlists ⊢
    by_cases haccess : os.access sh.world final_command = true
    · rw [if_pos haccess] at hlists ⊢
      have hroom : sh.commands.length < 100 := hlists _ List.mem_cons_self
      rw [if_pos hroom]
      apply keeps_ok
      intro c hc
      rcases List.mem_append.mp hc with hc | hc
      · exact hsh c hc
      · rw [List.mem_singleton.mp hc]
        exact hlen
    · rw [if_neg haccess]
      exact keeps_ok hsh

theorem runEvents_congr {l : Locals} {sh sh' : Wish W} (h : sh.SameCommands sh') :
    runEvents os l sh = runEvents os l sh' := by
  obtain ⟨hworld, hpath, hcommands⟩ := h
  simp only [runEvents, commandEvents, hworld, hpath, hcommands]

theorem runCommand_keeps {k : Nat} {l : Locals} {sh : Wish W} (hsh : sh.Terminated)
    (h : AllInTable (runEvents os l sh)) :
    Keeps (runCommand os k l sh) fun r => r.2.Terminated := by
  unfold runEvents at h
  unfold runCommand
  by_cases hredirect : l.redirect = 0
  · rw [if_pos hredirect] at h ⊢
    exact command_keeps hsh h
  · rw [if_neg hredirect]
    exact keeps_ok hsh

theorem piece_keeps {k : Nat} {redi_char : List UInt8} {l : Locals} {sh : Wish W}
    (hsh : sh.Terminated) (h : AllInTable (pieceEvents os mem k redi_char l sh)) :
    Keeps (piece os mem k redi_char l sh) fun r => r.2.2.Terminated := by
  unfold pieceEvents at h
  unfold piece
  by_cases hcount : l.count_file = 0
  · rw [if_pos hcount] at h ⊢
    refine (runCommand_keeps hsh h).bind fun r _ hr => ?_
    dsimp only
    split_ifs
    · exact keeps_ok hr
    · exact keeps_ok hr
  · rw [if_neg hcount, allInTable_append] at h
    rw [if_neg hcount]
    generalize cstr (inputFix redi_char ++ mem.final_file_str k l.count_file) = file at h ⊢
    obtain ⟨sh₁, hsh₁⟩ : ∃ sh₁ : Wish W, (if sh.label_list sh.commands.length then
        { sh with
          file_list := Function.update sh.file_list sh.commands.length (some file) }
      else sh) = sh₁ := ⟨_, rfl⟩
    have hsame : sh.SameCommands sh₁ := by
      rw [← hsh₁]
      split_ifs
      · exact ⟨rfl, rfl, rfl⟩
      · exact ⟨rfl, rfl, rfl⟩
    have hterminated : sh₁.Terminated := by
      intro c hc
      exact hsh c (hsame.2.2 ▸ hc)
    dsimp only at h ⊢
    rw [hsh₁]
    by_cases hspace : (file.findIdx? (· == 32)).any (fun i => decide (0 < i)) = true
    · rw [if_pos hspace]
      exact keeps_ok hterminated
    · rw [if_neg hspace] at h ⊢
      refine Keeps.bind (runCommand_keeps hterminated ?_) fun r _ hr => ?_
      · have hworld : (os.openFile sh₁.world file).1 = (os.openFile sh.world file).1 := by
          rw [hsame.1]
        refine (congrArg AllInTable (runEvents_congr ?_)).mp h.2
        exact ⟨hworld, hsame.2.1, hsame.2.2⟩
      · by_cases hleave : r.1 = true
        · rw [if_pos hleave]
          exact keeps_ok hr
        · rw [if_neg hleave]
          exact keeps_ok hr

theorem pieces_keeps {k : Nat} {parts : List (List UInt8)} {l : Locals} {sh : Wish W}
    (hsh : sh.Terminated) (h : AllInTable (piecesEvents os mem k parts l sh)) :
    Keeps (pieces os mem k parts l sh) fun r => r.2.Terminated := by
  induction parts generalizing l sh with
  | nil => exact keeps_ok hsh
  | cons redi_char rest ih =>
    rw [piecesEvents] at h
    rw [pieces]
    by_cases hseveral : 1 < l.redirect
    · rw [if_pos hseveral]
      exact keeps_ok hsh
    rw [if_neg hseveral] at h ⊢
    by_cases hblank : redi_char = [] ∨ redi_char = [32]
    · rw [if_pos hblank] at h ⊢
      exact ih hsh h
    rw [if_neg hblank, allInTable_append, allInTable_behind] at h
    rw [if_neg hblank]
    refine (piece_keeps hsh h.1).bind fun r hr hterminated => ?_
    have hrest := h.2 r hr
    dsimp only
    split_ifs at hrest ⊢
    · exact keeps_ok hterminated
    · exact ih hterminated hrest

theorem segment_keeps {k : Nat} {command_part : List UInt8} {sh : Wish W} (hsh : sh.Terminated)
    (h : AllInTable (segmentEvents os mem k command_part sh)) :
    Keeps (segment os mem k command_part sh) Wish.Terminated := by
  unfold segmentEvents at h
  unfold segment
  by_cases hblank : command_part = [] ∨ command_part = [32]
  · rw [if_pos hblank]
    exact keeps_ok hsh
  rw [if_neg hblank, allInTable_append, allInTable_replicate] at h
  rw [if_neg hblank]
  dsimp only
  generalize cstr (inputFix (cstr (command_part ++ [10] ++ mem.command_part_new k)) ++
    mem.fix_command_part k) = fix_command_part at h ⊢
  have hroom : ¬ (0 < fix_command_part.count 62 ∧ ¬ sh.commands.length < 100) := by
    rintro ⟨hpos, hfull⟩
    exact hfull (h.1 hpos)
  rw [if_neg hroom] at h ⊢
  have hlabel : (if 0 < fix_command_part.count 62 then sh.label else sh).Terminated := by
    split_ifs
    · exact hsh
    · exact hsh
  refine (pieces_keeps hlabel h.2).bind fun r _ hr => ?_
  split_ifs
  · exact keeps_ok hr
  · exact keeps_ok hr

theorem segments_keeps {k : Nat} {parts : List (List UInt8)} {sh : Wish W} (hsh : sh.Terminated)
    (h : AllInTable (segmentsEvents os mem k parts sh)) :
    Keeps (segments os mem k parts sh) Wish.Terminated := by
  induction parts generalizing k sh with
  | nil => exact keeps_ok hsh
  | cons command_part rest ih =>
    rw [segmentsEvents, allInTable_append, allInTable_behind] at h
    exact (segment_keeps hsh h.1).bind fun sh₁ hok hsh₁ => ih hsh₁ (h.2 sh₁ hok)

theorem launch_keeps {after : Nat → W} {sh : Wish W} {i : Nat} {commands : List Command}
    (h : ∀ c ∈ commands, c.parameter.length < MAX_PARAMETER) :
    Keeps (launch os after sh i commands) fun _ => True := by
  induction commands generalizing i with
  | nil => exact keeps_ok trivial
  | cons c commands ih =>
    have hchild : Keeps (child os (after i) sh i c) fun _ => True := by
      rw [child, if_pos (h c List.mem_cons_self)]
      exact keeps_ok trivial
    refine hchild.bind fun first _ _ => ?_
    refine (ih fun d hd => h d (List.mem_cons_of_mem c hd)).bind fun others _ _ => ?_
    exact keeps_ok trivial

/-- **A line whose writes are inside their tables comes to its end**, or is left at `exit`. -/
theorem line_keeps {after : Nat → W} {str : List UInt8} {sh : Wish W} (hsh : sh.Terminated)
    (h : AllInTable (lineEvents os mem after str sh)) :
    Keeps (line os mem after str sh) fun r => r.1.Terminated := by
  rw [lineEvents, allInTable_append] at h
  rw [line, segment_nil, ok_bind]
  refine (segments_keeps hsh h.1).bind fun sh₁ _ hsh₁ => ?_
  refine (launch_keeps hsh₁).bind fun children _ _ => ?_
  exact keeps_ok fun c hc => absurd hc List.not_mem_nil

/-- **So does a session.** -/
theorem session_keeps {mem : Nat → Memory} {after : Nat → W} {i : Nat}
    {lines : List (List UInt8)} {sh : Wish W} (hsh : sh.Terminated)
    (h : AllInTable (sessionEvents os mem after i lines sh)) :
    Keeps (runLines os mem after i lines sh) fun _ => True := by
  induction lines generalizing i sh with
  | nil => exact keeps_ok trivial
  | cons str lines ih =>
    rw [sessionEvents, allInTable_append, allInTable_behind] at h
    refine (line_keeps hsh h.1).bind fun r hr hterminated => ?_
    refine (ih hterminated (h.2 r hr)).bind fun s _ _ => ?_
    exact keeps_ok trivial

end OstepProjects.Shell
