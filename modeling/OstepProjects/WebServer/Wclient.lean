/-
  OstepProjects/WebServer/Wclient.lean
  ====================================
  **The client `wclient.c`, and what it prints of a response.**

  `clientSend` writes a request and `clientPrint` reads the response with `readline`,
  header lines up to the blank one and then the body.  Both loops stop when `readline`
  returns 0, which it also does for a piece that is a lone newline and for a last one of
  one byte.

  `clientPrint_run` says what is printed of any stream.  Run against `requestHandle`,
  the client gets the file it asks for, and prints it up to the first place where
  `readline` returns 0 (`fetch_file`).
-/
import OstepProjects.WebServer.Readline
import OstepProjects.WebServer.StaticFiles

namespace OstepProjects.WebServer

open OstepProjects.Bytes

/-! ### The client -/

/-- The second `sprintf` reads `buf` and writes to it; the text that it holds before is
    taken.  `hostname` is what `gethostname` gives. -/
def clientSend (hostname filename : List UInt8) : Serve Unit := do
  let buf ← sprintf (ascii "GET " ++ filename ++ ascii " HTTP/1.1\n")
  let buf ← sprintf (buf ++ ascii "host: " ++ hostname ++ ascii "\n\r\n")
  writeOrDie buf

/-- The loop over the header, for so many lines at most, with the value of the last
    `readline`: what is printed, and `buf`. -/
def printHeaders : Nat → Nat → List UInt8 → Serve (List UInt8 × List UInt8)
  | 0, _, _ => failure
  | lines + 1, n, buf =>
    if cstr buf ≠ ascii "\r\n" ∧ 0 < n then do
      let (n, next) ← readline buf MAXBUF
      let (printed, last) ← printHeaders lines n next
      return (ascii "Header: " ++ cstr buf ++ printed, last)
    else pure ([], buf)

/-- The loop over the body. -/
def printBody : Nat → Nat → List UInt8 → Serve (List UInt8)
  | 0, _, _ => failure
  | lines + 1, n, buf =>
    if 0 < n then do
      let (n, next) ← readline buf MAXBUF
      let printed ← printBody lines n next
      return cstr buf ++ printed
    else pure []

/-- `client_print`.  A line takes a byte of the stream, or is the last one. -/
def clientPrint (buf : List UInt8) : Serve (List UInt8) := do
  let s ← get
  let (n, buf) ← readline buf MAXBUF
  let (headers, buf) ← printHeaders (s.input.length + 1) n buf
  let (n, buf) ← readline buf MAXBUF
  let body ← printBody (s.input.length + 1) n buf
  return headers ++ body

/-! ### What is printed of a stream -/

abbrev responsePieces (stream : List UInt8) : List (List UInt8) :=
  Lines.pieces 10 (MAXBUF - 1) stream

/-- `readline` returns a count that is not 0. -/
def Counted (piece : List UInt8) : Prop := 1 < piece.length

instance (piece : List UInt8) : Decidable (Counted piece) :=
  inferInstanceAs (Decidable (_ < _))

def IsHeader (piece : List UInt8) : Prop := cstr piece ≠ ascii "\r\n" ∧ Counted piece

instance (piece : List UInt8) : Decidable (IsHeader piece) :=
  inferInstanceAs (Decidable (_ ∧ _))

def headerPieces (pieces : List (List UInt8)) : List (List UInt8) :=
  pieces.takeWhile fun p => IsHeader p

def shownHeaders (pieces : List (List UInt8)) : List UInt8 :=
  ((headerPieces pieces).map fun p => ascii "Header: " ++ cstr p).flatten

/-- The piece that ends the header is passed over. -/
def bodyPieces (pieces : List (List UInt8)) : List (List UInt8) :=
  pieces.drop ((headerPieces pieces).length + 1)

def shownBody (pieces : List (List UInt8)) : List UInt8 :=
  ((pieces.takeWhile fun p => Counted p).map cstr).flatten

theorem counted_iff (p : List UInt8) : 0 < returnValue MAXBUF p ↔ Counted p := by
  by_cases hp : p = []
  · subst hp
    decide
  · rw [Nat.pos_iff_ne_zero, returnValue_ne_zero_iff (by decide) hp, Counted]
    exact or_iff_left fun h => absurd h.1 (by decide)

theorem cstr_bufAfter_counted {p : List UInt8} (h : Counted p) (buf : List UInt8) :
    cstr (bufAfter MAXBUF p buf) = cstr p :=
  cstr_bufAfter (fun hshort => absurd hshort.2 (Nat.ne_of_gt h)) buf

/-- The next call of `readline` takes the next piece, if there is one. -/
theorem readline_next (buf stream out : List UInt8) :
    ∃ p rest, (readline buf MAXBUF).run ⟨stream, out⟩ =
        some ((returnValue MAXBUF p, bufAfter MAXBUF p buf), ⟨rest, out⟩) ∧
      p.length + rest.length = stream.length ∧
      (p = [] ∧ stream = [] ∨ responsePieces stream = p :: responsePieces rest) := by
  refine ⟨nextPiece MAXBUF stream, _, readline_eq buf MAXBUF ⟨stream, out⟩, ?_, ?_⟩
  · have hlength := congrArg List.length (Lines.piece_append_drop 10 (MAXBUF - 1) stream)
    rwa [List.length_append] at hlength
  · by_cases hstream : stream = []
    · exact Or.inl ⟨by rw [hstream, nextPiece_nil], hstream⟩
    · exact Or.inr (Lines.pieces_eq_cons 10 (by decide) hstream)

/-- The loop over the body, when piece `p` has been read. -/
theorem printBody_run (lines : Nat) (p rest buf out : List UInt8)
    (h : p.length + rest.length < lines) :
    ∃ rest', (printBody lines (returnValue MAXBUF p) (bufAfter MAXBUF p buf)).run ⟨rest, out⟩ =
      some (shownBody (p :: responsePieces rest), ⟨rest', out⟩) := by
  induction lines generalizing p rest buf with
  | zero => exact absurd h (Nat.not_lt_zero _)
  | succ lines ih =>
    rw [printBody]
    by_cases hp : Counted p
    · rw [if_pos ((counted_iff p).mpr hp), cstr_bufAfter_counted hp]
      obtain ⟨q, rest', hread, hlength, hpieces⟩ :=
        readline_next (bufAfter MAXBUF p buf) rest out
      have hcounted : 1 < p.length := hp
      obtain ⟨rest'', hbody⟩ := ih q rest' (bufAfter MAXBUF p buf) (by omega)
      refine ⟨rest'', ?_⟩
      have hshown : shownBody (p :: responsePieces rest) =
          cstr p ++ shownBody (q :: responsePieces rest') := by
        rw [shownBody, List.takeWhile_cons_of_pos (by simpa using hp), List.map_cons,
          List.flatten_cons]
        rcases hpieces with ⟨rfl, rfl⟩ | hpieces
        · obtain rfl := List.length_eq_zero_iff.mp (Nat.eq_zero_of_add_eq_zero_left hlength)
          rfl
        · rw [hpieces]
          rfl
      rw [StateT.run_bind, hread]
      simp only [Option.bind_eq_bind, Option.bind_some, StateT.run_bind, hbody, hshown]
      rfl
    · rw [if_neg (mt (counted_iff p).mp hp)]
      refine ⟨rest, ?_⟩
      rw [shownBody, List.takeWhile_cons_of_neg (by simpa using hp)]
      rfl

/-- A piece that is there, or the empty one at the end of the stream. -/
theorem shownBody_next {p rest stream : List UInt8}
    (hlength : p.length + rest.length = stream.length)
    (h : p = [] ∧ stream = [] ∨ responsePieces stream = p :: responsePieces rest) :
    shownBody (p :: responsePieces rest) = shownBody (responsePieces stream) := by
  rcases h with ⟨rfl, rfl⟩ | h
  · obtain rfl := List.length_eq_zero_iff.mp (Nat.eq_zero_of_add_eq_zero_left hlength)
    rfl
  · rw [h]

/-- The loop over the header, when piece `p` has been read. -/
theorem printHeaders_run (lines : Nat) (p rest buf out : List UInt8)
    (h : p.length + rest.length < lines) :
    ∃ last rest', (printHeaders lines (returnValue MAXBUF p) (bufAfter MAXBUF p buf)).run
        ⟨rest, out⟩ = some ((shownHeaders (p :: responsePieces rest), last), ⟨rest', out⟩) ∧
      responsePieces rest' = bodyPieces (p :: responsePieces rest) ∧
      rest'.length ≤ rest.length := by
  induction lines generalizing p rest buf with
  | zero => exact absurd h (Nat.not_lt_zero _)
  | succ lines ih =>
    rw [printHeaders]
    by_cases hp : IsHeader p
    · have hcstr := cstr_bufAfter_counted hp.2 buf
      rw [if_pos ⟨by rw [hcstr]; exact hp.1, (counted_iff p).mpr hp.2⟩, hcstr]
      obtain ⟨q, rest₁, hread, hlength, hpieces⟩ :=
        readline_next (bufAfter MAXBUF p buf) rest out
      have hcounted : 1 < p.length := hp.2
      obtain ⟨last, rest₂, hheaders, hbody, hle⟩ :=
        ih q rest₁ (bufAfter MAXBUF p buf) (by omega)
      have hfirst : headerPieces (p :: responsePieces rest) =
          p :: headerPieces (responsePieces rest) :=
        List.takeWhile_cons_of_pos (by simpa using hp)
      have hshown : shownHeaders (p :: responsePieces rest) =
          ascii "Header: " ++ cstr p ++ shownHeaders (responsePieces rest) := by
        rw [shownHeaders, hfirst, List.map_cons, List.flatten_cons]
        rfl
      have hskip : bodyPieces (p :: responsePieces rest) = bodyPieces (responsePieces rest) := by
        rw [bodyPieces, hfirst, List.length_cons, List.drop_succ_cons]
        rfl
      have hnext : shownHeaders (q :: responsePieces rest₁) = shownHeaders (responsePieces rest) ∧
          bodyPieces (q :: responsePieces rest₁) = bodyPieces (responsePieces rest) := by
        rcases hpieces with ⟨rfl, rfl⟩ | hpieces
        · obtain rfl := List.length_eq_zero_iff.mp (Nat.eq_zero_of_add_eq_zero_left hlength)
          exact ⟨rfl, rfl⟩
        · rw [hpieces]
          exact ⟨rfl, rfl⟩
      refine ⟨last, rest₂, ?_, ?_, by omega⟩
      · rw [StateT.run_bind, hread]
        simp only [Option.bind_eq_bind, Option.bind_some, StateT.run_bind, hheaders, hshown,
          hnext.1]
        rfl
      · rw [hbody, hnext.2, hskip]
    · have hstop : ¬ (cstr (bufAfter MAXBUF p buf) ≠ ascii "\r\n" ∧ 0 < returnValue MAXBUF p) := by
        rintro ⟨hblank, hpos⟩
        have hcounted := (counted_iff p).mp hpos
        rw [cstr_bufAfter_counted hcounted] at hblank
        exact hp ⟨hblank, hcounted⟩
      have hnone : headerPieces (p :: responsePieces rest) = [] :=
        List.takeWhile_cons_of_neg (by simpa using hp)
      rw [if_neg hstop, shownHeaders, bodyPieces, hnone]
      exact ⟨_, rest, rfl, rfl, le_refl _⟩

/-- **What the client prints of a response,** whatever the response is: both loops end. -/
theorem clientPrint_run (buf stream out : List UInt8) :
    ∃ rest, (clientPrint buf).run ⟨stream, out⟩ =
      some (shownHeaders (responsePieces stream) ++ shownBody (bodyPieces (responsePieces stream)),
        ⟨rest, out⟩) := by
  obtain ⟨p, rest₁, hread, hlength, hpieces⟩ := readline_next buf stream out
  obtain ⟨last, rest₂, hheaders, hbody, hle⟩ :=
    printHeaders_run (stream.length + 1) p rest₁ buf out (by omega)
  obtain ⟨q, rest₃, hread', hlength', hpieces'⟩ := readline_next last rest₂ out
  obtain ⟨rest₄, hprint⟩ := printBody_run (stream.length + 1) q rest₃ last out (by omega)
  have hnext : shownHeaders (p :: responsePieces rest₁) = shownHeaders (responsePieces stream) ∧
      bodyPieces (p :: responsePieces rest₁) = bodyPieces (responsePieces stream) := by
    rcases hpieces with ⟨rfl, rfl⟩ | hpieces
    · obtain rfl := List.length_eq_zero_iff.mp (Nat.eq_zero_of_add_eq_zero_left hlength)
      exact ⟨rfl, rfl⟩
    · rw [hpieces]
      exact ⟨rfl, rfl⟩
  refine ⟨rest₄, ?_⟩
  rw [shownBody_next hlength' hpieces', hbody, hnext.2] at hprint
  rw [hnext.1] at hheaders
  rw [clientPrint, StateT.run_bind, StateT.run_get]
  simp only [Option.pure_def, Option.bind_eq_bind, Option.bind_some, StateT.run_bind, hread,
    hheaders, hread', hprint]
  rfl

/-! ### Lines and a body -/

/-- A header line that is read in one call and printed whole. -/
structure ShownLine (l : List UInt8) : Prop where
  isLine : IsLine l
  fits : l.length < MAXBUF
  nul : 0 ∉ l
  counted : Counted l
  notBlank : l ≠ ascii "\r\n"

theorem pieces_isLine {l : List UInt8} (h : IsLine l) (hfits : l.length < MAXBUF)
    (stream : List UInt8) : responsePieces (l ++ stream) = l :: responsePieces stream := by
  obtain ⟨text, rfl, htext⟩ := h
  rw [List.length_append, List.length_singleton] at hfits
  rw [← List.append_cons]
  exact Lines.pieces_append_line 10 htext (by omega) stream

theorem pieces_lines {ls : List (List UInt8)} (h : ∀ l ∈ ls, IsLine l ∧ l.length < MAXBUF)
    (stream : List UInt8) :
    responsePieces (ls.flatten ++ stream) = ls ++ responsePieces stream := by
  induction ls with
  | nil => rfl
  | cons l ls ih =>
    obtain ⟨hline, hfits⟩ := h l List.mem_cons_self
    rw [List.flatten_cons, List.append_assoc, pieces_isLine hline hfits,
      ih fun l' hl' => h l' (List.mem_cons_of_mem l hl'), List.cons_append]

/-- A response of header lines, the blank one and a body. -/
theorem clientPrint_response {lines : List (List UInt8)} (hlines : ∀ l ∈ lines, ShownLine l)
    (buf body out : List UInt8) :
    ∃ rest, (clientPrint buf).run ⟨lines.flatten ++ (ascii "\r\n" ++ body), out⟩ =
      some ((lines.map fun l => ascii "Header: " ++ l).flatten ++ shownBody (responsePieces body),
        ⟨rest, out⟩) := by
  obtain ⟨rest, hrun⟩ := clientPrint_run buf (lines.flatten ++ (ascii "\r\n" ++ body)) out
  have hpieces : responsePieces (lines.flatten ++ (ascii "\r\n" ++ body)) =
      lines ++ ascii "\r\n" :: responsePieces body := by
    rw [pieces_lines fun l hl => ⟨(hlines l hl).isLine, (hlines l hl).fits⟩,
      pieces_isLine crlf_isLine (by decide)]
  have hheader : ∀ l ∈ lines, decide (IsHeader l) = true := by
    intro l hl
    have hcstr := cstr_eq_self (hlines l hl).nul
    exact decide_eq_true ⟨by rw [hcstr]; exact (hlines l hl).notBlank, (hlines l hl).counted⟩
  have hblank : headerPieces (ascii "\r\n" :: responsePieces body) = [] :=
    List.takeWhile_cons_of_neg (by decide)
  have hheaders : headerPieces (lines ++ ascii "\r\n" :: responsePieces body) = lines := by
    rw [headerPieces, List.takeWhile_append_of_pos hheader]
    change lines ++ headerPieces _ = lines
    rw [hblank, List.append_nil]
  refine ⟨rest, ?_⟩
  rw [hrun, hpieces, shownHeaders, bodyPieces, hheaders]
  have hmap : (lines.map fun l => ascii "Header: " ++ cstr l) =
      lines.map fun l => ascii "Header: " ++ l :=
    List.map_congr_left fun l hl => by rw [cstr_eq_self (hlines l hl).nul]
  have hdrop : (lines ++ ascii "\r\n" :: responsePieces body).drop (lines.length + 1) =
      responsePieces body := by
    rw [List.append_cons]
    exact List.drop_left' (by simp)
  rw [hmap, hdrop]

theorem shownBody_cons {p : List UInt8} (hp : Counted p) (ps : List (List UInt8)) :
    shownBody (p :: ps) = cstr p ++ shownBody ps := by
  rw [shownBody, List.takeWhile_cons_of_pos (by simpa using hp), List.map_cons, List.flatten_cons]
  rfl

theorem shownBody_of_not_counted {p : List UInt8} (hp : ¬ Counted p) (ps : List (List UInt8)) :
    shownBody (p :: ps) = [] := by
  rw [shownBody, List.takeWhile_cons_of_neg (by simpa using hp)]
  rfl

theorem length_shownBody_le (ps : List (List UInt8)) :
    (shownBody ps).length ≤ ps.flatten.length := by
  induction ps with
  | nil => exact le_refl _
  | cons p ps ih =>
    by_cases hp : Counted p
    · have hcstr := length_cstr_le p
      rw [shownBody_cons hp, List.length_append, List.flatten_cons, List.length_append]
      omega
    · rw [shownBody_of_not_counted hp]
      exact Nat.zero_le _

/-- Nothing is lost only if every piece is printed, and printed whole. -/
theorem counted_of_length_shownBody {ps : List (List UInt8)}
    (h : (shownBody ps).length = ps.flatten.length) : ∀ p ∈ ps, p ≠ [] → Counted p ∧ 0 ∉ p := by
  induction ps with
  | nil => exact fun p hp => absurd hp List.not_mem_nil
  | cons q ps ih =>
    by_cases hq : Counted q
    · have hcstr := length_cstr_le q
      have hle := length_shownBody_le ps
      rw [shownBody_cons hq, List.length_append, List.flatten_cons, List.length_append] at h
      intro p hp hne
      rcases List.mem_cons.mp hp with rfl | hp
      · have hlength : (cstr p).length = p.length := by omega
        have hwhole : cstr p = p := (List.takeWhile_prefix _).eq_of_length hlength
        refine ⟨hq, fun hnul => ?_⟩
        have hne0 := List.takeWhile_eq_self_iff.mp hwhole 0 hnul
        exact absurd hne0 (by decide)
      · exact ih (by omega) p hp hne
    · rw [shownBody_of_not_counted hq] at h
      intro p hp hne
      have hnil := List.flatten_eq_nil_iff.mp (List.length_eq_zero_iff.mp h.symm) p hp
      exact absurd hnil hne

/-- **A body is printed whole** when it holds no NUL byte and `readline` returns 0 for none
    of its pieces. -/
theorem shownBody_eq_iff (body : List UInt8) :
    shownBody (responsePieces body) = body ↔
      0 ∉ body ∧ ∀ p ∈ responsePieces body, Counted p := by
  have hflatten : (responsePieces body).flatten = body := Lines.flatten_pieces 10 (by decide) body
  constructor
  · intro h
    have hlength : (shownBody (responsePieces body)).length =
        (responsePieces body).flatten.length := by rw [h, hflatten]
    have hall := counted_of_length_shownBody hlength
    have hpieces : ∀ p ∈ responsePieces body, p ≠ [] :=
      fun p hp => Lines.ne_nil_of_mem_pieces 10 (by decide) hp
    refine ⟨fun hnul => ?_, fun p hp => (hall p hp (hpieces p hp)).1⟩
    rw [← hflatten] at hnul
    obtain ⟨p, hp, hmem⟩ := List.mem_flatten.mp hnul
    exact (hall p hp (hpieces p hp)).2 hmem
  · rintro ⟨hnul, hcounted⟩
    have htake : (responsePieces body).takeWhile (fun p => decide (Counted p)) =
        responsePieces body :=
      List.takeWhile_eq_self_iff.mpr fun p hp => decide_eq_true (hcounted p hp)
    have hcstr : (responsePieces body).map cstr = responsePieces body := by
      refine (List.map_congr_left fun p hp => cstr_eq_self fun hmem => hnul ?_).trans
        (List.map_id _)
      rw [← hflatten]
      exact List.mem_flatten.mpr ⟨p, hp, hmem⟩
    rw [shownBody, htake, hcstr, hflatten]

/-- A body of lines that are read in one call is printed whole. -/
theorem shownBody_lines {ls : List (List UInt8)} (h : ∀ l ∈ ls, ShownLine l) :
    shownBody (responsePieces ls.flatten) = ls.flatten := by
  have hpieces := pieces_lines (fun l hl => ⟨(h l hl).isLine, (h l hl).fits⟩) []
  have hnil : responsePieces [] = [] := rfl
  rw [List.append_nil, hnil, List.append_nil] at hpieces
  rw [shownBody_eq_iff, hpieces]
  refine ⟨fun hnul => ?_, fun l hl => (h l hl).counted⟩
  obtain ⟨l, hl, hmem⟩ := List.mem_flatten.mp hnul
  exact (h l hl).nul hmem

/-- No newline and no NUL byte. -/
def Graphic (s : List UInt8) : Prop := ∀ b ∈ s, b ≠ 10 ∧ b ≠ 0

instance (s : List UInt8) : Decidable (Graphic s) :=
  List.decidableBAll _ s

theorem Graphic.append {s t : List UInt8} (hs : Graphic s) (ht : Graphic t) : Graphic (s ++ t) := by
  intro b hb
  rcases List.mem_append.mp hb with hb | hb
  · exact hs b hb
  · exact ht b hb

theorem shownLine_crlf {text : List UInt8} (hne : text ≠ []) (hgraphic : Graphic text)
    (hfits : text.length + 2 < MAXBUF) : ShownLine (text ++ ascii "\r\n") := by
  have hpos := List.length_pos_iff.mpr hne
  have hcrlf : (ascii "\r\n").length = 2 := by decide
  refine ⟨⟨text ++ [13], ?_, ?_⟩, ?_, ?_, ?_, ?_⟩
  · rw [List.append_assoc]
    rfl
  · rw [List.mem_append, not_or]
    exact ⟨fun hmem => (hgraphic 10 hmem).1 rfl, by decide⟩
  · rw [List.length_append]
    exact hfits
  · rw [List.mem_append, not_or]
    exact ⟨fun hmem => (hgraphic 0 hmem).2 rfl, by decide⟩
  · change 1 < (text ++ ascii "\r\n").length
    rw [List.length_append]
    omega
  · intro hblank
    have hlength := congrArg List.length hblank
    rw [List.length_append] at hlength
    omega

theorem shownLine_ascii (text : String)
    (h : ascii text ≠ [] ∧ Graphic (ascii text) ∧ (ascii text).length + 2 < MAXBUF) :
    ShownLine (ascii text ++ ascii "\r\n") :=
  shownLine_crlf h.1 h.2.1 h.2.2

theorem digit_graphic {c : Char} (h : c.isDigit = true) :
    UInt8.ofNat c.toNat ≠ 10 ∧ UInt8.ofNat c.toNat ≠ 0 := by
  have hrange : 48 ≤ c.toNat ∧ c.toNat ≤ 57 := by
    simpa [Char.isDigit, UInt32.le_iff_toNat_le] using h
  have hmod : c.toNat % 2 ^ 8 = c.toNat := Nat.mod_eq_of_lt (by omega)
  constructor <;> intro heq <;> have := congrArg UInt8.toNat heq <;>
    rw [UInt8.toNat_ofNat', hmod] at this <;> simp at this <;> omega

theorem nat_graphic (n : Nat) : Graphic (ascii (toString n)) := by
  intro b hb
  obtain ⟨c, hc, rfl⟩ := List.mem_map.mp hb
  have hdigits : c ∈ Nat.toDigits 10 n := by
    rw [← Nat.toList_repr]
    exact hc
  exact digit_graphic (Nat.isDigit_of_mem_toDigits (by decide) (by decide) hdigits)

theorem int_graphic (z : Int) : Graphic (ascii (toString z)) := by
  cases z with
  | ofNat k => exact nat_graphic k
  | negSucc k =>
    have hminus : ascii (toString (Int.negSucc k)) = ascii "-" ++ ascii (toString (k + 1)) := by
      change ascii ("-" ++ toString (k + 1)) = _
      rw [ascii, String.toList_append, List.map_append]
      rfl
    rw [hminus]
    exact Graphic.append (by decide) (nat_graphic (k + 1))

/-! ### The request -/

/-- Neither white space nor a NUL byte. -/
def Unbroken (s : List UInt8) : Prop := ∀ b ∈ s, isspace b = false ∧ b ≠ 0

instance (s : List UInt8) : Decidable (Unbroken s) :=
  List.decidableBAll _ s

/-- The file name is one word, and the request fits into the array of the client. -/
structure Sendable (hostname filename : List UInt8) : Prop where
  ne : filename ≠ []
  word : Unbroken filename
  host : 10 ∉ hostname
  fits : filename.length + hostname.length + 32 ≤ MAXBUF

variable {hostname filename : List UInt8}

theorem Sendable.line_isLine (h : Sendable hostname filename) :
    IsLine (ascii "GET " ++ filename ++ ascii " HTTP/1.1\n") := by
  refine ⟨ascii "GET " ++ filename ++ ascii " HTTP/1.1", ?_, ?_⟩
  · rw [List.append_assoc _ (ascii " HTTP/1.1")]
    rfl
  · simp only [List.mem_append, not_or]
    refine ⟨⟨by decide, fun hmem => ?_⟩, by decide⟩
    exact absurd (h.word 10 hmem).1 (by decide)

theorem Sendable.host_isLine (h : Sendable hostname filename) :
    ∀ l ∈ [ascii "host: " ++ hostname ++ ascii "\n"], IsLine l := by
  intro l hl
  rw [List.mem_singleton.mp hl]
  refine ⟨ascii "host: " ++ hostname, rfl, ?_⟩
  rw [List.mem_append, not_or]
  exact ⟨by decide, h.host⟩

/-- What the client sends is a complete request. -/
def clientRequest (h : Sendable hostname filename) : Request where
  line := ascii "GET " ++ filename ++ ascii " HTTP/1.1\n"
  headers := [ascii "host: " ++ hostname ++ ascii "\n"]
  rest := []
  line_isLine := h.line_isLine
  headers_isLine := h.host_isLine

theorem clientSend_run (h : Sendable hostname filename) :
    (clientSend hostname filename).run ⟨[], []⟩ = some ((), ⟨[], (clientRequest h).bytes⟩) := by
  have hfits := h.fits
  have hline : (ascii "GET " ++ filename ++ ascii " HTTP/1.1\n").length < MAXBUF := by
    simp [ascii]
    omega
  have hrequest : (ascii "GET " ++ filename ++ ascii " HTTP/1.1\n" ++ ascii "host: " ++ hostname ++
      ascii "\n\r\n").length < MAXBUF := by
    simp [ascii]
    omega
  have hbytes : ascii "GET " ++ filename ++ ascii " HTTP/1.1\n" ++ ascii "host: " ++ hostname ++
      ascii "\n\r\n" = (clientRequest h).bytes := by
    have hend : ascii "\n\r\n" = ascii "\n" ++ ascii "\r\n" := by decide
    simp [Request.bytes, clientRequest, hend]
  have hwrites : Writes (clientSend hostname filename) (clientRequest h).bytes := by
    rw [← hbytes]
    exact Writes.sprintf hline (Writes.sprintf hrequest (writes_writeOrDie _))
  exact hwrites ⟨[], []⟩

/-- The server finds the words in it. -/
theorem clientRequest_words (h : Sendable hostname filename) :
    (clientRequest h).words = [ascii "GET", filename, ascii "HTTP/1.1"] := by
  have hfits := h.fits
  have hnul : 0 ∉ (clientRequest h).line := by
    simp only [clientRequest, List.mem_append, not_or]
    exact ⟨⟨by decide, fun hmem => (h.word 0 hmem).2 rfl⟩, by decide⟩
  have hshort : (clientRequest h).line.length ≤ MAXBUF - 1 := by
    simp [clientRequest, ascii]
    omega
  have hline : (clientRequest h).line = ascii "GET" ++ 32 :: (filename ++ 32 ::
      (ascii "HTTP/1.1" ++ [10])) := by
    simp [clientRequest, ascii]
  have hget : Unbroken (ascii "GET") := by decide
  have hversion : Unbroken (ascii "HTTP/1.1") := by decide
  rw [Request.words, List.take_of_length_le hshort, cstr_eq_self hnul, hline,
    words_append_cons (by decide) (fun b hb => (hget b hb).1) rfl,
    words_append_cons h.ne (fun b hb => (h.word b hb).1) rfl,
    words_append_cons (by decide) (fun b hb => (hversion b hb).1) rfl]
  rfl

/-! ### A request and its response -/

/-- The client against `requestHandle`; `stack` and `buf` are what the arrays of the two
    hold before. -/
def fetch (host : Host) (hostname filename : List UInt8) (stack : Stack) (buf : List UInt8) :
    Option (List UInt8) := do
  let ((), asked) ← (clientSend hostname filename).run ⟨[], []⟩
  let ((), answered) ← (requestHandle host stack).run ⟨asked.output, []⟩
  let (printed, _) ← (clientPrint buf).run ⟨answered.output, []⟩
  return printed

theorem fetch_of_runs {host : Host} {stack : Stack} {buf sent out printed rest : List UInt8}
    {s : Socket} (hsend : (clientSend hostname filename).run ⟨[], []⟩ = some ((), ⟨[], sent⟩))
    (hhandle : (requestHandle host stack).run ⟨sent, []⟩ = some ((), ⟨rest, out⟩))
    (hprint : (clientPrint buf).run ⟨out, []⟩ = some (printed, s)) :
    fetch host hostname filename stack buf = some printed := by
  simp only [fetch, hsend, hhandle, hprint, Option.bind_eq_bind, Option.bind_some]
  rfl

/-- The lines in front of a file. -/
def staticLines (filename : List UInt8) (size : Int) : List (List UInt8) :=
  [ascii "HTTP/1.0 200 OK\r\n", ascii "Server: OSTEP WebServer\r\n",
    ascii "Content-Length: " ++ ascii (toString size) ++ ascii "\r\n",
    ascii "Content-Type: " ++ requestGetFiletype filename ++ ascii "\r\n"]

theorem staticHeader_eq (filename : List UInt8) (size : Int) :
    staticHeader filename size = (staticLines filename size).flatten ++ ascii "\r\n" := by
  have hend : ascii "\r\n\r\n" = ascii "\r\n" ++ ascii "\r\n" := by decide
  simp [staticHeader, staticLines, hend]

theorem staticLines_shown {filename : List UInt8} {size : Int}
    (hdigits : (ascii (toString size)).length ≤ 11) :
    ∀ l ∈ staticLines filename size, ShownLine l := by
  have htype := length_requestGetFiletype filename
  have hgraphic : Graphic (requestGetFiletype filename) := by
    unfold requestGetFiletype
    split_ifs <;> decide
  have hlength : (ascii "Content-Length: ").length = 16 ∧ (ascii "Content-Type: ").length = 14 := by
    decide
  intro l hl
  simp only [staticLines, List.mem_cons, List.not_mem_nil, or_false] at hl
  rcases hl with rfl | rfl | rfl | rfl
  · exact shownLine_ascii "HTTP/1.0 200 OK" (by decide)
  · exact shownLine_ascii "Server: OSTEP WebServer" (by decide)
  · refine shownLine_crlf (by simp [ascii])
      (Graphic.append (by decide) (int_graphic size)) ?_
    rw [List.length_append, hlength.1, MAXBUF]
    omega
  · refine shownLine_crlf (by simp [ascii]) (Graphic.append (by decide) hgraphic) ?_
    rw [List.length_append, hlength.2, MAXBUF]
    omega

/-- **The client prints the file it asks for.**  For a static file that can be read and
    mapped, the server answers the client's request with the header and the file; the
    client prints each header line, and of the file what is in front of the first piece
    for which `readline` returns 0.  A piece ends with a newline or has 8191 bytes, so a
    long line is more than one.  What is printed is all of the file just when it holds no
    NUL byte and no piece is a lone newline or, at the end, a lone byte. -/
theorem fetch_file {host : Host} {hostname filename : List UInt8} {sbuf : Stat}
    {srcp : List UInt8} (hsend : Sendable hostname filename)
    (hstatic : (parseUri filename).is_static = true)
    (hstat : host.stat (parseUri filename).filename = some sbuf)
    (hregular : sbuf.S_ISREG = true) (hreadable : sbuf.S_IRUSR = true)
    (hopen : host.openRdonly (parseUri filename).filename = true)
    (hmmap : host.mmap (parseUri filename).filename (toInt sbuf.st_size) = some srcp)
    (stack : Stack) (buf : List UInt8) :
    ∃ shown, fetch host hostname filename stack buf =
        some (((staticLines (parseUri filename).filename (toInt sbuf.st_size)).map fun l =>
          ascii "Header: " ++ l).flatten ++ shown) ∧
      shown = ((responsePieces srcp).takeWhile fun p => Counted p).flatMap cstr ∧
      (shown = srcp ↔ 0 ∉ srcp ∧ ∀ p ∈ responsePieces srcp, Counted p) := by
  refine ⟨shownBody (responsePieces srcp), ?_, (List.flatMap_def ..).symm, shownBody_eq_iff srcp⟩
  have hasks : AsksFor host (clientRequest hsend) (parseUri filename).filename sbuf := by
    refine ⟨⟨_, _, _, clientRequest_words hsend, by decide, hstatic, rfl⟩, hstat, hregular,
      hreadable⟩
  have hdigits := length_toString_toInt sbuf.st_size
  obtain ⟨rest, hrun⟩ := hasks.run stack
  rw [requestServeStatic_run (toInt sbuf.st_size) hopen hdigits, hmmap, Option.map_some,
    List.nil_append, staticHeader_eq, List.append_assoc] at hrun
  obtain ⟨rest', hprint⟩ :=
    clientPrint_response (staticLines_shown hdigits) buf srcp []
  exact fetch_of_runs (clientSend_run hsend) hrun hprint

/-- A host with one file of one line. -/
def oneLine : Host where
  stat path := if path = ascii "./a" then some ⟨0o100644, 3⟩ else none
  openRdonly path := path == ascii "./a"
  mmap path filesize := if path = ascii "./a" ∧ filesize = 3 then some (ascii "hi\n") else none
  cgi _ _ := none
  path_max path sbuf h := by
    rw [Option.ite_none_right_eq_some] at h
    rw [h.1]
    decide

theorem fetch_file_oneLine : ∃ shown,
    fetch oneLine (ascii "localhost") (ascii "/a") ⟨[], [], [], []⟩ [] =
      some (((staticLines (parseUri (ascii "/a")).filename (toInt 3)).map fun l =>
        ascii "Header: " ++ l).flatten ++ shown) ∧ shown = ascii "hi\n" := by
  have hsend : Sendable (ascii "localhost") (ascii "/a") :=
    ⟨by decide, by decide, by decide, by decide⟩
  have hstat : oneLine.stat (parseUri (ascii "/a")).filename = some ⟨0o100644, 3⟩ := by
    decide
  have hmmap : oneLine.mmap (parseUri (ascii "/a")).filename (toInt 3) = some (ascii "hi\n") := by
    decide
  obtain ⟨shown, hfetch, _, hwhole⟩ := fetch_file hsend (by decide) hstat (by decide)
    (by decide) (by decide) hmmap ⟨[], [], [], []⟩ []
  exact ⟨shown, hfetch, hwhole.mpr (by decide)⟩

/-! ### A file that is not there -/

/-- `request_handle` answers with the error 404. -/
theorem requestHandle_missing {host : Host} {r : Request} {method uri : List UInt8}
    {more : List (List UInt8)} (hwords : r.words = method :: uri :: more)
    (hget : isGet method = true) (hstat : host.stat (parseUri uri).filename = none)
    (hshort : (parseUri uri).filename.length < 4096) (stack : Stack) :
    ∃ rest, (requestHandle host stack).run ⟨r.bytes, []⟩ =
      some ((), ⟨rest, errorResponse (parseUri uri).filename (ascii "404") (ascii "Not found")
        (ascii "server could not find this file")⟩) := by
  have huri : uri.length < MAXBUF := Request.length_lt_of_mem_words (r := r) (by simp [hwords])
  have hfilename : (parseUri uri).filename.length < MAXBUF := hshort.trans (by decide)
  obtain ⟨n, buf, hline, hbuf⟩ := readline_line r.line_isLine stack.buf
    (r.headers.flatten ++ (ascii "\r\n" ++ r.rest)) []
  have hscan : scanRequest stack buf = (method, uri) := by
    simp only [scanRequest, hbuf]
    change ((r.words)[0]?.getD _, (r.words)[1]?.getD _) = _
    rw [hwords]
    rfl
  have hlines : ∀ l ∈ (if r.line.length ≤ MAXBUF - 1 then r.headers
      else r.line.drop (MAXBUF - 1) :: r.headers), IsLine l := by
    intro l hl
    split at hl
    · exact r.headers_isLine l hl
    · rcases List.mem_cons.mp hl with rfl | hl
      · exact r.line_isLine.drop (by omega)
      · exact r.headers_isLine l hl
  obtain ⟨rest, hheaders⟩ := requestReadHeaders_ends hlines stack.headers r.rest []
  have hstream : (if r.line.length ≤ MAXBUF - 1 then r.headers
      else r.line.drop (MAXBUF - 1) :: r.headers).flatten ++ (ascii "\r\n" ++ r.rest) =
      r.line.drop (MAXBUF - 1) ++ (r.headers.flatten ++ (ascii "\r\n" ++ r.rest)) := by
    split
    · rename_i hfits
      rw [List.drop_eq_nil_of_le hfits, List.nil_append]
    · rw [List.flatten_cons, List.append_assoc]
  rw [hstream] at hheaders
  have herror : Writes (requestError (parseUri uri).filename (ascii "404") (ascii "Not found")
      (ascii "server could not find this file")) _ :=
    requestError_writes hshort (by decide) (by decide) (by decide)
  refine ⟨rest, ?_⟩
  rw [requestHandle, StateT.run_bind, Request.bytes, hline]
  simp only [Option.bind_eq_bind, Option.bind_some, hscan, hget, Bool.not_true,
    Bool.false_eq_true, if_false]
  rw [StateT.run_bind, hheaders]
  simp only [Option.bind_eq_bind, Option.bind_some]
  rw [requestParseUri_bind huri hfilename]
  simp only [hstat]
  exact herror ⟨rest, []⟩

/-- The lines in front of an error page. -/
def errorLines (cause errnum shortmsg longmsg : List UInt8) : List (List UInt8) :=
  [ascii "HTTP/1.0 " ++ errnum ++ ascii " " ++ shortmsg ++ ascii "\r\n",
    ascii "Content-Type: text/html\r\n",
    ascii "Content-Length: " ++
      ascii (toString (errorBody cause errnum shortmsg longmsg).length) ++ ascii "\r\n"]

def errorBodyLines (cause errnum shortmsg longmsg : List UInt8) : List (List UInt8) :=
  [ascii "<!doctype html>\r\n", ascii "<head>\r\n",
    ascii "  <title>OSTEP WebServer Error</title>\r\n", ascii "</head>\r\n", ascii "<body>\r\n",
    ascii "  <h2>" ++ errnum ++ ascii ": " ++ shortmsg ++ ascii "</h2>\r\n",
    ascii "  <p>" ++ longmsg ++ ascii ": " ++ cause ++ ascii "</p>\r\n", ascii "</body>\r\n",
    ascii "</html>\r\n"]

theorem errorResponse_eq (cause errnum shortmsg longmsg : List UInt8) :
    errorResponse cause errnum shortmsg longmsg =
      (errorLines cause errnum shortmsg longmsg).flatten ++
        (ascii "\r\n" ++ (errorBodyLines cause errnum shortmsg longmsg).flatten) := by
  have hend : ascii "\r\n\r\n" = ascii "\r\n" ++ ascii "\r\n" := by decide
  simp [errorResponse, errorLines, errorBodyLines, errorBody, hend]

theorem errorBody_eq (cause errnum shortmsg longmsg : List UInt8) :
    errorBody cause errnum shortmsg longmsg =
      (errorBodyLines cause errnum shortmsg longmsg).flatten := by
  simp [errorBody, errorBodyLines]

/-- An error page is printed line by line. -/
theorem errorPage_shown {cause errnum shortmsg longmsg : List UInt8} (hcause : Graphic cause)
    (herrnum : Graphic errnum) (hshort : Graphic shortmsg) (hlong : Graphic longmsg)
    (hlength : cause.length < 4096)
    (hfits : errnum.length ≤ 100 ∧ shortmsg.length ≤ 100 ∧ longmsg.length ≤ 100) :
    (∀ l ∈ errorLines cause errnum shortmsg longmsg, ShownLine l) ∧
      ∀ l ∈ errorBodyLines cause errnum shortmsg longmsg, ShownLine l := by
  have hbody : (errorBody cause errnum shortmsg longmsg).length < 10 ^ 10 := by
    rw [length_errorBody]
    omega
  have hdigits := length_toString_lt hbody
  rw [← length_ascii] at hdigits
  have hliteral : (ascii "HTTP/1.0 ").length = 9 ∧ (ascii " ").length = 1 ∧
      (ascii "Content-Length: ").length = 16 ∧ (ascii "  <h2>").length = 6 ∧
      (ascii ": ").length = 2 ∧ (ascii "</h2>").length = 5 ∧ (ascii "  <p>").length = 5 ∧
      (ascii "</p>").length = 4 := by decide
  constructor
  · intro l hl
    simp only [errorLines, List.mem_cons, List.not_mem_nil, or_false] at hl
    rcases hl with rfl | rfl | rfl
    · refine shownLine_crlf (by simp [ascii]) (Graphic.append (Graphic.append (Graphic.append
        (by decide) herrnum) (by decide)) hshort) ?_
      simp only [List.length_append, hliteral, MAXBUF]
      omega
    · exact shownLine_ascii "Content-Type: text/html" (by decide)
    · refine shownLine_crlf (by simp [ascii])
        (Graphic.append (by decide) (nat_graphic _)) ?_
      simp only [List.length_append, hliteral, MAXBUF]
      omega
  · intro l hl
    simp only [errorBodyLines, List.mem_cons, List.not_mem_nil, or_false] at hl
    rcases hl with rfl | rfl | rfl | rfl | rfl | rfl | rfl | rfl | rfl
    · exact shownLine_ascii "<!doctype html>" (by decide)
    · exact shownLine_ascii "<head>" (by decide)
    · exact shownLine_ascii "  <title>OSTEP WebServer Error</title>" (by decide)
    · exact shownLine_ascii "</head>" (by decide)
    · exact shownLine_ascii "<body>" (by decide)
    · have hend : ascii "</h2>\r\n" = ascii "</h2>" ++ ascii "\r\n" := by decide
      rw [hend, ← List.append_assoc]
      refine shownLine_crlf (by simp [ascii]) (Graphic.append (Graphic.append (Graphic.append
        (Graphic.append (by decide) herrnum) (by decide)) hshort) (by decide)) ?_
      simp only [List.length_append, hliteral, MAXBUF]
      omega
    · have hend : ascii "</p>\r\n" = ascii "</p>" ++ ascii "\r\n" := by decide
      rw [hend, ← List.append_assoc]
      refine shownLine_crlf (by simp [ascii]) (Graphic.append (Graphic.append (Graphic.append
        (Graphic.append (by decide) hlong) (by decide)) hcause) (by decide)) ?_
      simp only [List.length_append, hliteral, MAXBUF]
      omega
    · exact shownLine_ascii "</body>" (by decide)
    · exact shownLine_ascii "</html>" (by decide)

theorem parseUri_graphic {uri : List UInt8} (h : Graphic uri) :
    Graphic (parseUri uri).filename := by
  unfold parseUri
  split
  · refine Graphic.append (Graphic.append (by decide) h) ?_
    split_ifs <;> decide
  · refine Graphic.append (by decide) fun b hb => h b ?_
    exact (List.takeWhile_prefix _).subset hb

/-- **The client prints the error page.**  When the server does not find the file, the name
    of which is one word and shorter than 4096 bytes, the client prints all of its answer. -/
theorem fetch_missing {host : Host} {hostname filename : List UInt8}
    (hsend : Sendable hostname filename)
    (hstat : host.stat (parseUri filename).filename = none)
    (hshort : (parseUri filename).filename.length < 4096) (stack : Stack) (buf : List UInt8) :
    fetch host hostname filename stack buf =
      some (((errorLines (parseUri filename).filename (ascii "404") (ascii "Not found")
          (ascii "server could not find this file")).map fun l => ascii "Header: " ++ l).flatten ++
        errorBody (parseUri filename).filename (ascii "404") (ascii "Not found")
          (ascii "server could not find this file")) := by
  have hword : Graphic filename := fun b hb =>
    ⟨fun h10 => by rw [h10] at hb; exact absurd (hsend.word 10 hb).1 (by decide),
      (hsend.word b hb).2⟩
  obtain ⟨hlines, hbody⟩ := errorPage_shown (parseUri_graphic hword)
    (by decide : Graphic (ascii "404")) (by decide : Graphic (ascii "Not found"))
    (by decide : Graphic (ascii "server could not find this file")) hshort
    (by decide)
  obtain ⟨rest, hhandle⟩ := requestHandle_missing (clientRequest_words hsend) (by decide)
    hstat hshort stack
  rw [errorResponse_eq] at hhandle
  obtain ⟨rest', hprint⟩ := clientPrint_response hlines buf (errorBodyLines _ _ _ _).flatten []
  have hwhole : shownBody (responsePieces (errorBodyLines (parseUri filename).filename
      (ascii "404") (ascii "Not found") (ascii "server could not find this file")).flatten) =
      errorBody (parseUri filename).filename (ascii "404") (ascii "Not found")
        (ascii "server could not find this file") := by
    rw [errorBody_eq]
    exact shownBody_lines hbody
  rw [hwhole] at hprint
  exact fetch_of_runs (clientSend_run hsend) hhandle hprint

theorem fetch_missing_oneLine :
    fetch oneLine (ascii "localhost") (ascii "/b") ⟨[], [], [], []⟩ [] =
      some (((errorLines (parseUri (ascii "/b")).filename (ascii "404") (ascii "Not found")
          (ascii "server could not find this file")).map fun l => ascii "Header: " ++ l).flatten ++
        errorBody (parseUri (ascii "/b")).filename (ascii "404") (ascii "Not found")
          (ascii "server could not find this file")) :=
  fetch_missing ⟨by decide, by decide, by decide, by decide⟩
    (by decide) (by decide) _ _

end OstepProjects.WebServer
