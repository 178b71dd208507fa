/-
  OstepProjects/WebServer/Buffers.lean
  ====================================
  **What is written to the arrays of `MAXBUF` bytes on the way of a request.**

  A line is read into `buf`, split into `method`, `uri` and `version`, and the URI is
  made into `filename` and `cgiargs`.  All of them have room for the line; an error
  page that quotes one of them does not.

  `requestStrings` are the strings that a request leads to, in their order, and
  `buffersSuffice_iff` says for which requests all of them fit.
-/
import OstepProjects.WebServer.CompleteRequest

namespace OstepProjects.WebServer

open OstepProjects.Bytes

/-- The strings that `request_error` writes to `body` and to `buf`. -/
def errorStrings (cause errnum shortmsg longmsg : List UInt8) : List (List UInt8) :=
  let body := errorBody cause errnum shortmsg longmsg
  [body,
    ascii "HTTP/1.0 " ++ errnum ++ ascii " " ++ shortmsg ++ ascii "\r\n",
    ascii "Content-Type: text/html\r\n",
    ascii "Content-Length: " ++ ascii (toString body.length) ++ ascii "\r\n\r\n"]

/-- The strings written for a request on `line`: what `readline` and `sscanf` write, what
    `request_parse_uri` writes, the copies that `file_size` makes, and the error pages. -/
def requestStrings (host : Host) (stack : Stack) (line : List UInt8) : List (List UInt8) :=
  let (method, uri) := scanRequest stack line
  let parsed := parseUri uri
  cstr line :: (words isspace (cstr line)).take 3 ++
    if !isGet method then
      errorStrings method (ascii "501") (ascii "Not Implemented")
        (ascii "server does not implement this method")
    else
      [parsed.cgiargs, parsed.filename] ++
        match host.stat parsed.filename with
        | none =>
          errorStrings parsed.filename (ascii "404") (ascii "Not found")
            (ascii "server could not find this file")
        | some sbuf =>
          [parsed.cgiargs, cstr line, parsed.filename] ++
            if parsed.is_static then
              if !sbuf.S_ISREG || !sbuf.S_IRUSR then
                errorStrings parsed.filename (ascii "403") (ascii "Forbidden")
                  (ascii "server could not read this file")
              else []
            else
              if !sbuf.S_ISREG || !sbuf.S_IXUSR then
                errorStrings parsed.filename (ascii "403") (ascii "Forbidden")
                  (ascii "server could not run this CGI program")
              else []

/-- Every string has room for its terminator in an array of `MAXBUF` bytes. -/
def Fit (strings : List (List UInt8)) : Prop := ∀ s ∈ strings, s.length < MAXBUF

def BuffersSuffice (host : Host) (stack : Stack) (line : List UInt8) : Prop :=
  Fit (requestStrings host stack line)

instance (strings : List (List UInt8)) : Decidable (Fit strings) :=
  inferInstanceAs (Decidable (∀ s ∈ strings, s.length < MAXBUF))

instance (host : Host) (stack : Stack) (line : List UInt8) :
    Decidable (BuffersSuffice host stack line) :=
  inferInstanceAs (Decidable (Fit _))

/-- How long the name of the file is that a URI asks for. -/
def nameLength (uri : List UInt8) : Nat :=
  if strstr uri (ascii "cgi") then 1 + (uri.takeWhile (· != 63)).length
  else 1 + uri.length + if uri.getLast? = some 47 then 10 else 0

/-- The method of a request that is not a GET fits into its error page; the part of a CGI
    URI from its `'?'` on fits into `cgiargs`, and the name of a file that does not exist
    into its error page. -/
def ShortEnough (host : Host) (method uri : List UInt8) : Prop :=
  if isGet method then
    (strstr uri (ascii "cgi") → (uri.dropWhile (· != 63)).length ≤ MAXBUF) ∧
      ((host.stat (parseUri uri).filename).isNone → nameLength uri ≤ 8020)
  else method.length ≤ 8008

instance (host : Host) (method uri : List UInt8) : Decidable (ShortEnough host method uri) :=
  inferInstanceAs (Decidable (if isGet method then
    (strstr uri (ascii "cgi") → (uri.dropWhile (· != 63)).length ≤ MAXBUF) ∧
      ((host.stat (parseUri uri).filename).isNone → nameLength uri ≤ 8020)
  else method.length ≤ 8008))

/-! ### The parts -/

theorem fit_append {s t : List (List UInt8)} : Fit (s ++ t) ↔ Fit s ∧ Fit t := by
  simp only [Fit, List.mem_append, or_imp, forall_and]

theorem fit_cons {s : List UInt8} {t : List (List UInt8)} :
    Fit (s :: t) ↔ s.length < MAXBUF ∧ Fit t := by
  simp only [Fit, List.mem_cons, forall_eq_or_imp]

theorem fit_nil : Fit [] := fun _ h => absurd h List.not_mem_nil

/-- An error page fits when its body does. -/
theorem fit_errorStrings {cause errnum shortmsg longmsg : List UInt8}
    (hshort : errnum.length + shortmsg.length ≤ 100) :
    Fit (errorStrings cause errnum shortmsg longmsg) ↔
      128 + (cause.length + errnum.length + shortmsg.length + longmsg.length) < MAXBUF := by
  rw [← length_errorBody, errorStrings, fit_cons, and_iff_left_iff_imp]
  intro hbody
  have hdigits :
      (ascii (toString (errorBody cause errnum shortmsg longmsg).length)).length ≤ 10 := by
    rw [MAXBUF] at hbody
    rw [length_ascii]
    exact length_toString_lt (by omega)
  generalize ascii (toString (errorBody cause errnum shortmsg longmsg).length) = digits at hdigits ⊢
  refine fit_cons.mpr ⟨?_, fit_cons.mpr ⟨by decide +kernel, fit_cons.mpr ⟨?_, fit_nil⟩⟩⟩
  · simp [ascii, MAXBUF]
    omega
  · simp [ascii, MAXBUF]
    omega

theorem sprintf_bind_isSome_iff {β : Type} {str : List UInt8} {k : List UInt8 → Serve β}
    {s : Socket} :
    ((sprintf str >>= k) s).isSome ↔ str.length < MAXBUF ∧ (k str s).isSome := by
  rw [sprintf]
  split_ifs with h
  · rw [pure_bind, and_iff_right h]
  · exact iff_of_false Bool.false_ne_true (fun hand => h hand.1)

theorem writeOrDie_bind {β : Type} (bytes : List UInt8) (k : Unit → Serve β) (s : Socket) :
    (writeOrDie bytes >>= k) s = k () { s with output := s.output ++ bytes } := rfl

/-- `request_error` comes back when the strings of its page fit. -/
theorem requestError_isSome_iff {cause errnum shortmsg longmsg : List UInt8} (s : Socket) :
    (requestError cause errnum shortmsg longmsg s).isSome ↔
      Fit (errorStrings cause errnum shortmsg longmsg) := by
  rw [requestError, sprintf_bind_isSome_iff, sprintf_bind_isSome_iff, writeOrDie_bind,
    sprintf_bind_isSome_iff, writeOrDie_bind, sprintf_bind_isSome_iff, writeOrDie_bind,
    errorStrings, fit_cons, fit_cons, fit_cons, fit_cons]
  iterate 4 apply and_congr_right'
  exact iff_of_true rfl fit_nil

/-- `request_parse_uri` comes back when its two strings fit. -/
theorem requestParseUri_isSome_iff (uri : List UInt8) (s : Socket) :
    (requestParseUri uri s).isSome ↔ Fit [(parseUri uri).filename, (parseUri uri).cgiargs] := by
  rw [requestParseUri, sprintf_bind_isSome_iff, sprintf_bind_isSome_iff, fit_cons, fit_cons]
  iterate 2 apply and_congr_right'
  exact iff_of_true rfl fit_nil

/-- What `sscanf` stores is no longer than the line. -/
theorem fit_words {line : List UInt8} (hline : line.length < MAXBUF) :
    Fit (cstr line :: (words isspace (cstr line)).take 3) := by
  have hcstr := (length_cstr_le line).trans_lt hline
  refine fit_cons.mpr ⟨hcstr, fun w hw => ?_⟩
  exact (length_le_of_mem_words (List.mem_of_mem_take hw)).trans_lt hcstr

theorem parseUri_dynamic {uri : List UInt8} (hcgi : strstr uri (ascii "cgi") = true) :
    parseUri uri =
      { is_static := false
        filename := ascii "." ++ uri.takeWhile (· != 63)
        cgiargs := (uri.dropWhile (· != 63)).drop 1 } := by
  rw [parseUri, hcgi]
  rfl

theorem parseUri_static {uri : List UInt8} (hcgi : strstr uri (ascii "cgi") = false) :
    parseUri uri =
      { is_static := true
        filename := ascii "." ++ uri ++ if uri.getLast? = some 47 then ascii "index.html" else []
        cgiargs := [] } := by
  rw [parseUri, hcgi]
  rfl

theorem length_filename (uri : List UInt8) : (parseUri uri).filename.length = nameLength uri := by
  have hdot : (ascii ".").length = 1 := rfl
  have hindex : (ascii "index.html").length = 10 := rfl
  rcases hcgi : strstr uri (ascii "cgi")
  · rw [parseUri_static hcgi, nameLength, hcgi, if_neg Bool.false_ne_true]
    simp only [List.length_append, hdot]
    split_ifs
    · rw [hindex]
    · rfl
  · rw [parseUri_dynamic hcgi, nameLength, hcgi, if_pos rfl, List.length_append, hdot]

theorem length_cgiargs_lt_iff (uri : List UInt8) :
    (parseUri uri).cgiargs.length < MAXBUF ↔
      (strstr uri (ascii "cgi") → (uri.dropWhile (· != 63)).length ≤ MAXBUF) := by
  rcases hcgi : strstr uri (ascii "cgi")
  · rw [parseUri_static hcgi]
    exact iff_of_true (Nat.zero_lt_of_lt (by decide : 0 < MAXBUF))
      (fun h => absurd h Bool.false_ne_true)
  · rw [parseUri_dynamic hcgi, List.length_drop, forall_prop_of_true rfl, MAXBUF]
    omega

/-- Of a file that exists the name is short, and the pages about it fit. -/
theorem fit_found {host : Host} {uri line : List UInt8} {sbuf : Stat} (hline : line.length < MAXBUF)
    (hstat : host.stat (parseUri uri).filename = some sbuf)
    (hcgiargs : (parseUri uri).cgiargs.length < MAXBUF) :
    Fit [(parseUri uri).cgiargs, cstr line, (parseUri uri).filename] ∧
      ∀ longmsg : List UInt8, longmsg.length ≤ 100 →
        Fit (errorStrings (parseUri uri).filename (ascii "403") (ascii "Forbidden") longmsg) := by
  have hpath := host.path_max _ _ hstat
  have hcstr := (length_cstr_le line).trans_lt hline
  have herrnum : (ascii "403").length = 3 := rfl
  have hshort : (ascii "Forbidden").length = 9 := rfl
  constructor
  · refine fit_cons.mpr ⟨hcgiargs, fit_cons.mpr ⟨hcstr, fit_cons.mpr ⟨?_, fit_nil⟩⟩⟩
    exact hpath.trans (by decide)
  · intro longmsg hlong
    rw [fit_errorStrings (by rw [herrnum, hshort]; decide), herrnum, hshort, MAXBUF]
    omega

/-- The arrays suffice for exactly these requests. -/
theorem buffersSuffice_iff {host : Host} {stack : Stack} {line : List UInt8}
    (hline : line.length < MAXBUF) :
    BuffersSuffice host stack line ↔
      ShortEnough host (scanRequest stack line).1 (scanRequest stack line).2 := by
  rcases hscan : scanRequest stack line with ⟨method, uri⟩
  simp only [BuffersSuffice, requestStrings, hscan, ShortEnough]
  rw [fit_append, and_iff_right (fit_words hline)]
  rcases hget : isGet method
  · have herrnum : (ascii "501").length = 3 := rfl
    have hshort : (ascii "Not Implemented").length = 15 := rfl
    have hlong : (ascii "server does not implement this method").length = 37 := rfl
    simp only [Bool.not_false, if_true, Bool.false_eq_true, if_false]
    rw [fit_errorStrings (by rw [herrnum, hshort]; decide), herrnum, hshort, hlong, MAXBUF]
    omega
  · simp only [Bool.not_true, Bool.false_eq_true, if_false, if_true]
    rw [fit_append, fit_cons, fit_cons, and_iff_left fit_nil, length_cgiargs_lt_iff, and_assoc]
    refine and_congr_right fun hcgiargs => ?_
    rw [length_filename]
    rcases hstat : host.stat (parseUri uri).filename with _ | sbuf
    · have herrnum : (ascii "404").length = 3 := rfl
      have hshort : (ascii "Not found").length = 9 := rfl
      have hlong : (ascii "server could not find this file").length = 31 := rfl
      simp only [Option.isNone_none, forall_prop_of_true]
      rw [fit_errorStrings (by rw [herrnum, hshort]; decide), herrnum, hshort, hlong, MAXBUF,
        length_filename]
      omega
    · obtain ⟨hcopies, hpage⟩ :=
        fit_found hline hstat ((length_cgiargs_lt_iff uri).mpr hcgiargs)
      have hname : nameLength uri < MAXBUF := by
        rw [← length_filename]
        exact (host.path_max _ _ hstat).trans (by decide)
      refine iff_of_true ⟨hname, fit_append.mpr ⟨hcopies, ?_⟩⟩ (by simp)
      split_ifs
      · exact hpage _ (by decide)
      · exact fit_nil
      · exact hpage _ (by decide)
      · exact fit_nil

/-- A host without files. -/
def emptyHost : Host where
  stat _ := none
  openRdonly _ := false
  mmap _ _ := none
  cgi _ _ := none
  path_max _ _ h := absurd h (Option.some_ne_none _).symm

theorem buffersSuffice_index :
    BuffersSuffice emptyHost ⟨[], [], [], []⟩ (ascii "GET /index.html HTTP/1.1\r\n") :=
  (buffersSuffice_iff (by decide)).mpr (by decide +kernel)

theorem isGet_of_length {method : List UInt8} (h : method.length ≠ 3) : isGet method = false := by
  rw [isGet, beq_eq_false_iff_ne]
  intro heq
  rw [← List.length_map (f := tolower), heq] at h
  exact h rfl

theorem scanRequest_word (stack : Stack) {line : List UInt8} (hne : line ≠ [])
    (hnul : 0 ∉ line) (hspace : ∀ c ∈ line, isspace c = false) :
    scanRequest stack line = (line, stack.uri) := by
  have hempty : line.isEmpty = false := List.isEmpty_eq_false_iff.mpr hne
  have hwords : words isspace line = [line] := by
    rw [words, List.splitOnP_eq_singleton hspace]
    simp [hempty]
  rw [scanRequest, cstr_eq_self hnul, hwords]
  rfl

/-- A line that is one long word: the page that calls it unknown does not fit into `body`. -/
theorem not_buffersSuffice_word :
    ¬ BuffersSuffice emptyHost ⟨[], [], [], []⟩ (List.replicate 8191 65) := by
  intro h
  have hlength : (List.replicate 8191 (65 : UInt8)).length = 8191 := List.length_replicate
  have hne : List.replicate 8191 (65 : UInt8) ≠ [] := by
    rw [← List.length_pos_iff, hlength]
    decide
  have hscan := scanRequest_word ⟨[], [], [], []⟩ hne
    (fun hmem => absurd (List.eq_of_mem_replicate hmem) (by decide))
    (fun c hc => by rw [List.eq_of_mem_replicate hc]; decide)
  have hget : isGet (List.replicate 8191 (65 : UInt8)) = false :=
    isGet_of_length (by rw [hlength]; decide)
  simp only [BuffersSuffice, requestStrings, hscan, hget, Bool.not_false, if_true] at h
  have hpage := (fit_append.mp h).2
  rw [fit_errorStrings (by decide), hlength] at hpage
  exact absurd hpage (by decide)

end OstepProjects.WebServer
