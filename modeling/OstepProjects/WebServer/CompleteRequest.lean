/-
  OstepProjects/WebServer/CompleteRequest.lean
  ============================================
  **Requests with a complete request line and header block.**

  A `Request` is a request line, header lines and the empty line that ends them, of
  any length and contents.  On such a request the header loop ends
  (`readHeaders_ends`).  If its method is GET, its file is found and serving the file
  fails no assertion (`Request.Servable`), `fileSize` writes nothing and gives a
  record from which `requestHandleInfor` writes what `requestHandle` would have
  written (`Request.Servable.recorded`).
-/
import OstepProjects.WebServer.Request

namespace OstepProjects.WebServer

open OstepProjects.Bytes

/-- A newline at the end and nowhere else. -/
def IsLine (l : List UInt8) : Prop := ∃ text, l = text ++ [10] ∧ 10 ∉ text

structure Request where
  line : List UInt8
  headers : List (List UInt8)
  rest : List UInt8
  line_isLine : IsLine line
  headers_isLine : ∀ h ∈ headers, IsLine h

def Request.bytes (r : Request) : List UInt8 :=
  r.line ++ (r.headers.flatten ++ (ascii "\r\n" ++ r.rest))

/-- The words of the request line that fit into `buf`. -/
def Request.words (r : Request) : List (List UInt8) :=
  Bytes.words isspace (cstr (r.line.take (MAXBUF - 1)))

def getRequest : Request where
  line := ascii "GET /a HTTP/1.0\r\n"
  headers := []
  rest := []
  line_isLine := ⟨ascii "GET /a HTTP/1.0\r", by decide +kernel, by decide +kernel⟩
  headers_isLine _ h := by cases h

def postRequest : Request where
  line := ascii "POST /a HTTP/1.0\r\n"
  headers := []
  rest := []
  line_isLine := ⟨ascii "POST /a HTTP/1.0\r", by decide +kernel, by decide +kernel⟩
  headers_isLine _ h := by cases h

/-- A connection, with what the stack holds when it is handled. -/
structure Connection where
  fd : Nat
  request : Request
  stack : Stack

/-- No assertion fails while the file is served. -/
def Host.Serves (host : Host) (parsed : ParsedUri) (sbuf : Stat) : Prop :=
  if parsed.is_static then
    sbuf.S_ISREG = true → sbuf.S_IRUSR = true →
      host.openRdonly parsed.filename = true ∧
        (host.mmap parsed.filename (toInt sbuf.st_size)).isSome
  else
    sbuf.S_ISREG = true → sbuf.S_IXUSR = true →
      (host.cgi parsed.filename parsed.cgiargs).isSome

/-- The method is GET, the file is found, and serving it fails no assertion. -/
def Request.Servable (host : Host) (r : Request) : Prop :=
  ∃ method uri more sbuf, r.words = method :: uri :: more ∧ isGet method = true ∧
    host.stat (parseUri uri).filename = some sbuf ∧ host.Serves (parseUri uri) sbuf

/-! ### Reading lines -/

theorem IsLine.length_pos {l : List UInt8} (h : IsLine l) : 0 < l.length := by
  obtain ⟨text, rfl, _⟩ := h
  simp

theorem IsLine.drop {l : List UInt8} (h : IsLine l) {m : Nat} (hm : m < l.length) :
    IsLine (l.drop m) := by
  obtain ⟨text, rfl, htext⟩ := h
  have hle : m ≤ text.length := by simpa using Nat.lt_succ_iff.mp (by simpa using hm)
  refine ⟨text.drop m, List.drop_append_of_le_length hle, ?_⟩
  intro hmem
  exact htext (List.mem_of_mem_drop hmem)

theorem readChars_line {l : List UInt8} (h : IsLine l) (tail : List UInt8) (room : Nat) :
    readChars room (l ++ tail) = (l.take room, l.drop room ++ tail, false) := by
  obtain ⟨text, rfl, htext⟩ := h
  induction text generalizing room with
  | nil => cases room <;> simp [readChars]
  | cons c text ih =>
    cases room with
    | zero => simp [readChars]
    | succ room =>
      have hc : ¬ c = 10 := fun hc => htext (by simp [hc])
      have htext' : 10 ∉ text := fun hmem => htext (by simp [hmem])
      simp only [List.cons_append, readChars, if_neg hc, List.take_succ_cons, List.drop_succ_cons]
      rw [ih room htext']

theorem readline_line {l : List UInt8} (h : IsLine l) (buf tail out : List UInt8) :
    ∃ n buf', (readline buf MAXBUF).run ⟨l ++ tail, out⟩ =
        some ((n, buf'), ⟨l.drop (MAXBUF - 1) ++ tail, out⟩) ∧
      cstr buf' = cstr (l.take (MAXBUF - 1)) := by
  have hrun : ∃ n, (readline buf MAXBUF).run ⟨l ++ tail, out⟩ = some ((n, l.take (MAXBUF - 1) ++
      0 :: buf.drop ((l.take (MAXBUF - 1)).length + 1)),
      ⟨l.drop (MAXBUF - 1) ++ tail, out⟩) := by
    simp only [readline, StateT.run, readChars_line h, Bool.false_eq_true, false_and, if_false]
    exact ⟨_, rfl⟩
  obtain ⟨n, hrun⟩ := hrun
  exact ⟨n, _, hrun, cstr_append_nul _ _⟩

theorem crlf_isLine : IsLine (ascii "\r\n") := ⟨[13], by decide, by decide⟩

/-- **The header loop ends** on lines followed by an empty one. -/
theorem readHeaders_ends (rest out : List UInt8) {k : Nat} {lines : List (List UInt8)}
    (hlines : ∀ l ∈ lines, IsLine l) (hk : lines.flatten.length < k) (buf : List UInt8) :
    ∃ rest', (readHeaders k buf).run ⟨lines.flatten ++ (ascii "\r\n" ++ rest), out⟩ =
      some ((), ⟨rest', out⟩) := by
  induction k generalizing lines buf with
  | zero => omega
  | succ k ih =>
    simp only [readHeaders, StateT.run_bind]
    cases lines with
    | nil =>
      obtain ⟨n, buf', hrun, hbuf⟩ := readline_line crlf_isLine buf rest out
      have hcrlf : cstr buf' = ascii "\r\n" := by
        rw [hbuf]
        decide +kernel
      rw [List.flatten_nil, List.nil_append, hrun]
      simp only [Option.bind_eq_bind, Option.bind_some, if_pos hcrlf]
      exact ⟨_, rfl⟩
    | cons l lines =>
      have hl := hlines l (by simp)
      have hrest : ∀ l ∈ lines, IsLine l := fun l hmem => hlines l (by simp [hmem])
      have hpos := hl.length_pos
      obtain ⟨n, buf', hrun, hbuf⟩ :=
        readline_line hl buf (lines.flatten ++ (ascii "\r\n" ++ rest)) out
      rw [List.flatten_cons, List.append_assoc, hrun]
      simp only [Option.bind_eq_bind, Option.bind_some]
      by_cases hcrlf : cstr buf' = ascii "\r\n"
      · rw [if_pos hcrlf]
        exact ⟨_, rfl⟩
      · rw [if_neg hcrlf]
        simp only [List.flatten_cons, List.length_append] at hk
        have hroom : 0 < MAXBUF - 1 := by decide
        -- what did not fit into the array is read as a line of its own
        rcases Nat.lt_or_ge (MAXBUF - 1) l.length with hlong | hshort
        · have hlines' : ∀ l' ∈ l.drop (MAXBUF - 1) :: lines, IsLine l' := by
            intro l' hmem
            rcases List.mem_cons.mp hmem with rfl | hmem
            · exact hl.drop hlong
            · exact hrest l' hmem
          have hdrop : (l.drop (MAXBUF - 1)).length = l.length - (MAXBUF - 1) := List.length_drop
          have hlen : (l.drop (MAXBUF - 1) :: lines).flatten.length < k := by
            simp only [List.flatten_cons, List.length_append, hdrop]
            omega
          obtain ⟨rest', hends⟩ := ih hlines' hlen buf'
          rw [List.flatten_cons, List.append_assoc] at hends
          exact ⟨rest', hends⟩
        · rw [List.drop_eq_nil_of_le hshort, List.nil_append]
          exact ih hrest (by omega) buf'

theorem requestReadHeaders_ends {lines : List (List UInt8)} (hlines : ∀ l ∈ lines, IsLine l)
    (buf rest out : List UInt8) :
    ∃ rest', (requestReadHeaders buf).run ⟨lines.flatten ++ (ascii "\r\n" ++ rest), out⟩ =
      some ((), ⟨rest', out⟩) := by
  simp only [requestReadHeaders, StateT.run_bind, StateT.run_get, Option.pure_def,
    Option.bind_eq_bind, Option.bind_some]
  exact readHeaders_ends rest out hlines (by simp only [List.length_append]; omega) buf

/-! ### What is written -/

/-- The handler comes back and writes `out`. -/
def Writes (m : Serve Unit) (out : List UInt8) : Prop :=
  ∀ s, m.run s = some ((), { s with output := s.output ++ out })

theorem writes_writeOrDie (bytes : List UInt8) : Writes (writeOrDie bytes) bytes := fun _ => rfl

theorem Writes.bind {m : Serve Unit} {k : Unit → Serve Unit} {out out' : List UInt8}
    (hm : Writes m out) (hk : Writes (k ()) out') : Writes (m >>= k) (out ++ out') := by
  intro s
  rw [StateT.run_bind, hm s]
  simp only [Option.bind_eq_bind, Option.bind_some]
  rw [hk, List.append_assoc]

theorem Writes.sprintf {s out : List UInt8} {k : List UInt8 → Serve Unit}
    (h : s.length < MAXBUF) (hk : Writes (k s) out) :
    Writes (WebServer.sprintf s >>= k) out := by
  rw [WebServer.sprintf, if_pos h, pure_bind]
  exact hk

theorem Writes.orDie {α : Type} {x : Option α} {a : α} {out : List UInt8} {k : α → Serve Unit}
    (h : x = some a) (hk : Writes (k a) out) : Writes (WebServer.orDie x >>= k) out := by
  subst h
  exact hk

theorem length_ascii (text : String) : (ascii text).length = text.length := by
  simp [ascii, String.length_toList]

theorem length_toString_lt {n : Nat} (h : n < 10 ^ 10) : (toString n).length ≤ 10 :=
  (Nat.length_repr_le_iff (by decide)).mpr h

theorem length_toString_toInt (size : Nat) : (ascii (toString (toInt size))).length ≤ 11 := by
  rw [length_ascii]
  have hlo : -2147483648 ≤ toInt size := Int.le_bmod (x := size) (m := 2 ^ 32) (by decide)
  have hhi : toInt size < 2147483648 := Int.bmod_lt (x := size) (m := 2 ^ 32) (by decide)
  cases hsize : toInt size with
  | ofNat k =>
    rw [hsize, Int.ofNat_eq_natCast] at hhi
    exact (length_toString_lt (by omega)).trans (by decide)
  | negSucc k =>
    rw [hsize] at hlo
    have hlen := length_toString_lt (n := k + 1) (by omega)
    change ("-" ++ toString (k + 1)).length ≤ 11
    rw [String.length_append]
    have hminus : "-".length = 1 := rfl
    omega

theorem length_errorBody (cause errnum shortmsg longmsg : List UInt8) :
    (errorBody cause errnum shortmsg longmsg).length =
      128 + (cause.length + errnum.length + shortmsg.length + longmsg.length) := by
  unfold errorBody
  simp only [List.length_append, length_ascii]
  have hfixed : "<!doctype html>\r\n".length + "<head>\r\n".length +
      "  <title>OSTEP WebServer Error</title>\r\n".length + "</head>\r\n".length +
      "<body>\r\n".length + "  <h2>".length + ": ".length + "</h2>\r\n".length +
      "  <p>".length + ": ".length + "</p>\r\n".length + "</body>\r\n".length +
      "</html>\r\n".length = 128 := by decide
  omega

def errorResponse (cause errnum shortmsg longmsg : List UInt8) : List UInt8 :=
  (ascii "HTTP/1.0 " ++ errnum ++ ascii " " ++ shortmsg ++ ascii "\r\n") ++
    (ascii "Content-Type: text/html\r\n" ++
      ((ascii "Content-Length: " ++
        ascii (toString (errorBody cause errnum shortmsg longmsg).length) ++ ascii "\r\n\r\n") ++
        errorBody cause errnum shortmsg longmsg))

/-- An error response about a short string fits into the arrays. -/
theorem requestError_writes {cause errnum shortmsg longmsg : List UInt8}
    (hcause : cause.length < 4096) (herrnum : errnum.length ≤ 100)
    (hshort : shortmsg.length ≤ 100) (hlong : longmsg.length ≤ 100) :
    Writes (requestError cause errnum shortmsg longmsg)
      (errorResponse cause errnum shortmsg longmsg) := by
  have hbody : (errorBody cause errnum shortmsg longmsg).length < MAXBUF := by
    rw [length_errorBody, MAXBUF]
    omega
  have hdigits :
      (ascii (toString (errorBody cause errnum shortmsg longmsg).length)).length ≤ 10 := by
    rw [MAXBUF] at hbody
    rw [length_ascii]
    exact length_toString_lt (by omega)
  apply Writes.sprintf hbody
  unfold errorResponse
  generalize ascii (toString (errorBody cause errnum shortmsg longmsg).length) = digits at hdigits ⊢
  refine Writes.sprintf (by simp [ascii, MAXBUF]; omega) ((writes_writeOrDie _).bind ?_)
  refine Writes.sprintf (by decide +kernel) ((writes_writeOrDie _).bind ?_)
  refine Writes.sprintf (by simp [ascii, MAXBUF]; omega) ((writes_writeOrDie _).bind ?_)
  exact writes_writeOrDie _

theorem length_requestGetFiletype (filename : List UInt8) :
    (requestGetFiletype filename).length ≤ 10 := by
  unfold requestGetFiletype
  split_ifs <;> decide +kernel

theorem requestServeStatic_writes {host : Host} {filename srcp : List UInt8} {filesize : Int}
    (hfilesize : (ascii (toString filesize)).length ≤ 11) (hopen : host.openRdonly filename = true)
    (hmmap : host.mmap filename filesize = some srcp) :
    ∃ out, Writes (requestServeStatic host filename filesize) out := by
  have htype := length_requestGetFiletype filename
  refine ⟨(ascii "HTTP/1.0 200 OK\r\n" ++ ascii "Server: OSTEP WebServer\r\n" ++
    ascii "Content-Length: " ++ ascii (toString filesize) ++ ascii "\r\n" ++
    ascii "Content-Type: " ++ requestGetFiletype filename ++ ascii "\r\n\r\n") ++ srcp, ?_⟩
  have hguard : guard (host.openRdonly filename = true) = some () := by simp [hopen]
  refine Writes.orDie hguard (Writes.orDie hmmap ?_)
  generalize ascii (toString filesize) = digits at hfilesize ⊢
  refine Writes.sprintf (by simp [ascii, MAXBUF]; omega) ((writes_writeOrDie _).bind ?_)
  exact writes_writeOrDie _

theorem requestServeDynamic_writes {host : Host} {filename cgiargs written : List UInt8}
    (hcgi : host.cgi filename cgiargs = some written) :
    ∃ out, Writes (requestServeDynamic host filename cgiargs) out := by
  refine ⟨(ascii "HTTP/1.0 200 OK\r\n" ++ ascii "Server: OSTEP WebServer\r\n") ++ written, ?_⟩
  refine Writes.sprintf (by decide +kernel) ((writes_writeOrDie _).bind ?_)
  exact Writes.orDie hcgi (writes_writeOrDie _)

/-- Every branch of the handler comes back for a file that is served. -/
theorem requestHandleInfor_writes {host : Host} (infor : RequestInfor)
    (hfilename : infor.filename.length < 4096)
    (hserves : host.Serves ⟨infor.is_static, infor.filename, infor.cgiargs⟩ infor.sbuf) :
    ∃ out, Writes (requestHandleInfor host infor) out := by
  have herror : ∀ longmsg : List UInt8, longmsg.length ≤ 100 →
      Writes (requestError infor.filename (ascii "403") (ascii "Forbidden") longmsg) _ :=
    fun longmsg hlong => requestError_writes hfilename (by decide) (by decide) hlong
  unfold requestHandleInfor
  unfold Host.Serves at hserves
  cases hstatic : infor.is_static with
  | true =>
    simp only [hstatic, if_true] at hserves ⊢
    cases hperm : (!infor.sbuf.S_ISREG || !infor.sbuf.S_IRUSR) with
    | true =>
      rw [if_pos rfl]
      exact ⟨_, herror _ (by decide +kernel)⟩
    | false =>
      rw [if_neg (by simp)]
      simp only [Bool.or_eq_false_iff, Bool.not_eq_false'] at hperm
      obtain ⟨hopen, hmmap⟩ := hserves hperm.1 hperm.2
      obtain ⟨srcp, hmmap⟩ := Option.isSome_iff_exists.mp hmmap
      exact requestServeStatic_writes (length_toString_toInt _) hopen hmmap
  | false =>
    simp only [hstatic, Bool.false_eq_true, if_false] at hserves ⊢
    cases hperm : (!infor.sbuf.S_ISREG || !infor.sbuf.S_IXUSR) with
    | true =>
      rw [if_pos rfl]
      exact ⟨_, herror _ (by decide +kernel)⟩
    | false =>
      rw [if_neg (by simp)]
      simp only [Bool.or_eq_false_iff, Bool.not_eq_false'] at hperm
      obtain ⟨written, hcgi⟩ := Option.isSome_iff_exists.mp (hserves hperm.1 hperm.2)
      exact requestServeDynamic_writes hcgi

/-! ### The two paths -/

/-- `infor` is the record of the connection, and `out` its response on either path. -/
structure Recorded (host : Host) (conn : Connection) (infor : RequestInfor)
    (out : List UInt8) : Prop where
  fd : infor.fd = conn.fd
  fileSize : ∃ rest, (fileSize host conn.stack conn.fd).run ⟨conn.request.bytes, []⟩ =
    some (some infor, ⟨rest, []⟩)
  handleInfor : Writes (requestHandleInfor host infor) out
  handle : ∀ stack, ∃ rest, (requestHandle host stack).run ⟨conn.request.bytes, []⟩ =
    some ((), ⟨rest, out⟩)

theorem Request.length_lt_of_mem_words {r : Request} {w : List UInt8} (h : w ∈ r.words) :
    w.length < MAXBUF := by
  have hword := length_le_of_mem_words h
  have hcstr := length_cstr_le (r.line.take (MAXBUF - 1))
  have htake : (r.line.take (MAXBUF - 1)).length ≤ MAXBUF - 1 := List.length_take_le ..
  have hroom : 0 < MAXBUF := by decide
  omega

theorem length_cgiargs_le (uri : List UInt8) : (parseUri uri).cgiargs.length ≤ uri.length := by
  unfold parseUri
  split
  · exact Nat.zero_le _
  · have hdrop := (List.dropWhile_suffix (l := uri) (fun b : UInt8 => b != 63)).length_le
    simp only [List.length_drop]
    omega

theorem requestParseUri_bind {α : Type} {uri : List UInt8} (huri : uri.length < MAXBUF)
    (hfilename : (parseUri uri).filename.length < MAXBUF) (k : ParsedUri → Serve α) :
    (requestParseUri uri >>= k) = k (parseUri uri) := by
  have hcgiargs := (length_cgiargs_le uri).trans_lt huri
  simp only [requestParseUri, sprintf, if_pos hfilename, if_pos hcgiargs, pure_bind]

/-- `file_size` writes nothing when it gives a record. -/
theorem fileSize_run {host : Host} {r : Request} {method uri : List UInt8}
    {more : List (List UInt8)} {sbuf : Stat} (hwords : r.words = method :: uri :: more)
    (hget : isGet method = true) (hstat : host.stat (parseUri uri).filename = some sbuf)
    (stack : Stack) (fd : Nat) :
    ∃ rest, (fileSize host stack fd).run ⟨r.bytes, []⟩ =
      some (some ⟨sbuf, cstr (r.line.take (MAXBUF - 1)), (parseUri uri).filename,
        (parseUri uri).cgiargs, (parseUri uri).is_static, fd⟩, ⟨rest, []⟩) := by
  have huri : uri.length < MAXBUF := Request.length_lt_of_mem_words (r := r) (by simp [hwords])
  have hfilename : (parseUri uri).filename.length < MAXBUF :=
    (host.path_max _ _ hstat).trans (by decide)
  obtain ⟨n, buf, hline, hbuf⟩ := readline_line r.line_isLine stack.buf
    (r.headers.flatten ++ (ascii "\r\n" ++ r.rest)) []
  have hscan : scanRequest stack buf = (method, uri) := by
    simp only [scanRequest, hbuf]
    change ((r.words)[0]?.getD _, (r.words)[1]?.getD _) = _
    rw [hwords]
    rfl
  -- a request line longer than the array runs on into the header block
  have hheaders : ∃ rest, (requestReadHeaders stack.headers).run ⟨r.line.drop (MAXBUF - 1) ++
      (r.headers.flatten ++ (ascii "\r\n" ++ r.rest)), []⟩ = some ((), ⟨rest, []⟩) := by
    rcases Nat.lt_or_ge (MAXBUF - 1) r.line.length with hlong | hshort
    · have hlines : ∀ l ∈ r.line.drop (MAXBUF - 1) :: r.headers, IsLine l := by
        intro l hmem
        rcases List.mem_cons.mp hmem with rfl | hmem
        · exact r.line_isLine.drop hlong
        · exact r.headers_isLine l hmem
      obtain ⟨rest, hends⟩ := requestReadHeaders_ends hlines stack.headers r.rest []
      rw [List.flatten_cons, List.append_assoc] at hends
      exact ⟨rest, hends⟩
    · rw [List.drop_eq_nil_of_le hshort, List.nil_append]
      exact requestReadHeaders_ends r.headers_isLine stack.headers r.rest []
  obtain ⟨rest, hheaders⟩ := hheaders
  refine ⟨rest, ?_⟩
  rw [fileSize, StateT.run_bind, Request.bytes, hline]
  simp only [Option.bind_eq_bind, Option.bind_some, hscan, hget, Bool.not_true,
    Bool.false_eq_true, if_false]
  rw [StateT.run_bind, hheaders]
  simp only [Option.bind_eq_bind, Option.bind_some]
  rw [requestParseUri_bind huri hfilename]
  simp only [hstat, hbuf]
  rfl

/-- **Both paths give the same response** to a request that is servable. -/
theorem Request.Servable.recorded {host : Host} {conn : Connection}
    (h : conn.request.Servable host) : ∃ infor out, Recorded host conn infor out := by
  obtain ⟨method, uri, more, sbuf, hwords, hget, hstat, hserves⟩ := h
  have hrecord := fileSize_run hwords hget hstat
  obtain ⟨out, hwrites⟩ := requestHandleInfor_writes
    ⟨sbuf, cstr (conn.request.line.take (MAXBUF - 1)), (parseUri uri).filename,
      (parseUri uri).cgiargs, (parseUri uri).is_static, conn.fd⟩
    (host.path_max _ _ hstat) hserves
  refine ⟨_, out, rfl, hrecord conn.stack conn.fd, hwrites, ?_⟩
  intro stack
  obtain ⟨rest, hrun⟩ := hrecord stack conn.fd
  refine ⟨rest, ?_⟩
  rw [requestHandle_eq host stack conn.fd, StateT.run_bind, hrun]
  simp only [Option.bind_eq_bind, Option.bind_some, Option.elim_some]
  exact hwrites ⟨rest, []⟩

end OstepProjects.WebServer
