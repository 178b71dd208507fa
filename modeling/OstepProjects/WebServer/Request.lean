/-
  OstepProjects/WebServer/Request.lean
  ====================================
  **Handling one request: `request.c`, and `readline` of `io_helper.c`.**

  A handler runs on a socket, of which it reads the bytes the client has sent and to
  which it writes the response.  It may also not come back: an assertion of an
  `…_or_die` macro fails, a string is longer than the array it is written to, or a
  loop never ends.  `Serve` is the monad of these effects.  `read` and `write` on a
  socket, `close` and `munmap` are taken to succeed.

  `requestHandle` serves a connection in one piece, as in FIFO mode.  In SFF mode
  `fileSize` and `requestHandleInfor` do it in two, with a record in between.  Run one
  after the other they are `requestHandle` (`requestHandle_eq`), except that the
  record may be NULL.
-/
import OstepProjects.Lib.Bytes

namespace OstepProjects.WebServer

open OstepProjects.Bytes

def MAXBUF : Nat := 8192

/-! ### The socket -/

structure Socket where
  input : List UInt8
  output : List UInt8
deriving DecidableEq

abbrev Serve := StateT Socket Option

def writeOrDie (bytes : List UInt8) : Serve Unit :=
  modify fun s => { s with output := s.output ++ bytes }

/-- The string that `sprintf`, `strcpy` or `strcat` leaves in an array of `MAXBUF` bytes. -/
def sprintf (s : List UInt8) : Serve (List UInt8) :=
  if s.length < MAXBUF then pure s else failure

def orDie {α : Type} (x : Option α) : Serve α := StateT.lift x

/-- The loop of `readline`, with room for so many more bytes: the bytes read, those
    left, and whether `read` met the end of the stream. -/
def readChars : Nat → List UInt8 → List UInt8 × List UInt8 × Bool
  | 0, input => ([], input, false)
  | _ + 1, [] => ([], [], true)
  | room + 1, c :: input =>
    if c = 10 then ([c], input, false)
    else
      let (chars, rest, eof) := readChars room input
      (c :: chars, rest, eof)

/-- The value returned and what `buf` holds.  At the end of the stream with one byte
    read, the terminator is not written and 0 is returned. -/
def readline (buf : List UInt8) (maxlen : Nat) : Serve (Nat × List UInt8) := fun s =>
  let (chars, rest, eof) := readChars (maxlen - 1) s.input
  if eof ∧ chars.length = 1 then
    some ((0, chars ++ buf.drop 1), { s with input := rest })
  else
    -- the loop is left at a newline before its counter is incremented
    let n := if chars.getLast? = some 10 then chars.length - 1 else chars.length
    some ((n, chars ++ 0 :: buf.drop (chars.length + 1)), { s with input := rest })

/-! ### The host -/

structure Stat where
  st_mode : Nat
  st_size : Nat
deriving DecidableEq

def Stat.S_ISREG (sbuf : Stat) : Bool := sbuf.st_mode &&& 0o170000 == 0o100000
def Stat.S_IRUSR (sbuf : Stat) : Bool := sbuf.st_mode &&& 0o400 != 0
def Stat.S_IXUSR (sbuf : Stat) : Bool := sbuf.st_mode &&& 0o100 != 0

/-- The file system and the programs in it.  `mmap` gives the bytes of a mapping of the
    given length, and `cgi` what a program run with these arguments writes. -/
structure Host where
  stat : List UInt8 → Option Stat
  openRdonly : List UInt8 → Bool
  mmap : List UInt8 → Int → Option (List UInt8)
  cgi : List UInt8 → List UInt8 → Option (List UInt8)
  /-- No path of `PATH_MAX` bytes or more is looked up. -/
  path_max : ∀ path sbuf, stat path = some sbuf → path.length < 4096

/-- What the local arrays hold before they are written. -/
structure Stack where
  buf : List UInt8
  method : List UInt8
  uri : List UInt8
  headers : List UInt8
deriving DecidableEq

/-! ### The parts of a handler -/

def errorBody (cause errnum shortmsg longmsg : List UInt8) : List UInt8 :=
  ascii "<!doctype html>\r\n"
    ++ ascii "<head>\r\n"
    ++ ascii "  <title>OSTEP WebServer Error</title>\r\n"
    ++ ascii "</head>\r\n"
    ++ ascii "<body>\r\n"
    ++ ascii "  <h2>" ++ errnum ++ ascii ": " ++ shortmsg ++ ascii "</h2>\r\n"
    ++ ascii "  <p>" ++ longmsg ++ ascii ": " ++ cause ++ ascii "</p>\r\n"
    ++ ascii "</body>\r\n"
    ++ ascii "</html>\r\n"

def requestError (cause errnum shortmsg longmsg : List UInt8) : Serve Unit := do
  let body ← sprintf (errorBody cause errnum shortmsg longmsg)
  let buf ← sprintf (ascii "HTTP/1.0 " ++ errnum ++ ascii " " ++ shortmsg ++ ascii "\r\n")
  writeOrDie buf
  let buf ← sprintf (ascii "Content-Type: text/html\r\n")
  writeOrDie buf
  let buf ← sprintf (ascii "Content-Length: " ++ ascii (toString body.length) ++ ascii "\r\n\r\n")
  writeOrDie buf
  writeOrDie body

/-- The loop of `request_read_headers`, for so many lines at most. -/
def readHeaders : Nat → List UInt8 → Serve Unit
  | 0, _ => failure
  | lines + 1, buf => do
    let (_, buf) ← readline buf MAXBUF
    if cstr buf = ascii "\r\n" then pure () else readHeaders lines buf

/-- Every line before the end of the stream takes a byte, and behind it the lines
    are empty, so a loop that has not ended by then never ends. -/
def requestReadHeaders (buf : List UInt8) : Serve Unit := do
  let s ← get
  readHeaders (s.input.length + 1) buf

/-- `sscanf(buf, "%s %s %s", method, uri, version)`; `version` is only printed. -/
def scanRequest (stack : Stack) (buf : List UInt8) : List UInt8 × List UInt8 :=
  let ws := words isspace (cstr buf)
  (ws[0]?.getD stack.method, ws[1]?.getD stack.uri)

/-- `strcasecmp(method, "GET")` is 0. -/
def isGet (method : List UInt8) : Bool := method.map tolower == ascii "get"

structure ParsedUri where
  is_static : Bool
  filename : List UInt8
  cgiargs : List UInt8
deriving DecidableEq

/-- The strings that `request_parse_uri` computes. -/
def parseUri (uri : List UInt8) : ParsedUri :=
  if !strstr uri (ascii "cgi") then
    { is_static := true
      filename := ascii "." ++ uri ++ if uri.getLast? = some 47 then ascii "index.html" else []
      cgiargs := [] }
  else
    { is_static := false
      filename := ascii "." ++ uri.takeWhile (· != 63)
      cgiargs := (uri.dropWhile (· != 63)).drop 1 }

def requestParseUri (uri : List UInt8) : Serve ParsedUri := do
  let parsed := parseUri uri
  let filename ← sprintf parsed.filename
  let cgiargs ← sprintf parsed.cgiargs
  return { parsed with filename, cgiargs }

def requestGetFiletype (filename : List UInt8) : List UInt8 :=
  if strstr filename (ascii ".html") then ascii "text/html"
  else if strstr filename (ascii ".gif") then ascii "image/gif"
  else if strstr filename (ascii ".jpg") then ascii "image/jpeg"
  else ascii "text/plain"

variable (host : Host)

def requestServeDynamic (filename cgiargs : List UInt8) : Serve Unit := do
  let buf ← sprintf (ascii "HTTP/1.0 200 OK\r\n" ++ ascii "Server: OSTEP WebServer\r\n")
  writeOrDie buf
  let written ← orDie (host.cgi filename cgiargs)
  writeOrDie written

/-- `filesize` is an `int`. -/
def requestServeStatic (filename : List UInt8) (filesize : Int) : Serve Unit := do
  let filetype := requestGetFiletype filename
  orDie (guard (host.openRdonly filename))
  let srcp ← orDie (host.mmap filename filesize)
  let buf ← sprintf (ascii "HTTP/1.0 200 OK\r\n"
    ++ ascii "Server: OSTEP WebServer\r\n"
    ++ ascii "Content-Length: " ++ ascii (toString filesize) ++ ascii "\r\n"
    ++ ascii "Content-Type: " ++ filetype ++ ascii "\r\n\r\n")
  writeOrDie buf
  writeOrDie srcp

/-- The conversion of an `off_t` to an `int`. -/
def toInt (size : Nat) : Int := Int.bmod size (2 ^ 32)

/-! ### The handlers -/

structure RequestInfor where
  sbuf : Stat
  buf : List UInt8
  filename : List UInt8
  cgiargs : List UInt8
  is_static : Bool
  fd : Nat
deriving DecidableEq

/-- The record for the request on `fd`, or NULL. -/
def fileSize (stack : Stack) (fd : Nat) : Serve (Option RequestInfor) := do
  let (_, buf) ← readline stack.buf MAXBUF
  let (method, uri) := scanRequest stack buf
  if !isGet method then
    requestError method (ascii "501") (ascii "Not Implemented")
      (ascii "server does not implement this method")
    return none
  requestReadHeaders stack.headers
  let ⟨is_static, filename, cgiargs⟩ ← requestParseUri uri
  match host.stat filename with
  | none =>
    requestError filename (ascii "404") (ascii "Not found")
      (ascii "server could not find this file")
    return none
  | some sbuf => return some { sbuf, buf := cstr buf, filename, cgiargs, is_static, fd }

def requestHandleInfor (infor : RequestInfor) : Serve Unit :=
  if infor.is_static then
    if !infor.sbuf.S_ISREG || !infor.sbuf.S_IRUSR then
      requestError infor.filename (ascii "403") (ascii "Forbidden")
        (ascii "server could not read this file")
    else requestServeStatic host infor.filename (toInt infor.sbuf.st_size)
  else
    if !infor.sbuf.S_ISREG || !infor.sbuf.S_IXUSR then
      requestError infor.filename (ascii "403") (ascii "Forbidden")
        (ascii "server could not run this CGI program")
    else requestServeDynamic host infor.filename infor.cgiargs

def requestHandle (stack : Stack) : Serve Unit := do
  let (_, buf) ← readline stack.buf MAXBUF
  let (method, uri) := scanRequest stack buf
  if !isGet method then
    requestError method (ascii "501") (ascii "Not Implemented")
      (ascii "server does not implement this method")
    return
  requestReadHeaders stack.headers
  let ⟨is_static, filename, cgiargs⟩ ← requestParseUri uri
  match host.stat filename with
  | none =>
    requestError filename (ascii "404") (ascii "Not found")
      (ascii "server could not find this file")
  | some sbuf =>
    if is_static then
      if !sbuf.S_ISREG || !sbuf.S_IRUSR then
        requestError filename (ascii "403") (ascii "Forbidden")
          (ascii "server could not read this file")
      else requestServeStatic host filename (toInt sbuf.st_size)
    else
      if !sbuf.S_ISREG || !sbuf.S_IXUSR then
        requestError filename (ascii "403") (ascii "Forbidden")
          (ascii "server could not run this CGI program")
      else requestServeDynamic host filename cgiargs

/-- **The two halves make up the whole**, if a NULL record is passed over. -/
theorem requestHandle_eq (stack : Stack) (fd : Nat) :
    requestHandle host stack = fileSize host stack fd >>= fun infor =>
      infor.elim (pure ()) (requestHandleInfor host) := by
  simp only [requestHandle, fileSize, bind_assoc]
  congr 1
  funext ⟨_, buf⟩
  by_cases hget : isGet (scanRequest stack buf).1 = true
  · simp only [hget, Bool.not_true, Bool.false_eq_true, if_false, bind_assoc]
    congr 1
    funext _
    congr 1
    funext ⟨is_static, filename, cgiargs⟩
    cases hstat : host.stat filename with
    | none => simp
    | some sbuf => simp [requestHandleInfor]
  · simp [hget]

end OstepProjects.WebServer
