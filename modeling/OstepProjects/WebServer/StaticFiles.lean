/-
  OstepProjects/WebServer/StaticFiles.lean
  ========================================
  **Serving a readable regular file of any size.**

  The size of the file is an `off_t`; `request_serve_static` takes it as an `int`, and
  that `int` becomes the `Content-Length`, the length of the mapping and the count that
  is written.  `servesWhole_iff` says for which sizes the response is the file.
-/
import OstepProjects.WebServer.CompleteRequest

namespace OstepProjects.WebServer

open OstepProjects.Bytes

/-- The system calls on a file that can be read: `mmap` fails for length 0 and no other,
    and gives as many bytes as were asked for. -/
structure Host.Maps (host : Host) (filename : List UInt8) : Prop where
  opens : host.openRdonly filename = true
  empty : host.mmap filename 0 = none
  maps : ∀ len, len ≠ 0 →
    ∃ srcp, host.mmap filename len = some srcp ∧ srcp.length = (len % 2 ^ 64).toNat

/-- A complete GET request for the static file `filename`, which is regular and readable by its
    owner. -/
structure AsksFor (host : Host) (r : Request) (filename : List UInt8) (sbuf : Stat) : Prop where
  words : ∃ method uri more, r.words = method :: uri :: more ∧ isGet method = true ∧
    (parseUri uri).is_static = true ∧ (parseUri uri).filename = filename
  stat : host.stat filename = some sbuf
  regular : sbuf.S_ISREG = true
  readable : sbuf.S_IRUSR = true

/-- The header of a response of so many bytes. -/
def staticHeader (filename : List UInt8) (size : Int) : List UInt8 :=
  ascii "HTTP/1.0 200 OK\r\n"
    ++ ascii "Server: OSTEP WebServer\r\n"
    ++ ascii "Content-Length: " ++ ascii (toString size) ++ ascii "\r\n"
    ++ ascii "Content-Type: " ++ requestGetFiletype filename ++ ascii "\r\n\r\n"

/-- `request_handle` comes back, and has written the size of the file and as many bytes. -/
def ServesWhole (host : Host) (r : Request) (filename : List UInt8) (sbuf : Stat) : Prop :=
  ∀ stack, ∃ rest body, (requestHandle host stack).run ⟨r.bytes, []⟩ =
    some ((), ⟨rest, staticHeader filename sbuf.st_size ++ body⟩) ∧ body.length = sbuf.st_size

variable {host : Host} {r : Request} {filename : List UInt8} {sbuf : Stat}

/-- `request_serve_static` fails only when the file cannot be mapped. -/
theorem requestServeStatic_run (filesize : Int) (hopen : host.openRdonly filename = true)
    (hdigits : (ascii (toString filesize)).length ≤ 11) (s : Socket) :
    (requestServeStatic host filename filesize).run s =
      (host.mmap filename filesize).map fun srcp =>
        ((), { s with output := s.output ++ (staticHeader filename filesize ++ srcp) }) := by
  have htype := length_requestGetFiletype filename
  have hfits : (staticHeader filename filesize).length < MAXBUF := by
    unfold staticHeader
    generalize ascii (toString filesize) = digits at hdigits ⊢
    simp [ascii, MAXBUF]
    omega
  have hguard : guard (host.openRdonly filename = true) = some () := by simp [hopen]
  rcases hmmap : host.mmap filename filesize with _ | srcp
  · rw [requestServeStatic, hguard, hmmap]
    rfl
  · have hwrites : Writes (requestServeStatic host filename filesize)
        (staticHeader filename filesize ++ srcp) := by
      refine Writes.orDie hguard (Writes.orDie hmmap ?_)
      exact Writes.sprintf hfits ((writes_writeOrDie _).bind (writes_writeOrDie _))
    exact hwrites s

/-- A request for a readable regular file gets to `request_serve_static`. -/
theorem AsksFor.run (h : AsksFor host r filename sbuf) (stack : Stack) :
    ∃ rest, (requestHandle host stack).run ⟨r.bytes, []⟩ =
      (requestServeStatic host filename (toInt sbuf.st_size)).run ⟨rest, []⟩ := by
  obtain ⟨method, uri, more, hwords, hget, hstatic, hfilename⟩ := h.words
  obtain ⟨rest, hrun⟩ := fileSize_run hwords hget (hfilename ▸ h.stat) stack 0
  refine ⟨rest, ?_⟩
  rw [requestHandle_eq host stack 0, StateT.run_bind, hrun]
  simp only [Option.bind_eq_bind, Option.bind_some, Option.elim_some, requestHandleInfor, hstatic,
    h.regular, h.readable, hfilename, if_true, Bool.not_true, Bool.or_self, Bool.false_eq_true,
    if_false]

theorem toInt_of_lt {size : Nat} (h : size < 2 ^ 31) : toInt size = size := by
  apply Int.bmod_eq_of_le
  · omega
  · omega

theorem length_toString_le_iff (n : Nat) {k : Nat} (hk : 0 < k) :
    (toString (n : Int)).length ≤ k ↔ n < 10 ^ k := Nat.length_repr_le_iff hk

/-- A response with a wrong size has the wrong length too. -/
theorem toInt_eq_of_length {size : Nat} {body srcp : List UInt8}
    (hsrcp : srcp.length = (toInt size % 2 ^ 64).toNat) (hbody : body.length = size)
    (heq : staticHeader filename (toInt size) ++ srcp = staticHeader filename size ++ body) :
    toInt size = size := by
  have hlength := congrArg List.length heq
  simp only [staticHeader, List.length_append, length_ascii (toString (size : Int)), hsrcp,
    hbody] at hlength
  have hdigits := length_toString_toInt size
  have hshort := length_toString_le_iff size (k := 20) (by decide)
  have hlong := length_toString_le_iff size (k := 11) (by decide)
  generalize (toString (size : Int)).length = digits at hlength hshort hlong
  generalize (ascii (toString (toInt size))).length = digits' at hlength hdigits
  have hlo : -2 ^ 31 ≤ toInt size := Int.le_bmod (by decide)
  have hhi : toInt size < 2 ^ 31 := Int.bmod_lt (by decide)
  have hquot : toInt size + 2 ^ 32 * Int.bdiv size (2 ^ 32) = size := Int.bmod_add_bdiv _ _
  generalize toInt size = filesize at hlength hlo hhi hquot ⊢
  generalize Int.bdiv size (2 ^ 32) = q at hquot
  omega

/-- Exactly the files of at least one byte and less than two gigabytes are served whole. -/
theorem servesWhole_iff (hmaps : host.Maps filename) (hasks : AsksFor host r filename sbuf) :
    ServesWhole host r filename sbuf ↔ 0 < sbuf.st_size ∧ sbuf.st_size < 2 ^ 31 := by
  have hrun := requestServeStatic_run (toInt sbuf.st_size) hmaps.opens (length_toString_toInt _)
  constructor
  · intro h
    obtain ⟨rest, body, hwhole, hbody⟩ := h ⟨[], [], [], []⟩
    obtain ⟨rest', hserve⟩ := hasks.run ⟨[], [], [], []⟩
    rw [hserve, hrun, Option.map_eq_some_iff] at hwhole
    obtain ⟨srcp, hmmap, hout⟩ := hwhole
    have hne : toInt sbuf.st_size ≠ 0 := by
      intro hzero
      rw [hzero, hmaps.empty] at hmmap
      exact absurd hmmap (Option.some_ne_none _).symm
    obtain ⟨srcp', hmmap', hsrcp⟩ := hmaps.maps _ hne
    obtain rfl : srcp' = srcp := Option.some.inj (hmmap'.symm.trans hmmap)
    have hresponse := congrArg Socket.output (Prod.mk.inj hout).2
    have hsize := toInt_eq_of_length hsrcp hbody hresponse
    have hhi : toInt sbuf.st_size < 2 ^ 31 := Int.bmod_lt (by decide)
    generalize toInt sbuf.st_size = filesize at hne hsize hhi
    omega
  · rintro ⟨hpos, hsmall⟩ stack
    have hsize := toInt_of_lt hsmall
    have hne : toInt sbuf.st_size ≠ 0 := by
      rw [hsize]
      exact Int.natCast_ne_zero.mpr hpos.ne'
    obtain ⟨srcp, hmmap, hsrcp⟩ := hmaps.maps _ hne
    obtain ⟨rest, hserve⟩ := hasks.run stack
    refine ⟨rest, srcp, ?_, ?_⟩
    · rw [hserve, hrun, hmmap, Option.map_some, List.nil_append, hsize]
    · rw [hsrcp, hsize]
      omega

/-- A host with one readable file of so many zero bytes. -/
def sizedFile (size : Nat) : Host where
  stat path := if path = ascii "./a" then some ⟨0o100644, size⟩ else none
  openRdonly path := path == ascii "./a"
  mmap path len :=
    if path = ascii "./a" ∧ len ≠ 0 then some (List.replicate (len % 2 ^ 64).toNat 0) else none
  cgi _ _ := none
  path_max path sbuf h := by
    rw [Option.ite_none_right_eq_some] at h
    rw [h.1]
    decide

theorem sizedFile_maps (size : Nat) : (sizedFile size).Maps (ascii "./a") where
  opens := beq_self_eq_true _
  empty := by simp [sizedFile]
  maps len hlen := by
    refine ⟨List.replicate (len % 2 ^ 64).toNat 0, ?_, List.length_replicate⟩
    simp only [sizedFile, hlen, ne_eq, not_false_eq_true, and_self, if_true]

theorem sizedFile_asksFor (size : Nat) :
    AsksFor (sizedFile size) getRequest (ascii "./a") ⟨0o100644, size⟩ where
  words := ⟨ascii "GET", ascii "/a", [ascii "HTTP/1.0"], by decide +kernel, by decide +kernel,
    by decide +kernel, by decide +kernel⟩
  stat := by simp [sizedFile]
  regular := by
    change (0o100644 &&& 0o170000 == 0o100000) = true
    decide
  readable := by
    change (0o100644 &&& 0o400 != 0) = true
    decide

theorem servesWhole_threeBytes :
    ServesWhole (sizedFile 3) getRequest (ascii "./a") ⟨0o100644, 3⟩ :=
  (servesWhole_iff (sizedFile_maps 3) (sizedFile_asksFor 3)).mpr (by decide)

/-- On an empty file `mmap` fails, and the assertion ends the server. -/
theorem not_servesWhole_empty :
    ¬ ServesWhole (sizedFile 0) getRequest (ascii "./a") ⟨0o100644, 0⟩ := by
  intro h
  obtain ⟨rest, body, hwhole, _⟩ := h ⟨[], [], [], []⟩
  have hcrash :
      (requestHandle (sizedFile 0) ⟨[], [], [], []⟩).run ⟨getRequest.bytes, []⟩ = none := by
    decide +kernel
  rw [hcrash] at hwhole
  exact absurd hwhole (Option.some_ne_none _).symm

end OstepProjects.WebServer
