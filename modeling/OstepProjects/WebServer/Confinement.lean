/-
  OstepProjects/WebServer/Confinement.lean
  ========================================
  **Which request URIs keep the server in its base directory.**

  The file name is `.` with the URI behind it, with no check in between.  A URI that
  begins with a slash leaves `.` as the first component.  One that does not has its
  own first component glued to the dot: `./x` gives `../x`, while `../x` gives the
  harmless `.../x`.  `StaysDown` is the check on the URI that would be needed
  (`filename_neverClimbs_iff`).  A handler asks the host about this one file name
  only (`requestHandle_congr`).
-/
import OstepProjects.Lib.Paths
import OstepProjects.WebServer.Request

namespace OstepProjects.WebServer

open OstepProjects.Bytes OstepProjects.Paths

/-- What of the URI goes into the file name. -/
def uriPath (uri : List UInt8) : List UInt8 :=
  if strstr uri (ascii "cgi") then uri.takeWhile (· != 63) else uri

/-- The path of the URI does not begin with the component `.`, and every `..` behind its
    first component finds a directory to leave.  A first component that is not empty
    counts as one, whatever it is. -/
def StaysDown (uri : List UInt8) : Bool :=
  match (uriPath uri).splitOn slash with
  | [] => true
  | first :: rest =>
    first != [dot] && (descend (if first = [] then 0 else 1) (rest.map component)).isSome

/-! ### The file name -/

theorem component_dot_cons (first : List UInt8) :
    component (dot :: first) =
      if first = [] then .here else if first = [dot] then .parent else .name := by
  simp [component]

theorem components_dot_cons {path first : List UInt8} {rest : List (List UInt8)}
    (h : path.splitOn slash = first :: rest) :
    components (dot :: path) = component (dot :: first) :: rest.map component := by
  rw [components, List.splitOn_cons_eq_if_modifyHead, if_neg (by decide), h]
  rfl

theorem components_append_slash (path name : List UInt8) :
    components (path ++ slash :: name) = components path ++ components name := by
  rw [components, List.splitOn_append_cons_self, List.map_append]
  rfl

/-- The suffix `index.html` plays no part. -/
theorem neverClimbs_index {path : List UInt8} (h : path.getLast? = some slash) :
    NeverClimbs 0 (components (path ++ ascii "index.html")) ↔ NeverClimbs 0 (components path) := by
  obtain ⟨dir, rfl⟩ := List.getLast?_eq_some_iff.mp h
  have hindex : components (ascii "index.html") = [.name] := by decide +kernel
  have hempty : components [] = [.here] := by decide
  rw [List.append_assoc, List.singleton_append, components_append_slash, components_append_slash,
    hindex, hempty, neverClimbs_iff, neverClimbs_iff, descend_append_name, descend_append_here]

theorem filename_neverClimbs (uri : List UInt8) :
    NeverClimbs 0 (components (parseUri uri).filename) ↔
      NeverClimbs 0 (components (dot :: uriPath uri)) := by
  have hdot : ascii "." = [dot] := by decide
  by_cases hcgi : strstr uri (ascii "cgi") = true
  · rw [parseUri, uriPath, if_pos hcgi, if_neg (by simp [hcgi]), hdot]
    rfl
  · rw [parseUri, uriPath, if_neg hcgi, if_pos (by simp [hcgi]), hdot]
    dsimp only
    by_cases hlast : uri.getLast? = some 47
    · have hdotted : (dot :: uri).getLast? = some slash := by
        rw [List.getLast?_cons, hlast]
        rfl
      rw [if_pos hlast]
      exact neverClimbs_index hdotted
    · rw [if_neg hlast, List.append_nil]
      rfl

/-- The first component decides where the walk over the others starts. -/
theorem neverClimbs_dot_cons (uri : List UInt8) :
    NeverClimbs 0 (components (dot :: uriPath uri)) ↔ StaysDown uri = true := by
  obtain ⟨first, rest, hsplit⟩ :=
    List.exists_cons_of_ne_nil (List.splitOn_ne_nil slash (uriPath uri))
  rw [components_dot_cons hsplit, component_dot_cons, StaysDown, hsplit]
  dsimp only
  by_cases hempty : first = []
  · subst hempty
    rw [if_pos rfl, if_pos rfl, neverClimbs_here, neverClimbs_iff]
    simp
  · rw [if_neg hempty, if_neg hempty]
    by_cases hdot : first = [dot]
    · rw [if_pos hdot, neverClimbs_parent, hdot]
      simp
    · rw [if_neg hdot, neverClimbs_name, neverClimbs_iff]
      simp [hdot]

/-- **The file name of a URI stays below the base directory iff the URI passes the check.** -/
theorem filename_neverClimbs_iff (uri : List UInt8) :
    NeverClimbs 0 (components (parseUri uri).filename) ↔ StaysDown uri = true := by
  rw [filename_neverClimbs, neverClimbs_dot_cons]

/-- `/../secret` is opened as `./../secret`. -/
theorem filename_climbs : ¬ ∀ uri : List UInt8, (∀ b ∈ uri, b ≠ 0 ∧ isspace b = false) →
    NeverClimbs 0 (components (parseUri uri).filename) := by
  intro h
  have hwords : ∀ b ∈ ascii "/../secret", b ≠ 0 ∧ isspace b = false := by decide +kernel
  have hbelow := (neverClimbs_iff 0 _).mp (h (ascii "/../secret") hwords)
  have hfails : (descend 0 (components (parseUri (ascii "/../secret")).filename)).isSome =
      false := by decide +kernel
  rw [hfails] at hbelow
  cases hbelow

/-! ### What a handler looks at -/

/-- The two hosts have the same file or program under this name. -/
structure Host.Agree (host host' : Host) (filename : List UInt8) : Prop where
  stat : host.stat filename = host'.stat filename
  openRdonly : host.openRdonly filename = host'.openRdonly filename
  mmap : host.mmap filename = host'.mmap filename
  cgi : host.cgi filename = host'.cgi filename

/-- The URI in the request that a socket holds. -/
def requestUri (stack : Stack) (s : Socket) : List UInt8 :=
  match readline stack.buf MAXBUF s with
  | none => []
  | some ((_, buf), _) => (scanRequest stack buf).2

variable {host host' : Host} {stack : Stack} {s s' : Socket}

theorem requestParseUri_some {uri : List UInt8} {parsed : ParsedUri}
    (h : requestParseUri uri s = some (parsed, s')) : parsed = parseUri uri := by
  unfold requestParseUri sprintf at h
  split_ifs at h
  · cases h
    rfl
  all_goals cases h

theorem requestHandleInfor_congr {infor : RequestInfor} (h : host.Agree host' infor.filename) :
    requestHandleInfor host infor = requestHandleInfor host' infor := by
  unfold requestHandleInfor requestServeStatic requestServeDynamic
  rw [h.openRdonly, h.mmap, h.cgi]

/-- What `file_size` does after the header lines. -/
def lookUp (host : Host) (fd : Nat) (buf uri : List UInt8) : Serve (Option RequestInfor) := do
  let ⟨is_static, filename, cgiargs⟩ ← requestParseUri uri
  match host.stat filename with
  | none =>
    requestError filename (ascii "404") (ascii "Not found")
      (ascii "server could not find this file")
    return none
  | some sbuf => return some { sbuf, buf := cstr buf, filename, cgiargs, is_static, fd }

theorem lookUp_congr {fd : Nat} {buf uri : List UInt8}
    (h : host.stat (parseUri uri).filename = host'.stat (parseUri uri).filename) :
    lookUp host fd buf uri s = lookUp host' fd buf uri s := by
  unfold lookUp
  simp only [bind, StateT.bind]
  cases hparse : requestParseUri uri s with
  | none => rfl
  | some parsed =>
    obtain ⟨parsed, s'⟩ := parsed
    obtain rfl := requestParseUri_some hparse
    simp only [Option.bind_some]
    rw [h]

theorem lookUp_filename {fd : Nat} {buf uri : List UInt8} {infor : RequestInfor}
    (h : lookUp host fd buf uri s = some (some infor, s')) :
    infor.filename = (parseUri uri).filename := by
  unfold lookUp at h
  simp only [bind, StateT.bind] at h
  cases hparse : requestParseUri uri s with
  | none =>
    rw [hparse] at h
    cases h
  | some parsed =>
    obtain ⟨parsed, s''⟩ := parsed
    obtain rfl := requestParseUri_some hparse
    rw [hparse, Option.bind_some] at h
    dsimp only at h
    cases hstat : host.stat (parseUri uri).filename with
    | none =>
      rw [hstat] at h
      dsimp only [StateT.bind] at h
      cases herror : requestError (parseUri uri).filename (ascii "404") (ascii "Not found")
          (ascii "server could not find this file") s'' with
      | none =>
        rw [herror] at h
        cases h
      | some answer =>
        rw [herror] at h
        cases h
    | some sbuf =>
      rw [hstat] at h
      cases h
      rfl

/-- `file_size` up to the parsing of the URI. -/
theorem fileSize_eq (fd : Nat) : fileSize host stack fd s =
    (readline stack.buf MAXBUF s).bind fun ((_, buf), s₁) =>
      if !isGet (scanRequest stack buf).1 then
        (requestError (scanRequest stack buf).1 (ascii "501") (ascii "Not Implemented")
          (ascii "server does not implement this method") s₁).bind fun (_, s₂) => some (none, s₂)
      else (requestReadHeaders stack.headers s₁).bind fun (_, s₂) =>
        lookUp host fd buf (scanRequest stack buf).2 s₂ := by
  unfold fileSize
  simp only [bind, StateT.bind]
  congr 1
  funext ⟨⟨_, buf⟩, s₁⟩
  dsimp only
  split_ifs
  · rfl
  · rfl

theorem fileSize_congr {fd : Nat}
    (h : host.stat (parseUri (requestUri stack s)).filename =
      host'.stat (parseUri (requestUri stack s)).filename) :
    fileSize host stack fd s = fileSize host' stack fd s := by
  rw [fileSize_eq, fileSize_eq]
  cases hread : readline stack.buf MAXBUF s with
  | none => rfl
  | some line =>
    obtain ⟨⟨n, buf⟩, s₁⟩ := line
    rw [requestUri, hread] at h
    simp only [Option.bind_some]
    congr 2
    funext headers
    exact lookUp_congr h

/-- The record names the file of the request. -/
theorem fileSize_filename {fd : Nat} {infor : RequestInfor}
    (h : fileSize host stack fd s = some (some infor, s')) :
    infor.filename = (parseUri (requestUri stack s)).filename := by
  rw [fileSize_eq] at h
  obtain ⟨⟨⟨n, buf⟩, s₁⟩, hread, h⟩ := Option.bind_eq_some_iff.mp h
  rw [requestUri, hread]
  dsimp only at h ⊢
  split_ifs at h
  · obtain ⟨_, _, h⟩ := Option.bind_eq_some_iff.mp h
    cases h
  · obtain ⟨_, _, h⟩ := Option.bind_eq_some_iff.mp h
    exact lookUp_filename h

/-- **A handler looks at no other file than the one that the URI names.** -/
theorem requestHandle_congr
    (h : host.Agree host' (parseUri (requestUri stack s)).filename) :
    requestHandle host stack s = requestHandle host' stack s := by
  rw [requestHandle_eq host stack 0, requestHandle_eq host' stack 0]
  simp only [bind, StateT.bind]
  rw [fileSize_congr h.stat]
  cases hfile : fileSize host' stack 0 s with
  | none => rfl
  | some record =>
    obtain ⟨infor, s₁⟩ := record
    cases infor with
    | none => rfl
    | some infor =>
      rw [← fileSize_filename hfile] at h
      simp only [Option.bind_some, Option.elim_some, requestHandleInfor_congr h]

/-- A request whose URI passes the check is answered from the files below the base directory. -/
theorem requestHandle_confined (hdown : StaysDown (requestUri stack s) = true)
    (h : ∀ filename, NeverClimbs 0 (components filename) → host.Agree host' filename) :
    requestHandle host stack s = requestHandle host' stack s := by
  apply requestHandle_congr
  apply h
  exact (filename_neverClimbs _).mpr ((neverClimbs_dot_cons _).mpr hdown)

end OstepProjects.WebServer
