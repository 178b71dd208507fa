/-
  OstepProjects/WebServer/Readline.lean
  =====================================
  **`readline` called again and again on one stream.**

  A call takes the next piece of the stream, up to the newline or the size of the
  buffer (`readChars_eq`).  Its return value is the counter of the loop, which is not
  advanced at the newline: it is 0 for an empty line as it is at the end of the stream,
  and a last line of one byte is not terminated.  `splitsStream_iff` says on which
  streams no such piece occurs.

  `request_read_headers` does not look at the return value but waits for a blank line.
  `headersEnd_iff` says on which streams it comes.
-/
import OstepProjects.Lib.Lines
import OstepProjects.WebServer.Request

namespace OstepProjects.WebServer

open OstepProjects.Bytes

/-- The next piece for a buffer of `maxlen` bytes. -/
abbrev nextPiece (maxlen : Nat) (stream : List UInt8) : List UInt8 :=
  Lines.piece 10 (maxlen - 1) stream

theorem nextPiece_nil (maxlen : Nat) : nextPiece maxlen [] = [] := Lines.piece_nil 10 _

/-- How often `n++` is executed while a piece is read. -/
def advances (piece : List UInt8) : Nat :=
  if piece.getLast? = some 10 then piece.length - 1 else piece.length

/-! ### One call -/

/-- A stream that ends before the newline and before the buffer is full. -/
def AtEof (room : Nat) (piece : List UInt8) : Prop := 10 ∉ piece ∧ piece.length < room

instance (room : Nat) (piece : List UInt8) : Decidable (AtEof room piece) :=
  inferInstanceAs (Decidable (_ ∧ _))

theorem readChars_eq (room : Nat) (stream : List UInt8) :
    readChars room stream =
      (Lines.piece 10 room stream, stream.drop (Lines.piece 10 room stream).length,
        decide (AtEof room (Lines.piece 10 room stream))) := by
  fun_induction Lines.piece 10 room stream with
  | case1 stream => simp [readChars, AtEof]
  | case2 room => simp [readChars, AtEof]
  | case3 room stream => simp [readChars, AtEof]
  | case4 room c stream hc ih =>
    rw [readChars, if_neg hc, ih]
    have heof : AtEof (room + 1) (c :: Lines.piece 10 room stream) ↔
        AtEof room (Lines.piece 10 room stream) := by
      simp [AtEof, Ne.symm hc]
    rw [decide_eq_decide.mpr heof]
    rfl

/-- A piece of one byte that the end of the stream cut off. -/
def Short (maxlen : Nat) (piece : List UInt8) : Prop :=
  AtEof (maxlen - 1) piece ∧ piece.length = 1

instance (maxlen : Nat) (piece : List UInt8) : Decidable (Short maxlen piece) :=
  inferInstanceAs (Decidable (_ ∧ _))

/-- What `buf` holds after a piece was read into it. -/
def bufAfter (maxlen : Nat) (piece buf : List UInt8) : List UInt8 :=
  if Short maxlen piece then piece ++ buf.drop 1
  else piece ++ 0 :: buf.drop (piece.length + 1)

def returnValue (maxlen : Nat) (piece : List UInt8) : Nat :=
  if Short maxlen piece then 0 else advances piece

theorem readline_eq (buf : List UInt8) (maxlen : Nat) (s : Socket) :
    readline buf maxlen s =
      some ((returnValue maxlen (nextPiece maxlen s.input),
        bufAfter maxlen (nextPiece maxlen s.input) buf),
        { s with input := s.input.drop (nextPiece maxlen s.input).length }) := by
  rw [readline, readChars_eq]
  simp only [decide_eq_true_eq, returnValue, bufAfter, nextPiece]
  by_cases hshort : Short maxlen (Lines.piece 10 (maxlen - 1) s.input)
  · rw [if_pos hshort, if_pos hshort, if_pos (show _ ∧ _ from hshort)]
  · rw [if_neg hshort, if_neg hshort, if_neg (show ¬ (_ ∧ _) from hshort)]
    rfl

/-! ### Call after call -/

/-- `readline` with its counter an `int`, for buffers of any size: beyond `INT_MAX` it is not
    defined what `n++` does. -/
def readlineInt (buf : List UInt8) (maxlen : Nat) : Serve (Nat × List UInt8) := fun s =>
  if advances (readChars (maxlen - 1) s.input).1 < 2 ^ 31 then readline buf maxlen s else none

/-- A call: what was to be read, the value returned and the buffer afterwards. -/
structure ReadCall where
  stream : List UInt8
  returned : Nat
  buf : List UInt8
deriving DecidableEq

/-- So many calls with the same buffer. -/
def readlines (maxlen : Nat) : Nat → List UInt8 → Serve (List ReadCall)
  | 0, _ => pure []
  | calls + 1, buf => do
    let s ← get
    let (n, buf) ← readlineInt buf maxlen
    return ⟨s.input, n, buf⟩ :: (← readlines maxlen calls buf)

/-- The string of a call is the next piece, and it returns 0 when there was none. -/
structure ReadCall.Exact (maxlen : Nat) (c : ReadCall) : Prop where
  terminated : 0 ∈ c.buf
  piece : cstr c.buf = nextPiece maxlen c.stream
  returned : c.returned = 0 ↔ c.stream = []

/-- What is asked of `readline` on a stream, whatever the buffer held before. -/
def SplitsStream (maxlen : Nat) (stream : List UInt8) : Prop :=
  ∀ buf output n, ∃ calls s, (readlines maxlen n buf).run ⟨stream, output⟩ = some (calls, s) ∧
    (∀ c ∈ calls, c.Exact maxlen) ∧
    (stream.length ≤ n → (calls.map fun c => cstr c.buf).flatten = stream)

/-- The pieces that `readline` reports: their count is not 0 and fits into an `int`. -/
def Reported (maxlen : Nat) (piece : List UInt8) : Prop :=
  (1 < piece.length ∨ maxlen = 2 ∧ piece ≠ [10]) ∧ advances piece < 2 ^ 31

instance (maxlen : Nat) (piece : List UInt8) : Decidable (Reported maxlen piece) :=
  inferInstanceAs (Decidable (_ ∧ _))

theorem advances_le (piece : List UInt8) : advances piece ≤ piece.length := by
  rw [advances]
  split
  · exact Nat.sub_le _ _
  · exact Nat.le_refl _

/-- The buffers of the server are far from the limit. -/
theorem readlineInt_eq {maxlen : Nat} (h : maxlen ≤ 2 ^ 31) (buf : List UInt8) :
    readlineInt buf maxlen = readline buf maxlen := by
  funext s
  have hpiece := Lines.length_piece_le 10 (maxlen - 1) s.input
  have hadvances := advances_le (Lines.piece 10 (maxlen - 1) s.input)
  rw [readlineInt, readChars_eq, if_pos (by dsimp only; omega)]

/-- A call on a stream. -/
def readCall (maxlen : Nat) (stream buf : List UInt8) : ReadCall where
  stream := stream
  returned := returnValue maxlen (nextPiece maxlen stream)
  buf := bufAfter maxlen (nextPiece maxlen stream) buf

theorem readlines_succ (maxlen n : Nat) (buf stream output : List UInt8) :
    (readlines maxlen (n + 1) buf).run ⟨stream, output⟩ =
      if advances (nextPiece maxlen stream) < 2 ^ 31 then
        ((readlines maxlen n (bufAfter maxlen (nextPiece maxlen stream) buf)).run
          ⟨stream.drop (nextPiece maxlen stream).length, output⟩).map
            (Prod.map (readCall maxlen stream buf :: ·) id)
      else none := by
  have hread : readlineInt buf maxlen ⟨stream, output⟩ =
      if advances (nextPiece maxlen stream) < 2 ^ 31 then
        readline buf maxlen ⟨stream, output⟩ else none := by
    rw [readlineInt, readChars_eq]
  have hrun : (readlines maxlen (n + 1) buf).run ⟨stream, output⟩ =
      (readlineInt buf maxlen ⟨stream, output⟩).bind fun read =>
        ((readlines maxlen n read.1.2).run read.2).map
          (Prod.map (⟨stream, read.1.1, read.1.2⟩ :: ·) id) := by
    rw [readlines]
    simp only [StateT.run, bind, StateT.bind, get, getThe, MonadStateOf.get, StateT.get,
      Option.map_eq_bind]
    rfl
  rw [hrun, hread]
  split_ifs
  · rw [readline_eq, Option.bind_some]
    rfl
  · rfl

/-! ### A stream without loss -/

theorem bufAfter_of_not_short {maxlen : Nat} {piece : List UInt8} (h : ¬ Short maxlen piece)
    (buf : List UInt8) : bufAfter maxlen piece buf = piece ++ 0 :: buf.drop (piece.length + 1) :=
  if_neg h

theorem cstr_bufAfter {maxlen : Nat} {piece : List UInt8} (h : ¬ Short maxlen piece)
    (buf : List UInt8) : cstr (bufAfter maxlen piece buf) = cstr piece := by
  rw [bufAfter_of_not_short h, cstr_append_nul]

/-- The pieces with a count that is not 0. -/
theorem returnValue_ne_zero_iff {maxlen : Nat} {piece : List UInt8} (hmaxlen : 2 ≤ maxlen)
    (hne : piece ≠ []) :
    returnValue maxlen piece ≠ 0 ↔ 1 < piece.length ∨ maxlen = 2 ∧ piece ≠ [10] := by
  have hpos := List.length_pos_iff.mpr hne
  by_cases hlong : 1 < piece.length
  · have hshort : ¬ Short maxlen piece := fun h => hlong.ne' h.2
    have hadvances : advances piece ≠ 0 := by
      rw [advances]
      split <;> omega
    rw [returnValue, if_neg hshort]
    exact iff_of_true hadvances (Or.inl hlong)
  · obtain ⟨x, rfl⟩ := List.length_eq_one_iff.mp (Nat.le_antisymm (Nat.not_lt.mp hlong) hpos)
    by_cases hx : x = 10
    · subst hx
      simp [returnValue, advances]
    · have hshort : Short maxlen [x] ↔ maxlen ≠ 2 := by
        have hmem : (10 : UInt8) ∉ [x] := fun h => hx (List.mem_singleton.mp h).symm
        simp only [Short, AtEof, hmem, not_false_eq_true, List.length_singleton, true_and, and_true]
        omega
      by_cases htwo : maxlen = 2
      · rw [returnValue, if_neg (fun h => hshort.mp h htwo), advances]
        simp [hx, htwo]
      · rw [returnValue, if_pos (hshort.mpr htwo)]
        simp [htwo]

theorem not_short_of_returnValue {maxlen : Nat} {piece : List UInt8}
    (h : returnValue maxlen piece ≠ 0) : ¬ Short maxlen piece := fun hshort =>
  h (if_pos hshort)

variable {maxlen : Nat} {stream : List UInt8}

/-- A call is exact on every piece that is reported, and at the end of the stream. -/
theorem exact_of_reported (hmaxlen : 2 ≤ maxlen) (hnul : 0 ∉ stream)
    (h : stream ≠ [] → Reported maxlen (nextPiece maxlen stream)) (buf : List UInt8) :
    (readCall maxlen stream buf).Exact maxlen := by
  have hpiece : 0 ∉ nextPiece maxlen stream := fun hmem =>
    hnul ((Lines.piece_prefix 10 _ stream).subset hmem)
  by_cases hstream : stream = []
  · subst hstream
    have hshort : ¬ Short maxlen [] := fun h => absurd h.2 (by decide)
    rw [readCall, nextPiece_nil, bufAfter_of_not_short hshort, returnValue, if_neg hshort]
    refine ⟨List.mem_cons_self, ?_, iff_of_true rfl rfl⟩
    rw [nextPiece_nil]
    rfl
  · have hroom : 0 < maxlen - 1 := by omega
    have hne := Lines.piece_ne_nil 10 hroom hstream
    have hreturn := (returnValue_ne_zero_iff hmaxlen hne).mpr (h hstream).1
    have hshort := not_short_of_returnValue hreturn
    refine ⟨?_, ?_, iff_of_false hreturn hstream⟩
    · rw [readCall, bufAfter_of_not_short hshort]
      exact List.mem_append_right _ List.mem_cons_self
    · rw [readCall, cstr_bufAfter hshort, cstr_eq_self hpiece]

/-- The first calls, when they report all that they take. -/
theorem readlines_reported (hmaxlen : 2 ≤ maxlen) (hnul : 0 ∉ stream) {n : Nat}
    (h : ∀ p ∈ Lines.piecesIn 10 (maxlen - 1) n stream, Reported maxlen p)
    (buf output : List UInt8) :
    ∃ calls s, (readlines maxlen n buf).run ⟨stream, output⟩ = some (calls, s) ∧
      (∀ c ∈ calls, c.Exact maxlen) ∧
      (calls.map fun c => cstr c.buf).flatten =
        (Lines.piecesIn 10 (maxlen - 1) n stream).flatten := by
  induction n generalizing stream buf with
  | zero => exact ⟨[], _, rfl, fun c hc => absurd hc List.not_mem_nil, rfl⟩
  | succ n ih =>
    have hrest : 0 ∉ stream.drop (nextPiece maxlen stream).length := fun hmem =>
      hnul (List.mem_of_mem_drop hmem)
    have hfirst : stream ≠ [] → Reported maxlen (nextPiece maxlen stream) := fun hstream =>
      h _ ((Lines.mem_piecesIn_succ 10).mpr (Or.inl ⟨hstream, rfl⟩))
    have hadvances : advances (nextPiece maxlen stream) < 2 ^ 31 := by
      by_cases hstream : stream = []
      · rw [hstream, nextPiece_nil]
        decide
      · exact (hfirst hstream).2
    obtain ⟨calls, s, hrun, hexact, hflatten⟩ := ih hrest
      (fun p hp => h p ((Lines.mem_piecesIn_succ 10).mpr (Or.inr hp)))
      (bufAfter maxlen (nextPiece maxlen stream) buf)
    have hcall := exact_of_reported hmaxlen hnul hfirst buf
    refine ⟨readCall maxlen stream buf :: calls, s, ?_, ?_, ?_⟩
    · rw [readlines_succ, if_pos hadvances, hrun, Option.map_some, Prod.map_apply, id_eq]
    · intro c hc
      rcases List.mem_cons.mp hc with rfl | hc
      · exact hcall
      · exact hexact c hc
    · rw [List.map_cons, List.flatten_cons, hcall.piece, hflatten, Lines.flatten_piecesIn_succ]
      rfl

/-- A piece that is not reported is read by some call, which returns 0 for it or is not
    defined. -/
theorem readlines_not_reported (hmaxlen : 2 ≤ maxlen) {n : Nat} {p : List UInt8}
    (hp : p ∈ Lines.piecesIn 10 (maxlen - 1) n stream) (hreported : ¬ Reported maxlen p)
    {buf output : List UInt8} {calls : List ReadCall} {s : Socket}
    (hrun : (readlines maxlen n buf).run ⟨stream, output⟩ = some (calls, s)) :
    ∃ c ∈ calls, ¬ c.Exact maxlen := by
  induction n generalizing stream buf calls with
  | zero => exact absurd hp List.not_mem_nil
  | succ n ih =>
    rw [readlines_succ, Option.ite_none_right_eq_some, Option.map_eq_some_iff] at hrun
    obtain ⟨hadvances, ⟨rest, s'⟩, hrest, hcalls⟩ := hrun
    obtain ⟨rfl, rfl⟩ := Prod.mk.inj hcalls
    rcases (Lines.mem_piecesIn_succ 10).mp hp with ⟨hstream, rfl⟩ | hp
    · refine ⟨_, List.mem_cons_self, fun hexact => ?_⟩
      have hroom : 0 < maxlen - 1 := by omega
      have hne := Lines.piece_ne_nil 10 hroom hstream
      have hreturn : returnValue maxlen (nextPiece maxlen stream) ≠ 0 := fun hzero =>
        hstream (hexact.returned.mp hzero)
      exact hreported ⟨(returnValue_ne_zero_iff hmaxlen hne).mp hreturn, hadvances⟩
    · obtain ⟨c, hc, hnot⟩ := ih hp hrest
      exact ⟨c, List.mem_cons_of_mem _ hc, hnot⟩

/-- `readline` splits exactly the streams without an empty line, without a single byte behind
    the last newline and without a line that an `int` cannot count. -/
theorem splitsStream_iff (hmaxlen : 2 ≤ maxlen) (hnul : 0 ∉ stream) :
    SplitsStream maxlen stream ↔
      ∀ p ∈ Lines.pieces 10 (maxlen - 1) stream, Reported maxlen p := by
  have hroom : 0 < maxlen - 1 := by omega
  constructor
  · intro h p hp
    by_contra hreported
    obtain ⟨calls, s, hrun, hexact, _⟩ := h [] [] stream.length
    obtain ⟨c, hc, hnot⟩ := readlines_not_reported hmaxlen hp hreported hrun
    exact hnot (hexact c hc)
  · intro h buf output n
    have hpieces : ∀ p ∈ Lines.piecesIn 10 (maxlen - 1) n stream, Reported maxlen p :=
      fun p hp => h p (Lines.mem_pieces_of_mem_piecesIn 10 hroom hp)
    obtain ⟨calls, s, hrun, hexact, hflatten⟩ := readlines_reported hmaxlen hnul hpieces buf output
    refine ⟨calls, s, hrun, hexact, fun hn => ?_⟩
    rw [hflatten, Lines.piecesIn_of_length_le 10 hroom hn (Nat.le_refl _)]
    exact Lines.flatten_pieces 10 hroom stream

theorem splitsStream_response :
    SplitsStream MAXBUF (ascii "HTTP/1.0 200 OK\r\n\r\n<html>\n</html>") :=
  (splitsStream_iff (by decide) (by decide)).mpr (by decide +kernel)

/-- The empty line makes a loop over the body of a response stop. -/
theorem not_splitsStream_emptyLine : ¬ SplitsStream MAXBUF (ascii "one\n\ntwo\n") := by
  intro h
  obtain ⟨calls, s, hrun, hexact, _⟩ := h [] [] 3
  obtain ⟨c, hc, hnot⟩ := readlines_not_reported (p := [10]) (by decide) (by decide +kernel)
    (by decide) hrun
  exact hnot (hexact c hc)

/-! ### The headers of a request -/

/-- `request_read_headers` comes back after finitely many calls. -/
def HeadersEnd (stream buf : List UInt8) : Prop :=
  ∀ output, ∃ lines, ((readHeaders lines buf).run ⟨stream, output⟩).isSome

/-- There is a blank line among the pieces, or the last is a carriage return that completes one
    in the buffer with what the piece before it left behind. -/
def BlankLine (pieces : List (List UInt8)) (buf : List UInt8) : Prop :=
  ascii "\r\n" ∈ pieces ∨
    ∃ front, pieces = front ++ [ascii "\r"] ∧ cstr ((front.getLastD buf).drop 1) = ascii "\n"

theorem readHeaders_succ (lines : Nat) (buf stream output : List UInt8) :
    (readHeaders (lines + 1) buf).run ⟨stream, output⟩ =
      if cstr (bufAfter MAXBUF (nextPiece MAXBUF stream) buf) = ascii "\r\n" then
        some ((), ⟨stream.drop (nextPiece MAXBUF stream).length, output⟩)
      else (readHeaders lines (bufAfter MAXBUF (nextPiece MAXBUF stream) buf)).run
        ⟨stream.drop (nextPiece MAXBUF stream).length, output⟩ := by
  have hrun : (readHeaders (lines + 1) buf).run ⟨stream, output⟩ =
      (readline buf MAXBUF ⟨stream, output⟩).bind fun read =>
        if cstr read.1.2 = ascii "\r\n" then some ((), read.2)
        else (readHeaders lines read.1.2).run read.2 := by
    rw [readHeaders]
    simp only [StateT.run, bind, StateT.bind]
    congr 1
    funext ⟨⟨_, buf⟩, s⟩
    dsimp only
    split_ifs
    · rfl
    · rfl
  rw [hrun, readline_eq, Option.bind_some]

variable {buf : List UInt8}

/-- One call: it reads the blank line, or the loop goes on. -/
theorem headersEnd_step (stream buf : List UInt8) :
    HeadersEnd stream buf ↔
      cstr (bufAfter MAXBUF (nextPiece MAXBUF stream) buf) = ascii "\r\n" ∨
        HeadersEnd (stream.drop (nextPiece MAXBUF stream).length)
          (bufAfter MAXBUF (nextPiece MAXBUF stream) buf) := by
  by_cases hblank : cstr (bufAfter MAXBUF (nextPiece MAXBUF stream) buf) = ascii "\r\n"
  · refine iff_of_true (fun output => ⟨1, ?_⟩) (Or.inl hblank)
    rw [readHeaders_succ, if_pos hblank]
    rfl
  · rw [or_iff_right hblank]
    constructor
    · intro h output
      obtain ⟨lines, hlines⟩ := h output
      rcases lines with _ | lines
      · exact absurd hlines Bool.false_ne_true
      · rw [readHeaders_succ, if_neg hblank] at hlines
        exact ⟨lines, hlines⟩
    · intro h output
      obtain ⟨lines, hlines⟩ := h output
      refine ⟨lines + 1, ?_⟩
      rwa [readHeaders_succ, if_neg hblank]

/-- At the end of the stream the buffer is empty call after call. -/
theorem not_headersEnd_nil (buf : List UInt8) : ¬ HeadersEnd [] buf := by
  intro h
  obtain ⟨lines, hlines⟩ := h []
  clear h
  induction lines generalizing buf with
  | zero => exact absurd hlines Bool.false_ne_true
  | succ lines ih =>
    have hempty : cstr (bufAfter MAXBUF [] buf) = [] := cstr_bufAfter (by decide) buf
    rw [readHeaders_succ, nextPiece_nil, hempty, if_neg (by decide)] at hlines
    exact ih _ hlines

theorem blankLine_cons {p : List UInt8} {ps : List (List UInt8)} :
    BlankLine (p :: ps) buf ↔
      p = ascii "\r\n" ∨ (ps = [] ∧ p = ascii "\r" ∧ cstr (buf.drop 1) = ascii "\n") ∨
        BlankLine ps p := by
  constructor
  · rintro (hmem | ⟨front, hfront, hleft⟩)
    · rcases List.mem_cons.mp hmem with rfl | hmem
      · exact Or.inl rfl
      · exact Or.inr (Or.inr (Or.inl hmem))
    · rcases front with _ | ⟨q, front⟩
      · obtain ⟨rfl, rfl⟩ := List.cons.inj hfront
        exact Or.inr (Or.inl ⟨rfl, rfl, hleft⟩)
      · obtain ⟨rfl, rfl⟩ := List.cons.inj hfront
        rw [List.getLastD_cons] at hleft
        exact Or.inr (Or.inr (Or.inr ⟨front, rfl, hleft⟩))
  · rintro (rfl | ⟨rfl, rfl, hleft⟩ | hmem | ⟨front, rfl, hleft⟩)
    · exact Or.inl List.mem_cons_self
    · exact Or.inr ⟨[], rfl, hleft⟩
    · exact Or.inl (List.mem_cons_of_mem p hmem)
    · refine Or.inr ⟨p :: front, rfl, ?_⟩
      rwa [List.getLastD_cons]

/-- The buffer counts only behind its first byte. -/
theorem blankLine_congr {ps : List (List UInt8)} {buf' : List UInt8}
    (h : cstr (buf.drop 1) = cstr (buf'.drop 1)) (hps : BlankLine ps buf) : BlankLine ps buf' := by
  rcases hps with hmem | ⟨front, rfl, hleft⟩
  · exact Or.inl hmem
  · refine Or.inr ⟨front, rfl, ?_⟩
    rcases front with _ | ⟨q, front⟩
    · exact h.symm.trans hleft
    · exact hleft

theorem cstr_cons_eq_blank {x : UInt8} {rest : List UInt8} :
    cstr (x :: rest) = ascii "\r\n" ↔ [x] = ascii "\r" ∧ cstr rest = ascii "\n" := by
  have hblank : ascii "\r\n" = 13 :: ascii "\n" := rfl
  have hreturn : ascii "\r" = [13] := rfl
  rw [hblank, hreturn, List.singleton_inj, cstr, List.takeWhile_cons]
  split_ifs with hx
  · rw [List.cons.injEq, cstr]
  · refine iff_of_false not_false ?_
    rintro ⟨rfl, _⟩
    exact hx (by decide)

theorem not_blankLine_nil (buf : List UInt8) : ¬ BlankLine [] buf := by
  rintro (hmem | ⟨front, hfront, _⟩)
  · exact List.not_mem_nil hmem
  · simp at hfront

/-- The line feed ends a piece, so a piece that begins with a blank line is one. -/
theorem cstr_piece_eq_blank (maxlen : Nat) (stream : List UInt8) :
    cstr (nextPiece maxlen stream) = ascii "\r\n" ↔ nextPiece maxlen stream = ascii "\r\n" := by
  constructor
  · intro h
    obtain ⟨rest, hrest⟩ : ascii "\r\n" <+: nextPiece maxlen stream :=
      h ▸ List.takeWhile_prefix _
    rcases List.eq_nil_or_concat' rest with rfl | ⟨init, c, rfl⟩
    · exact hrest.symm
    · have hnotMem : 10 ∉ (nextPiece maxlen stream).dropLast :=
        Lines.sep_notMem_dropLast_piece 10 (maxlen - 1) stream
      rw [← hrest, ← List.append_assoc, List.dropLast_concat] at hnotMem
      exact absurd (List.mem_append_left init (by decide)) hnotMem
  · intro h
    rw [h]
    decide

/-- The loop of `request_read_headers` ends on exactly the streams with a blank line. -/
theorem headersEnd_iff (stream buf : List UInt8) :
    HeadersEnd stream buf ↔ BlankLine (Lines.pieces 10 (MAXBUF - 1) stream) buf := by
  have hroom : 0 < MAXBUF - 1 := by decide
  induction stream using Lines.pieces_induction (10 : UInt8) hroom generalizing buf with
  | nil => exact iff_of_false (not_headersEnd_nil buf) (not_blankLine_nil buf)
  | next stream hstream ih =>
    have hne : nextPiece MAXBUF stream ≠ [] := Lines.piece_ne_nil 10 hroom hstream
    have hrest : HeadersEnd (stream.drop (nextPiece MAXBUF stream).length)
        (bufAfter MAXBUF (nextPiece MAXBUF stream) buf) ↔
          BlankLine (Lines.pieces 10 (MAXBUF - 1) (stream.drop (nextPiece MAXBUF stream).length))
            (bufAfter MAXBUF (nextPiece MAXBUF stream) buf) := ih _
    have hcons : Lines.pieces 10 (MAXBUF - 1) stream = nextPiece MAXBUF stream ::
        Lines.pieces 10 (MAXBUF - 1) (stream.drop (nextPiece MAXBUF stream).length) :=
      Lines.pieces_eq_cons 10 hroom hstream
    rw [headersEnd_step, hcons, blankLine_cons, hrest]
    by_cases hshort : Short MAXBUF (nextPiece MAXBUF stream)
    · -- the last byte of the stream, in front of what the buffer held
      have hself : nextPiece MAXBUF stream = stream :=
        Lines.piece_eq_self 10 hshort.1.1 hshort.1.2
      obtain ⟨x, hx⟩ := List.length_eq_one_iff.mp hshort.2
      have hps : Lines.pieces 10 (MAXBUF - 1) (stream.drop (nextPiece MAXBUF stream).length) =
          [] := by
        rw [hself, List.drop_length, Lines.pieces_nil]
      have hbuf : bufAfter MAXBUF (nextPiece MAXBUF stream) buf = x :: buf.drop 1 := by
        rw [bufAfter, if_pos hshort, hx]
        rfl
      rw [hps, hbuf, hx]
      have hx' : [x] ≠ ascii "\r\n" := by simp [ascii]
      simp only [not_blankLine_nil, hx', or_false, false_or, true_and]
      exact cstr_cons_eq_blank
    · have hbuf : bufAfter MAXBUF (nextPiece MAXBUF stream) buf =
          nextPiece MAXBUF stream ++ 0 :: buf.drop ((nextPiece MAXBUF stream).length + 1) :=
        bufAfter_of_not_short hshort buf
      have hreturn : nextPiece MAXBUF stream ≠ ascii "\r" := by
        intro h
        rw [h] at hshort
        exact hshort (by decide)
      have hleft : cstr ((bufAfter MAXBUF (nextPiece MAXBUF stream) buf).drop 1) =
          cstr ((nextPiece MAXBUF stream).drop 1) := by
        rw [hbuf, List.drop_append_of_le_length (List.length_pos_iff.mpr hne), cstr_append_nul]
      rw [cstr_bufAfter hshort, cstr_piece_eq_blank]
      simp only [hreturn, false_and, and_false, false_or]
      exact or_congr_right ⟨blankLine_congr hleft, blankLine_congr hleft.symm⟩

/-- A client that closes its side behind the request line. -/
theorem not_headersEnd_closed : ¬ HeadersEnd [] (List.replicate MAXBUF 0) :=
  not_headersEnd_nil _

/-- The loop that ends at all ends within the calls that `requestReadHeaders` allows it. -/
theorem readHeaders_of_headersEnd {stream : List UInt8} (h : HeadersEnd stream buf)
    {lines : Nat} (hlines : stream.length < lines) (output : List UInt8) :
    ((readHeaders lines buf).run ⟨stream, output⟩).isSome := by
  induction lines generalizing stream buf with
  | zero => exact absurd hlines (Nat.not_lt_zero _)
  | succ lines ih =>
    have hstream : stream ≠ [] := by
      rintro rfl
      exact not_headersEnd_nil buf h
    have hdrop : (stream.drop (nextPiece MAXBUF stream).length).length < stream.length :=
      Lines.length_drop_piece_lt 10 (by decide) hstream
    rw [readHeaders_succ]
    split_ifs with hblank
    · rfl
    · exact ih (((headersEnd_step stream buf).mp h).resolve_left hblank) (by omega)

/-- What was written before does not matter. -/
theorem readHeaders_isSome_output {lines : Nat} {stream output : List UInt8}
    (h : ((readHeaders lines buf).run ⟨stream, output⟩).isSome) (output' : List UInt8) :
    ((readHeaders lines buf).run ⟨stream, output'⟩).isSome := by
  induction lines generalizing stream buf with
  | zero => exact absurd h Bool.false_ne_true
  | succ lines ih =>
    rw [readHeaders_succ] at h ⊢
    split_ifs at h ⊢
    · rfl
    · exact ih h

/-- `requestReadHeaders` does not come back exactly when the loop never ends. -/
theorem requestReadHeaders_isSome_iff (s : Socket) :
    ((requestReadHeaders buf).run s).isSome ↔ HeadersEnd s.input buf := by
  have hrun : (requestReadHeaders buf).run s = (readHeaders (s.input.length + 1) buf).run s := rfl
  rw [hrun]
  constructor
  · exact fun h output => ⟨_, readHeaders_isSome_output h output⟩
  · intro h
    exact readHeaders_of_headersEnd h (Nat.lt_succ_self _) s.output

end OstepProjects.WebServer
