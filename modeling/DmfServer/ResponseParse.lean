/-
DmfServer/ResponseParse.lean

What `HttpResParse` makes of a text that is no whole response.

A response has a complete header block if it is of the form

    status line CRLF (line CRLF)* CRLF rest

with two spaces in the status line and a colon in every header line
(`HeaderBlock`).  The parser ends its loop at a blank line and also where
the lines run out, and it takes every line before to have a colon.  So
behind a status line it answers `ResponseOk` on a block that is cut off
between two lines or in one behind its colon, and it panics on a line
without a colon, as there is in a block cut off in a name.
`httpResParse_safe_iff` says that these are the only texts on which it goes
wrong.
-/
import DmfServer.Response
import DmfServer.RequestGrammar

namespace DmfServer

open Strings

/-- `s` is a response with these header lines. -/
structure HeaderBlock (s statusLine : Bytes) (lines : List Bytes) (rest : Bytes) : Prop where
  eq : s = statusLine ++ crlf ++ lines.flatMap (· ++ crlf) ++ crlf ++ rest
  status : 3 ≤ (split space statusLine).length
  status_no_crlf : ¬ crlf <:+: statusLine
  lines : ∀ line ∈ lines, line ≠ [] ∧ ¬ crlf <:+: line ∧ colon <:+: line

/-- The text begins with a line that has two spaces. -/
def StatusLine (s : Bytes) : Prop :=
  ∀ line ∈ (split crlf s).head?, 3 ≤ (split space line).length

/-- The parser returns, and with `ResponseOk` only for a complete header
block. -/
def Response.Safe (r : Response) (s : Bytes) : Prop :=
  ∃ r' e, r.httpResParse s = some (r', e) ∧
    (e = .responseOk → ∃ statusLine lines rest, HeaderBlock s statusLine lines rest)

variable {r : Response} {s statusLine line rest version status text : Bytes}
variable {lines tail parts : List Bytes}

/-! ### The loop over the lines -/

namespace Response

/-- Enter a header line, under its name as it is. -/
def enter (headers : Headers) (line : Bytes) : Headers :=
  headers.insert (headerName line) (headerValue line)

/-- One turn of the loop. -/
theorem parseLines_cons : parseLines r (line :: tail) =
    if line = [] then some (r, .responseOk)
    else if colon <:+: line then parseLines { r with headers := enter r.headers line } tail
    else none := by
  rw [parseLines]
  split_ifs with _ hcolon
  · rfl
  · rcases hc : cut colon line with - | ⟨name, value⟩
    · exact absurd hcolon (cut_eq_none_iff.mp hc)
    · simp [splitN, hc, headerName, headerValue, setHeader, enter]
  · simp [splitN, cut_eq_none_iff.mpr hcolon]

/-- The loop enters the lines up to the first blank one, and they all need a
colon. -/
theorem parseLines_eq : parseLines r lines =
    if ∀ line ∈ lines.takeWhile (· ≠ []), colon <:+: line then
      some ({ r with headers := (lines.takeWhile (· ≠ [])).foldl enter r.headers }, .responseOk)
    else none := by
  induction lines generalizing r with
  | nil => simp [parseLines]
  | cons line tail ih =>
      rw [parseLines_cons]
      by_cases hnil : line = []
      · simp [hnil]
      · rw [if_neg hnil, List.takeWhile_cons_of_pos (by simpa using hnil), ih]
        by_cases hcolon : colon <:+: line
        · simp [hcolon]
        · simp [hcolon]

/-! ### The first line -/

/-- A first line with fewer than two spaces is dismissed. -/
theorem httpResParse_invalid (r : Response) (h : ¬ StatusLine s) :
    ∃ e, r.httpResParse s = some (r, e) ∧ e ≠ .responseOk := by
  rw [httpResParse]
  split_ifs
  · exact ⟨_, rfl, ResponError.noConfusion⟩
  · split
    · next line lines hs =>
        split
        · next version status text parts hline =>
            refine absurd ?_ h
            intro l hl
            rw [hs] at hl
            obtain rfl : line = l := Option.some.inj hl
            rw [hline]
            simp
        · exact ⟨_, rfl, ResponError.noConfusion⟩
    · exact ⟨_, rfl, ResponError.noConfusion⟩

/-- Behind another one the lines are read. -/
theorem httpResParse_lines (hs : split crlf s = line :: tail)
    (hline : split space line = version :: status :: text :: parts) :
    r.httpResParse s = parseLines { r with
      firstLine := version ++ bytes " " ++ status ++ bytes " " ++ text } tail := by
  have hne : s ≠ [] := by
    rintro rfl
    rw [split_of_absent borderless_crlf.1 (by decide)] at hs
    obtain ⟨rfl, -⟩ := List.cons.inj hs
    rw [split_of_absent borderless_space.1 (by decide)] at hline
    cases hline
  simp [httpResParse, hne, hs, hline]

end Response

/-! ### Header blocks -/

/-- The pieces between the CRLFs of a response. -/
theorem HeaderBlock.pieces (h : HeaderBlock s statusLine lines rest) :
    split crlf s = statusLine :: (lines ++ [] :: split crlf rest) := by
  have hno : ∀ l ∈ statusLine :: lines ++ [[]], ¬ crlf <:+: l := by
    intro l hl
    simp only [List.cons_append, List.mem_cons, List.mem_append, List.not_mem_nil, or_false] at hl
    rcases hl with rfl | hl | rfl
    · exact h.status_no_crlf
    · exact (h.lines l hl).2.1
    · decide
  have hs := split_flatMap (t := rest) borderless_crlf hno
  rw [h.eq]
  simpa using hs

/-- The lines of a header block are those that are read. -/
theorem HeaderBlock.takeWhile (h : HeaderBlock s statusLine lines rest) :
    (lines ++ [] :: split crlf rest).takeWhile (· ≠ []) = lines := by
  rw [List.takeWhile_append_of_pos, List.takeWhile_cons_of_neg (by simp), List.append_nil]
  intro line hl
  simpa using (h.lines line hl).1

/-- A header block is accepted: the first three words of the status line are
kept, and every header line is entered. -/
theorem HeaderBlock.parse (h : HeaderBlock s statusLine lines rest) (r : Response) :
    ∃ version status text parts, split space statusLine = version :: status :: text :: parts ∧
      r.httpResParse s = some ({ r with
        firstLine := version ++ bytes " " ++ status ++ bytes " " ++ text
        headers := lines.foldl Response.enter r.headers }, .responseOk) := by
  obtain ⟨version, status, text, parts, hsplit⟩ : ∃ version status text parts,
      split space statusLine = version :: status :: text :: parts := by
    match hsplit : split space statusLine, h.status with
    | version :: status :: text :: parts, _ => exact ⟨version, status, text, parts, rfl⟩
  refine ⟨version, status, text, parts, hsplit, ?_⟩
  rw [Response.httpResParse_lines h.pieces hsplit, Response.parseLines_eq, h.takeWhile]
  exact if_pos fun line hl => (h.lines line hl).2.2

/-- **When the parser is safe.**  It returns, with `ResponseOk` for complete
header blocks only, exactly on the texts that do not begin with a status line
and on these blocks. -/
theorem httpResParse_safe_iff (r : Response) (s : Bytes) :
    r.Safe s ↔ ¬ StatusLine s ∨ ∃ statusLine lines rest, HeaderBlock s statusLine lines rest := by
  constructor
  · rintro ⟨r', e, hparse, hok⟩
    by_cases hstatus : StatusLine s
    · refine .inr (hok ?_)
      obtain ⟨line, tail, hs⟩ :=
        List.exists_cons_of_ne_nil (split_ne_nil borderless_crlf.1 (s := s))
      have hlen : 3 ≤ (split space line).length := hstatus line (by rw [hs]; rfl)
      match hline : split space line, hlen with
      | version :: status :: text :: parts, _ =>
          rw [Response.httpResParse_lines hs hline, Response.parseLines_eq] at hparse
          split_ifs at hparse
          cases hparse
          rfl
    · exact .inl hstatus
  · rintro (hstatus | ⟨statusLine, lines, rest, h⟩)
    · obtain ⟨e, hparse, he⟩ := Response.httpResParse_invalid r hstatus
      exact ⟨r, e, hparse, fun hok => absurd hok he⟩
    · obtain ⟨version, status, text, parts, -, hparse⟩ := h.parse r
      exact ⟨_, _, hparse, fun _ => ⟨statusLine, lines, rest, h⟩⟩

/-- A response that is cut off between two lines passes for a whole one, and
one that is cut off in a name is fatal. -/
theorem httpResParse_cut :
    (¬ responseInit.Safe (bytes "HTTP/1.1 200 OK\r\nServer: httpd\r\n")) ∧
    responseInit.httpResParse (bytes "HTTP/1.1 200 OK\r\nServer: httpd\r\nConte") = none := by
  refine ⟨?_, by decide⟩
  rintro ⟨r, e, hparse, hok⟩
  have hok' : e = .responseOk := by
    have hanswer : (responseInit.httpResParse
        (bytes "HTTP/1.1 200 OK\r\nServer: httpd\r\n")).map Prod.snd = some .responseOk := by decide
    rw [hparse] at hanswer
    exact Option.some.inj hanswer
  obtain ⟨statusLine, lines, rest, h⟩ := hok hok'
  -- there are three pieces, and the last one is the blank line
  have hpieces := h.pieces
  rw [show split crlf (bytes "HTTP/1.1 200 OK\r\nServer: httpd\r\n")
    = [bytes "HTTP/1.1 200 OK", bytes "Server: httpd", []] by decide] at hpieces
  obtain ⟨-, hpieces⟩ := List.cons.inj hpieces
  have hne := split_ne_nil (s := rest) borderless_crlf.1
  rcases lines with - | ⟨line, - | ⟨line', lines⟩⟩
  · cases hpieces
  · obtain ⟨-, hpieces⟩ := List.cons.inj hpieces
    exact hne (List.cons.inj hpieces).2.symm
  · obtain ⟨-, hpieces⟩ := List.cons.inj hpieces
    obtain ⟨-, hpieces⟩ := List.cons.inj hpieces
    cases lines <;> cases hpieces

end DmfServer
