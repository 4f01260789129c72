/-
DmfServer/RequestCrash.lean

When the request library panics on what a client sends.

A session is what a caller makes of one request: `ParseHeader` and
`ParseBody` as in `req_test`, then `RequestBodyValid`, then `TryFixBody` on
whatever arrives later.  Its panics are

  * `ParseHeader`: `key[:1]` on a header line with a blank name;
  * `ParseBody`: the slice at `i+4` when the request is shorter than four
    bytes;
  * `RequestBodyValid` and `TryFixBody`: `panic(err)` on a Content-Length that
    is no number, unless the Content-Type says multipart/form-data.

All other index and slice expressions are in range.  `session_returns_iff`
states this for every text and every list of later chunks; the lines the
parser reads are described on the text itself (`readLines`).
-/
import DmfServer.RequestBody

namespace DmfServer

open Strings

/-- What a caller makes of one request. -/
def session (col : Collection) (reqStr : Bytes) (others : List Bytes) : Option Req := do
  let req ← reqTest col reqStr
  let _ ← req.requestBodyValid
  others.foldlM (fun req other => (req.tryFixBody other).map Prod.fst) req

/-! ### The condition on the text -/

/-- Whether the parser goes on to the headers. -/
def firstLineValid (line : Bytes) : Bool :=
  let fields := split space line
  fields.length == 3 && httpMethod.contains (fields.getD 0 []) &&
    !(fields.getD 1 []).isEmpty && httpProtocol.contains (fields.getD 2 [])

/-- The lines that are read as header lines: behind a valid first line, up to
the first one without a colon. -/
def readLines (s : Bytes) : List Bytes :=
  match split crlf s with
  | line :: lines =>
      if 2 ≤ lines.length ∧ firstLineValid line then lines.takeWhile (colon <:+: ·) else []
  | [] => []

/-- The text given last for a header, empty if there is none. -/
def headerText (s key : Bytes) : Bytes := (lastValue (readLines s) key).getD []

/-- The texts on which a session does not panic. -/
structure SafeText (s : Bytes) : Prop where
  length : 4 ≤ s.length
  names : ∀ line ∈ readLines s, headerName line ≠ []
  content_length : bytes "multipart/form-data" <:+: headerText s (bytes "Content-Type") ∨
    headerText s (bytes "Content-Length") = [] ∨
    (atoi (headerText s (bytes "Content-Length"))).isSome

/-- The name of the parameter `boundary` and the sign behind it. -/
def boundaryKey : Bytes := bytes "boundary="

/-- The variable `boundaryStr`: with no `boundary=` in the header it is what
stands behind the eighth byte. -/
def boundaryStr (header : Bytes) : Bytes :=
  header.drop (index header boundaryKey + boundaryKey.length).toNat

variable {col : Collection} {r : Req} {s line : Bytes} {lines : List Bytes}

theorem firstLineValid_iff :
    firstLineValid line ↔ ∃ method path protocol, FirstLine line method path protocol := by
  constructor
  · intro h
    simp only [firstLineValid, Bool.and_eq_true, beq_iff_eq] at h
    obtain ⟨⟨⟨hlen, hm⟩, hp⟩, hpr⟩ := h
    obtain ⟨method, path, protocol, hs⟩ := List.length_eq_three.mp hlen
    rw [hs] at hm hp hpr
    exact ⟨method, path, protocol, hs, by simpa using hm, by simpa using hp, by simpa using hpr⟩
  · rintro ⟨method, path, protocol, hs, hm, hp, hpr⟩
    rw [firstLineValid, hs]
    simp [hm, hp, hpr]

namespace Req

/-! ### `ParseHeader` -/

/-- With names on all the lines it reads, the loop enters these. -/
theorem parseLines_isSome (h : ∀ line ∈ lines.takeWhile (colon <:+: ·), headerName line ≠ []) :
    ∃ r' e, parseLines r lines = some (r', e) ∧
      r'.headers = (lines.takeWhile (colon <:+: ·)).foldl enter r.headers := by
  induction lines generalizing r with
  | nil => exact ⟨r, _, rfl, rfl⟩
  | cons line lines ih =>
      by_cases hc : colon <:+: line
      · rw [List.takeWhile_cons_of_pos (by simpa using hc)] at h ⊢
        have hne : line ≠ [] := by
          rintro rfl
          exact absurd hc (by decide)
        rw [parseLines_enter hne hc (h line List.mem_cons_self)]
        exact ih fun l hl => h l (List.mem_cons_of_mem _ hl)
      · rw [List.takeWhile_cons_of_neg (by simpa using hc), parseLines_cons]
        split
        · exact ⟨r, _, rfl, rfl⟩
        · exact ⟨r, _, rfl, rfl⟩

/-- A blank name on one of them is fatal. -/
theorem parseLines_eq_none (h : ∃ line ∈ lines.takeWhile (colon <:+: ·), headerName line = []) :
    parseLines r lines = none := by
  obtain ⟨blank, hmem, hname⟩ := h
  induction lines generalizing r with
  | nil => cases hmem
  | cons line lines ih =>
      by_cases hc : colon <:+: line
      · rw [List.takeWhile_cons_of_pos (by simpa using hc)] at hmem
        have hne : line ≠ [] := by
          rintro rfl
          exact absurd hc (by decide)
        rw [parseLines_cons, if_neg (fun h => hne h.1), if_neg (not_not.mpr hc)]
        split
        · rfl
        · next hn =>
            rcases List.mem_cons.mp hmem with rfl | hmem
            · exact absurd hname hn
            · exact ih hmem
      · rw [List.takeWhile_cons_of_neg (by simpa using hc)] at hmem
        cases hmem

/-- The loop of the parser runs over the lines `readLines` is taken from, or
it is not reached. -/
theorem parseHeader_lines (col : Collection) (r : Req) (s : Bytes) :
    (∃ lines method path protocol, readLines s = lines.takeWhile (colon <:+: ·) ∧
      r.parseHeader col s = parseLines { r with method, path, protocol } lines) ∨
    readLines s = [] ∧ ∃ r' e, r.parseHeader col s = some (r', e) ∧ r'.headers = r.headers := by
  by_cases h : ∃ line lines method path protocol,
      split crlf s = line :: lines ∧ 2 ≤ lines.length ∧ FirstLine line method path protocol
  · obtain ⟨line, lines, method, path, protocol, hs, hl, hf⟩ := h
    refine .inl ⟨lines, method, path, protocol, ?_, parseHeader_of_firstLine hs hl hf⟩
    rw [readLines, hs]
    exact if_pos ⟨hl, firstLineValid_iff.mpr ⟨_, _, _, hf⟩⟩
  · refine .inr ⟨?_, ?_⟩
    · rw [readLines]
      split
      · next line lines hs =>
          refine if_neg ?_
          rintro ⟨hl, hv⟩
          obtain ⟨method, path, protocol, hf⟩ := firstLineValid_iff.mp hv
          exact h ⟨line, lines, method, path, protocol, hs, hl, hf⟩
      · rfl
    · rcases parseHeader_cases col r s with
        ⟨line, lines, method, path, protocol, hs, hl, hf, -⟩ | ⟨r', e, hp, -, hh, -⟩
      · exact absurd ⟨line, lines, method, path, protocol, hs, hl, hf⟩ h
      · exact ⟨r', e, hp, hh⟩

/-- `ParseHeader` returns iff the lines it reads have names, and it has
entered them then. -/
theorem parseHeader_isSome (col : Collection) (r : Req)
    (h : ∀ line ∈ readLines s, headerName line ≠ []) :
    ∃ r' e, r.parseHeader col s = some (r', e) ∧
      r'.headers = (readLines s).foldl enter r.headers := by
  rcases parseHeader_lines col r s with
    ⟨lines, method, path, protocol, hl, hp⟩ | ⟨hl, r', e, hp, hh⟩
  · rw [hp, hl]
    exact parseLines_isSome (hl ▸ h)
  · exact ⟨r', e, hp, by rw [hl]; exact hh⟩

theorem parseHeader_eq_none (h : ∃ line ∈ readLines s, headerName line = []) :
    r.parseHeader col s = none := by
  rcases parseHeader_lines col r s with
    ⟨lines, method, path, protocol, hl, hp⟩ | ⟨hl, -⟩
  · rw [hp]
    exact parseLines_eq_none (hl ▸ h)
  · rw [hl] at h
    obtain ⟨line, hmem, -⟩ := h
    cases hmem

/-! ### `ParseBody` -/

/-- `ParseBody` needs four bytes, and sets nothing but the body. -/
theorem parseBody_isSome (h : 4 ≤ s.length) :
    ∃ r', r.parseBody s = some r' ∧ r'.headers = r.headers := by
  obtain ⟨i, -, -, -, hbody⟩ := parseBody_eq h r
  exact ⟨_, hbody, rfl⟩

theorem parseBody_eq_none (h : s.length < 4) : r.parseBody s = none := by
  have hn : ((s.length : Int) - 4).toNat = 0 := by omega
  have hr : ¬ (s.length : Int) - (0 : Nat) - 4 = 0 := by omega
  have hfrom : sliceFrom s (((0 : Nat) : Int) + 4) = none := by
    rw [sliceFrom, if_neg (by omega)]
  simp only [parseBody, hn, scanBody, Option.bind_eq_bind, Option.bind_some, hr, if_false, hfrom,
    Option.bind_none]

/-! ### `RequestBodyValid` and `TryFixBody` -/

theorem index_ne_iff {s sub : Bytes} : index s sub ≠ -1 ↔ sub <:+: s := by
  rw [index, ← not_iff_not, not_not, ← cut_eq_none_iff]
  rcases cut sub s with - | ⟨a, b⟩
  · simp
  · simp

/-- A form is complete if the text occurs in it. -/
theorem requestBodyValid_form (h : bytes "multipart/form-data" <:+: r.getContentType) :
    r.requestBodyValid
      = some (contains r.body (boundaryStr r.getContentType ++ bytes "--")) := by
  have hlen : 19 ≤ r.getContentType.length := h.length_le
  have h9 : boundaryKey.length = 9 := by decide
  have hslice : sliceFrom r.getContentType
      (index r.getContentType boundaryKey + boundaryKey.length)
        = some (boundaryStr r.getContentType) := by
    refine if_pos ?_
    rw [h9, index]
    rcases hc : cut boundaryKey r.getContentType with - | ⟨a, t⟩
    · show (0 : Int) ≤ -1 + 9 ∧ (-1 + 9 : Int) ≤ _
      omega
    · have := congrArg List.length (eq_of_cut hc)
      rw [List.length_append, List.length_append, h9] at this
      show (0 : Int) ≤ a.length + 9 ∧ (a.length + 9 : Int) ≤ _
      omega
  rw [requestBodyValid, if_pos (index_ne_iff.mpr h)]
  show (sliceFrom _ (index _ boundaryKey + boundaryKey.length)).bind _ = _
  rw [hslice]
  rfl

/-- Any other body is complete if it has the length from the header, or if
there is none. -/
theorem requestBodyValid_plain (h : ¬ bytes "multipart/form-data" <:+: r.getContentType) :
    r.requestBodyValid = if r.getContentLength = [] then some true
      else (atoi r.getContentLength).map fun n => decide ((r.body.length : Int) = n) := by
  have hidx : ¬ index r.getContentType (bytes "multipart/form-data") ≠ -1 :=
    fun hne => h (index_ne_iff.mp hne)
  rw [requestBodyValid, if_neg hidx]
  by_cases hcl : r.getContentLength = []
  · rw [if_pos hcl]
    exact if_neg (not_not.mpr hcl)
  · rw [if_neg hcl]
    refine (if_pos hcl).trans ?_
    rcases atoi r.getContentLength with - | n <;> rfl

/-- A header that stays as it is decides whether the body can be checked. -/
theorem requestBodyValid_isSome_iff : r.requestBodyValid.isSome ↔
    bytes "multipart/form-data" <:+: r.getContentType ∨ r.getContentLength = [] ∨
      (atoi r.getContentLength).isSome := by
  by_cases hform : bytes "multipart/form-data" <:+: r.getContentType
  · rw [requestBodyValid_form hform]
    exact iff_of_true rfl (.inl hform)
  · rw [requestBodyValid_plain hform, or_iff_right hform]
    split
    · next hcl => exact iff_of_true rfl (.inl hcl)
    · next hcl => rw [Option.isSome_map, or_iff_right hcl]

theorem tryFixBody_foldlM (hv : r.requestBodyValid.isSome) (others : List Bytes) :
    (others.foldlM (fun (req : Req) other => (req.tryFixBody other).map Prod.fst) r).isSome := by
  induction others generalizing r with
  | nil => rfl
  | cons other others ih =>
      have hc := requestBodyValid_isSome_iff.mp hv
      -- neither header is touched
      have hv' : ({ r with body := r.body ++ other } : Req).requestBodyValid.isSome :=
        requestBodyValid_isSome_iff.mpr hc
      obtain ⟨q, hq⟩ := Option.isSome_iff_exists.mp hv'
      have ht : (r.tryFixBody other).map Prod.fst = some { r with body := r.body ++ other } := by
        simp [tryFixBody, hq]
      rw [List.foldlM_cons, ht]
      exact ih hv'

end Req

/-- **When a session returns.**  It does so exactly on the safe texts,
whatever arrives later. -/
theorem session_returns_iff (col : Collection) (s : Bytes) (others : List Bytes) :
    (session col s others).isSome ↔ SafeText s := by
  by_cases hlen : 4 ≤ s.length
  · by_cases hnames : ∀ line ∈ readLines s, headerName line ≠ []
    · obtain ⟨r, e, hp, hh⟩ := Req.parseHeader_isSome col (reqInit false) hnames
      obtain ⟨r', hb, hh'⟩ := Req.parseBody_isSome (r := r) hlen
      have htext : ∀ key, r'.getHeader key = headerText s key := by
        intro key
        rw [Req.getHeader, hh', hh, lookup_foldl_enter]
        show ((lastValue (readLines s) key).or none).getD [] = _
        rw [Option.or_none, headerText]
      have hvalid := Req.requestBodyValid_isSome_iff (r := r')
      rw [Req.getContentType, Req.getContentLength, htext, htext] at hvalid
      have hs : session col s others = r'.requestBodyValid.bind fun _ =>
          others.foldlM (fun req other => (req.tryFixBody other).map Prod.fst) r' := by
        simp [session, reqTest, hp, hb]
      rw [hs]
      constructor
      · intro h
        obtain ⟨q, hq, -⟩ := Option.bind_eq_some_iff.mp (Option.eq_some_of_isSome h)
        exact ⟨hlen, hnames, hvalid.mp (by rw [hq]; rfl)⟩
      · rintro ⟨-, -, hc⟩
        have hv := hvalid.mpr hc
        obtain ⟨q, hq⟩ := Option.isSome_iff_exists.mp hv
        rw [hq]
        exact Req.tryFixBody_foldlM hv others
    · constructor
      · intro h
        push Not at hnames
        simp [session, reqTest, Req.parseHeader_eq_none hnames] at h
      · intro h
        exact absurd h.names hnames
  · constructor
    · intro h
      have hb : ∀ r : Req, r.parseBody s = none := fun r => Req.parseBody_eq_none (by omega)
      simp [session, reqTest, hb] at h
    · intro h
      exact absurd h.length hlen

/-- A request of three bytes, a header without a name, and a Content-Length
that is no number. -/
theorem session_panics :
    session .mem (bytes "GET") [] = none ∧
    session .mem (bytes "GET / HTTP/1.1\r\n: x\r\n\r\n") [] = none ∧
    session .mem (bytes "GET / HTTP/1.1\r\nContent-Length: abc\r\n\r\n") [] = none :=
  ⟨rfl, rfl, rfl⟩

end DmfServer
