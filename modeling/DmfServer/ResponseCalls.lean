/-
DmfServer/ResponseCalls.lean

Runs of the response library.

A response is built by calls in any order: `HttpResParse` of a text from an
upstream, `SetFirstLine`, `SetHeader`, `DelHeader` and `SetBody`.  What every
call keeps is that the response can be written (`Writable`): its first line
is not set yet or has three words, and its header fields survive being
written as a line.  Hence a response that was parsed, edited and written out
in any order of its header map is read again as it is, with its body behind
the first blank line, as soon as its first line has been set
(`run_roundTrips_iff`).

`HttpResParse` takes every word it is given, so a header name may also be
empty here (a line `: value`), which the request library does not admit.
-/
import DmfServer.ResponseRow
import DmfServer.RequestBody

namespace DmfServer

open Strings

variable {key value line s : Bytes} {lines : List Bytes} {headers : Headers}
variable {order : List (Bytes × Bytes)} {r r' : Response}

/-! ### Fields and first lines -/

/-- A header field that is read as it was written. -/
structure IsField (key value : Bytes) : Prop where
  key_trimmed : Trimmed key
  key_no_colon : ¬ colon <:+: key
  key_no_crlf : ¬ crlf <:+: key
  value_trimmed : Trimmed value
  value_no_crlf : ¬ crlf <:+: value

/-- A first line that is read as it was written: three words. -/
structure IsLine (line : Bytes) : Prop where
  words : (split space line).length = 3
  no_crlf : ¬ crlf <:+: line

theorem IsField.entry (h : IsField key value) (hne : key ≠ []) : IsEntry key value :=
  ⟨hne, h.key_trimmed, h.key_no_colon, h.key_no_crlf, h.value_trimmed, h.value_no_crlf⟩

/-- The written line of a field is a header line with its name and value. -/
theorem IsField.rowLine (h : IsField key value) :
    (rowLine (key, value) ≠ [] ∧ ¬ crlf <:+: rowLine (key, value) ∧
      colon <:+: rowLine (key, value)) ∧
    headerName (rowLine (key, value)) = key ∧ headerValue (rowLine (key, value)) = value := by
  rcases eq_or_ne key [] with rfl | hne
  · -- the line is `: value`
    have hline : DmfServer.rowLine ([], value) = 58 :: 32 :: value := rfl
    have hcut : cut colon (58 :: 32 :: value) = some ([], 32 :: value) :=
      cut_append (a := []) borderless_colon (by decide)
    rw [hline]
    refine ⟨⟨List.cons_ne_nil _ _, ?_, ⟨[], 32 :: value, rfl⟩⟩, ?_, ?_⟩
    · have h32 : (32 : UInt8) ∉ crlf := by decide
      have he : (58 :: 32 :: value : Bytes) = [58] ++ 32 :: value := rfl
      rw [he, infix_append_cons_iff h32]
      rintro (hi | hi)
      · exact absurd hi (by decide)
      · exact h.value_no_crlf hi
    · rw [headerName, hcut]
      rfl
    · rw [headerValue, hcut]
      exact trimSpace_space_cons h.value_trimmed
  · obtain ⟨hwf, hname, hvalue⟩ := rowLine_wellFormed (h.entry hne)
    exact ⟨⟨hwf.nonempty, hwf.no_crlf, hwf.colon⟩, hname, hvalue⟩

/-- What is read from a line is a field. -/
theorem isField_of_line (hcrlf : ¬ crlf <:+: line) (hcolon : colon <:+: line) :
    IsField (headerName line) (headerValue line) := by
  rcases hc : cut colon line with - | ⟨before, after⟩
  · exact absurd hcolon (cut_eq_none_iff.mp hc)
  have hline : line = before ++ colon ++ after := eq_of_cut hc
  have hname : headerName line = trimSpace before := by rw [headerName, hc]; rfl
  have hvalue : headerValue line = trimSpace after := by rw [headerValue, hc]; rfl
  have hbefore : before <:+: line := by
    rw [hline, List.append_assoc]
    exact (List.prefix_append _ _).isInfix
  have hafter : after <:+: line := by
    rw [hline]
    exact (List.suffix_append _ _).isInfix
  rw [hname, hvalue]
  refine ⟨trimmed_trimSpace before, fun hi => ?_, fun hi => ?_, trimmed_trimSpace after,
    fun hi => ?_⟩
  · exact not_infix_of_cut borderless_colon.1 hc (hi.trans (trimSpace_isInfix before))
  · exact hcrlf (hi.trans ((trimSpace_isInfix before).trans hbefore))
  · exact hcrlf (hi.trans ((trimSpace_isInfix after).trans hafter))

/-- Three words joined by spaces. -/
theorem IsLine.eq (h : IsLine line) : ∃ version status text,
    split space line = [version, status, text] ∧
      line = version ++ bytes " " ++ status ++ bytes " " ++ text := by
  match hs : split space line, h.words with
  | [version, status, text], _ =>
      refine ⟨version, status, text, rfl, ?_⟩
      conv_lhs => rw [← intercalate_split borderless_space.1 (s := line), hs]
      show space.intercalate [version, status, text] = version ++ space ++ status ++ space ++ text
      simp [List.intercalate]

/-- The first three words of a line without CRLF. -/
theorem isLine_of_words {version status text : Bytes} {parts : List Bytes}
    (hcrlf : ¬ crlf <:+: line) (hs : split space line = version :: status :: text :: parts) :
    IsLine (version ++ bytes " " ++ status ++ bytes " " ++ text) := by
  have hno : ∀ w ∈ version :: status :: text :: parts, ¬ space <:+: w :=
    hs ▸ not_infix_of_mem_split borderless_space.1
  have he : version ++ bytes " " ++ status ++ bytes " " ++ text
      = [version, status].flatMap (· ++ space) ++ text := by
    show version ++ space ++ status ++ space ++ text = _
    simp
  constructor
  · rw [he, split_flatMap borderless_space, split_of_absent borderless_space.1 (hno text (by simp))]
    · rfl
    · intro w hw
      exact hno w (by simp at hw ⊢; tauto)
  · -- it is the beginning of the line
    have hs' : split space line = [version, status] ++ text :: parts := hs
    obtain ⟨t, ht, htail, -⟩ := split_eq_append borderless_space.1 hs' (List.cons_ne_nil _ _)
    have hp : text <+: t := head_prefix_of_split borderless_space.1 htail
    intro hi
    refine hcrlf (hi.trans (List.IsPrefix.isInfix ?_))
    rw [he, ht]
    exact (List.prefix_append_right_inj _).mpr hp

namespace Response

/-! ### The calls -/

/-- `GetHeader`: the empty text for a name that is not in the map. -/
def getHeader (key : Bytes) (r : Response) : Bytes := (r.headers.lookup key).getD []

@[simp] theorem getHeader_setHeader (r : Response) (key value : Bytes) :
    (r.setHeader key value).getHeader key = value := by
  rw [getHeader, Response.setHeader, Finmap.lookup_insert]
  rfl

/-- `DelHeader`. -/
def delHeader (key : Bytes) (r : Response) : Response :=
  { r with headers := r.headers.erase key }

/-- A call that changes the object. -/
inductive Edit where
  | httpResParse (request : Bytes)
  | setFirstLine (statusCode : Int) (statusText : Bytes)
  | setHeader (key value : Bytes)
  | delHeader (key : Bytes)
  | setBody (body : Bytes)

/-- Make a call; `none` is the panic of the parser. -/
def apply (r : Response) : Edit → Option Response
  | .httpResParse request => (r.httpResParse request).map Prod.fst
  | .setFirstLine statusCode statusText => some (r.setFirstLine statusCode statusText)
  | .setHeader key value => some (r.setHeader key value)
  | .delHeader key => some (r.delHeader key)
  | .setBody body => some (r.setBody body)

/-- What the caller owes: a status text of one word, and header fields that
are trimmed.  A text to parse can be any. -/
def Edit.Clean : Edit → Prop
  | .setFirstLine _ statusText => ¬ space <:+: statusText ∧ ¬ crlf <:+: statusText
  | .setHeader key value => IsField key value
  | _ => True

/-- The response has a first line with three words, or none, and fields that
survive being written. -/
structure Writable (r : Response) : Prop where
  line : r.firstLine = [] ∨ IsLine r.firstLine
  fields : ∀ key value, r.headers.lookup key = some value → IsField key value

/-! ### What a call keeps -/

theorem Writable.init : Writable responseInit :=
  ⟨.inl rfl, fun key value h => by cases h⟩

theorem isLine_setFirstLine {statusCode : Int} {statusText : Bytes}
    (hspace : ¬ space <:+: statusText) (hcrlf : ¬ crlf <:+: statusText) :
    IsLine (r.setFirstLine statusCode statusText).firstLine := by
  have he : (r.setFirstLine statusCode statusText).firstLine
      = bytes "HTTP/1.1" ++ space ++ bytes (toString statusCode) ++ space ++ statusText := rfl
  rw [he]
  refine ⟨?_, firstLine_no_crlf hcrlf⟩
  rw [split_firstLine, split_of_absent borderless_space.1 hspace]
  rfl

theorem Writable.setHeader (h : r.Writable) (hf : IsField key value) :
    (r.setHeader key value).Writable := by
  refine ⟨h.line, fun k v hkv => ?_⟩
  rcases eq_or_ne k key with rfl | hne
  · rw [Response.setHeader, Finmap.lookup_insert] at hkv
    obtain rfl := Option.some.inj hkv
    exact hf
  · rw [Response.setHeader, Finmap.lookup_insert_of_ne _ hne] at hkv
    exact h.fields k v hkv

theorem Writable.delHeader (h : r.Writable) (key : Bytes) : (r.delHeader key).Writable := by
  refine ⟨h.line, fun k v hkv => ?_⟩
  rcases eq_or_ne k key with rfl | hne
  · rw [Response.delHeader, Finmap.lookup_erase] at hkv
    cases hkv
  · rw [Response.delHeader, Finmap.lookup_erase_ne hne] at hkv
    exact h.fields k v hkv

/-- Entering lines without CRLF keeps the fields. -/
theorem fields_foldl_enter
    (hall : ∀ line ∈ lines, ¬ crlf <:+: line ∧ colon <:+: line)
    (hold : ∀ key value, headers.lookup key = some value → IsField key value) :
    ∀ key value, (lines.foldl enter headers).lookup key = some value → IsField key value := by
  induction lines generalizing headers with
  | nil => exact hold
  | cons line lines ih =>
      obtain ⟨⟨hcrlf, hcolon⟩, hall⟩ := List.forall_mem_cons.mp hall
      apply ih hall
      intro key value hkv
      rcases eq_or_ne key (headerName line) with rfl | hne
      · rw [enter, Finmap.lookup_insert] at hkv
        obtain rfl := Option.some.inj hkv
        exact isField_of_line hcrlf hcolon
      · rw [enter, Finmap.lookup_insert_of_ne _ hne] at hkv
        exact hold key value hkv

theorem Writable.httpResParse (h : r.Writable) {e : ResponError}
    (hp : r.httpResParse s = some (r', e)) : r'.Writable := by
  by_cases hstatus : StatusLine s
  · obtain ⟨line, tail, hs⟩ :=
      List.exists_cons_of_ne_nil (split_ne_nil borderless_crlf.1 (s := s))
    have hno : ∀ l ∈ line :: tail, ¬ crlf <:+: l := hs ▸ not_infix_of_mem_split borderless_crlf.1
    have hlen : 3 ≤ (split space line).length := hstatus line (by rw [hs]; rfl)
    match hline : split space line, hlen with
    | version :: status :: text :: parts, _ =>
        rw [httpResParse_lines hs hline, parseLines_eq] at hp
        split_ifs at hp with hcolon
        obtain ⟨rfl, -⟩ := Prod.mk.inj (Option.some.inj hp)
        refine ⟨.inr (isLine_of_words (hno line (by simp)) hline), ?_⟩
        refine fields_foldl_enter (fun l hl => ⟨?_, hcolon l hl⟩) h.fields
        exact hno l (List.mem_cons_of_mem _ ((List.takeWhile_prefix _).subset hl))
  · -- a text that is dismissed leaves the object as it is
    obtain ⟨e', hp', -⟩ := httpResParse_invalid r hstatus
    rw [hp'] at hp
    obtain ⟨rfl, -⟩ := Prod.mk.inj (Option.some.inj hp)
    exact h

theorem Writable.apply {e : Edit} (h : r.Writable) (hclean : e.Clean)
    (ha : r.apply e = some r') : r'.Writable := by
  cases e with
  | httpResParse request =>
      obtain ⟨⟨r'', e⟩, hp, rfl⟩ := Option.map_eq_some_iff.mp ha
      exact h.httpResParse hp
  | setFirstLine statusCode statusText =>
      obtain rfl := Option.some.inj ha
      exact ⟨.inr (isLine_setFirstLine hclean.1 hclean.2), h.fields⟩
  | setHeader key value =>
      obtain rfl := Option.some.inj ha
      exact h.setHeader hclean
  | delHeader key =>
      obtain rfl := Option.some.inj ha
      exact h.delHeader key
  | setBody body =>
      obtain rfl := Option.some.inj ha
      exact ⟨h.line, h.fields⟩

/-- Over a run. -/
theorem Writable.run {edits : List Edit} (h : r.Writable) (hclean : ∀ e ∈ edits, e.Clean)
    (hrun : edits.foldlM Response.apply r = some r') : r'.Writable := by
  induction edits generalizing r with
  | nil =>
      obtain rfl := Option.some.inj hrun
      exact h
  | cons e edits ih =>
      obtain ⟨he, hclean⟩ := List.forall_mem_cons.mp hclean
      rw [List.foldlM_cons] at hrun
      obtain ⟨r₁, ha, hrun⟩ := Option.bind_eq_some_iff.mp hrun
      exact ih (h.apply he ha) hclean hrun

/-! ### What is written -/

/-- Entries that are fields are entered as they are. -/
theorem foldl_enter_fields (hall : ∀ kv ∈ order, IsField kv.1 kv.2) :
    (order.map rowLine).foldl enter headers =
      order.foldl (fun headers kv => headers.insert kv.1 kv.2) headers := by
  induction order generalizing headers with
  | nil => rfl
  | cons kv order ih =>
      obtain ⟨hkv, hall⟩ := List.forall_mem_cons.mp hall
      obtain ⟨-, hname, hvalue⟩ := hkv.rowLine
      rw [List.map_cons, List.foldl_cons, List.foldl_cons, ih hall, enter, hname, hvalue]

/-- With a first line what is written is a whole response. -/
theorem Writable.headerBlock (h : r.Writable) (hne : r.firstLine ≠ [])
    (hord : Iterates r.headers order) :
    HeaderBlock (r.generateResponse order) r.firstLine (order.map rowLine) r.body := by
  have hline : IsLine r.firstLine := h.line.resolve_left hne
  refine ⟨generateResponse_eq r order, hline.words.ge, hline.no_crlf, ?_⟩
  intro line hl
  obtain ⟨⟨key, value⟩, hkv, rfl⟩ := List.mem_map.mp hl
  exact (h.fields key value ((hord.mem_iff key value).mp hkv)).rowLine.1

/-- Without one it begins with a blank line, and is dismissed. -/
theorem httpResParse_no_firstLine (hnil : r.firstLine = []) (order : List (Bytes × Bytes)) :
    responseInit.httpResParse (r.generateResponse order)
      = some (responseInit, .firstLineInvalid) := by
  have hgen : r.generateResponse order
      = [] ++ crlf ++ ((order.map rowLine).flatMap (· ++ crlf) ++ crlf ++ r.body) := by
    rw [generateResponse_eq, hnil]
    simp only [List.nil_append, List.append_assoc]
  have hsplit : split crlf (r.generateResponse order) = [] ::
      split crlf ((order.map rowLine).flatMap (· ++ crlf) ++ crlf ++ r.body) := by
    rw [hgen, split_append borderless_crlf, split_of_absent borderless_crlf.1 (by decide)]
    rfl
  have hne : r.generateResponse order ≠ [] := by
    rw [hgen]
    simp [crlf]
  rw [httpResParse, if_neg hne, hsplit]
  rfl

/-- The body stands behind the first blank line. -/
theorem Writable.body (h : r.Writable) (hne : r.firstLine ≠ [])
    (hord : Iterates r.headers order) :
    ∃ i, FirstAt (crlf ++ crlf) (r.generateResponse order) i ∧
      (r.generateResponse order).drop (i + 4) = r.body := by
  have hblock := h.headerBlock hne hord
  have hpieces : split crlf (r.generateResponse order)
      = (r.firstLine :: order.map rowLine) ++ [] :: split crlf r.body := hblock.pieces
  have hfull : ∀ l ∈ r.firstLine :: order.map rowLine, l ≠ [] := by
    intro l hl
    rcases List.mem_cons.mp hl with rfl | hl
    · exact hne
    · exact (hblock.lines l hl).1
  obtain ⟨i, hi, hbody⟩ := FirstAt.of_split (List.cons_ne_nil _ _) hfull
    (split_ne_nil borderless_crlf.1) hpieces
  exact ⟨i, hi, hbody.trans (intercalate_split borderless_crlf.1)⟩

/-- A response with a first line is read as it was written. -/
theorem Writable.roundTrips (h : r.Writable) (hne : r.firstLine ≠ [])
    (hord : Iterates r.headers order) : r.RoundTrips order := by
  obtain ⟨version, status, text, hwords, hline⟩ := (h.line.resolve_left hne).eq
  obtain ⟨version', status', text', parts, hsplit, hparse⟩ :=
    (h.headerBlock hne hord).parse responseInit
  rw [hwords] at hsplit
  cases hsplit
  refine ⟨_, hparse, hline.symm, ?_⟩
  refine (foldl_enter_fields ?_).trans (foldl_insert_of_iterates hord)
  rintro ⟨key, value⟩ hkv
  exact h.fields key value ((hord.mem_iff key value).mp hkv)

/-- **Parsed, edited, written and read again.**  Whatever calls were made on
a fresh object, with clean arguments but with any texts to parse, it is read
as it was written, in every order of its header map, exactly if its first
line has been set; and then its body is what follows the first blank line. -/
theorem run_roundTrips_iff (edits : List Edit) (r : Response) (order : List (Bytes × Bytes))
    (hclean : ∀ e ∈ edits, e.Clean) (hrun : edits.foldlM Response.apply responseInit = some r)
    (hord : Iterates r.headers order) :
    (r.RoundTrips order ↔ r.firstLine ≠ []) ∧
      (r.firstLine ≠ [] → ∃ i, FirstAt (crlf ++ crlf) (r.generateResponse order) i ∧
        (r.generateResponse order).drop (i + 4) = r.body) := by
  have h : r.Writable := Writable.init.run hclean hrun
  refine ⟨⟨?_, fun hne => h.roundTrips hne hord⟩, fun hne => h.body hne hord⟩
  rintro ⟨r', hparse, -, -⟩ hnil
  rw [httpResParse_no_firstLine hnil order] at hparse
  cases hparse

/-- An upstream's response with a nameless header field and a reason of two
words, passed on without its server name. -/
theorem run_roundTrips_upstream : ∃ r order,
    [Edit.httpResParse (bytes "HTTP/1.0 404 Not Found\r\nServer: a\r\n : b\r\n\r\nx"),
      Edit.delHeader (bytes "Server"), Edit.setBody (bytes "\r\n\r\n")].foldlM
        Response.apply responseInit = some r ∧
      r.firstLine = bytes "HTTP/1.0 404 Not" ∧ r.getHeader [] = bytes "b" ∧
      r.RoundTrips order := by
  obtain ⟨r, hr, hline, hkey⟩ : ∃ r,
      [Edit.httpResParse (bytes "HTTP/1.0 404 Not Found\r\nServer: a\r\n : b\r\n\r\nx"),
        Edit.delHeader (bytes "Server"), Edit.setBody (bytes "\r\n\r\n")].foldlM
          Response.apply responseInit = some r ∧
        r.firstLine = bytes "HTTP/1.0 404 Not" ∧ r.getHeader [] = bytes "b" :=
    ⟨_, rfl, by decide, by decide⟩
  obtain ⟨order, hord⟩ := exists_iterates r.headers
  refine ⟨r, order, hr, hline, hkey, (run_roundTrips_iff _ r order ?_ hr hord).1.mpr ?_⟩
  · intro e he
    rcases List.mem_cons.mp he with rfl | he
    · trivial
    rcases List.mem_cons.mp he with rfl | he
    · trivial
    · obtain rfl := List.mem_singleton.mp he
      trivial
  · rw [hline]
    decide

end Response

end DmfServer
