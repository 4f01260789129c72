/-
DmfServer/HeaderCase.lean

The letter case of header names.

`ParseHeader` enters a header under its name with the first letter in upper
case and the others as they came.  A getter looks up one fixed spelling.  So
of all the spellings of a name (`SameFold`) a getter finds the two that
agree with its key behind the first letter (`getHeader_of_once`); for a
fresh object any other spelling is as good as no header at all, and
`RequestBodyValid` goes on without it.
-/
import DmfServer.RequestCrash

namespace DmfServer

open Strings

variable {col : Collection} {r r₀ : Req} {s method path protocol rest v w : Bytes}
variable {lines : List Bytes} {line key : Bytes}

/-! ### The getters and the spelling of a name -/

/-- The getters, each with its key. -/
def getters : List (Bytes × (Req → Bytes)) :=
  [(bytes "Host", Req.getHost), (bytes "Connection", Req.getConnection),
    (bytes "Content-Type", Req.getContentType), (bytes "Content-Length", Req.getContentLength),
    (bytes "Upgrade", Req.getUpgrade), (bytes "Transfer-Encoding", Req.getTransferEncoding),
    (bytes "Authorization", Req.getAuthorization)]

/-- The lines whose name is `key` up to letter case. -/
def named (lines : List Bytes) (key : Bytes) : List Bytes :=
  lines.filter fun l => SameFold (headerName l) key

/-- The name is spelled as `key` is, except perhaps for its first letter. -/
def SpelledAs (key line : Bytes) : Prop := (headerName line).tail = key.tail

instance : Decidable (SpelledAs key line) :=
  inferInstanceAs (Decidable ((headerName line).tail = key.tail))

/-- The value of a header that may be missing. -/
def valueOf (header : Option Bytes) : Bytes := (header.map headerValue).getD []

/-- A header is spelled as `key` is, or its value is already in the
object. -/
def Recognised (r₀ : Req) (key : Bytes) (header : Option Bytes) : Prop :=
  (∃ line ∈ header, SpelledAs key line) ∨ r₀.getHeader key = valueOf header

/-- A key of the header map that starts with a capital. -/
def Capital (key : Bytes) : Prop := ∃ k t, key = k :: t ∧ 0x41 ≤ k ∧ k ≤ 0x5A

/-- A getter reads the header map at its key. -/
theorem getters_spec : ∀ g ∈ getters, Capital g.1 ∧ ∀ r, g.2 r = r.getHeader g.1 := by
  intro g hg
  simp only [getters, List.mem_cons, List.not_mem_nil, or_false] at hg
  rcases hg with rfl | rfl | rfl | rfl | rfl | rfl | rfl <;>
    exact ⟨⟨_, _, rfl, by decide, by decide⟩, fun _ => rfl⟩

/-- A line is entered under `key` exactly if its name is the key up to case
and spelled as the key is. -/
theorem headerKey_eq_iff (hkey : Capital key) :
    headerKey line = key ↔ SameFold (headerName line) key ∧ SpelledAs key line := by
  obtain ⟨k, t, rfl, hk⟩ := hkey
  rw [headerKey, SpelledAs, SameFold]
  rcases headerName line with - | ⟨c, name⟩
  · simp [normalise]
  · show toUpper c ++ name = k :: t ↔
      lower c :: name.map lower = lower k :: t.map lower ∧ name = t
    rw [toUpper_append_eq_iff hk, List.cons.injEq, and_assoc, and_congr_right_iff]
    rintro -
    exact ⟨fun h => ⟨congrArg _ h, h⟩, And.right⟩

/-! ### What a getter finds -/

/-- Only the lines of its name are entered under a key. -/
theorem lastValue_named (hkey : Capital key) :
    lastValue lines key = lastValue (named lines key) key := by
  have hfind : (headerKey · = key : Bytes → Bool)
      = fun l => (SameFold (headerName l) key : Bool) ∧ (headerKey l = key : Bool) := by
    funext l
    simp only [headerKey_eq_iff hkey, decide_eq_true_eq, ← and_assoc, and_self]
  rw [lastValue, lastValue, named, ← List.filter_reverse, List.find?_filter, ← hfind]

/-- Of a header that is there once, the value is in the map exactly under
the right spelling. -/
theorem lastValue_of_named (hkey : Capital key) (h : named lines key = [line]) :
    lastValue lines key = if SpelledAs key line then some (headerValue line) else none := by
  have hmem : line ∈ named lines key := by
    rw [h]
    exact List.mem_singleton_self line
  have hfold : SameFold (headerName line) key := of_decide_eq_true (List.mem_filter.mp hmem).2
  rw [lastValue_named hkey, h, ← List.nil_append [line], lastValue_concat]
  simp only [headerKey_eq_iff hkey, and_iff_right hfold]
  rfl

/-- With any other spelling a getter finds what was there before. -/
theorem getHeader_of_named (hkey : Capital key) (h : named lines key = [line])
    (hr : r.headers = lines.foldl enter r₀.headers) :
    r.getHeader key = if SpelledAs key line then headerValue line else r₀.getHeader key := by
  rw [Req.getHeader, hr, lookup_foldl_enter, lastValue_of_named hkey h]
  split <;> rfl

/-- So does it without the header. -/
theorem getHeader_of_missing (hkey : Capital key) (h : named lines key = [])
    (hr : r.headers = lines.foldl enter r₀.headers) : r.getHeader key = r₀.getHeader key := by
  rw [Req.getHeader, hr, lookup_foldl_enter, lastValue_named hkey, h]
  rfl

/-- A getter returns the value of a header, none or one, exactly if it is
recognised. -/
theorem getHeader_eq_iff {header : Option Bytes} (hkey : Capital key)
    (h : named lines key = header.toList) (hr : r.headers = lines.foldl enter r₀.headers) :
    r.getHeader key = valueOf header ↔ Recognised r₀ key header := by
  rcases header with - | line
  · rw [getHeader_of_missing hkey h hr]
    exact (or_iff_right (by simp)).symm
  · have hspelled : (∃ l ∈ some line, SpelledAs key l) ↔ SpelledAs key line := by simp
    rw [getHeader_of_named hkey h hr, Recognised, hspelled]
    split
    · next hs => exact iff_of_true rfl (.inl hs)
    · next hs => rw [or_iff_right hs]

/-- In a fresh object nothing is read in its place. -/
theorem getHeader_of_unrecognised {header : Option Bytes} (hkey : Capital key)
    (h : named lines key = header.toList) (hr : r.headers = lines.foldl enter r₀.headers)
    (hfresh : r₀.headers = ∅) (hno : ¬ Recognised r₀ key header) : r.getHeader key = [] := by
  have hnil : r₀.getHeader key = [] := by
    rw [Req.getHeader, hfresh, Finmap.lookup_empty]
    rfl
  rw [Recognised, not_or] at hno
  rcases header with - | line
  · exact absurd hnil hno.2
  · have hs : ¬ SpelledAs key line := fun hs => hno.1 ⟨line, rfl, hs⟩
    rw [getHeader_of_named hkey h hr, if_neg hs, hnil]

/-! ### `RequestBodyValid` and the two headers it reads -/

namespace Req

/-- Nothing else is read. -/
theorem requestBodyValid_congr {q : Req} (htype : r.getContentType = q.getContentType)
    (hlength : r.getContentLength = q.getContentLength) (hbody : r.body = q.body) :
    r.requestBodyValid = q.requestBodyValid := by
  simp only [requestBodyValid, htype, hlength, hbody]

/-- An object with these two headers. -/
def ofHeaders (v w body : Bytes) : Req :=
  { reqInit false with
    headers := (Finmap.insert (bytes "Content-Type") v ∅).insert (bytes "Content-Length") w
    body }

theorem ofHeaders_type {body : Bytes} : (ofHeaders v w body).getContentType = v := by
  have hne : bytes "Content-Type" ≠ bytes "Content-Length" := by decide
  rw [getContentType, getHeader, ofHeaders, Finmap.lookup_insert_of_ne _ hne, Finmap.lookup_insert]
  rfl

theorem ofHeaders_length {body : Bytes} : (ofHeaders v w body).getContentLength = w := by
  rw [getContentLength, getHeader, ofHeaders, Finmap.lookup_insert]
  rfl

/-- The answer is the one for the values `v` of Content-Type and `w` of
Content-Length, whatever the body. -/
def JudgesBy (r : Req) (v w : Bytes) : Prop :=
  ∀ q : Req, q.getContentType = v → q.getContentLength = w →
    ({ r with body := q.body } : Req).requestBodyValid = q.requestBodyValid

theorem judgesBy_iff : r.JudgesBy v w ↔
    ∀ body, (ofHeaders r.getContentType r.getContentLength body).requestBodyValid
      = (ofHeaders v w body).requestBodyValid := by
  have hself : ∀ body, ({ r with body } : Req).requestBodyValid
      = (ofHeaders r.getContentType r.getContentLength body).requestBodyValid := fun body =>
    requestBodyValid_congr ofHeaders_type.symm ofHeaders_length.symm rfl
  constructor
  · intro h body
    rw [← hself]
    exact h _ ofHeaders_type ofHeaders_length
  · rintro h q rfl rfl
    rw [hself, h]
    exact requestBodyValid_congr ofHeaders_type ofHeaders_length rfl

/-- A form is not judged as another body is. -/
theorem plain_ne_form {v' : Bytes} (hform : bytes "multipart/form-data" <:+: v)
    (hplain : ¬ bytes "multipart/form-data" <:+: v') (w w' : Bytes) :
    ∃ body, (ofHeaders v' w' body).requestBodyValid ≠ (ofHeaders v w body).requestBodyValid := by
  by_contra! hall
  have hvalid : ∀ body, (if w' = [] then some true
      else (atoi w').map fun n => decide ((body.length : Int) = n))
        = some (contains body (boundaryStr v ++ bytes "--")) := by
    intro body
    have h := hall body
    rw [requestBodyValid_plain (by rwa [ofHeaders_type]), ofHeaders_length,
      requestBodyValid_form (by rwa [ofHeaders_type]), ofHeaders_type] at h
    exact h
  -- the text alone, and the text with a byte behind it, are complete; no text is not
  have htext : ∀ t : Bytes, contains (boundaryStr v ++ bytes "--" ++ t)
      (boundaryStr v ++ bytes "--") = true := fun t =>
    contains_iff.mpr (List.prefix_append _ t).isInfix
  have hnil : contains [] (boundaryStr v ++ bytes "--") ≠ true := by
    rw [Ne, contains_iff, List.infix_nil, List.append_eq_nil_iff]
    rintro ⟨-, h⟩
    revert h
    decide
  have h₀ := hvalid []
  have h₁ := hvalid (boundaryStr v ++ bytes "--" ++ [])
  have h₂ := hvalid (boundaryStr v ++ bytes "--" ++ [0])
  rw [htext] at h₁ h₂
  by_cases hw : w' = []
  · rw [if_pos hw] at h₀
    exact hnil (Option.some.inj h₀).symm
  · rw [if_neg hw] at h₁ h₂
    obtain ⟨n, hn, hn₁⟩ := Option.map_eq_some_iff.mp h₁
    rw [hn] at h₂
    have hlen₁ := of_decide_eq_true hn₁
    have hlen₂ := of_decide_eq_true (Option.some.inj h₂)
    simp only [List.length_append, List.length_nil, List.length_singleton] at hlen₁ hlen₂
    omega

/-- A length that is given is not judged as none is. -/
theorem plain_ne_nothing {v' : Bytes} (hplain : ¬ bytes "multipart/form-data" <:+: v)
    (hplain' : ¬ bytes "multipart/form-data" <:+: v') (hw : w ≠ []) :
    ∃ body, (ofHeaders v' [] body).requestBodyValid ≠ (ofHeaders v w body).requestBodyValid := by
  by_contra! hall
  have hvalid : ∀ body : Bytes,
      some true = (atoi w).map fun n => decide ((body.length : Int) = n) := by
    intro body
    have h := hall body
    rw [requestBodyValid_plain (by rwa [ofHeaders_type]), ofHeaders_length, if_pos rfl,
      requestBodyValid_plain (by rwa [ofHeaders_type]), ofHeaders_length, if_neg hw] at h
    exact h
  obtain ⟨n, hn, hn₀⟩ := Option.map_eq_some_iff.mp (hvalid []).symm
  have h₁ := hvalid [0]
  rw [hn] at h₁
  have hlen₀ := of_decide_eq_true hn₀
  have hlen₁ := of_decide_eq_true (Option.some.inj h₁.symm)
  simp only [List.length_nil, List.length_singleton] at hlen₀ hlen₁
  omega

/-- Where each of the two headers is either read or taken for missing, the
answer is the one for their values exactly if the type is read unless it is
not that of a form, and the length unless the type is. -/
theorem judgesBy_iff_of_missing (htype : r.getContentType = v ∨ r.getContentType = [])
    (hlength : r.getContentLength = w ∨ r.getContentLength = []) :
    r.JudgesBy v w ↔
      (r.getContentType = v ∨ ¬ bytes "multipart/form-data" <:+: v) ∧
        (r.getContentLength = w ∨ bytes "multipart/form-data" <:+: v) := by
  have hnil : ¬ bytes "multipart/form-data" <:+: ([] : Bytes) := by decide
  have hother : r.getContentType = v ∨ ¬ bytes "multipart/form-data" <:+: r.getContentType := by
    refine htype.imp_right fun he => ?_
    rwa [he]
  have hread : ¬ bytes "multipart/form-data" <:+: v →
      ¬ bytes "multipart/form-data" <:+: r.getContentType := by
    intro hplain
    rcases hother with he | he
    · rwa [he]
    · exact he
  rw [judgesBy_iff]
  constructor
  · -- a body that is judged wrong is given for each way to fail
    intro h
    have hv : r.getContentType = v ∨ ¬ bytes "multipart/form-data" <:+: v := by
      refine or_iff_not_imp_left.mpr fun hne hform => ?_
      obtain ⟨body, hbody⟩ := plain_ne_form hform (hother.resolve_left hne) w r.getContentLength
      exact hbody (h body)
    refine ⟨hv, or_iff_not_imp_right.mpr fun hplain => ?_⟩
    by_contra hne
    have he := hlength.resolve_left hne
    have hw : w ≠ [] := fun hw => hne (he.trans hw.symm)
    obtain ⟨body, hbody⟩ := plain_ne_nothing hplain (hread hplain) hw
    rw [he] at h
    exact hbody (h body)
  · rintro ⟨hv, hw⟩ body
    -- the length is not looked at in a form
    by_cases hform : bytes "multipart/form-data" <:+: v
    · have he := hv.resolve_right (not_not.mpr hform)
      rw [he, requestBodyValid_form (by rwa [ofHeaders_type]),
        requestBodyValid_form (by rwa [ofHeaders_type]), ofHeaders_type, ofHeaders_type]
      rfl
    · have hplain := hread hform
      rw [requestBodyValid_plain (by rwa [ofHeaders_type]),
        requestBodyValid_plain (by rwa [ofHeaders_type]), ofHeaders_length, ofHeaders_length,
        hw.resolve_right hform]
      rfl

end Req

/-! ### Every spelling of a name -/

/-- **Which spellings the getters find.**  In an accepted request that has a
header once, up to the case of its name, its getter returns the value
exactly if the name is spelled as the key behind the first letter, or the
object gave this value before.  If so for Content-Type and Content-Length,
each given once or not at all, `RequestBodyValid` answers as for any other
object with their values; for a fresh object it does so exactly if the type
is recognised unless it is not that of a form, and the length is unless the
type is. -/
theorem getters_spelling_iff (col : Collection) (r₀ r : Req)
    (s method path protocol rest : Bytes) (lines : List Bytes)
    (h : r₀.parseHeader col s = some (r, .requestOk))
    (hform : RequestForm s method path protocol lines rest) :
    (∀ g ∈ getters, ∀ line, named lines g.1 = [line] →
      (g.2 r = headerValue line ↔ SpelledAs g.1 line ∨ g.2 r₀ = headerValue line)) ∧
    ∀ type length : Option Bytes,
      named lines (bytes "Content-Type") = type.toList →
      named lines (bytes "Content-Length") = length.toList →
      (Recognised r₀ (bytes "Content-Type") type → Recognised r₀ (bytes "Content-Length") length →
        r.JudgesBy (valueOf type) (valueOf length)) ∧
      (r₀.headers = ∅ → (r.JudgesBy (valueOf type) (valueOf length) ↔
        (Recognised r₀ (bytes "Content-Type") type ∨
          ¬ bytes "multipart/form-data" <:+: valueOf type) ∧
        (Recognised r₀ (bytes "Content-Length") length ∨
          bytes "multipart/form-data" <:+: valueOf type))) := by
  have hr : r.headers = lines.foldl enter r₀.headers := by
    rw [parseHeader_of_form col r₀ hform] at h
    cases h
    rfl
  constructor
  · intro g hg line hline
    obtain ⟨hkey, hget⟩ := getters_spec g hg
    have hseen : r.getHeader g.1 = valueOf (some line) ↔ Recognised r₀ g.1 (some line) :=
      getHeader_eq_iff hkey hline hr
    simpa [hget, Recognised, valueOf] using hseen
  · intro type length htype hlength
    have hkeyT := (getters_spec (bytes "Content-Type", Req.getContentType) (by simp [getters])).1
    have hkeyL :=
      (getters_spec (bytes "Content-Length", Req.getContentLength) (by simp [getters])).1
    have hreadT := getHeader_eq_iff hkeyT htype hr
    have hreadL := getHeader_eq_iff hkeyL hlength hr
    constructor
    · intro hseenT hseenL q hqT hqL
      exact Req.requestBodyValid_congr ((hreadT.mpr hseenT).trans hqT.symm)
        ((hreadL.mpr hseenL).trans hqL.symm) rfl
    · intro hfresh
      have hmissT := getHeader_of_unrecognised hkeyT htype hr hfresh
      have hmissL := getHeader_of_unrecognised hkeyL hlength hr hfresh
      rw [← hreadT, ← hreadL] at *
      exact Req.judgesBy_iff_of_missing (or_iff_not_imp_left.mpr hmissT)
        (or_iff_not_imp_left.mpr hmissL)

/-- A length whose name starts with a small letter. -/
theorem getters_spelling_small : ∃ r, (reqInit false).parseHeader .mem
      (bytes "POST / HTTP/1.1\r\ncontent-Length: 3\r\n\r\nabc") = some (r, .requestOk) ∧
    r.getContentLength = bytes "3" := by
  have hform : RequestForm (bytes "POST / HTTP/1.1\r\ncontent-Length: 3\r\n\r\nabc")
      (bytes "POST") (bytes "/") (bytes "HTTP/1.1") [bytes "content-Length: 3"]
      (bytes "abc") := by decide
  have hr := parseHeader_of_form .mem (reqInit false) hform
  obtain ⟨hget, -⟩ := getters_spelling_iff .mem (reqInit false) _ _ _ _ _ _ _ hr hform
  refine ⟨_, hr, ?_⟩
  have hvalue : headerValue (bytes "content-Length: 3") = bytes "3" := by decide
  rw [← hvalue]
  exact (hget (bytes "Content-Length", Req.getContentLength) (by simp [getters]) _
    (by decide)).mpr (.inl (by decide))

/-- Of two spellings of one length the first is not found, and the body that
has a byte less is complete. -/
theorem getters_miss_spelling : ∃ q r r',
    (reqInit false).parseHeader .mem
      (bytes "POST / HTTP/1.1\r\ncontent-length: 3\r\n\r\nab") = some (q, .requestOk) ∧
    reqTest .mem (bytes "POST / HTTP/1.1\r\ncontent-length: 3\r\n\r\nab") = some r ∧
    reqTest .mem (bytes "POST / HTTP/1.1\r\nContent-Length: 3\r\n\r\nab") = some r' ∧
    SameFold (headerName (bytes "content-length: 3")) (bytes "Content-Length") ∧
    headerValue (bytes "content-length: 3") = bytes "3" ∧
    r.getContentLength = [] ∧ r'.getContentLength = bytes "3" ∧
    r.body = r'.body ∧ r.requestBodyValid = some true ∧ r'.requestBodyValid = some false := by
  have hsmall : RequestForm (bytes "POST / HTTP/1.1\r\ncontent-length: 3\r\n\r\nab")
      (bytes "POST") (bytes "/") (bytes "HTTP/1.1") [bytes "content-length: 3"]
      (bytes "ab") := by decide
  have hkey : RequestForm (bytes "POST / HTTP/1.1\r\nContent-Length: 3\r\n\r\nab")
      (bytes "POST") (bytes "/") (bytes "HTTP/1.1") [bytes "Content-Length: 3"]
      (bytes "ab") := by decide
  refine ⟨_, _, _, parseHeader_of_form .mem _ hsmall, hsmall.reqTest .mem, hkey.reqTest .mem, ?_⟩
  decide

end DmfServer
