/-
DmfServer/RequestGrammar.lean

The language `ParseHeader` accepts.

A request is of the form

    method SP path SP protocol CRLF (line CRLF)* CRLF rest

with the method and the protocol from the two tables, a path that is not
empty and has no space and no CRLF, and header lines that are not empty,
have no CRLF and have a colon behind a name that is not blank
(`RequestForm`).  `parseHeader_grammar` says that a fresh request object
accepts exactly these strings, and that the header map it builds gives every
normalised name the value of its last line and holds nothing else.

The parser works on the list of lines, so the proof goes through two
descriptions of its loop: what it does on well-formed lines followed by a
blank one (`parseLines_of_wellFormed`), and what it must have read to end
with `RequestOk` (`parseLines_ok_inv`).
-/
import DmfServer.Request

namespace DmfServer

open Strings

/-! ### The grammar -/

/-- The header map's key for a name: the first byte through
`strings.ToUpper`. -/
def normalise : Bytes → Bytes
  | [] => []
  | c :: key => toUpper c ++ key

/-- The text of a line before its first colon, trimmed. -/
def headerName (line : Bytes) : Bytes := trimSpace (((cut colon line).map Prod.fst).getD [])

/-- The text of a line behind its first colon, trimmed. -/
def headerValue (line : Bytes) : Bytes := trimSpace (((cut colon line).map Prod.snd).getD [])

/-- The key a line is entered under. -/
def headerKey (line : Bytes) : Bytes := normalise (headerName line)

/-- A header line. -/
structure WellFormedLine (line : Bytes) : Prop where
  nonempty : line ≠ []
  no_crlf : ¬ crlf <:+: line
  colon : colon <:+: line
  name : headerName line ≠ []

/-- The value of the last line with the key `key`. -/
def lastValue (lines : List Bytes) (key : Bytes) : Option Bytes :=
  (lines.reverse.find? (headerKey · = key)).map headerValue

/-- `s` is a request with these parts. -/
structure RequestForm (s method path protocol : Bytes) (lines : List Bytes) (rest : Bytes) :
    Prop where
  eq : s = method ++ space ++ path ++ space ++ protocol ++ crlf
    ++ lines.flatMap (· ++ crlf) ++ crlf ++ rest
  method : method ∈ httpMethod
  protocol : protocol ∈ httpProtocol
  path_nonempty : path ≠ []
  path_no_space : ¬ space <:+: path
  path_no_crlf : ¬ crlf <:+: path
  lines : ∀ line ∈ lines, WellFormedLine line

instance {line : Bytes} : Decidable (WellFormedLine line) :=
  decidable_of_iff (line ≠ [] ∧ ¬ crlf <:+: line ∧ colon <:+: line ∧ headerName line ≠ [])
    ⟨fun h => ⟨h.1, h.2.1, h.2.2.1, h.2.2.2⟩, fun h => ⟨h.nonempty, h.no_crlf, h.colon, h.name⟩⟩

instance {s method path protocol rest : Bytes} {lines : List Bytes} :
    Decidable (RequestForm s method path protocol lines rest) :=
  decidable_of_iff (s = method ++ space ++ path ++ space ++ protocol ++ crlf
      ++ lines.flatMap (· ++ crlf) ++ crlf ++ rest ∧ httpMethod.contains method = true ∧
    httpProtocol.contains protocol = true ∧ path ≠ [] ∧ ¬ space <:+: path ∧ ¬ crlf <:+: path ∧
    ∀ line ∈ lines, WellFormedLine line)
    ⟨fun h => ⟨h.1, List.contains_iff_mem.mp h.2.1, List.contains_iff_mem.mp h.2.2.1, h.2.2.2.1,
        h.2.2.2.2.1, h.2.2.2.2.2.1, h.2.2.2.2.2.2⟩,
      fun h => ⟨h.eq, List.contains_iff_mem.mpr h.method, List.contains_iff_mem.mpr h.protocol,
        h.path_nonempty, h.path_no_space, h.path_no_crlf, h.lines⟩⟩

/-! ### The separators -/

theorem borderless_crlf : Borderless crlf := borderless_pair (by decide)

theorem borderless_space : Borderless space := borderless_singleton

theorem borderless_colon : Borderless colon := borderless_singleton

/-- The fixed words contain neither a space nor a CRLF. -/
theorem fixed_word {w : Bytes} (h : w ∈ httpMethod ∨ w ∈ httpProtocol) :
    ¬ space <:+: w ∧ ¬ crlf <:+: w := by
  have hm : ∀ w ∈ httpMethod ++ httpProtocol, (32 : UInt8) ∉ w ∧ (13 : UInt8) ∉ w := by decide
  obtain ⟨h32, h13⟩ := hm w (List.mem_append.mpr h)
  refine ⟨fun hi => h32 (singleton_infix_iff.mp hi), fun hi => h13 ?_⟩
  exact hi.subset (by decide)

/-! ### The request line -/

/-- What a request line must be for the parser to go on to the headers. -/
structure FirstLine (line method path protocol : Bytes) : Prop where
  split : split space line = [method, path, protocol]
  method : method ∈ httpMethod
  path_nonempty : path ≠ []
  protocol : protocol ∈ httpProtocol

/-- A line splits in three exactly if it is three texts without a space,
joined by spaces. -/
theorem split_space_eq_iff {l a b c : Bytes} :
    split space l = [a, b, c] ↔
      l = a ++ space ++ b ++ space ++ c ∧ ¬ space <:+: a ∧ ¬ space <:+: b ∧ ¬ space <:+: c := by
  constructor
  · intro h
    replace h : split space l = [a, b] ++ [c] := h
    obtain ⟨t, rfl, ht, hab⟩ := split_eq_append borderless_space.1 h (List.cons_ne_nil _ _)
    have hc : ¬ space <:+: c :=
      not_infix_of_mem_split borderless_space.1 c (ht ▸ List.mem_singleton_self c)
    obtain rfl := split_eq_singleton borderless_space.1 ht
    exact ⟨by simp, hab a (by simp), hab b (by simp), hc⟩
  · rintro ⟨rfl, ha, hb, hc⟩
    have hab : ∀ l ∈ [a, b], ¬ space <:+: l := by simp [ha, hb]
    have h : split space ([a, b].flatMap (· ++ space) ++ c) = [a, b] ++ split space c :=
      split_flatMap borderless_space hab
    rw [split_of_absent borderless_space.1 hc] at h
    simpa using h

theorem firstLine_iff {line method path protocol : Bytes} :
    FirstLine line method path protocol ↔
      line = method ++ space ++ path ++ space ++ protocol ∧ ¬ space <:+: path ∧
        method ∈ httpMethod ∧ path ≠ [] ∧ protocol ∈ httpProtocol := by
  constructor
  · rintro ⟨hs, hm, hp, hpr⟩
    obtain ⟨rfl, -, hpath, -⟩ := split_space_eq_iff.mp hs
    exact ⟨rfl, hpath, hm, hp, hpr⟩
  · rintro ⟨rfl, hpath, hm, hp, hpr⟩
    refine ⟨split_space_eq_iff.mpr ⟨rfl, ?_, hpath, ?_⟩, hm, hp, hpr⟩
    · exact (fixed_word (.inl hm)).1
    · exact (fixed_word (.inr hpr)).1

/-- The CRLFs of a request line with fixed words are those of its path. -/
theorem crlf_infix_firstLine {method path protocol : Bytes} (hm : method ∈ httpMethod)
    (hpr : protocol ∈ httpProtocol) :
    crlf <:+: method ++ space ++ path ++ space ++ protocol ↔ crlf <:+: path := by
  have h32 : (32 : UInt8) ∉ crlf := by decide
  have he : method ++ space ++ path ++ space ++ protocol
      = method ++ 32 :: (path ++ 32 :: protocol) := by simp [space]
  rw [he, infix_append_cons_iff h32, infix_append_cons_iff h32]
  simp [(fixed_word (.inl hm)).2, (fixed_word (.inr hpr)).2]

/-! ### The exits of the parser -/

/-- Enter a header line. -/
def enter (headers : Headers) (line : Bytes) : Headers :=
  headers.insert (headerKey line) (headerValue line)

namespace Req

variable {col : Collection} {r r' : Req} {s line method path protocol : Bytes}
variable {lines rest : List Bytes}

/-- One turn of the loop over the lines. -/
theorem parseLines_cons : parseLines r (line :: rest) =
    if line = [] ∧ rest ≠ [] then some (r, .requestOk)
    else if ¬ colon <:+: line then some (r, .invalidHeaders)
    else if headerName line = [] then none
    else parseLines { r with headers := enter r.headers line } rest := by
  rw [parseLines]
  rcases hc : cut colon line with - | ⟨name, value⟩
  · have hno := cut_eq_none_iff.mp hc
    simp [splitN, hc, hno]
  · have hi : colon <:+: line := eq_of_cut hc ▸ List.infix_append _ _ _
    rcases hn : trimSpace name with - | ⟨c, key⟩
    · simp [splitN, hc, hi, headerName, hn]
    · simp [splitN, hc, hi, headerName, hn, enter, headerKey, normalise, headerValue]

/-- A line that is not blank and has a colon behind a name is entered. -/
theorem parseLines_enter (hne : line ≠ []) (hc : colon <:+: line) (hn : headerName line ≠ []) :
    parseLines r (line :: rest) = parseLines { r with headers := enter r.headers line } rest := by
  rw [parseLines_cons, if_neg (fun h => hne h.1), if_neg (not_not.mpr hc), if_neg hn]

/-- The parser comes to the loop over the lines, or it stops before with an
error, and the header map and the body as they were. -/
theorem parseHeader_cases (col : Collection) (r : Req) (s : Bytes) :
    (∃ line lines method path protocol,
      split crlf s = line :: lines ∧ 2 ≤ lines.length ∧ FirstLine line method path protocol ∧
        r.parseHeader col s = parseLines { r with method, path, protocol } lines) ∨
    ∃ r' e, r.parseHeader col s = some (r', e) ∧ e ≠ .requestOk ∧ r'.headers = r.headers ∧
      r'.body = r.body ∧ r'.h2 = r.h2 := by
  rw [parseHeader]
  split
  · exact .inr ⟨_, _, rfl, RequestError.noConfusion, rfl, rfl, rfl⟩
  split
  · next line next lines hs =>
      split
      · next method path protocol hf =>
          -- the checks of the first line, in the order of the source
          split
          · exact .inr ⟨_, _, rfl, RequestError.noConfusion, rfl, rfl, rfl⟩
          split
          · exact .inr ⟨_, _, rfl, RequestError.noConfusion, rfl, rfl, rfl⟩
          split
          · exact .inr ⟨_, _, rfl, RequestError.noConfusion, rfl, rfl, rfl⟩
          split
          · exact .inr ⟨_, _, rfl, RequestError.noConfusion, rfl, rfl, rfl⟩
          · next hm hp hpr hl =>
              rw [not_not, col.contains_iff] at hm hpr
              refine .inl ⟨line, _, method, path, protocol, hs, ?_, ⟨hf, hm, hp, hpr⟩, rfl⟩
              exact Nat.succ_le_succ (List.length_pos_iff.mpr hl)
      · exact .inr ⟨_, _, rfl, RequestError.noConfusion, rfl, rfl, rfl⟩
  · exact .inr ⟨_, _, rfl, RequestError.noConfusion, rfl, rfl, rfl⟩

/-- With a first line as it must be and two more pieces the parser comes to
the loop. -/
theorem parseHeader_of_firstLine (hs : split crlf s = line :: lines) (hl : 2 ≤ lines.length)
    (hf : FirstLine line method path protocol) :
    r.parseHeader col s = parseLines { r with method, path, protocol } lines := by
  obtain ⟨l₁, l₂, tail, rfl⟩ : ∃ l₁ l₂ tail, lines = l₁ :: l₂ :: tail := by
    match lines, hl with
    | l₁ :: l₂ :: tail, _ => exact ⟨l₁, l₂, tail, rfl⟩
  have hne : s ≠ [] := by
    rintro rfl
    rw [split_of_absent borderless_crlf.1 (by decide)] at hs
    cases hs
  simp [parseHeader, hne, hs, hf.split, (col.contains_iff _ _).mpr hf.method, hf.path_nonempty,
    (col.contains_iff _ _).mpr hf.protocol]

/-- On lines as they must be, followed by a blank one that is not the last
piece, the loop ends with `RequestOk`. -/
theorem parseLines_of_wellFormed (hl : ∀ line ∈ lines, WellFormedLine line) (hr : rest ≠ []) :
    parseLines r (lines ++ [] :: rest)
      = some ({ r with headers := lines.foldl enter r.headers }, .requestOk) := by
  induction lines generalizing r with
  | nil =>
      show parseLines r ([] :: rest) = _
      rw [parseLines_cons, if_pos ⟨rfl, hr⟩]
      rfl
  | cons line lines ih =>
      have h := hl line List.mem_cons_self
      rw [List.cons_append, parseLines_enter h.nonempty h.colon h.name,
        ih fun l hm => hl l (List.mem_cons_of_mem _ hm)]
      rfl

/-- It ends so only on these. -/
theorem parseLines_ok_inv {ls : List Bytes} (hno : ∀ l ∈ ls, ¬ crlf <:+: l)
    (h : parseLines r ls = some (r', .requestOk)) :
    ∃ lines rest, ls = lines ++ [] :: rest ∧ rest ≠ [] ∧ ∀ line ∈ lines, WellFormedLine line := by
  induction ls generalizing r with
  | nil => cases h
  | cons line ls ih =>
      rw [parseLines_cons] at h
      split at h
      · next hb => exact ⟨[], ls, by rw [hb.1]; rfl, hb.2, by simp⟩
      split at h
      · cases h
      split at h
      · cases h
      · next hb hc hn =>
          obtain ⟨lines, rest, rfl, hr, hw⟩ := ih (fun l hm => hno l (List.mem_cons_of_mem _ hm)) h
          have hne : line ≠ [] := by
            rintro rfl
            exact hb ⟨rfl, by simp⟩
          have hline : WellFormedLine line :=
            ⟨hne, hno line List.mem_cons_self, not_not.mp hc, hn⟩
          exact ⟨line :: lines, rest, rfl, hr, List.forall_mem_cons.mpr ⟨hline, hw⟩⟩

end Req

/-! ### The header map -/

variable {lines : List Bytes} {line key : Bytes} {headers : Headers}

theorem lastValue_concat : lastValue (lines ++ [line]) key
    = if headerKey line = key then some (headerValue line) else lastValue lines key := by
  rw [lastValue, List.reverse_append, List.reverse_singleton, List.singleton_append,
    List.find?_cons]
  by_cases h : headerKey line = key <;> simp [h, lastValue]

theorem lastValue_isSome_iff :
    (lastValue lines key).isSome ↔ ∃ line ∈ lines, headerKey line = key := by
  simp [lastValue]

/-- The map built line by line has the last value of every key, and below it
what was there before. -/
theorem lookup_foldl_enter :
    (lines.foldl enter headers).lookup key = (lastValue lines key).or (headers.lookup key) := by
  induction lines using List.reverseRecOn with
  | nil => rfl
  | append_singleton lines line ih =>
      rw [List.foldl_concat, enter, lastValue_concat]
      by_cases h : headerKey line = key
      · subst h
        rw [Finmap.lookup_insert, if_pos rfl]
        rfl
      · rw [Finmap.lookup_insert_of_ne _ (Ne.symm h), if_neg h]
        exact ih

/-! ### The grammar is what the parser accepts -/

variable {s method path protocol rest : Bytes}

/-- The pieces between the CRLFs of a request. -/
theorem RequestForm.pieces (h : RequestForm s method path protocol lines rest) :
    split crlf s = (method ++ space ++ path ++ space ++ protocol)
      :: (lines ++ [] :: split crlf rest) := by
  have hno : ∀ l ∈ (method ++ space ++ path ++ space ++ protocol) :: lines ++ [[]],
      ¬ crlf <:+: l := by
    intro l hl
    simp only [List.cons_append, List.mem_cons, List.mem_append, List.not_mem_nil, or_false] at hl
    rcases hl with rfl | hl | rfl
    · rw [crlf_infix_firstLine h.method h.protocol]
      exact h.path_no_crlf
    · exact (h.lines l hl).no_crlf
    · decide
  have hs := split_flatMap (t := rest) borderless_crlf hno
  rw [h.eq]
  simpa using hs

theorem parseHeader_of_form (col : Collection) (r : Req)
    (h : RequestForm s method path protocol lines rest) :
    r.parseHeader col s = some ({ r with
      method, path, protocol, headers := lines.foldl enter r.headers }, .requestOk) := by
  have hf : FirstLine _ method path protocol :=
    firstLine_iff.mpr ⟨rfl, h.path_no_space, h.method, h.path_nonempty, h.protocol⟩
  have hr : split crlf rest ≠ [] := split_ne_nil borderless_crlf.1
  have hlen : 2 ≤ (lines ++ [] :: split crlf rest).length := by
    have := List.length_pos_iff.mpr hr
    simp
    omega
  rw [Req.parseHeader_of_firstLine h.pieces hlen hf, Req.parseLines_of_wellFormed h.lines hr]

theorem form_of_parseHeader {col : Collection} {r r' : Req}
    (h : r.parseHeader col s = some (r', .requestOk)) :
    ∃ method path protocol lines rest, RequestForm s method path protocol lines rest := by
  rcases Req.parseHeader_cases col r s with
    ⟨line, ls, method, path, protocol, hs, -, hf, hp⟩ | ⟨_, e, hp, he, -⟩
  · rw [hp] at h
    have hs' : split crlf s = [line] ++ ls := hs
    obtain ⟨hline, hsplit, -⟩ := firstLine_iff.mp hf
    have hno : ∀ l ∈ line :: ls, ¬ crlf <:+: l := hs ▸ not_infix_of_mem_split borderless_crlf.1
    obtain ⟨lines, tail, rfl, ht, hw⟩ :=
      Req.parseLines_ok_inv (fun l hl => hno l (List.mem_cons_of_mem _ hl)) h
    have hs'' : split crlf s = (line :: lines ++ [[]]) ++ tail := by rw [hs]; simp
    obtain ⟨rest, rfl, -, -⟩ := split_eq_append borderless_crlf.1 hs'' ht
    refine ⟨method, path, protocol, lines, rest, ?_, hf.method, hf.protocol, hf.path_nonempty,
      hsplit, ?_, hw⟩
    · rw [hline]
      simp
    · rw [← crlf_infix_firstLine hf.method hf.protocol, ← hline]
      exact hno line List.mem_cons_self
  · rw [hp] at h
    cases h
    exact absurd rfl he

/-- **The request grammar.**  A fresh request object answers `RequestOk`
exactly on the strings of the request form, and then its fields are the
parts of the form, and its header map is the last value of every key. -/
theorem parseHeader_grammar (col : Collection) (h2 : Bool) (s : Bytes) :
    ((∃ r, (reqInit h2).parseHeader col s = some (r, .requestOk)) ↔
      ∃ method path protocol lines rest, RequestForm s method path protocol lines rest) ∧
    ∀ r method path protocol lines rest,
      (reqInit h2).parseHeader col s = some (r, .requestOk) →
      RequestForm s method path protocol lines rest →
      r.method = method ∧ r.path = path ∧ r.protocol = protocol ∧
        ∀ key, r.headers.lookup key = lastValue lines key := by
  refine ⟨⟨?_, ?_⟩, ?_⟩
  · rintro ⟨r, h⟩
    exact form_of_parseHeader h
  · rintro ⟨method, path, protocol, lines, rest, h⟩
    exact ⟨_, parseHeader_of_form col (reqInit h2) h⟩
  · intro r method path protocol lines rest h hform
    rw [parseHeader_of_form col (reqInit h2) hform] at h
    obtain ⟨rfl, -⟩ := Prod.mk.inj (Option.some.inj h)
    refine ⟨rfl, rfl, rfl, fun key => ?_⟩
    show (lines.foldl enter ∅).lookup key = _
    rw [lookup_foldl_enter, Finmap.lookup_empty, Option.or_none]

/-- A request with a name given twice, in different case. -/
theorem parseHeader_grammar_host : ∃ r,
    (reqInit false).parseHeader .mem (bytes "GET /x HTTP/1.1\r\nhost: a\r\nHost:  b:c \r\n\r\nrest")
      = some (r, .requestOk) ∧
    r.path = bytes "/x" ∧ r.headers.lookup (bytes "Host") = some (bytes "b:c") := by
  have hform : RequestForm (bytes "GET /x HTTP/1.1\r\nhost: a\r\nHost:  b:c \r\n\r\nrest")
      (bytes "GET") (bytes "/x") (bytes "HTTP/1.1") [bytes "host: a", bytes "Host:  b:c "]
      (bytes "rest") := by decide
  obtain ⟨hiff, hfields⟩ := parseHeader_grammar .mem false
    (bytes "GET /x HTTP/1.1\r\nhost: a\r\nHost:  b:c \r\n\r\nrest")
  obtain ⟨r, hr⟩ := hiff.mpr ⟨_, _, _, _, _, hform⟩
  obtain ⟨-, hpath, -, hkeys⟩ := hfields r _ _ _ _ _ hr hform
  refine ⟨r, hr, hpath, ?_⟩
  rw [hkeys]
  decide

end DmfServer
