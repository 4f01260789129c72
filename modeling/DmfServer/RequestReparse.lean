/-
DmfServer/RequestReparse.lean

Parsing again when more of a request has arrived.

A caller that is told to read more calls `ParseHeader` on a longer and
longer prefix of the request, always with the same object.  What a call on a
prefix leaves behind is harmless:

* the fields of the request line are set again by the next call that comes
  so far;
* the lines it has read as header lines are lines of the request, or a piece
  of the one that is cut, and that has the same name; so the header map has
  no key the whole request does not set (`RequestForm.readLines_prefix`).

Hence `parseHeader_again`: the call on the whole request answers what it
answers on a fresh object.
-/
import DmfServer.RequestCrash
import DmfServer.RequestPrefix

namespace DmfServer

open Strings

variable {col : Collection} {h2 : Bool} {r r' : Req} {w p method path protocol rest : Bytes}
variable {lines : List Bytes} {line : Bytes}

/-! ### What a prefix has read -/

/-- The lines that are read of a prefix have names of lines of the request. -/
theorem RequestForm.readLines_prefix (h : RequestForm w method path protocol lines rest)
    (hp : p <+: w) : ∀ line ∈ readLines p, ∃ l ∈ lines, headerName line = headerName l := by
  by_cases hin : crlf <:+: p
  · obtain ⟨a, b, rfl, hb⟩ := exists_last_cut borderless_crlf.1 hin
    obtain ⟨front, ha, hfront⟩ := h.of_prefix hp hb
    intro line hline
    rw [readLines, split_append borderless_crlf, ha, split_of_absent borderless_crlf.1 hb] at hline
    replace hline : line ∈ (front ++ [b]).takeWhile (colon <:+: ·) := by
      dsimp only [List.cons_append] at hline
      split_ifs at hline
      · exact hline
      · cases hline
    rcases hfront with ⟨tail, rfl⟩ | ⟨hpre, hname⟩
    · -- the blank line has no colon, so the lines before it are read
      have hnil : ¬ colon <:+: ([] : Bytes) := by decide
      have hall : ∀ l ∈ lines, decide (colon <:+: l) = true := by
        intro l hl
        simpa using (h.lines l hl).colon
      rw [List.append_assoc, List.takeWhile_append_of_pos hall, List.cons_append,
        List.takeWhile_cons_of_neg (by simpa using hnil), List.append_nil] at hline
      exact ⟨line, hline, rfl⟩
    · have hc : colon <:+: line := by simpa using List.mem_takeWhile_imp hline
      rcases List.mem_append.mp (List.takeWhile_subset _ hline) with hmem | hmem
      · exact ⟨line, hpre.subset hmem, rfl⟩
      · obtain rfl := List.mem_singleton.mp hmem
        exact hname hc
  · intro line hline
    rw [readLines, split_of_absent borderless_crlf.1 hin] at hline
    cases hline

/-! ### What a call leaves alone -/

namespace Req

theorem parseLines_body {ls : List Bytes} {e : RequestError} (h : parseLines r ls = some (r', e)) :
    r'.body = r.body ∧ r'.h2 = r.h2 := by
  induction ls generalizing r with
  | nil =>
      cases h
      exact ⟨rfl, rfl⟩
  | cons line ls ih =>
      rw [parseLines_cons] at h
      split at h
      · cases h
        exact ⟨rfl, rfl⟩
      split at h
      · cases h
        exact ⟨rfl, rfl⟩
      split at h
      · cases h
      · have hrest := ih h
        exact hrest

/-- `ParseHeader` does not touch the body. -/
theorem parseHeader_body {e : RequestError} (h : r.parseHeader col p = some (r', e)) :
    r'.body = r.body ∧ r'.h2 = r.h2 := by
  rcases parseHeader_cases col r p with
    ⟨line, lines, method, path, protocol, -, -, -, hp⟩ | ⟨r₁, e₁, hp, -, -, hbody⟩
  · rw [hp] at h
    have hlines := parseLines_body h
    exact hlines
  · rw [hp] at h
    cases h
    exact hbody

/-! ### Parsing again -/

/-- `ParseHeader` on one text after the other; what it answers is dropped. -/
def parseHeaders (col : Collection) (r : Req) (texts : List Bytes) : Option Req :=
  texts.foldlM (fun r text => (r.parseHeader col text).map Prod.fst) r

/-- An object that has seen prefixes of the request with these lines: no
other header is set. -/
structure Partial (h2 : Bool) (lines : List Bytes) (r : Req) : Prop where
  body : r.body = []
  h2 : r.h2 = h2
  headers : ∀ key, (r.headers.lookup key).isSome → (lastValue lines key).isSome

theorem partial_reqInit : Partial h2 lines (reqInit h2) := by
  refine ⟨rfl, rfl, fun key hkey => ?_⟩
  simp [reqInit] at hkey

/-- A call on one more prefix. -/
theorem Partial.parseHeader (col : Collection) (h : Partial h2 lines r)
    (hform : RequestForm w method path protocol lines rest) (hp : p <+: w) :
    ∃ r', (r.parseHeader col p).map Prod.fst = some r' ∧ Partial h2 lines r' := by
  have hread := hform.readLines_prefix hp
  obtain ⟨r', e, hr', hheaders⟩ := parseHeader_isSome col r fun line hline => by
    obtain ⟨l, hl, heq⟩ := hread line hline
    rw [heq]
    exact (hform.lines l hl).name
  obtain ⟨hbody, hh2⟩ := parseHeader_body hr'
  refine ⟨r', by rw [hr']; rfl, hbody.trans h.body, hh2.trans h.h2, fun key hkey => ?_⟩
  rw [hheaders, lookup_foldl_enter, Option.isSome_or, Bool.or_eq_true] at hkey
  rcases hkey with hkey | hkey
  · -- a key that is read from the prefix is the key of a line of the request
    rw [lastValue_isSome_iff] at hkey ⊢
    obtain ⟨line, hmem, heq⟩ := hkey
    obtain ⟨l, hl, hname⟩ := hread line hmem
    refine ⟨l, hl, ?_⟩
    rwa [headerKey, ← hname]
  · exact h.headers key hkey

theorem Partial.parseHeaders (col : Collection) (h : Partial h2 lines r)
    (hform : RequestForm w method path protocol lines rest) {texts : List Bytes}
    (hp : ∀ p ∈ texts, p <+: w) :
    ∃ r', r.parseHeaders col texts = some r' ∧ Partial h2 lines r' := by
  induction texts generalizing r with
  | nil => exact ⟨r, rfl, h⟩
  | cons p texts ih =>
      obtain ⟨hp, htexts⟩ := List.forall_mem_cons.mp hp
      obtain ⟨r₁, hr₁, h₁⟩ := h.parseHeader col hform hp
      obtain ⟨r', hr', h'⟩ := ih h₁ htexts
      refine ⟨r', ?_, h'⟩
      rw [Req.parseHeaders, List.foldlM_cons, hr₁]
      exact hr'

end Req

/-- **Parsing again.**  Calls of `ParseHeader` on prefixes of an accepted
request return, and the call on the whole request that follows on the same
object answers `RequestOk` and leaves the object that a single call leaves. -/
theorem parseHeader_again (col : Collection) (h2 : Bool) (w : Bytes) (r : Req)
    (hw : (reqInit h2).parseHeader col w = some (r, .requestOk)) (prefixes : List Bytes)
    (hp : ∀ p ∈ prefixes, p <+: w) :
    ∃ r', (reqInit h2).parseHeaders col prefixes = some r' ∧
      r'.parseHeader col w = some (r, .requestOk) := by
  obtain ⟨method, path, protocol, lines, rest, hform⟩ := form_of_parseHeader hw
  have h₀ : Req.Partial h2 lines (reqInit h2) := Req.partial_reqInit
  obtain ⟨r', hr', h'⟩ := h₀.parseHeaders col hform hp
  refine ⟨r', hr', ?_⟩
  rw [← hw, parseHeader_of_form col r' hform, parseHeader_of_form col (reqInit h2) hform]
  have hheaders : lines.foldl enter r'.headers = lines.foldl enter (reqInit h2).headers := by
    apply Finmap.ext_lookup
    intro key
    rw [lookup_foldl_enter, lookup_foldl_enter]
    rcases hkey : lastValue lines key with - | v
    · -- a key the request does not set is not in either map
      have hnone : r'.headers.lookup key = none := by
        by_contra hne
        have hsome := h'.headers key (Option.isSome_iff_ne_none.mpr hne)
        rw [hkey] at hsome
        cases hsome
      rw [hnone]
      rfl
    · rfl
  obtain ⟨method', path', protocol', headers', body', h2'⟩ := r'
  obtain rfl : body' = [] := h'.body
  obtain rfl : h2' = h2 := h'.h2
  dsimp only at hheaders ⊢
  rw [hheaders]
  rfl

/-- A request that arrives in four pieces, cut in a name, in a value and at
the end of a line. -/
theorem parseHeader_again_host : ∃ r r',
    (reqInit false).parseHeaders .mem [bytes "GET / HTTP/1.1\r\nHo",
        bytes "GET / HTTP/1.1\r\nHost: exa", bytes "GET / HTTP/1.1\r\nHost: example\r\n"]
      = some r' ∧
    r'.parseHeader .mem (bytes "GET / HTTP/1.1\r\nHost: example\r\n\r\n") = some (r, .requestOk) ∧
    r.headers.lookup (bytes "Host") = some (bytes "example") := by
  obtain ⟨r', hr', h'⟩ := parseHeader_again .mem false
    (bytes "GET / HTTP/1.1\r\nHost: example\r\n\r\n") _ rfl
    [bytes "GET / HTTP/1.1\r\nHo", bytes "GET / HTTP/1.1\r\nHost: exa",
      bytes "GET / HTTP/1.1\r\nHost: example\r\n"] (by decide)
  exact ⟨_, r', hr', h', by decide⟩

end DmfServer
