/-
DmfServer/RequestFlush.lean

One object for two requests on a connection.

`Flush` is called between the requests and does nothing.  The second request
sets the fields of its request line and the body anew, but the header map is
only added to: a header of the first request is still there unless the
second one has a header of the same name.  So the object is as good as a
fresh one exactly when the second request repeats every name the object has
(`flush_clears_iff`).
-/
import DmfServer.RequestReparse
import DmfServer.RequestRow

namespace DmfServer

open Strings

variable {col : Collection} {h2 : Bool} {r r' : Req} {w s method path protocol rest : Bytes}
variable {lines : List Bytes} {key : Bytes} {headers : Headers}

namespace Req

/-- The header and the body of one request; the answer of `ParseHeader` is
dropped. -/
def parse (col : Collection) (r : Req) (text : Bytes) : Option Req := do
  let (r, _) ← r.parseHeader col text
  r.parseBody text

/-- A request, whatever it is, adds the lines that are read of it to the
header map. -/
theorem parse_headers (h : r.parse col w = some r') :
    r'.headers = (readLines w).foldl enter r.headers ∧ r'.h2 = r.h2 := by
  obtain ⟨⟨r₁, e⟩, hheader, hbody⟩ := Option.bind_eq_some_iff.mp h
  replace hbody : r₁.parseBody w = some r' := hbody
  have hnames : ∀ line ∈ readLines w, headerName line ≠ [] := by
    intro line hline hname
    rw [parseHeader_eq_none ⟨line, hline, hname⟩] at hheader
    cases hheader
  obtain ⟨r₂, e', hr₂, hheaders⟩ := parseHeader_isSome col r hnames
  rw [hheader] at hr₂
  cases hr₂
  have hlen : 4 ≤ w.length := by
    by_contra hlt
    have hnone := parseBody_eq_none (r := r₁) (Nat.not_le.mp hlt)
    rw [hnone] at hbody
    cases hbody
  obtain ⟨i, -, -, -, hi⟩ := parseBody_eq hlen r₁
  rw [hi] at hbody
  cases hbody
  exact ⟨hheaders, (parseHeader_body hheader).2⟩

/-- An accepted request sets everything but the header map, which it adds
to. -/
theorem parse_of_form (col : Collection) (r : Req)
    (h : RequestForm w method path protocol lines rest) :
    r.parse col w = some { r with
      method, path, protocol, headers := lines.foldl enter r.headers, body := rest } := by
  rw [parse, parseHeader_of_form col r h]
  exact h.parseBody _

end Req

/-- What was in the map before is invisible exactly if it has no key of its
own. -/
theorem foldl_enter_eq_iff : lines.foldl enter headers = lines.foldl enter ∅ ↔
    ∀ key ∈ headers, ∃ line ∈ lines, headerKey line = key := by
  have hkey : ∀ key, (lines.foldl enter headers).lookup key = (lines.foldl enter ∅).lookup key ↔
      (key ∈ headers → ∃ line ∈ lines, headerKey line = key) := by
    intro key
    rw [lookup_foldl_enter, lookup_foldl_enter, Finmap.lookup_empty, ← lastValue_isSome_iff,
      ← Finmap.lookup_isSome]
    rcases lastValue lines key with - | v
    · simp
    · simp
  constructor
  · intro h key
    exact (hkey key).mp (by rw [h])
  · intro h
    apply Finmap.ext_lookup
    intro key
    exact (hkey key).mpr (h key)

theorem mem_foldl_enter :
    key ∈ lines.foldl enter headers ↔ key ∈ headers ∨ ∃ line ∈ lines, headerKey line = key := by
  rw [← Finmap.lookup_isSome, lookup_foldl_enter, Option.isSome_or, Bool.or_eq_true,
    lastValue_isSome_iff, Finmap.lookup_isSome]
  exact or_comm

/-- **When `Flush` is enough.**  After any request `w₁` and `Flush`, an
accepted request `w₂` leaves the object as it leaves a fresh one exactly if
it has a header of every name that is in the object or was read from
`w₁`. -/
theorem flush_clears_iff (col : Collection) (r r₁ r₂ : Req) (w₁ w₂ : Bytes)
    (h₁ : r.parse col w₁ = some r₁)
    (h₂ : (reqInit r.h2).parseHeader col w₂ = some (r₂, .requestOk)) :
    r₁.flush.parse col w₂ = (reqInit r.h2).parse col w₂ ↔
      ∀ key, (key ∈ r.headers ∨ ∃ line ∈ readLines w₁, headerKey line = key) →
        ∃ line ∈ readLines w₂, headerKey line = key := by
  obtain ⟨method, path, protocol, lines, rest, hform⟩ := form_of_parseHeader h₂
  obtain ⟨hheaders, hh2⟩ := Req.parse_headers h₁
  have hiff : r₁.flush.parse col w₂ = (reqInit r.h2).parse col w₂ ↔
      lines.foldl enter r₁.headers = lines.foldl enter ∅ := by
    rw [Req.flush, Req.parse_of_form col r₁ hform, Req.parse_of_form col _ hform]
    simp [reqInit, hh2]
  rw [hiff, foldl_enter_eq_iff, hform.readLines, hheaders]
  apply forall_congr'
  intro key
  rw [mem_foldl_enter]

/-- Two requests with the same names. -/
theorem flush_clears_host : ∃ r₁, (reqInit false).parse .mem
      (bytes "GET /a HTTP/1.1\r\nHost: a\r\n\r\n") = some r₁ ∧
    r₁.flush.parse .mem (bytes "GET /b HTTP/1.1\r\nHost: b\r\n\r\n")
      = (reqInit false).parse .mem (bytes "GET /b HTTP/1.1\r\nHost: b\r\n\r\n") := by
  refine ⟨_, rfl, (flush_clears_iff .mem (reqInit false) _ _
    (bytes "GET /a HTTP/1.1\r\nHost: a\r\n\r\n") (bytes "GET /b HTTP/1.1\r\nHost: b\r\n\r\n")
    rfl rfl).mpr ?_⟩
  rintro key (hkey | ⟨line, hline, rfl⟩)
  · exact absurd hkey (Finmap.notMem_empty)
  · refine ⟨bytes "Host: b", by decide, ?_⟩
    have hall : ∀ line ∈ readLines (bytes "GET /a HTTP/1.1\r\nHost: a\r\n\r\n"),
        headerKey (bytes "Host: b") = headerKey line := by decide
    exact hall line hline

/-- A request that asks to keep the connection is followed by one that does
not, and the second one is taken to ask for it, too. -/
theorem flush_keeps_connection : ∃ r₁ r₂ r₃,
    (reqInit false).parse .mem (bytes "GET / HTTP/1.1\r\nConnection: keep-alive\r\n\r\n")
      = some r₁ ∧
    (∃ r, (reqInit false).parseHeader .mem (bytes "GET / HTTP/1.1\r\n\r\n")
      = some (r, .requestOk)) ∧
    r₁.flush.parse .mem (bytes "GET / HTTP/1.1\r\n\r\n") = some r₂ ∧
    (reqInit false).parse .mem (bytes "GET / HTTP/1.1\r\n\r\n") = some r₃ ∧
    r₂ ≠ r₃ ∧ r₂.isKeepalive = true ∧ r₃.isKeepalive = false := by
  refine ⟨_, _, _, rfl, ⟨_, rfl⟩, rfl, rfl, fun heq => ?_, by decide, by decide⟩
  have hkeep := congrArg Req.isKeepalive heq
  revert hkeep
  decide

end DmfServer
