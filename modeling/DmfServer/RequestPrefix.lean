/-
DmfServer/RequestPrefix.lean

What `ParseHeader` says of a request that has not arrived whole.

Let `w` be a request it accepts and `p` a prefix of `w` it does not accept.
If `p` has no CRLF the answer is `UnknowInvalid`.  Otherwise let

    p  =  a CRLF b,      no CRLF in b;

the request line is complete, the lines of `a` behind it are entered, and
`b` is the piece that is cut.  The parser treats `b` as a line of its own:

    no CRLF in a               RequestNeedReadMore   (one line is too few)
    a CRLF in a, a colon in b  RequestNeedReadMore   (b is entered, cut or not)
    a CRLF in a, no colon      InvalidHeaders

so only some cuts are recognised as cuts (`CutInHeader`), and
`parseHeader_prefix_iff` says that these are the ones answered with
`RequestNeedReadMore`.
-/
import DmfServer.RequestGrammar

namespace DmfServer

open Strings

/-- The cut lies in the first header line, or behind the colon of a later
one: behind the last CRLF of `p` stands a text with a colon, or there is no
other CRLF. -/
def CutInHeader (p : Bytes) : Prop :=
  ∃ a b, p = a ++ crlf ++ b ∧ ¬ crlf <:+: b ∧ (¬ crlf <:+: a ∨ colon <:+: b)

variable {col : Collection} {r : Req} {w p a b u : Bytes}
variable {line last method path protocol rest : Bytes} {lines : List Bytes}

/-! ### The piece that is cut -/

/-- The last CRLF of a string is one. -/
theorem last_crlf_unique {a' b' : Bytes} (h : a ++ crlf ++ b = a' ++ crlf ++ b')
    (hb : ¬ crlf <:+: b) (hb' : ¬ crlf <:+: b') : a = a' ∧ b = b' := by
  have hs : split crlf a ++ [b] = split crlf a' ++ [b'] := by
    rw [← split_of_absent borderless_crlf.1 hb, ← split_of_absent borderless_crlf.1 hb',
      ← split_append borderless_crlf, ← split_append borderless_crlf, h]
  obtain rfl : b = b' := List.singleton_inj.mp (List.append_inj_right' hs rfl)
  exact ⟨List.append_cancel_right (List.append_cancel_right h), rfl⟩

/-- The name of a header line is complete as soon as its colon is there. -/
theorem headerName_stable {x y z : Bytes} (hx : x <+: z) (hy : y <+: z) (hcx : colon <:+: x)
    (hcy : colon <:+: y) : headerName x = headerName y := by
  have hname : ∀ {t}, t <+: z → colon <:+: t →
      (cut colon t).map Prod.fst = (cut colon z).map Prod.fst := by
    intro t ht hct
    rcases hc : cut colon t with - | ⟨n, v⟩
    · exact absurd hct (cut_eq_none_iff.mp hc)
    · obtain ⟨v', hz, -⟩ := cut_of_prefix borderless_colon ht hc
      rw [hz]
      rfl
  rw [headerName, headerName, hname hx hcx, hname hy hcy]

/-- What is cut off before the blank line has no colon. -/
theorem no_colon_of_prefix_crlf (hb : ¬ crlf <:+: b) (hp : b <+: crlf ++ u) : ¬ colon <:+: b := by
  replace hp : b <+: 13 :: 10 :: u := hp
  rcases b with - | ⟨c, b⟩
  · decide
  · obtain ⟨rfl, hp'⟩ := List.cons_prefix_cons.mp hp
    rcases b with - | ⟨d, b⟩
    · decide
    · obtain ⟨rfl, -⟩ := List.cons_prefix_cons.mp hp'
      exact absurd (List.prefix_append crlf b).isInfix hb

/-! ### The exits on a cut request -/

namespace Req

/-- Without a CRLF the request is dismissed. -/
theorem parseHeader_no_crlf (hne : p ≠ []) (h : ¬ crlf <:+: p) :
    r.parseHeader col p = some (r, .unknowInvalid) := by
  rw [parseHeader, if_neg hne, split_of_absent borderless_crlf.1 h]

/-- With one piece behind the request line more is asked for. -/
theorem parseHeader_one_line (hs : split crlf p = [line, last])
    (hf : FirstLine line method path protocol) :
    r.parseHeader col p = some ({ r with method, path, protocol }, .requestNeedReadMore) := by
  have hne : p ≠ [] := by
    rintro rfl
    rw [split_of_absent borderless_crlf.1 (by decide)] at hs
    cases hs
  simp [parseHeader, hne, hs, hf.split, (col.contains_iff _ _).mpr hf.method, hf.path_nonempty,
    (col.contains_iff _ _).mpr hf.protocol]

/-- Lines as they must be with a last piece behind them. -/
theorem parseLines_concat (hl : ∀ line ∈ lines, WellFormedLine line)
    (hn : colon <:+: last → headerName last ≠ []) :
    ∃ r', parseLines r (lines ++ [last])
      = some (r', if colon <:+: last then .requestNeedReadMore else .invalidHeaders) := by
  induction lines generalizing r with
  | nil =>
      show ∃ r', parseLines r [last] = _
      by_cases hc : colon <:+: last
      · refine ⟨{ r with headers := enter r.headers last }, ?_⟩
        rw [parseLines_cons, if_neg (by simp), if_neg (not_not.mpr hc), if_neg (hn hc), if_pos hc]
        rfl
      · exact ⟨r, by rw [parseLines_cons, if_neg (by simp), if_pos hc, if_neg hc]⟩
  | cons line lines ih =>
      have h := hl line List.mem_cons_self
      rw [List.cons_append, parseLines_enter h.nonempty h.colon h.name]
      exact ih fun l hm => hl l (List.mem_cons_of_mem _ hm)

end Req

/-- The piece behind lines of the request is cut before its colon, or it has
the name of the next line. -/
theorem RequestForm.name_of_cut (h : RequestForm w method path protocol lines rest)
    {front back : List Bytes} (hl : lines = front ++ back) (hb : ¬ crlf <:+: b)
    (hbu : split crlf (b ++ u) = back ++ [] :: split crlf rest) (hc : colon <:+: b) :
    ∃ next ∈ lines, headerName b = headerName next := by
  have hbz : b <+: b ++ u := List.prefix_append _ _
  rcases back with - | ⟨next, back⟩
  · -- the next line is the blank one
    rw [split_eq borderless_crlf.1] at hbu
    rcases hcut : cut crlf (b ++ u) with - | ⟨x, y⟩
    · rw [hcut] at hbu
      exact absurd (List.cons.inj hbu).2.symm (split_ne_nil borderless_crlf.1)
    · rw [hcut] at hbu
      obtain ⟨rfl, -⟩ := List.cons.inj hbu
      rw [eq_of_cut hcut] at hbz
      exact absurd hc (no_colon_of_prefix_crlf hb hbz)
  · have hmem : next ∈ lines := hl ▸ by simp
    have hnz : next <+: b ++ u := head_prefix_of_split borderless_crlf.1 hbu
    exact ⟨next, hmem, headerName_stable hbz hnz hc (h.lines next hmem).colon⟩

/-- A prefix with a CRLF has the whole request line.  The lines behind it
run past the blank line, or they are lines of the request, and the piece
that is cut has no colon or the name of one of these. -/
theorem RequestForm.of_prefix (h : RequestForm w method path protocol lines rest)
    (hp : a ++ crlf ++ b <+: w) (hb : ¬ crlf <:+: b) :
    ∃ front, split crlf a = (method ++ space ++ path ++ space ++ protocol) :: front ∧
      ((∃ tail, front = lines ++ [] :: tail) ∨
        front <+: lines ∧
          (colon <:+: b → ∃ next ∈ lines, headerName b = headerName next)) := by
  obtain ⟨u, rfl⟩ := hp
  have hs := h.pieces
  rw [List.append_assoc _ b u, split_append borderless_crlf] at hs
  rcases ha : split crlf a with - | ⟨line, front⟩
  · exact absurd ha (split_ne_nil borderless_crlf.1)
  rw [ha] at hs
  obtain ⟨rfl, hs'⟩ := List.cons.inj hs
  refine ⟨front, rfl, ?_⟩
  rcases List.append_eq_append_iff.mp hs' with ⟨back, hl, hbu⟩ | ⟨back, hf, hbu⟩
  · exact .inr ⟨⟨back, hl.symm⟩, h.name_of_cut hl hb hbu⟩
  · rcases back with - | ⟨next, back⟩
    · rw [List.append_nil] at hf
      have hl : lines = front ++ [] := by rw [hf, List.append_nil]
      exact .inr ⟨⟨[], hl.symm⟩, h.name_of_cut hl hb hbu.symm⟩
    · obtain ⟨rfl, -⟩ := List.cons.inj hbu
      exact .inl ⟨back, hf⟩

/-- The answer to a prefix with a CRLF that is not accepted. -/
theorem parseHeader_of_prefix (h : RequestForm w method path protocol lines rest)
    (hp : a ++ crlf ++ b <+: w) (hb : ¬ crlf <:+: b)
    (hnot : ¬ ∃ r', r.parseHeader col (a ++ crlf ++ b) = some (r', .requestOk)) :
    ∃ r', r.parseHeader col (a ++ crlf ++ b) = some (r',
      if ¬ crlf <:+: a ∨ colon <:+: b then .requestNeedReadMore else .invalidHeaders) := by
  obtain ⟨front, ha, hfront⟩ := h.of_prefix hp hb
  have hf : FirstLine _ method path protocol :=
    firstLine_iff.mpr ⟨rfl, h.path_no_space, h.method, h.path_nonempty, h.protocol⟩
  have hs : split crlf (a ++ crlf ++ b)
      = (method ++ space ++ path ++ space ++ protocol) :: (front ++ [b]) := by
    rw [split_append borderless_crlf, ha, split_of_absent borderless_crlf.1 hb, List.cons_append]
  rcases eq_or_ne front [] with rfl | hfr
  · -- one CRLF only
    have hno : ¬ crlf <:+: a := by
      rw [split_eq_singleton borderless_crlf.1 ha, crlf_infix_firstLine h.method h.protocol]
      exact h.path_no_crlf
    rw [if_pos (.inl hno)]
    exact ⟨_, Req.parseHeader_one_line hs hf⟩
  · have hin : crlf <:+: a := by
      by_contra hno
      rw [split_of_absent borderless_crlf.1 hno] at ha
      exact hfr (List.cons.inj ha).2.symm
    have hlen : 2 ≤ (front ++ [b]).length := by
      have := List.length_pos_iff.mpr hfr
      simp
      omega
    rw [Req.parseHeader_of_firstLine hs hlen hf] at hnot ⊢
    simp only [hin, not_true_eq_false, false_or]
    rcases hfront with ⟨tail, rfl⟩ | ⟨hpre, hname⟩
    · -- the blank line is there, so the prefix is accepted
      rw [List.append_assoc, List.cons_append] at hnot
      exact (hnot ⟨_, Req.parseLines_of_wellFormed h.lines (by simp)⟩).elim
    · refine Req.parseLines_concat (fun l hl => h.lines l (hpre.subset hl)) fun hc => ?_
      obtain ⟨next, hmem, heq⟩ := hname hc
      rw [heq]
      exact (h.lines next hmem).name

/-- **Cut requests.**  Of the proper prefixes of an accepted request that are
not accepted themselves, those cut in the first header line or behind the
colon of a later one are answered with `RequestNeedReadMore`, and no
others. -/
theorem parseHeader_prefix_iff (col : Collection) (h2 : Bool) (w p : Bytes)
    (hw : ∃ r, (reqInit h2).parseHeader col w = some (r, .requestOk)) (hp : p <+: w)
    (hne : p ≠ []) (hnot : ¬ ∃ r, (reqInit h2).parseHeader col p = some (r, .requestOk)) :
    (∃ r, (reqInit h2).parseHeader col p = some (r, .requestNeedReadMore)) ↔ CutInHeader p := by
  obtain ⟨r, hr⟩ := hw
  obtain ⟨method, path, protocol, lines, rest, hform⟩ := form_of_parseHeader hr
  by_cases hin : crlf <:+: p
  · obtain ⟨a, b, rfl, hb⟩ := exists_last_cut borderless_crlf.1 hin
    obtain ⟨r', hr'⟩ := parseHeader_of_prefix hform hp hb hnot
    rw [hr']
    constructor
    · rintro ⟨r'', h⟩
      refine ⟨a, b, rfl, hb, ?_⟩
      by_contra hno
      rw [if_neg hno] at h
      cases h
    · rintro ⟨a', b', heq, hb', hcut⟩
      obtain ⟨rfl, rfl⟩ := last_crlf_unique heq hb hb'
      exact ⟨r', by rw [if_pos hcut]⟩
  · rw [Req.parseHeader_no_crlf hne hin]
    constructor
    · rintro ⟨r', h⟩
      cases h
    · rintro ⟨a, b, rfl, -⟩
      exact absurd (List.infix_append a crlf b) hin

/-- A request cut inside its first header line. -/
theorem parseHeader_prefix_host : ∃ r, (reqInit false).parseHeader .mem
    (bytes "GET / HTTP/1.1\r\nHo") = some (r, .requestNeedReadMore) := by
  refine (parseHeader_prefix_iff .mem false (bytes "GET / HTTP/1.1\r\nHost: a\r\n\r\n") _
    ⟨_, rfl⟩ (by decide) (by decide) ?_).mpr ⟨bytes "GET / HTTP/1.1", bytes "Ho", ?_⟩
  · rintro ⟨r, h⟩
    cases h
  · decide

/-- A request that has arrived up to the end of its first header line is
answered with a hard error. -/
theorem parseHeader_cut_invalid :
    (∃ r, (reqInit false).parseHeader .mem (bytes "GET / HTTP/1.1\r\nHost: a\r\n\r\n")
      = some (r, .requestOk)) ∧
    bytes "GET / HTTP/1.1\r\nHost: a\r\n" <+: bytes "GET / HTTP/1.1\r\nHost: a\r\n\r\n" ∧
    bytes "GET / HTTP/1.1\r\nHost: a\r\n" ≠ bytes "GET / HTTP/1.1\r\nHost: a\r\n\r\n" ∧
    bytes "GET / HTTP/1.1\r\nHost: a\r\n" ≠ [] ∧
    ∃ r, (reqInit false).parseHeader .mem (bytes "GET / HTTP/1.1\r\nHost: a\r\n")
      = some (r, .invalidHeaders) :=
  ⟨⟨_, rfl⟩, by decide, by decide, by decide, ⟨_, rfl⟩⟩

end DmfServer
