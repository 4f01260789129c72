/-
DmfServer/Multipart.lean

When a form is complete.

A body of type `multipart/form-data` with the boundary `b` ends with the
line `--b--`: this text, at the start of the body or behind a CRLF
(`Delimited`).  `RequestBodyValid` takes for the boundary all that stands
behind the first `boundary=` of the Content-Type, with the quotes and the
further parameters, and looks for it and `--` anywhere in the body.  It knows
the type and the name of the parameter in lower case only.

So two things can go wrong.  In the header the boundary may not stand alone,
in lower case and at the end (`Bare`); and in the body `b--` may occur without
the end of the form (`Clean`).  Under a bare header the answer is right for
exactly the clean bodies, and only a bare header makes it right for all of
these (`requestBodyValid_delimited_iff`).

What stands behind the first `boundary=` may have one or two dashes more than
the boundary, since two dashes are in front of it in the last line.  This
needs a second `boundary=` in the header: `BOUNDARY=b; boundary=--b`.
-/
import DmfServer.RequestCrash

namespace DmfServer

open Strings

variable {r : Req} {b typ before key value tail text body header : Bytes}

/-! ### The header and the body -/

/-- The boundary as a quoted string. -/
def quoted (b : Bytes) : Bytes := bytes "\"" ++ b ++ bytes "\""

/-- The header `header` is of the type `multipart/form-data` and has the
parameter `boundary` with the value `b`, written as `value`: behind `before`,
and with `tail` behind it, which is nothing or begins with a semicolon.  The
type and the name may be in upper case, too. -/
structure Carries (header b typ before key value tail : Bytes) : Prop where
  eq : header = typ ++ before ++ (key ++ (value ++ tail))
  type : SameFold typ (bytes "multipart/form-data")
  name : SameFold key boundaryKey
  written : value = b ∨ value = quoted b
  rest : tail = [] ∨ ∃ blanks more, tail = blanks ++ bytes ";" ++ more ∧
    ∀ c ∈ blanks, c = 0x20 ∨ c = 0x09

/-- The text behind the first `boundary=`. -/
def BehindKey (text header : Bytes) : Prop :=
  ∃ p, header = p ++ boundaryKey ++ text ∧ ¬ boundaryKey <:+: p

/-- `k` dashes. -/
def dashes (k : Nat) : Bytes := List.replicate k 0x2D

/-- The header names the type, and what it has behind its first `boundary=` is
the boundary, with `k` dashes in front of it, all in lower case. -/
structure Bare (k : Nat) (b header : Bytes) : Prop where
  type : bytes "multipart/form-data" <:+: header
  boundary : BehindKey (dashes k ++ b) header

/-- The text of the last line of a form. -/
def closing (b : Bytes) : Bytes := bytes "--" ++ b ++ bytes "--"

/-- The last line of the form is in the body. -/
def Delimited (b body : Bytes) : Prop := closing b <+: body ∨ crlf ++ closing b <:+: body

/-- This text and `--` are in the body at a place where no last line is. -/
def Stray (k : Nat) (b body : Bytes) : Prop :=
  ∃ pre post, body = pre ++ (dashes k ++ b ++ bytes "--") ++ post ∧
    ¬ (pre ++ dashes k = bytes "--" ∨ crlf ++ bytes "--" <:+ pre ++ dashes k)

/-- They are at such a place only if the last line is in the body as well. -/
def Clean (k : Nat) (b body : Bytes) : Prop := Stray k b body → Delimited b body

/-- They are in the last line, or elsewhere. -/
theorem infix_iff {k : Nat} (hk : k ≤ 2) :
    dashes k ++ b ++ bytes "--" <:+: body ↔ Delimited b body ∨ Stray k b body := by
  constructor
  · rintro ⟨pre, post, rfl⟩
    by_cases hpre : pre ++ dashes k = bytes "--" ∨ crlf ++ bytes "--" <:+ pre ++ dashes k
    · have hbody : pre ++ (dashes k ++ b ++ bytes "--") ++ post =
          (pre ++ dashes k) ++ b ++ bytes "--" ++ post := by simp only [List.append_assoc]
      rw [hbody]
      refine .inl (hpre.imp ?_ ?_)
      · intro he
        rw [he]
        exact ⟨post, by simp [closing]⟩
      · rintro ⟨p, he⟩
        rw [← he]
        exact ⟨p, post, by simp [closing]⟩
    · exact .inr ⟨pre, post, rfl, hpre⟩
  · rintro (h | ⟨pre, post, rfl, -⟩)
    · have hclosing : dashes k ++ b ++ bytes "--" <:+: closing b := by
        refine ⟨dashes (2 - k), [], ?_⟩
        have hdashes : dashes (2 - k) ++ dashes k = bytes "--" := by
          rw [dashes, dashes, List.replicate_append_replicate, Nat.sub_add_cancel hk]
          rfl
        rw [closing, ← hdashes, List.append_nil]
        simp only [List.append_assoc]
      rcases h with h | h
      · exact hclosing.trans h.isInfix
      · exact hclosing.trans ((List.suffix_append crlf _).isInfix.trans h)
    · exact ⟨pre, post, rfl⟩

/-- More dashes in front of it make it rarer. -/
theorem Clean.of_bare {k : Nat} (h : Clean 0 b body) : Clean k b body := by
  rintro ⟨pre, post, rfl, -⟩
  have hplain : dashes 0 ++ b ++ bytes "--" <:+:
      pre ++ (dashes k ++ b ++ bytes "--") ++ post :=
    ⟨pre ++ dashes k, post, by simp [dashes]⟩
  exact ((infix_iff (Nat.zero_le 2)).mp hplain).elim id h

theorem Delimited.clean {k : Nat} (h : Delimited b body) : Clean k b body := fun _ => h

theorem delimited_closing (b t : Bytes) : Delimited b (closing b ++ t) :=
  .inl (List.prefix_append _ _)

theorem not_delimited_nil : ¬ Delimited b [] := by
  rintro (h | h)
  · cases List.prefix_nil.mp h
  · cases List.infix_nil.mp h

theorem clean_nil {k : Nat} : Clean k b [] := by
  rintro ⟨pre, post, h, -⟩
  have hlen := congrArg List.length h
  simp [bytes] at hlen

/-! ### The text from the header -/

theorem borderless_boundaryKey : Borderless boundaryKey := by
  refine ⟨by decide, ?_⟩
  have h : ∀ k < boundaryKey.length, 0 < k → ¬ boundaryKey.drop k <+: boundaryKey := by decide
  exact fun k h₀ hk => h k hk h₀

theorem behind_iff : BehindKey text header ↔ (cut boundaryKey header).map Prod.snd = some text := by
  constructor
  · rintro ⟨p, rfl, hp⟩
    rw [cut_append borderless_boundaryKey hp]
    rfl
  · intro h
    obtain ⟨⟨p, t⟩, hcut, rfl⟩ := Option.map_eq_some_iff.mp h
    exact ⟨p, (cut_eq_some_iff borderless_boundaryKey).mp hcut⟩

/-- It is what the source takes for the boundary. -/
theorem BehindKey.boundaryStr (h : BehindKey text header) : boundaryStr header = text := by
  obtain ⟨p, rfl, hp⟩ := h
  rw [DmfServer.boundaryStr, index, cut_append borderless_boundaryKey hp]
  show (p ++ boundaryKey ++ text).drop (p.length + boundaryKey.length) = text
  rw [← List.length_append, List.drop_left]

theorem lower_eq_equals {c : UInt8} (h : lower c = 0x3D) : c = 0x3D := by
  rw [lower] at h
  split at h
  · next hc =>
    exfalso
    have h₁ := UInt8.le_iff_toNat_le.mp hc.1
    have h₂ := UInt8.le_iff_toNat_le.mp hc.2
    have h₃ := congrArg UInt8.toNat h
    rw [UInt8.toNat_add] at h₃
    change 65 ≤ c.toNat at h₁
    change c.toNat ≤ 90 at h₂
    change (c.toNat + 32) % 2 ^ 8 = 61 at h₃
    omega
  · exact h

/-- Dashes do not count. -/
theorem count_dashes {k : Nat} {c : UInt8} (hc : c ≠ 0x2D) :
    (dashes k ++ b).count c = b.count c := by
  have hzero : (dashes k).count c = 0 :=
    List.count_eq_zero.mpr fun hm => hc (List.eq_of_mem_replicate hm)
  rw [List.count_append, hzero, Nat.zero_add]

namespace Carries

variable (h : Carries header b typ before key value tail)
include h

theorem key_length : key.length = boundaryKey.length := by
  have hlen := congrArg List.length h.name
  rwa [List.length_map, List.length_map] at hlen

/-- The name ends with the sign. -/
theorem key_getLast : key.getLast? = some 0x3D := by
  have hlast : (key.map lower).getLast? = some 0x3D := by
    rw [h.name]
    decide
  rw [List.getLast?_map] at hlast
  obtain ⟨c, hc, hl⟩ := Option.map_eq_some_iff.mp hlast
  rw [hc, lower_eq_equals hl]

/-- Where the name is in lower case, or nowhere behind, what stands behind the
first `boundary=` is what stands behind the parameter, or has another sign in
it. -/
theorem behind_cases (hkey : key = boundaryKey ∨ ¬ boundaryKey <:+: key ++ (value ++ tail))
    (ht : BehindKey text header) :
    (key = boundaryKey ∧ text = value ++ tail ∧ ¬ boundaryKey <:+: typ ++ before) ∨
      ∃ s, 0x3D ∈ s ∧ text = s ++ (value ++ tail) := by
  obtain ⟨p, heq, hp⟩ := ht
  have hsame : ∀ {t : Bytes}, boundaryKey ++ text = key ++ t → key = boundaryKey ∧ text = t :=
    fun he => by
      obtain ⟨hk, ht⟩ := List.append_inj he h.key_length.symm
      exact ⟨hk.symm, ht⟩
  rw [h.eq, List.append_assoc p, List.append_eq_append_iff] at heq
  rcases heq with ⟨u, rfl, hu⟩ | ⟨u, hu, he⟩
  · -- the first `boundary=` is not before the parameter
    by_cases hk : key = boundaryKey
    · have hno : ¬ boundaryKey <:+: u := fun hi => hp (hi.trans (List.suffix_append _ _).isInfix)
      have hcut := cut_append (b := text) borderless_boundaryKey hno
      have hcut' : cut boundaryKey ([] ++ boundaryKey ++ (value ++ tail)) =
          some ([], value ++ tail) :=
        cut_append borderless_boundaryKey (by decide)
      rw [List.append_assoc, ← hu, hk] at hcut
      obtain ⟨-, ht⟩ := Prod.mk.inj (Option.some.inj (hcut'.symm.trans hcut))
      exact .inl ⟨hk, ht.symm, fun hi => hp (hi.trans (List.prefix_append _ _).isInfix)⟩
    · refine absurd ⟨u, text, ?_⟩ (hkey.resolve_left hk)
      rw [hu, List.append_assoc]
  · rcases eq_or_ne u [] with rfl | hne
    · obtain ⟨hk, ht⟩ := hsame he
      rw [List.append_nil] at hu
      exact .inl ⟨hk, ht, hu ▸ hp⟩
    · -- it is an earlier one, and the sign of the parameter is behind it
      rw [← List.append_assoc, List.append_eq_append_iff] at he
      have hlen : boundaryKey.length < (u ++ key).length := by
        rw [List.length_append, h.key_length]
        have hu := List.length_pos_iff.mpr hne
        omega
      rcases he with ⟨s, hs, ht⟩ | ⟨s, hs, -⟩
      · refine .inr ⟨s, ?_, ht⟩
        have hsne : s ≠ [] := by
          rintro rfl
          rw [hs, List.append_nil] at hlen
          exact Nat.lt_irrefl _ hlen
        have hlast := congrArg List.getLast? hs
        rw [List.getLast?_append, h.key_getLast, List.getLast?_append_of_ne_nil _ hsne] at hlast
        exact List.mem_of_getLast? hlast.symm
      · rw [hs, List.length_append] at hlen
        omega

theorem count_le (c : UInt8) : b.count c ≤ (value ++ tail).count c := by
  rw [List.count_append]
  rcases h.written with rfl | rfl
  · exact Nat.le_add_right _ _
  · rw [quoted, List.count_append, List.count_append]
    omega

/-- The boundary stands behind the first `boundary=` exactly if this is the
parameter, in lower case, and the boundary is not quoted, and the last thing
in the header; no dashes can be in front of it. -/
theorem behind_boundary_iff {k : Nat}
    (hkey : key = boundaryKey ∨ ¬ boundaryKey <:+: key ++ (value ++ tail)) :
    BehindKey (dashes k ++ b) header ↔
      k = 0 ∧ key = boundaryKey ∧ value = b ∧ tail = [] ∧ ¬ boundaryKey <:+: typ ++ before := by
  constructor
  · intro hb
    rcases h.behind_cases hkey hb with ⟨hk, heq, hno⟩ | ⟨s, hs, heq⟩
    · have hcount : ∀ c ≠ 0x2D, b.count c = (value ++ tail).count c := fun c hc => by
        rw [← heq, count_dashes hc]
      rcases h.written with rfl | rfl
      · rcases h.rest with rfl | ⟨blanks, more, rfl, -⟩
        · have hlen := congrArg List.length heq
          rw [List.append_nil, List.length_append, dashes, List.length_replicate] at hlen
          exact ⟨by omega, hk, rfl, rfl, hno⟩
        · have hone : (bytes ";").count 0x3B = 1 := by decide
          have hsemi := hcount 0x3B (by decide)
          simp only [List.count_append, hone] at hsemi
          omega
      · have hone : (bytes "\"").count 0x22 = 1 := by decide
        have hquote := hcount 0x22 (by decide)
        simp only [quoted, List.count_append, hone] at hquote
        omega
    · have hcount := congrArg (List.count 0x3D) heq
      have hpos := List.count_pos_iff.mpr hs
      have hle := h.count_le 0x3D
      rw [count_dashes (by decide), List.count_append] at hcount
      omega
  · rintro ⟨rfl, rfl, rfl, rfl, hno⟩
    refine ⟨typ ++ before, ?_, hno⟩
    rw [h.eq, List.append_nil, List.append_assoc (typ ++ before)]
    rfl

/-- If the source takes the boundary for the boundary, it has found
`boundary=`. -/
theorem behind_of_boundaryStr {k : Nat} (hstr : boundaryStr header = dashes k ++ b) :
    BehindKey (dashes k ++ b) header := by
  rcases hc : cut boundaryKey header with - | ⟨p, t⟩
  · -- the header is taken from its ninth byte on, and has a sign too much
    have hlen : 8 ≤ typ.length := by
      have hlen := congrArg List.length h.type
      rw [List.length_map, List.length_map] at hlen
      rw [hlen]
      decide
    have hnine : (-1 + (boundaryKey.length : Int)).toNat = 8 := by decide
    rw [DmfServer.boundaryStr, index, hc, hnine, h.eq, List.append_assoc typ,
      List.drop_append_of_le_length hlen] at hstr
    have hcount := congrArg (List.count 0x3D) hstr
    have hpos := List.count_pos_iff.mpr (List.mem_of_getLast? h.key_getLast)
    have hle := h.count_le 0x3D
    rw [count_dashes (by decide)] at hcount
    simp only [List.count_append] at hcount hle
    omega
  · have ht : BehindKey t header := behind_iff.mpr (by rw [hc]; rfl)
    rwa [← hstr, ht.boundaryStr]

end Carries

/-! ### `RequestBodyValid` on a form -/

/-- The answer of `RequestBodyValid` for `body` is `true`. -/
def Accepts (r : Req) (body : Bytes) : Prop :=
  ({ r with body := body } : Req).requestBodyValid = some true

/-- What the answer goes by: the text the source takes for the boundary is in
the body, with `--` behind it; or, if the header does not name the type in
lower case, the body has the length that another header says. -/
def Sought (r : Req) (body : Bytes) : Prop :=
  if bytes "multipart/form-data" <:+: r.getContentType then
    boundaryStr r.getContentType ++ bytes "--" <:+: body
  else r.getContentLength = [] ∨ atoi r.getContentLength = some (body.length : Int)

theorem accepts_iff : Accepts r body ↔ Sought r body := by
  rw [Accepts, Sought]
  by_cases hform : bytes "multipart/form-data" <:+: r.getContentType
  · rw [if_pos hform, Req.requestBodyValid_form (r := { r with body := body }) hform,
      Option.some_inj, contains_iff]
    rfl
  · rw [if_neg hform, Req.requestBodyValid_plain (r := { r with body := body }) hform]
    show (if r.getContentLength = [] then some true else (atoi r.getContentLength).map fun n =>
      decide ((body.length : Int) = n)) = some true ↔ _
    by_cases hnil : r.getContentLength = []
    · rw [if_pos hnil]
      exact iff_of_true rfl (.inl hnil)
    · rw [if_neg hnil, Option.map_eq_some_iff, or_iff_right hnil]
      constructor
      · rintro ⟨n, hn, hd⟩
        rw [hn, of_decide_eq_true hd]
      · exact fun hn => ⟨_, hn, decide_eq_true rfl⟩

/-- Under a bare header it goes by the boundary. -/
theorem Bare.accepts_iff {k : Nat} (h : Bare k b r.getContentType) :
    Accepts r body ↔ dashes k ++ b ++ bytes "--" <:+: body := by
  rw [DmfServer.accepts_iff, Sought, if_pos h.type, h.boundary.boundaryStr]

theorem Bare.delimited_iff {k : Nat} (h : Bare k b r.getContentType) (hk : k ≤ 2) :
    (Accepts r body ↔ Delimited b body) ↔ Clean k b body := by
  rw [h.accepts_iff, infix_iff hk, Clean]
  exact or_iff_left_iff_imp

/-- Only under a bare header all clean bodies are judged rightly. -/
theorem Carries.bare_of_judges (h : Carries r.getContentType b typ before key value tail)
    (hall : ∀ body, Clean 0 b body → (Accepts r body ↔ Delimited b body)) :
    ∃ k ≤ 2, Bare k b r.getContentType := by
  simp only [accepts_iff, Sought] at hall
  have hclosing : Delimited b (closing b) := (List.append_nil (closing b)) ▸ delimited_closing b []
  by_cases hform : bytes "multipart/form-data" <:+: r.getContentType
  · simp only [if_pos hform] at hall
    -- what the source looks for is in the last line, and has the boundary in it
    have hle := (hall _ hclosing.clean).mpr hclosing
    have hge : dashes 0 ++ b ++ bytes "--" <:+: boundaryStr r.getContentType ++ bytes "--" := by
      apply (infix_iff (Nat.zero_le 2)).mpr
      by_contra hno
      obtain ⟨hd, hs⟩ := not_or.mp hno
      exact hd ((hall _ fun hstray => absurd hstray hs).mp List.infix_rfl)
    obtain ⟨k, hk, hstr⟩ := eq_replicate_append (n := 2) hle hge
    exact ⟨k, hk, hform, h.behind_of_boundaryStr hstr⟩
  · exfalso
    simp only [if_neg hform] at hall
    by_cases hnil : r.getContentLength = []
    · exact not_delimited_nil ((hall [] clean_nil).mp (.inl hnil))
    by_cases hlen : atoi r.getContentLength = some ((closing b).length : Int)
    · -- with one more byte the form is still complete
      have hmore := delimited_closing b [0]
      have hlen' := ((hall _ hmore.clean).mpr hmore).resolve_left hnil
      rw [hlen, Option.some_inj, List.length_append, List.length_singleton] at hlen'
      omega
    · exact hlen (((hall _ hclosing.clean).mpr hclosing).resolve_left hnil)

/-- **When the end of a form is found.**  For a Content-Type that carries the
boundary `b`: the answer is right for all clean bodies if and only if the
header is bare.  Under a bare header a body is answered rightly exactly if it
is clean; under another one exactly if what the answer goes by agrees with the
end of the form.  And where the name of the parameter is in lower case, or
does not come later in lower case, a bare header is one in which `boundary=`
stands for the first time, with nothing but `b` behind it. -/
theorem requestBodyValid_delimited_iff (r : Req) (b typ before key value tail : Bytes)
    (h : Carries r.getContentType b typ before key value tail) :
    ((∀ body, Clean 0 b body → (Accepts r body ↔ Delimited b body)) ↔
      ∃ k ≤ 2, Bare k b r.getContentType) ∧
    (∀ body, (Accepts r body ↔ Delimited b body) ↔
      (∃ k ≤ 2, Bare k b r.getContentType ∧ Clean k b body) ∨
        (¬ ∃ k ≤ 2, Bare k b r.getContentType) ∧ (Sought r body ↔ Delimited b body)) ∧
    ((key = boundaryKey ∨ ¬ boundaryKey <:+: key ++ (value ++ tail)) →
      ∀ k, Bare k b r.getContentType ↔ k = 0 ∧ bytes "multipart/form-data" <:+: r.getContentType ∧
        key = boundaryKey ∧ value = b ∧ tail = [] ∧ ¬ boundaryKey <:+: typ ++ before) := by
  refine ⟨⟨h.bare_of_judges, ?_⟩, fun body => ⟨fun hiff => ?_, ?_⟩, fun hkey k => ⟨?_, ?_⟩⟩
  · rintro ⟨k, hk, hbare⟩ body hclean
    exact (hbare.delimited_iff hk).mpr hclean.of_bare
  · by_cases hbare : ∃ k ≤ 2, Bare k b r.getContentType
    · obtain ⟨k, hk, hbare⟩ := hbare
      exact .inl ⟨k, hk, hbare, (hbare.delimited_iff hk).mp hiff⟩
    · rw [accepts_iff] at hiff
      exact .inr ⟨hbare, hiff⟩
  · rintro (⟨k, hk, hbare, hclean⟩ | ⟨-, hiff⟩)
    · exact (hbare.delimited_iff hk).mpr hclean
    · rw [accepts_iff]
      exact hiff
  · intro hbare
    obtain ⟨rfl, hwritten⟩ := (h.behind_boundary_iff hkey).mp hbare.boundary
    exact ⟨rfl, hbare.type, hwritten⟩
  · rintro ⟨rfl, htype, hwritten⟩
    exact ⟨htype, (h.behind_boundary_iff hkey).mpr ⟨rfl, hwritten⟩⟩

/-- A form with a plain boundary, at the end of its header and of its
body. -/
theorem requestBodyValid_delimited_plain : ∃ r, reqTest .mem
      (bytes "POST / HTTP/1.1\r\nContent-Type: multipart/form-data; boundary=b\r\n\r\n--b--")
        = some r ∧
    (∀ body, Clean 0 (bytes "b") body → (Accepts r body ↔ Delimited (bytes "b") body)) ∧
    (r.requestBodyValid = some true ↔ Delimited (bytes "b") r.body) := by
  have hform : RequestForm
      (bytes "POST / HTTP/1.1\r\nContent-Type: multipart/form-data; boundary=b\r\n\r\n--b--")
      (bytes "POST") (bytes "/") (bytes "HTTP/1.1")
      [bytes "Content-Type: multipart/form-data; boundary=b"] (bytes "--b--") := by decide
  refine ⟨_, hform.reqTest .mem, ?_⟩
  obtain ⟨hheader, hbody, hbare⟩ := requestBodyValid_delimited_iff
    ⟨bytes "POST", bytes "/", bytes "HTTP/1.1",
      [bytes "Content-Type: multipart/form-data; boundary=b"].foldl enter ∅, bytes "--b--", false⟩
    (bytes "b") (bytes "multipart/form-data") (bytes "; ") boundaryKey (bytes "b") []
    ⟨by decide, rfl, rfl, .inl rfl, .inl rfl⟩
  have hb := (hbare (.inl rfl) 0).mpr ⟨rfl, by decide, rfl, rfl, rfl, by decide⟩
  have hclean : Clean 0 (bytes "b") (bytes "--b--") := (delimited_closing (bytes "b") []).clean
  exact ⟨hheader.mpr ⟨0, Nat.zero_le 2, hb⟩,
    (hbody (bytes "--b--")).mpr (.inl ⟨0, Nat.zero_le 2, hb, hclean⟩)⟩

/-- With the boundary in quotes the end of the form is missed, and a form
whose text has the plain boundary with `--` behind it is taken for
complete. -/
theorem requestBodyValid_misjudges :
    (∃ r, reqTest .mem
        (bytes "POST / HTTP/1.1\r\nContent-Type: multipart/form-data; boundary=\"b\"\r\n\r\n--b--")
          = some r ∧
      Carries r.getContentType (bytes "b") (bytes "multipart/form-data") (bytes "; ") boundaryKey
        (quoted (bytes "b")) [] ∧
      Delimited (bytes "b") r.body ∧ r.requestBodyValid = some false) ∧
    ∃ r, reqTest .mem
        (bytes "POST / HTTP/1.1\r\nContent-Type: multipart/form-data; boundary=b\r\n\r\n"
          ++ bytes "--b\r\n\r\nab--") = some r ∧
      Carries r.getContentType (bytes "b") (bytes "multipart/form-data") (bytes "; ") boundaryKey
        (bytes "b") [] ∧
      ¬ Delimited (bytes "b") r.body ∧ r.requestBodyValid = some true := by
  have hquoted : RequestForm
      (bytes "POST / HTTP/1.1\r\nContent-Type: multipart/form-data; boundary=\"b\"\r\n\r\n--b--")
      (bytes "POST") (bytes "/") (bytes "HTTP/1.1")
      [bytes "Content-Type: multipart/form-data; boundary=\"b\""] (bytes "--b--") := by decide
  have hplain : RequestForm
      (bytes "POST / HTTP/1.1\r\nContent-Type: multipart/form-data; boundary=b\r\n\r\n"
        ++ bytes "--b\r\n\r\nab--")
      (bytes "POST") (bytes "/") (bytes "HTTP/1.1")
      [bytes "Content-Type: multipart/form-data; boundary=b"] (bytes "--b\r\n\r\nab--") := by
    decide
  refine ⟨⟨_, hquoted.reqTest .mem,
      ⟨by decide, rfl, rfl, .inr rfl, .inl rfl⟩, .inl ?_, by decide⟩,
    ⟨_, hplain.reqTest .mem,
      ⟨by decide, rfl, rfl, .inl rfl, .inl rfl⟩, ?_, by decide⟩⟩
  · show closing (bytes "b") <+: bytes "--b--"
    decide
  · show ¬ (closing (bytes "b") <+: bytes "--b\r\n\r\nab--" ∨
      crlf ++ closing (bytes "b") <:+: bytes "--b\r\n\r\nab--")
    decide

end DmfServer
