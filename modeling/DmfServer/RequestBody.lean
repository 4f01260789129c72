/-
DmfServer/RequestBody.lean

Where the body of a request begins.

`ParseHeader` and `ParseBody` look for the end of the headers in different
ways: the first splits the text at the CRLFs and stops at an empty piece
behind which there is another one, the second moves a window of four bytes
over the text, and not onto the last four.  They find the same place:

* `ParseBody` finds the first CRLFCRLF, and where there is none the end of
  the text (`parseBody_eq`); that the window stops early makes no difference,
  since nothing follows a CRLFCRLF at the end;
* in the pieces of a text a CRLFCRLF is an empty piece between two others
  (`split_blank`), so the first one is where the first empty piece is
  (`FirstAt.of_split`).
-/
import DmfServer.RequestGrammar

namespace DmfServer

open Strings

/-- `sep` occurs in `s` at `i`, and nowhere before. -/
def FirstAt (sep s : Bytes) (i : Nat) : Prop :=
  sep <+: s.drop i ∧ ∀ j, j < i → ¬ sep <+: s.drop j

variable {s a b : Bytes} {i j n : Nat} {ls rest : List Bytes}

/-! ### The window -/

namespace Req

/-- In range the window shows whether a CRLFCRLF stands there. -/
theorem blankLineAt_eq (h : i + 4 ≤ s.length) :
    blankLineAt s i = some (decide (crlf ++ crlf <+: s.drop i)) := by
  obtain ⟨c₀, c₁, c₂, c₃, t, ht⟩ : ∃ c₀ c₁ c₂ c₃ t, s.drop i = c₀ :: c₁ :: c₂ :: c₃ :: t := by
    have hlen : 4 ≤ (s.drop i).length := by
      rw [List.length_drop]
      omega
    match s.drop i, hlen with
    | c₀ :: c₁ :: c₂ :: c₃ :: t, _ => exact ⟨c₀, c₁, c₂, c₃, t, rfl⟩
  have hget : ∀ k, s[i + k]? = (c₀ :: c₁ :: c₂ :: c₃ :: t)[k]? := by
    intro k
    rw [← ht, List.getElem?_drop]
  have hprefix : crlf ++ crlf <+: s.drop i ↔ c₀ = 13 ∧ c₁ = 10 ∧ c₂ = 13 ∧ c₃ = 10 := by
    rw [ht]
    simp [crlf, List.cons_prefix_cons, eq_comm]
  have h₀ := hget 0
  rw [Nat.add_zero] at h₀
  simp only [blankLineAt, h₀, hget 1, hget 2, hget 3, hprefix]
  by_cases e₀ : c₀ = 13 <;> by_cases e₁ : c₁ = 10 <;> by_cases e₂ : c₂ = 13 <;>
    simp [e₀, e₁, e₂]

/-- The loop passes over the places without a CRLFCRLF, and stops at one or
when its turns are used up. -/
theorem scanBody_spec (h : i + n + 4 ≤ s.length) (hs : scanBody s n i = some j) :
    i ≤ j ∧ j ≤ i + n ∧ (∀ k, i ≤ k → k < j → ¬ crlf ++ crlf <+: s.drop k) ∧
      (j < i + n → crlf ++ crlf <+: s.drop j) := by
  induction n generalizing i with
  | zero =>
      cases hs
      exact ⟨le_rfl, le_rfl, fun k hik hki => absurd hki (Nat.not_lt_of_le hik),
        fun hlt => absurd hlt (Nat.lt_irrefl _)⟩
  | succ n ih =>
      rw [scanBody, blankLineAt_eq (by omega)] at hs
      by_cases hp : crlf ++ crlf <+: s.drop i
      · -- found
        simp only [hp, decide_true, Option.bind_eq_bind, Option.bind_some, if_true,
          Option.pure_def, Option.some.injEq] at hs
        subst hs
        exact ⟨le_rfl, Nat.le_add_right _ _, fun k hik hki => absurd hki (Nat.not_lt_of_le hik),
          fun _ => hp⟩
      · simp only [hp, decide_false, Option.bind_eq_bind, Option.bind_some] at hs
        obtain ⟨hle, hge, hno, hfound⟩ := ih (by omega) hs
        refine ⟨by omega, by omega, ?_, ?_⟩
        · intro k hik hkj
          rcases Nat.eq_or_lt_of_le hik with rfl | hlt
          · exact hp
          · exact hno k hlt hkj
        · intro hlt
          exact hfound (by omega)

/-- The index expressions of the loop are in range. -/
theorem scanBody_isSome (h : i + n + 4 ≤ s.length) : ∃ j, scanBody s n i = some j := by
  induction n generalizing i with
  | zero => exact ⟨i, rfl⟩
  | succ n ih =>
      rw [scanBody, blankLineAt_eq (by omega)]
      by_cases hp : crlf ++ crlf <+: s.drop i
      · exact ⟨i, by simp [hp]⟩
      · obtain ⟨j, hj⟩ := ih (i := i + 1) (by omega)
        exact ⟨j, by simpa [hp] using hj⟩

/-! ### `ParseBody` -/

/-- On four bytes or more the body is the text behind the place where the
window stops. -/
theorem parseBody_eq (h : 4 ≤ s.length) (r : Req) :
    ∃ i, i + 4 ≤ s.length ∧ (∀ k, k < i → ¬ crlf ++ crlf <+: s.drop k) ∧
      (i + 4 < s.length → crlf ++ crlf <+: s.drop i) ∧
      r.parseBody s = some { r with body := s.drop (i + 4) } := by
  obtain ⟨i, hi⟩ := scanBody_isSome (s := s) (n := s.length - 4) (i := 0) (by omega)
  obtain ⟨-, hle, hno, hfound⟩ := scanBody_spec (i := 0) (n := s.length - 4) (by omega) hi
  refine ⟨i, by omega, fun k hk => hno k (Nat.zero_le k) hk, fun hlt => hfound (by omega), ?_⟩
  have hn : ((s.length : Int) - 4).toNat = s.length - 4 := by omega
  have hfrom : sliceFrom s ((i : Int) + 4) = some (s.drop (i + 4)) := by
    rw [sliceFrom, if_pos (by omega)]
    rfl
  have hto : sliceTo (s.drop (i + 4)) ((s.length : Int) - i - 4) = some (s.drop (i + 4)) := by
    have hlen : (s.drop (i + 4)).length = s.length - (i + 4) := List.length_drop
    rw [sliceTo, if_pos (by omega), List.take_of_length_le (by omega)]
  simp only [parseBody, hn, hi, Option.bind_eq_bind, Option.bind_some, Option.pure_def, hfrom, hto,
    ite_self]

/-- The body begins behind the first CRLFCRLF. -/
theorem parseBody_firstAt (h : FirstAt (crlf ++ crlf) s i) (r : Req) :
    r.parseBody s = some { r with body := s.drop (i + 4) } := by
  have hlen : i + 4 ≤ s.length := by
    have hle := h.1.length_le
    rw [List.length_drop] at hle
    have h4 : (crlf ++ crlf).length = 4 := rfl
    omega
  obtain ⟨j, hj, hno, hfound, hbody⟩ := parseBody_eq (s := s) (by omega) r
  rcases Nat.lt_trichotomy i j with hlt | rfl | hlt
  · exact absurd h.1 (hno i hlt)
  · exact hbody
  · exact absurd (hfound (by omega)) (h.2 j hlt)

/-- Without one it is empty. -/
theorem parseBody_absent (h : 4 ≤ s.length) (hno : ¬ crlf ++ crlf <:+: s) (r : Req) :
    r.parseBody s = some { r with body := [] } := by
  obtain ⟨i, hi, -, hfound, hbody⟩ := parseBody_eq h r
  have hend : i + 4 = s.length := by
    by_contra hne
    have hp := hfound (by omega)
    exact hno (hp.isInfix.trans (List.drop_suffix i s).isInfix)
  rw [hbody, hend, List.drop_length]

end Req

/-! ### The pieces -/

/-- A CRLFCRLF is an empty piece between others. -/
theorem split_blank :
    split crlf (a ++ (crlf ++ crlf ++ b)) = split crlf a ++ [] :: split crlf b := by
  have he : a ++ (crlf ++ crlf ++ b) = a ++ crlf ++ ([] ++ crlf ++ b) := by simp
  have hnil : ¬ crlf <:+: [] := by decide
  rw [he, split_append borderless_crlf, split_append borderless_crlf,
    split_of_absent borderless_crlf.1 hnil]
  rfl

/-- The first empty piece with others before and behind it is at the first
CRLFCRLF. -/
theorem FirstAt.of_split (hls : ls ≠ []) (hne : ∀ l ∈ ls, l ≠ []) (hr : rest ≠ [])
    (h : split crlf s = ls ++ [] :: rest) :
    ∃ i, FirstAt (crlf ++ crlf) s i ∧ s.drop (i + 4) = crlf.intercalate rest := by
  have hs : s = crlf.intercalate ls ++ (crlf ++ crlf ++ crlf.intercalate rest) := by
    conv_lhs => rw [← intercalate_split borderless_crlf.1 (s := s), h]
    rw [intercalate_append hls (List.cons_ne_nil _ _), List.intercalate_cons_of_ne_nil hr]
    simp
  have hdrop : s.drop (crlf.intercalate ls).length = crlf ++ crlf ++ crlf.intercalate rest := by
    conv_lhs => rw [hs]
    exact List.drop_left
  refine ⟨(crlf.intercalate ls).length, ⟨?_, ?_⟩, ?_⟩
  · rw [hdrop]
    exact List.prefix_append _ _
  · intro j hj hp
    -- an earlier CRLFCRLF would be an earlier empty piece
    obtain ⟨y, hy⟩ := hp
    have hx : s = s.take j ++ (crlf ++ crlf ++ y) := by
      rw [hy]
      exact (List.take_append_drop j s).symm
    have hpieces : ls ++ [] :: rest = split crlf (s.take j) ++ [] :: split crlf y := by
      rw [← h]
      conv_lhs => rw [hx]
      exact split_blank
    have hfirst : ∃ more, split crlf (s.take j) = ls ++ more := by
      rcases List.append_eq_append_iff.mp hpieces with ⟨more, hm, -⟩ | ⟨c, hc, hrest⟩
      · exact ⟨more, hm⟩
      · rcases c with - | ⟨l, c⟩
        · exact ⟨[], by rw [hc]; simp⟩
        · obtain ⟨rfl, -⟩ := List.cons.inj hrest
          have hmem : [] ∈ ls := by
            rw [hc]
            simp
          exact absurd rfl (hne [] hmem)
    obtain ⟨more, hmore⟩ := hfirst
    have hlen : (crlf.intercalate ls).length ≤ (s.take j).length := by
      rw [← intercalate_split borderless_crlf.1 (s := s.take j), hmore]
      rcases eq_or_ne more [] with rfl | hm
      · rw [List.append_nil]
      · rw [intercalate_append hls hm, List.append_assoc, List.length_append]
        exact Nat.le_add_right _ _
    have htake := List.length_take_le j s
    omega
  · rw [← List.drop_drop, hdrop]
    rfl

/-- The body of a request is what stands behind its blank line. -/
theorem RequestForm.parseBody {method path protocol rest : Bytes} {lines : List Bytes}
    (h : RequestForm s method path protocol lines rest) (r : Req) :
    r.parseBody s = some { r with body := rest } := by
  have hne : ∀ l ∈ (method ++ space ++ path ++ space ++ protocol) :: lines, l ≠ [] := by
    intro l hl
    rcases List.mem_cons.mp hl with rfl | hl
    · -- the request line is not blank
      simp [space]
    · exact (h.lines l hl).nonempty
  obtain ⟨i, hi, hbody⟩ := FirstAt.of_split (List.cons_ne_nil _ _) hne
    (split_ne_nil borderless_crlf.1) h.pieces
  rw [Req.parseBody_firstAt hi, hbody, intercalate_split borderless_crlf.1]

/-- What `req_test` makes of a request. -/
theorem RequestForm.reqTest {method path protocol rest : Bytes} {lines : List Bytes}
    (col : Collection) (h : RequestForm s method path protocol lines rest) :
    reqTest col s = some ⟨method, path, protocol, lines.foldl enter ∅, rest, false⟩ := by
  rw [DmfServer.reqTest, parseHeader_of_form col _ h]
  exact h.parseBody _

/-- **The header and body split agree.**  `ParseBody` takes the text behind
the first CRLFCRLF for the body, none when there is no CRLFCRLF.  When
`ParseHeader` accepts the text, having entered the `lines` and stopped at
the first blank line with another piece behind it, that is the rest of the
request: the remaining pieces joined by CRLF. -/
theorem parseHeader_parseBody_agree (col : Collection) (s : Bytes) :
    (4 ≤ s.length → ∀ r : Req,
      (∀ i, FirstAt (crlf ++ crlf) s i →
        r.parseBody s = some { r with body := s.drop (i + 4) }) ∧
      (¬ crlf ++ crlf <:+: s → r.parseBody s = some { r with body := [] })) ∧
    ∀ r₀ r : Req, r₀.parseHeader col s = some (r, .requestOk) →
      ∃ requestLine lines rest, split crlf s = requestLine :: (lines ++ [] :: rest) ∧
        rest ≠ [] ∧ (∀ line ∈ lines, line ≠ []) ∧ r.headers = lines.foldl enter r₀.headers ∧
        r.parseBody s = some { r with body := crlf.intercalate rest } := by
  refine ⟨fun hlen r => ⟨fun i hi => Req.parseBody_firstAt hi r,
    fun hno => Req.parseBody_absent hlen hno r⟩, ?_⟩
  intro r₀ r h
  obtain ⟨method, path, protocol, lines, rest, hform⟩ := form_of_parseHeader h
  have hr := parseHeader_of_form col r₀ hform
  rw [h] at hr
  obtain ⟨rfl, -⟩ := Prod.mk.inj (Option.some.inj hr)
  refine ⟨_, lines, split crlf rest, hform.pieces, split_ne_nil borderless_crlf.1,
    fun line hl => (hform.lines line hl).nonempty, rfl, ?_⟩
  rw [intercalate_split borderless_crlf.1]
  exact hform.parseBody _

/-- A body with a CRLFCRLF in it. -/
theorem parseHeader_parseBody_agree_post :
    (reqInit false).parseBody (bytes "POST /x HTTP/1.1\r\n\r\na\r\n\r\nb")
      = some { reqInit false with body := bytes "a\r\n\r\nb" } := by
  obtain ⟨hbody, -⟩ := parseHeader_parseBody_agree .mem
    (bytes "POST /x HTTP/1.1\r\n\r\na\r\n\r\nb")
  exact (hbody (by decide) (reqInit false)).1 16 ⟨by decide, by decide⟩

end DmfServer
