/-
DmfServer/ResponseRow.lean

Writing a response out and reading it again.

`GenerateResponse` writes the first line, the header lines in the order in
which it meets the entries of the map, a blank line and the body:

    HTTP/1.1 SP code SP text CRLF (key ": " value CRLF)* CRLF body

Whatever the body is, this is a header block, and every line is read as the
entry it was written for, since names and values are trimmed.  The first line
is not always read as it was: of its words `HttpResParse` keeps three, so a
text of more than one word loses all but the first one.  Hence the round trip
is exact iff the status text has no space (`response_roundTrips_iff`).
-/
import DmfServer.RequestRow
import DmfServer.ResponseParse

namespace DmfServer

open Strings

variable {key value statusText : Bytes} {statusCode : Int} {headers : Headers}
variable {fields order : List (Bytes × Bytes)} {r : Response}

namespace Response

/-- The response that is built with these values. -/
def build (statusCode : Int) (statusText : Bytes) (fields : List (Bytes × Bytes)) (body : Bytes) :
    Response :=
  (fields.foldl (fun r kv => r.setHeader kv.1 kv.2)
    (responseInit.setFirstLine statusCode statusText)).setBody body

/-- Written out in this order and read into a fresh object, the response has
the same first line and the same headers. -/
def RoundTrips (r : Response) (order : List (Bytes × Bytes)) : Prop :=
  ∃ r', responseInit.httpResParse (r.generateResponse order) = some (r', .responseOk) ∧
    r'.firstLine = r.firstLine ∧ r'.headers = r.headers

/-! ### What is built -/

theorem build_eq (statusCode : Int) (statusText : Bytes) (fields : List (Bytes × Bytes))
    (body : Bytes) : build statusCode statusText fields body =
      ⟨bytes "HTTP/1.1" ++ space ++ bytes (toString statusCode) ++ space ++ statusText,
        fields.foldl (fun headers kv => headers.insert kv.1 kv.2) ∅, body⟩ := by
  have hfold : ∀ r : Response, fields.foldl (fun r kv => r.setHeader kv.1 kv.2) r =
      { r with
        headers := fields.foldl (fun headers kv => headers.insert kv.1 kv.2) r.headers } := by
    intro r
    induction fields generalizing r with
    | nil => rfl
    | cons kv fields ih => exact ih (r.setHeader kv.1 kv.2)
  rw [build, hfold]
  rfl

/-- The map built from the fields holds nothing else. -/
theorem mem_of_lookup_foldl_insert
    (h : (fields.foldl (fun headers kv => headers.insert kv.1 kv.2) headers).lookup key
      = some value) : (key, value) ∈ fields ∨ headers.lookup key = some value := by
  induction fields using List.reverseRecOn with
  | nil => exact .inr h
  | append_singleton fields kv ih =>
      rw [List.foldl_concat] at h
      rcases eq_or_ne key kv.1 with rfl | hne
      · rw [Finmap.lookup_insert] at h
        obtain rfl := Option.some.inj h
        exact .inl (by simp)
      · rw [Finmap.lookup_insert_of_ne _ hne] at h
        exact (ih h).imp_left (List.mem_append_left _)

/-- A map is built from its entries, in any order. -/
theorem foldl_insert_of_iterates (h : Iterates headers order) :
    order.foldl (fun headers kv => headers.insert kv.1 kv.2) ∅ = headers := by
  have hlookup : ∀ order : List (Bytes × Bytes), (order.map Prod.fst).Nodup → ∀ key value,
      (key, value) ∈ order →
      (order.foldl (fun headers kv => headers.insert kv.1 kv.2) (∅ : Headers)).lookup key
        = some value := by
    intro order hnodup
    induction order using List.reverseRecOn with
    | nil => simp
    | append_singleton order kv ih =>
        intro key value hmem
        rw [List.map_append, List.nodup_append] at hnodup
        obtain ⟨hnodup, -, hdisj⟩ := hnodup
        rw [List.foldl_concat]
        rcases List.mem_append.mp hmem with hmem | hmem
        · have hne : key ≠ kv.1 := hdisj key (List.mem_map_of_mem hmem) kv.1 (by simp)
          rw [Finmap.lookup_insert_of_ne _ hne]
          exact ih hnodup key value hmem
        · obtain rfl := List.mem_singleton.mp hmem
          exact Finmap.lookup_insert _
  apply Finmap.ext_lookup
  intro key
  rcases hkey : headers.lookup key with - | value
  · -- nothing is entered that the map does not have
    by_contra hne
    obtain ⟨value, hvalue⟩ := Option.ne_none_iff_exists'.mp hne
    rcases mem_of_lookup_foldl_insert hvalue with hmem | hnone
    · rw [(h.mem_iff key value).mp hmem] at hkey
      cases hkey
    · cases hnone
  · exact hlookup order h.once key value ((h.mem_iff key value).mpr hkey)

/-! ### What is written -/

theorem generateResponse_eq (r : Response) (order : List (Bytes × Bytes)) :
    r.generateResponse order =
      r.firstLine ++ crlf ++ (order.map rowLine).flatMap (· ++ crlf) ++ crlf ++ r.body := by
  have hfold : ∀ s : Bytes, order.foldl
      (fun response kv => response ++ kv.1 ++ bytes ": " ++ kv.2 ++ bytes "\r\n") s
        = s ++ (order.map rowLine).flatMap (· ++ crlf) := by
    intro s
    induction order generalizing s with
    | nil => simp
    | cons kv order ih =>
        have hcrlf : bytes "\r\n" = crlf := rfl
        rw [List.foldl_cons, ih, List.map_cons, List.flatMap_cons, rowLine, hcrlf]
        simp only [List.append_assoc]
  rw [generateResponse]
  simp only [hfold]
  rfl

/-- The status code is written without spaces, CRs and LFs. -/
theorem statusCode_clean (statusCode : Int) :
    ¬ space <:+: bytes (toString statusCode) ∧ 13 ∉ bytes (toString statusCode) := by
  constructor
  · intro hi
    exact absurd (bytes_toString statusCode 32 (singleton_infix_iff.mp hi)) (by decide)
  · intro hm
    exact absurd (bytes_toString statusCode 13 hm) (by decide)

/-- The words of the first line: the version, the code, and those of the
status text. -/
theorem split_firstLine (statusCode : Int) (statusText : Bytes) :
    split space (bytes "HTTP/1.1" ++ space ++ bytes (toString statusCode) ++ space ++ statusText)
      = bytes "HTTP/1.1" :: bytes (toString statusCode) :: split space statusText := by
  have hno : ∀ l ∈ [bytes "HTTP/1.1", bytes (toString statusCode)], ¬ space <:+: l := by
    intro l hl
    rcases List.mem_cons.mp hl with rfl | hl
    · decide
    · obtain rfl := List.mem_singleton.mp hl
      exact (statusCode_clean statusCode).1
  have hs := split_flatMap (t := statusText) borderless_space hno
  simpa using hs

/-- There is no CRLF in it if there is none in the status text. -/
theorem firstLine_no_crlf (h : ¬ crlf <:+: statusText) : ¬ crlf <:+:
    bytes "HTTP/1.1" ++ space ++ bytes (toString statusCode) ++ space ++ statusText := by
  have h32 : (32 : UInt8) ∉ crlf := by decide
  have he : bytes "HTTP/1.1" ++ space ++ bytes (toString statusCode) ++ space ++ statusText
      = bytes "HTTP/1.1" ++ 32 :: (bytes (toString statusCode) ++ 32 :: statusText) := by
    simp [space]
  rw [he, infix_append_cons_iff h32, infix_append_cons_iff h32]
  rintro (hi | hi | hi)
  · exact absurd hi (by decide)
  · exact (statusCode_clean statusCode).2 (hi.subset (by decide))
  · exact h hi

/-! ### The round trip -/

theorem generateResponse_headerBlock (statusCode : Int) (fields : List (Bytes × Bytes))
    (body : Bytes) (htext : ¬ crlf <:+: statusText)
    (hall : ∀ kv ∈ order, IsEntry kv.1 kv.2) :
    HeaderBlock ((build statusCode statusText fields body).generateResponse order)
      (build statusCode statusText fields body).firstLine (order.map rowLine) body := by
  rw [generateResponse_eq, build_eq]
  refine ⟨rfl, ?_, firstLine_no_crlf htext, ?_⟩
  · have hpos := List.length_pos_iff.mpr (split_ne_nil (s := statusText) borderless_space.1)
    rw [split_firstLine, List.length_cons, List.length_cons]
    omega
  · intro line hline
    obtain ⟨kv, hkv, rfl⟩ := List.mem_map.mp hline
    obtain ⟨hwf, -⟩ := rowLine_wellFormed (hall kv hkv)
    exact ⟨hwf.nonempty, hwf.no_crlf, hwf.colon⟩

/-- The written lines are entered as the entries they were written for. -/
theorem foldl_enter_rowLines (hall : ∀ kv ∈ order, IsEntry kv.1 kv.2) :
    (order.map rowLine).foldl enter headers =
      order.foldl (fun headers kv => headers.insert kv.1 kv.2) headers := by
  induction order generalizing headers with
  | nil => rfl
  | cons kv order ih =>
      obtain ⟨hkv, hall⟩ := List.forall_mem_cons.mp hall
      obtain ⟨-, hname, hvalue⟩ := rowLine_wellFormed hkv
      rw [List.map_cons, List.foldl_cons, List.foldl_cons, ih hall, enter, hname, hvalue]

end Response

/-- **The round trip of a response.**  A response built from a status text
without CRLF and from header fields with trimmed names and values is read as
it was written, whatever the body and in whatever order the entries are
met, exactly if there is no space in the status text. -/
theorem response_roundTrips_iff (statusCode : Int) (statusText : Bytes)
    (fields : List (Bytes × Bytes)) (body : Bytes) (order : List (Bytes × Bytes))
    (htext : ¬ crlf <:+: statusText) (hfields : ∀ kv ∈ fields, IsEntry kv.1 kv.2)
    (hord : Iterates (Response.build statusCode statusText fields body).headers order) :
    (Response.build statusCode statusText fields body).RoundTrips order ↔
      ¬ space <:+: statusText := by
  have hall : ∀ kv ∈ order, IsEntry kv.1 kv.2 := by
    rintro ⟨key, value⟩ hkv
    have hlookup := (hord.mem_iff key value).mp hkv
    rw [Response.build_eq] at hlookup
    rcases Response.mem_of_lookup_foldl_insert hlookup with hmem | hnone
    · exact hfields (key, value) hmem
    · cases hnone
  have hblock := Response.generateResponse_headerBlock statusCode fields body htext hall
  obtain ⟨version, status, text, parts, hsplit, hparse⟩ := hblock.parse responseInit
  have hheaders : (order.map rowLine).foldl Response.enter responseInit.headers =
      (Response.build statusCode statusText fields body).headers :=
    (Response.foldl_enter_rowLines hall).trans (Response.foldl_insert_of_iterates hord)
  have hfirst : (Response.build statusCode statusText fields body).firstLine =
      bytes "HTTP/1.1" ++ space ++ bytes (toString statusCode) ++ space ++ statusText := by
    rw [Response.build_eq]
  rw [hfirst, Response.split_firstLine] at hsplit
  obtain ⟨hversion, hrest⟩ := List.cons.inj hsplit
  obtain ⟨hstatus, htext'⟩ := List.cons.inj hrest
  subst hversion hstatus
  -- what is read is the same up to the first word of the status text
  have htrips : (Response.build statusCode statusText fields body).RoundTrips order ↔
      text = statusText := by
    rw [Response.RoundTrips, hparse, hfirst]
    constructor
    · rintro ⟨r', hr', hline, -⟩
      cases hr'
      exact List.append_cancel_left hline
    · rintro rfl
      exact ⟨_, rfl, rfl, hheaders⟩
  rw [htrips]
  constructor
  · rintro rfl
    exact not_infix_of_mem_split borderless_space.1 text (by rw [htext']; simp)
  · intro hno
    rw [split_of_absent borderless_space.1 hno] at htext'
    exact (List.cons.inj htext').1.symm

/-- A response with a body that looks like another one. -/
theorem response_roundTrips_ok :
    (Response.build 200 (bytes "OK") [(bytes "Server", bytes "Fast-Https")]
      (bytes "a: b\r\n\r\n")).RoundTrips [(bytes "Server", bytes "Fast-Https")] := by
  apply (response_roundTrips_iff 200 (bytes "OK") [(bytes "Server", bytes "Fast-Https")]
    (bytes "a: b\r\n\r\n") [(bytes "Server", bytes "Fast-Https")] (by decide) ?_ ?_).mpr
  · decide
  · intro kv hkv
    obtain rfl := List.mem_singleton.mp hkv
    exact ⟨by decide, ⟨by decide, by decide⟩, by decide, by decide, ⟨by decide, by decide⟩,
      by decide⟩
  · refine ⟨by decide, fun key value => ?_⟩
    rw [Response.build_eq, List.mem_singleton, Prod.mk.injEq]
    show _ ↔ (Finmap.insert (bytes "Server") (bytes "Fast-Https") (∅ : Headers)).lookup key =
      some value
    rcases eq_or_ne key (bytes "Server") with rfl | hne
    · rw [Finmap.lookup_insert, Option.some.injEq]
      simp [eq_comm]
    · rw [Finmap.lookup_insert_of_ne _ hne]
      simp [hne]

/-- Of a status text of two words the second one is lost. -/
theorem response_loses_word : ∃ r', responseInit.httpResParse
      ((Response.build 404 (bytes "Not Found") [] []).generateResponse [])
      = some (r', .responseOk) ∧
    r'.firstLine = bytes "HTTP/1.1 404 Not" ∧
    ¬ (Response.build 404 (bytes "Not Found") [] []).RoundTrips [] := by
  refine ⟨_, rfl, by decide, ?_⟩
  rintro ⟨r', hr', hline, -⟩
  cases hr'
  revert hline
  decide

end DmfServer
