/-
DmfServer/ResponseDefault.lean

The default pages, `lib/response/response_default.go`, and `res_test`, which
hands one of them to the server in C.

All five are built by the same calls, with a status text of one word, so
they are read as they were written.  What a client needs besides is that the
length in the header is the number of bytes behind the blank line, whatever
the clock says and in whatever order the header map is met
(`defaultPages_framed`).
-/
import DmfServer.ResponseCalls

namespace DmfServer

open Strings

def currentVersion : Bytes := bytes "v1.2.1"

/-- `DefaultResponseBody`. -/
def defaultResponseBody (title message : Bytes) : Bytes :=
  bytes "<html>\n<head><title>" ++ title ++ bytes "</title></head>\n<body>\n<center><h1>" ++
    message ++ bytes "</h1></center>\n<hr><center>fast-https/" ++ currentVersion ++
    bytes "</center>\n</body>\n</html>"

/-- The calls that all pages are made of; `now` is what `time.Now().String()`
gives. -/
def defaultPage (statusCode : Int) (statusText title message now : Bytes) : Response :=
  let res := responseInit.setFirstLine statusCode statusText
  let res := res.setHeader (bytes "Server") (bytes "Fast-Https")
  let res := res.setHeader (bytes "Date") now
  let res := res.setHeader (bytes "Content-Type") (bytes "text/html")
  let body := defaultResponseBody title message
  let res := res.setHeader (bytes "Content-Length") (bytes (toString (body.length : Int)))
  res.setBody body

def defaultTest (now : Bytes) : Response :=
  defaultPage 200 (bytes "OK") (bytes "Welcome to Fast-Https!") (bytes "Welcome to Fast-Https!") now

def defaultNotFound (now : Bytes) : Response :=
  defaultPage 404 (bytes "NOTFOUND") (bytes "404 Not Found")
    (bytes "The requested URL was not found on this server.") now

def defaultTooMany (now : Bytes) : Response :=
  defaultPage 429 (bytes "TOOMANY") (bytes "429 Too Many Requests")
    (bytes ("The request was rejected because the client has sent too many requests " ++
      "in a short period of time.")) now

def defaultServerError (now : Bytes) : Response :=
  defaultPage 500 (bytes "SERVERERROR") (bytes "500 Server Error")
    (bytes ("The server encountered an internal error and was unable to complete " ++
      "your request.")) now

def defaultBlackBan (now : Bytes) : Response :=
  defaultPage 403 (bytes "FORBIDDEN") (bytes "403 Forbidden")
    (bytes "The request was rejected because the client has been blacklisted.") now

/-- The pages. -/
def defaultPages : List (Bytes → Response) :=
  [defaultTest, defaultNotFound, defaultTooMany, defaultServerError, defaultBlackBan]

/-- `res_test`. -/
def resTest (now : Bytes) (order : List (Bytes × Bytes)) : Bytes :=
  (defaultTest now).generateResponse order

variable {statusCode : Int} {statusText title message now : Bytes}

/-- The clock's text is fit for a header field. -/
def IsClock (now : Bytes) : Prop := Trimmed now ∧ ¬ crlf <:+: now

/-- A name and a value of graphic bytes. -/
theorem isField_of_graphic {key value : Bytes} (hkey : ∀ b ∈ key, 0x20 < b ∧ b < 0x80)
    (hcolon : ¬ colon <:+: key) (hvalue : ∀ b ∈ value, 0x20 < b ∧ b < 0x80) :
    IsField key value := by
  have hcr : ∀ v : Bytes, (∀ b ∈ v, 0x20 < b ∧ b < 0x80) → ¬ crlf <:+: v := by
    intro v hv hi
    exact absurd (hv 0x0D (hi.subset (by decide))).1 (by decide)
  exact ⟨trimmed_of_graphic hkey, hcolon, hcr key hkey, trimmed_of_graphic hvalue, hcr value hvalue⟩

theorem number_graphic (n : Nat) : ∀ b ∈ bytes (toString (n : Int)), 0x20 < b ∧ b < 0x80 := by
  intro b hb
  obtain ⟨hlow, hhigh⟩ := bytes_toString_nat n b hb
  exact ⟨UInt8.lt_of_lt_of_le (by decide) hlow, UInt8.lt_of_le_of_lt hhigh (by decide)⟩

theorem defaultPage_writable (hspace : ¬ space <:+: statusText) (hcrlf : ¬ crlf <:+: statusText)
    (hnow : IsClock now) : (defaultPage statusCode statusText title message now).Writable := by
  have hline : (responseInit.setFirstLine statusCode statusText).Writable :=
    ⟨.inr (Response.isLine_setFirstLine hspace hcrlf), Response.Writable.init.fields⟩
  have hserver : IsField (bytes "Server") (bytes "Fast-Https") :=
    isField_of_graphic (by decide +kernel) (by decide) (by decide +kernel)
  have hdate : IsField (bytes "Date") now :=
    ⟨trimmed_of_graphic (by decide +kernel), by decide, by decide, hnow.1, hnow.2⟩
  have htype : IsField (bytes "Content-Type") (bytes "text/html") :=
    isField_of_graphic (by decide +kernel) (by decide) (by decide +kernel)
  have hlength : ∀ n : Nat, IsField (bytes "Content-Length") (bytes (toString (n : Int))) :=
    fun n => isField_of_graphic (by decide +kernel) (by decide) (number_graphic n)
  have h := (((hline.setHeader hserver).setHeader hdate).setHeader htype).setHeader
    (hlength (defaultResponseBody title message).length)
  exact ⟨h.line, h.fields⟩

/-- The page can be framed: the bytes behind its first blank line are as many
as the header says. -/
def Framed (r : Response) (order : List (Bytes × Bytes)) : Prop :=
  r.RoundTrips order ∧ ∃ i, FirstAt (crlf ++ crlf) (r.generateResponse order) i ∧
    atoi (r.getHeader (bytes "Content-Length")) =
      some (((r.generateResponse order).drop (i + 4)).length : Int)

theorem defaultPage_framed {order : List (Bytes × Bytes)}
    (hspace : ¬ space <:+: statusText) (hcrlf : ¬ crlf <:+: statusText) (hnow : IsClock now)
    (hlen : (defaultResponseBody title message).length < 2 ^ 63)
    (hord : Iterates (defaultPage statusCode statusText title message now).headers order) :
    Framed (defaultPage statusCode statusText title message now) order := by
  have h : (defaultPage statusCode statusText title message now).Writable :=
    defaultPage_writable hspace hcrlf hnow
  have hne : (defaultPage statusCode statusText title message now).firstLine ≠ [] :=
    List.cons_ne_nil _ _
  obtain ⟨i, hi, hbody⟩ := h.body hne hord
  refine ⟨h.roundTrips hne hord, i, hi, ?_⟩
  have hheader : (defaultPage statusCode statusText title message now).getHeader
      (bytes "Content-Length") =
        bytes (toString ((defaultResponseBody title message).length : Int)) := by
    rw [defaultPage]
    exact Response.getHeader_setHeader _ _ _
  rw [hbody, hheader, atoi_toString hlen]
  rfl

/-- **The default pages.**  Whatever text without CRLF the clock gives, and in
whatever order the headers are met, every page is read as it was written, and
the header tells the length of what follows the first blank line. -/
theorem defaultPages_framed (page : Bytes → Response) (hpage : page ∈ defaultPages)
    (now : Bytes) (hnow : IsClock now) (order : List (Bytes × Bytes))
    (hord : Iterates (page now).headers order) : Framed (page now) order := by
  simp only [defaultPages, List.mem_cons, List.not_mem_nil, or_false] at hpage
  rcases hpage with rfl | rfl | rfl | rfl | rfl
  all_goals exact defaultPage_framed (by decide) (by decide) hnow (by decide +kernel) hord

/-- The page the server is handed. -/
theorem defaultPages_framed_test : ∃ order,
    Framed (defaultTest (bytes "2023-07-01 12:00:00 +0800 CST")) order := by
  obtain ⟨order, hord⟩ :=
    exists_iterates (defaultTest (bytes "2023-07-01 12:00:00 +0800 CST")).headers
  exact ⟨order, defaultPages_framed defaultTest (by simp [defaultPages]) _
    ⟨⟨by decide, by decide⟩, by decide⟩ order hord⟩

end DmfServer
