/-
DmfServer/Request.lean

The request library, `lib/request/request.go`.

Go strings and byte slices are byte lists, the header map is a finite map,
and `int` is unbounded except where `strconv.Atoi` bounds it.  A panic (an
index or a slice bound out of range, or the `panic` of `RequestBodyValid`)
is `none`; a method that returns otherwise answers the request object it
leaves, also when it returns an error half-way.

`collection.Collect(..).Contains` is third-party code: it is a parameter
with the documented behaviour as a field, `Collection`.
-/
import DmfServer.Strings

namespace DmfServer

open Strings

/-- The package `collection`, of which `Contains` on string slices is used:
it is list membership. -/
structure Collection where
  contains : List Bytes → Bytes → Bool
  contains_iff : ∀ l x, contains l x = true ↔ x ∈ l

/-- Membership itself. -/
def Collection.mem : Collection := ⟨fun l x => decide (x ∈ l), fun _ _ => decide_eq_true_iff⟩

/-- The error values of the package. -/
inductive RequestError where
  | requestOk
  | none
  | unknowInvalid
  | firstLineInvalid
  | methodInvalid
  | requestNeedReadMore
  | invalidHeaders
  | protocolInvalid
  | pathInvalid
  deriving DecidableEq

namespace RequestError

def code : RequestError → Nat
  | requestOk => 0
  | none => 1
  | unknowInvalid => 2
  | firstLineInvalid => 3
  | methodInvalid => 4
  | requestNeedReadMore => 5
  | invalidHeaders => 6
  | protocolInvalid => 7
  | pathInvalid => 8

def message : RequestError → String
  | requestOk => "Request OK"
  | none => "None"
  | unknowInvalid => "Unknow invalid"
  | firstLineInvalid => "First line invalid"
  | methodInvalid => "Method invalid"
  | requestNeedReadMore => "Request need read more"
  | invalidHeaders => "Invalid headers"
  | protocolInvalid => "Protocol invalid"
  | pathInvalid => "Path invalid"

/-- The method `Error`. -/
def error (e : RequestError) : String :=
  "Request error code: " ++ toString e.code ++ ", Message: " ++ e.message

end RequestError

/-- The header map. -/
abbrev Headers : Type := Finmap fun _ : Bytes => Bytes

/-- `Req`, the fields the package reads or writes. -/
structure Req where
  method : Bytes
  path : Bytes
  protocol : Bytes
  headers : Headers
  body : Bytes
  h2 : Bool

def crlf : Bytes := [13, 10]
def space : Bytes := [32]
def colon : Bytes := [58]

def httpMethod : List Bytes :=
  [bytes "GET", bytes "POST", bytes "PUT", bytes "DELETE", bytes "HEAD", bytes "OPTIONS",
    bytes "TRACE", bytes "CONNECT"]

def httpProtocol : List Bytes :=
  [bytes "HTTP/0.9", bytes "HTTP/1.0", bytes "HTTP/1.1", bytes "HTTP/2", bytes "HTTP/3"]

/-- `ReqInit`. -/
def reqInit (h2 : Bool) : Req := ⟨[], [], [], ∅, [], h2⟩

namespace Req

/-- `Flush`: its body is empty. -/
def flush (r : Req) : Req := r

/-! ### Header access -/

/-- `GetHeader`: a missing key reads as the empty string. -/
def getHeader (r : Req) (key : Bytes) : Bytes := (r.headers.lookup key).getD []

def getHost (r : Req) : Bytes := r.getHeader (bytes "Host")

def getConnection (r : Req) : Bytes := r.getHeader (bytes "Connection")

def getContentType (r : Req) : Bytes := r.getHeader (bytes "Content-Type")

def getContentLength (r : Req) : Bytes := r.getHeader (bytes "Content-Length")

def getUpgrade (r : Req) : Bytes := r.getHeader (bytes "Upgrade")

def getTransferEncoding (r : Req) : Bytes := r.getHeader (bytes "Transfer-Encoding")

def getAuthorization (r : Req) : Bytes := r.getHeader (bytes "Authorization")

/-- `IsKeepalive`. -/
def isKeepalive (r : Req) : Bool := r.getConnection == bytes "keep-alive"

/-! ### `ByteRow` -/

/-- `ByteRow`.  Go does not fix in which order a loop over a map meets its
entries: it is `order`. -/
def byteRow (r : Req) (order : List (Bytes × Bytes)) : Bytes :=
  let rowStr := r.method ++ bytes " " ++ r.path ++ bytes " " ++ r.protocol ++ bytes "\r\n"
  let rowStr := order.foldl
    (fun rowStr kv => rowStr ++ kv.1 ++ bytes ": " ++ kv.2 ++ bytes "\r\n") rowStr
  let rowStr := rowStr ++ bytes "\r\n"
  rowStr ++ r.body

/-! ### `ParseHeader` -/

/-- The loop over the lines behind the first one.  The arguments are the
lines from `lines[i]` on, so `len(lines) > i+1` says that more follow.
`key[:1]` panics on an empty key. -/
def parseLines (r : Req) : List Bytes → Option (Req × RequestError)
  | [] => some (r, .requestNeedReadMore)
  | line :: rest =>
      if line = [] ∧ rest ≠ [] then some (r, .requestOk)
      else match splitN colon 2 line with
        | [name, value] =>
            match trimSpace name with
            | [] => none
            | c :: key =>
                let headers := r.headers.insert (toUpper c ++ key) (trimSpace value)
                parseLines { r with headers } rest
        | _ => some (r, .invalidHeaders)

/-- `ParseHeader`. -/
def parseHeader (col : Collection) (r : Req) (request : Bytes) : Option (Req × RequestError) :=
  if request = [] then some (r, .none)
  else match split crlf request with
    | requestLine :: line :: lines =>
        match split space requestLine with
        | [method, path, protocol] =>
            if ¬ col.contains httpMethod method then some (r, .methodInvalid)
            else if path = [] then some ({ r with method }, .pathInvalid)
            else if ¬ col.contains httpProtocol protocol then
              some ({ r with method, path }, .protocolInvalid)
            else if lines = [] then
              some ({ r with method, path, protocol }, .requestNeedReadMore)
            else parseLines { r with method, path, protocol } (line :: lines)
        | _ => some (r, .firstLineInvalid)
    | _ => some (r, .unknowInvalid)

/-! ### `ParseBody` -/

/-- The index expressions of the loop condition: whether CRLFCRLF stands at
`i`.  An index out of range panics, and `&&` evaluates from the left. -/
def blankLineAt (tmpByte : Bytes) (i : Nat) : Option Bool := do
  if (← tmpByte[i]?) ≠ 13 then return false
  if (← tmpByte[i + 1]?) ≠ 10 then return false
  if (← tmpByte[i + 2]?) ≠ 13 then return false
  return (← tmpByte[i + 3]?) = 10

/-- The `for` loop with `n` turns left, from index `i`: the value of `i`
after it. -/
def scanBody (tmpByte : Bytes) : Nat → Nat → Option Nat
  | 0, i => some i
  | n + 1, i => do
      if ← blankLineAt tmpByte i then return i
      scanBody tmpByte n (i + 1)

/-- The slice expression `b[low:]`. -/
def sliceFrom (b : Bytes) (low : Int) : Option Bytes :=
  if 0 ≤ low ∧ low ≤ b.length then some (b.drop low.toNat) else none

/-- The slice expression `b[:high]`. -/
def sliceTo (b : Bytes) (high : Int) : Option Bytes :=
  if 0 ≤ high ∧ high ≤ b.length then some (b.take high.toNat) else none

/-- `ParseBody`. -/
def parseBody (r : Req) (tmpByte : Bytes) : Option Req := do
  let totalLen : Int := tmpByte.length
  let i ← scanBody tmpByte (totalLen - 4).toNat 0
  let remainLen := totalLen - i - 4
  let res ←
    if remainLen = 0 then sliceFrom tmpByte (i + 4)
    else (sliceFrom tmpByte (i + 4)).bind fun b => sliceTo b remainLen
  return { r with body := res }

/-! ### Completeness of the body -/

/-- `RequestBodyValid`. -/
def requestBodyValid (r : Req) : Option Bool := do
  let contentType := r.getContentType
  if index contentType (bytes "multipart/form-data") ≠ -1 then
    let po := index contentType (bytes "boundary=")
    let boundaryStr ← sliceFrom contentType (po + (bytes "boundary=").length)
    return contains r.body (boundaryStr ++ bytes "--")
  else
    let contentLength := r.getContentLength
    if contentLength ≠ [] then
      let n ← atoi contentLength
      return (r.body.length : Int) = n
    else
      return true

/-- `TryFixBody`. -/
def tryFixBody (r : Req) (other : Bytes) : Option (Req × Bool) := do
  let r := { r with body := r.body ++ other }
  return (r, ← r.requestBodyValid)

end Req

/-- `req_test`: the result of `ParseHeader` is dropped. -/
def reqTest (col : Collection) (reqStr : Bytes) : Option Req := do
  let (req, _) ← (reqInit false).parseHeader col reqStr
  req.parseBody reqStr

end DmfServer
