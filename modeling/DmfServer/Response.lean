/-
DmfServer/Response.lean

The response library, `lib/response/response.go`.

As in the request library a panic is `none`.  `fmt.Sprintf` is used with
`%d` for an integer and with `%s` for a text as it stands.
-/
import DmfServer.Request

namespace DmfServer

open Strings

/-- The error values of the package. -/
inductive ResponError where
  | responseOk
  | none
  | unknowInvalid
  | firstLineInvalid
  | methodInvalid
  deriving DecidableEq

namespace ResponError

def code : ResponError → Nat
  | responseOk => 0
  | none => 1
  | unknowInvalid => 2
  | firstLineInvalid => 3
  | methodInvalid => 4

def message : ResponError → String
  | responseOk => "Response OK"
  | none => "None"
  | unknowInvalid => "Unknow invalid"
  | firstLineInvalid => "First line invalid"
  | methodInvalid => "Method invalid"

/-- The method `Error`. -/
def error (e : ResponError) : String :=
  "Respon error code: " ++ toString e.code ++ ", Message: " ++ e.message

end ResponError

structure Response where
  firstLine : Bytes
  headers : Headers
  body : Bytes

def responseInit : Response := ⟨[], ∅, []⟩

namespace Response

/-! ### Building a response -/

def setFirstLine (statusCode : Int) (statusText : Bytes) (r : Response) : Response :=
  { r with
    firstLine := bytes "HTTP/1.1 " ++ bytes (toString statusCode) ++ bytes " " ++ statusText }

def setHeader (key value : Bytes) (r : Response) : Response :=
  { r with headers := r.headers.insert key value }

def setBody (body : Bytes) (r : Response) : Response := { r with body }

/-- `GenerateResponse`, where the loop over the header map meets its entries
in the order `order`. -/
def generateResponse (r : Response) (order : List (Bytes × Bytes)) : Bytes :=
  let response := r.firstLine ++ bytes "\r\n"
  let response := order.foldl
    (fun response kv => response ++ kv.1 ++ bytes ": " ++ kv.2 ++ bytes "\r\n") response
  response ++ bytes "\r\n" ++ r.body

/-! ### `HttpResParse` -/

/-- The loop over the lines behind the first one.  `parts[1]` panics on a
line without a colon. -/
def parseLines (r : Response) : List Bytes → Option (Response × ResponError)
  | [] => some (r, .responseOk)
  | line :: rest =>
      if line = [] then some (r, .responseOk)
      else match splitN colon 2 line with
        | name :: value :: _ => parseLines (r.setHeader (trimSpace name) (trimSpace value)) rest
        | _ => none

/-- `HttpResParse`. -/
def httpResParse (r : Response) (request : Bytes) : Option (Response × ResponError) :=
  if request = [] then some (r, .none)
  else match split crlf request with
    | requestLine :: lines =>
        match split space requestLine with
        | version :: status :: text :: _ =>
            parseLines { r with
              firstLine := version ++ bytes " " ++ status ++ bytes " " ++ text } lines
        | _ => some (r, .firstLineInvalid)
    | [] => some (r, .unknowInvalid)

end Response

end DmfServer
