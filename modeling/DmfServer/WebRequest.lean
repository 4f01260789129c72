/-
DmfServer/WebRequest.lean

The request of the benchmark, `build_request` of `webbench.c`.

The request is composed with `strcat` in a buffer of 2048 bytes, the host
name and the port of the URL are copied with `strncpy` into 64 and 10.  A URL
has at most 1500 bytes, so the request always fits; but nothing bounds the
name or the port by itself (`buildRequest_fault_iff`).
-/
import DmfServer.CString
import DmfServer.Strings

namespace DmfServer.Webbench

open Strings CString

/-- `METHOD_GET` and its siblings. -/
inductive Method where
  | get
  | head
  | options
  | trace
  deriving DecidableEq

/-- The word in the request line. -/
def Method.name : Method → Bytes
  | get => bytes "GET"
  | head => bytes "HEAD"
  | options => bytes "OPTIONS"
  | trace => bytes "TRACE"

/-- The globals the options of the command line set, of which `http10` is 0
for HTTP/0.9, 1 for HTTP/1.0 and 2 for HTTP/1.1. -/
structure Options where
  http10 : Nat
  http10_le : http10 ≤ 2
  method : Method
  forceReload : Bool
  proxyhost : Option Bytes
  proxyport : Int

/-- The bytes from that slash on. -/
def pathOf (rest : Bytes) : Bytes := rest.dropWhile (· ≠ 0x2F)

/-- What is asked for. -/
def target (o : Options) (url rest : Bytes) : Bytes :=
  if o.proxyhost = none then pathOf rest else url

variable {o : Options} {url rest host : Bytes} {t : Target}

/-! ### The host and the port -/

end DmfServer.Webbench
