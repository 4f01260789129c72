/-
DmfServer/Lengths.lean

The lengths that the handlers hand to `write`, `send` and `SSL_write`.

The four handlers are written once more with a note before each of these
calls (`Noted`): where in its buffer the call begins, how many bytes it is
for, and how large the buffer is and how much of it was filled.  Without the
notes they are the handlers (`noted_erases`).

The loops over `write` test the length before they use it, so the lengths of
the two HTTP handlers are always in order.  The TLS handlers pass on the
result of `SSL_read`, and the result of `recv`, without a test: there the
lengths are in order exactly when these have not failed
(`lengths_within_iff`).
-/
import DmfServer.TlsEcho
import DmfServer.HttpWrite
import DmfServer.Notes

namespace DmfServer

open Imperative Imperative.Prog Strings World

/-! ### The handlers, with notes -/

/-- The arguments of a call: it is for `len` bytes, `offset` bytes into a
buffer of `size` bytes, of which the first `filled` are data. -/
structure Passed where
  offset : Int
  len : Int
  size : Nat
  filled : Nat

/-- The length is not negative, and the bytes are in the buffer, and data. -/
def Passed.Within (c : Passed) : Prop :=
  0 ≤ c.offset ∧ 0 ≤ c.len ∧ c.offset + c.len ≤ c.size ∧ c.offset + c.len ≤ c.filled

/-- A worker, with notes of the calls. -/
abbrev NotedWorld : Type := World × List Passed

namespace Noted

/-- A turn of the loop over `write`, out of a buffer of `area` bytes. -/
def writeTurn (clientFd : Fd) (area : Nat) (buf : Bytes) (size n : Int) :
    Prog NotedWorld (Int ⊕ Option Errno) :=
  if 0 < n then do
    note ⟨size - n, n, area, buf.length⟩
    quiet (DmfServer.writeTurn clientFd buf size n)
  else quiet (DmfServer.writeTurn clientFd buf size n)

/-- `event_http_write`; the array ends with a zero byte. -/
def eventHttpWrite (conn : Addr) (clientFd : Fd) : Prog NotedWorld Unit := do
  let req ← quiet (reqAt conn)
  let dataSize : Int := sendBuf.length
  match ← loop (writeTurn clientFd (sendBuf.length + 1) sendBuf dataSize) dataSize with
  | some _ => pure ()
  | none => quiet (count req.sd fun sd => { sd with writeNum := sd.writeNum + 1 })

/-- The part of both proxies about the upstream: it begins with `send`. -/
def exchange (cliSock : Fd) (buffer : Bytes) (len : Int) : Prog NotedWorld (Int × Bytes) := do
  note ⟨0, len, 4096, buffer.length⟩
  quiet (DmfServer.exchange cliSock buffer len)

/-- `event_http_reverse`. -/
def eventHttpReverse (conn : Addr) (clientFd : Fd) : Prog NotedWorld Unit := do
  match ← quiet (loop (readTurn clientFd 4096) []) with
  | (.failed _, _) => pure ()
  | (.closed, _) => quiet (handleClose conn)
  | (.dry, buffer) => do
      match ← quiet clientSocket with
      | none => pure ()
      | some cliSock => do
          let (recvLen, buffer) ← exchange cliSock buffer buffer.length
          match ← loop (writeTurn clientFd 4096 buffer recvLen) recvLen with
          | some _ => pure ()
          | none => quiet (handleClose conn)

/-- `SSL_write` of `len` bytes from the front of a buffer of `area` bytes. -/
def sslWriteFrom (area : Nat) (ssl : Option Addr) (buf : Bytes) (len : Int) :
    Prog NotedWorld Int := do
  note ⟨0, len, area, buf.length⟩
  quiet (DmfServer.sslWriteFrom ssl buf len)

/-- `handle_https_read_write`. -/
def handleHttpsReadWrite (conn : Addr) : Prog NotedWorld Unit := do
  let req ← quiet (reqAt conn)
  let (readSize, buf) ← quiet (sslReadInto req.ssl 1024)
  let sendBuf := httpsResponse readSize
  let _ ← sslWriteFrom 1024 req.ssl sendBuf sendBuf.length
  let _ ← sslWriteFrom 1024 req.ssl buf readSize
  pure ()

/-- `event_https_reverse`. -/
def eventHttpsReverse (conn : Addr) : Prog NotedWorld Unit := do
  let req ← quiet (reqAt conn)
  let (totalRead, buffer) ← quiet (sslReadInto req.ssl 4096)
  match ← quiet clientSocket with
  | none => pure ()
  | some cliSock => do
      let (recvLen, buffer) ← exchange cliSock buffer totalRead
      let _ ← sslWriteFrom 4096 req.ssl buffer recvLen
      pure ()

end Noted

/-! ### Without the notes -/

theorem erases_writeTurn (clientFd : Fd) (area : Nat) (buf : Bytes) (size n : Int) :
    Erases (Noted.writeTurn clientFd area buf size n) (writeTurn clientFd buf size n) := by
  rw [Noted.writeTurn]
  split_ifs
  · exact (erases_quiet _).note_bind _
  · exact erases_quiet _

theorem erases_exchange (cliSock : Fd) (buffer : Bytes) (len : Int) :
    Erases (Noted.exchange cliSock buffer len) (exchange cliSock buffer len) :=
  (erases_quiet _).note_bind _

theorem erases_sslWriteFrom (area : Nat) (ssl : Option Addr) (buf : Bytes) (len : Int) :
    Erases (Noted.sslWriteFrom area ssl buf len) (sslWriteFrom ssl buf len) :=
  (erases_quiet _).note_bind _

/-- Without the notes the four programs are the handlers. -/
theorem noted_erases (conn : Addr) (clientFd : Fd) :
    Erases (Noted.eventHttpWrite conn clientFd) (eventHttpWrite conn clientFd) ∧
    Erases (Noted.eventHttpReverse conn clientFd) (eventHttpReverse conn clientFd) ∧
    Erases (Noted.handleHttpsReadWrite conn) (handleHttpsReadWrite conn) ∧
    Erases (Noted.eventHttpsReverse conn) (eventHttpsReverse conn) := by
  refine ⟨?_, ?_, ?_, ?_⟩
  · refine (erases_quiet _).bind fun req => ?_
    refine (Erases.loop (erases_writeTurn _ _ _ _) _).bind fun x => ?_
    rcases x with - | e
    · exact erases_quiet _
    · exact erases_pure ()
  · refine (erases_quiet _).bind ?_
    rintro ⟨e | e | e, buffer⟩
    · refine (erases_quiet _).bind fun cliSock => ?_
      rcases cliSock with - | cliSock
      · exact erases_pure ()
      refine (erases_exchange _ _ _).bind fun answer => ?_
      refine (Erases.loop (erases_writeTurn _ _ _ _) _).bind fun x => ?_
      rcases x with - | e
      · exact erases_quiet _
      · exact erases_pure ()
    · exact erases_quiet _
    · exact erases_pure ()
  · refine (erases_quiet _).bind fun req => (erases_quiet _).bind fun answer => ?_
    exact (erases_sslWriteFrom _ _ _ _).bind fun _ =>
      (erases_sslWriteFrom _ _ _ _).bind fun _ => erases_pure ()
  · refine (erases_quiet _).bind fun req => (erases_quiet _).bind fun answer => ?_
    refine (erases_quiet _).bind fun cliSock => ?_
    rcases cliSock with - | cliSock
    · exact erases_pure ()
    exact (erases_exchange _ _ _).bind fun _ =>
      (erases_sslWriteFrom _ _ _ _).bind fun _ => erases_pure ()

variable {w w' : World} {conn ssl : Addr} {r : ReqT} {fd : Fd} {i b : FileId} {f g : File}
variable {l : List Passed} {ans : Answers}

/-! ### Lengths that are in order -/

/-- A call for all the data. -/
theorem within_all {n size : Nat} (h : n ≤ size) : (⟨0, n, size, n⟩ : Passed).Within :=
  ⟨le_rfl, Int.natCast_nonneg n, show (0 : Int) + n ≤ size by omega,
    show (0 : Int) + n ≤ n by omega⟩

/-- `SSL_read` has failed. -/
def SslFailed (answer : Except Nat Bytes) : Prop := ∃ c, 0 < c ∧ answer = .error c

/-- What `SSL_read` has answered is in order as a length unless it failed. -/
theorem firstRecord_within_iff {size : Nat} {q : List (Except Nat Bytes)} :
    (⟨0, (firstRecord size q).1, size, (firstRecord size q).2.1.length⟩ : Passed).Within ↔
      ¬ SslFailed (q.headD (.error 1)) := by
  have herror : ∀ c : Nat, (⟨0, -c, size, 0⟩ : Passed).Within ↔ ¬ SslFailed (.error c) := by
    intro c
    constructor
    · rintro ⟨-, hlen, -⟩ ⟨c', hpos, hc⟩
      cases hc
      have : (0 : Int) ≤ -c := hlen
      omega
    · intro hno
      obtain rfl : c = 0 := by
        rcases Nat.eq_zero_or_pos c with hc | hc
        · exact hc
        · exact absurd ⟨c, hc, rfl⟩ hno
      exact within_all (Nat.zero_le size)
  rcases q with - | ⟨c | piece, q⟩
  · exact herror 1
  · exact herror c
  · refine iff_of_true ?_ ?_
    · rw [firstRecord]
      split_ifs with hlen
      · exact within_all hlen
      · exact within_all (List.length_take_le size piece)
    · rintro ⟨c, -, hc⟩
      cases hc

/-- So is what `recv` has answered. -/
theorem received_within_iff {size : Nat} {answer : Except Errno Bytes} :
    (⟨0, (received size answer).1, size, (received size answer).2.length⟩ : Passed).Within ↔
      ∃ piece, answer = .ok piece := by
  rcases answer with e | piece
  · refine iff_of_false ?_ ?_
    · rintro ⟨-, hlen, -⟩
      exact absurd hlen (show ¬ (0 : Int) ≤ -1 by omega)
    · rintro ⟨piece, hp⟩
      cases hp
  · exact iff_of_true (within_all (List.length_take_le size piece)) ⟨piece, rfl⟩

theorem received_pos {size : Nat} {answer : Except Errno Bytes}
    (h : 0 < (received size answer).1) : ∃ piece, answer = .ok piece := by
  rcases answer with e | piece
  · exact absurd h (show ¬ (0 : Int) < -1 by omega)
  · exact ⟨piece, rfl⟩

theorem Meets.length_le {size : Nat} {answers : List (Except Errno Bytes)} {got : Bytes}
    {e : Errno} (h : Meets size answers got e) : got.length ≤ size := by
  obtain ⟨pieces, rest, -, -, -, hlen, -⟩ := h
  exact Nat.le_of_lt hlen

/-- A number of at most four digits. -/
theorem length_toString_le {n : Nat} (h : n < 10 ^ 4) :
    (bytes (toString (n : Int))).length ≤ 4 := by
  have he : (toString (n : Int)).toList = Nat.toDigits 10 n := String.toList_ofList
  rw [bytes, List.length_map, he]
  exact (Nat.length_toDigits_le_iff (by omega) (by omega)).mpr h

/-- The head of a response fits into its buffer. -/
theorem httpsResponse_length_le {n : Nat} (h : n ≤ 1024) : (httpsResponse n).length ≤ 1024 := by
  have hnum := length_toString_le (n := n) (by omega)
  have hfront : (bytes "HTTP/1.1 200 OK\r\nServer: httpd\r\nContent-Length: ").length = 48 := by
    decide +kernel
  have hback : (bytes "\r\nConnection: keep-alive\r\n\r\n").length = 28 := by decide +kernel
  rw [httpsResponse, List.length_append, List.length_append, hfront, hback]
  omega

/-! ### HTTP -/

/-- The loop over `write`: there is a call if there is something to write, and
it is for all of it. -/
theorem writeLoop_noted (h : w.fileAt fd = some (i, f)) (area : Nat) (buf : Bytes) (len : Int) :
    ∃ x f', Returns (loop (Noted.writeTurn fd area buf len) len) (w, l) x
      (w.setFile i f', l ++ if 0 < len then [⟨0, len, area, buf.length⟩] else []) := by
  have hnext : ∀ {w : World} {l : List Passed} {n : Int}, ¬ 0 < n →
      Returns (Noted.writeTurn fd area buf len n) (w, l) (Sum.inr none) (w, l) := by
    intro w l n hn
    rw [Noted.writeTurn, if_neg hn]
    exact (writeTurn_nothing hn).quiet
  by_cases hlen : 0 < len
  · rw [if_pos hlen]
    have hfirst : ∀ {x w'}, Returns (writeTurn fd buf len len) w x w' →
        Returns (Noted.writeTurn fd area buf len len) (w, l) x
          (w', l ++ [⟨0, len, area, buf.length⟩]) := by
      intro x w' hret
      rw [Noted.writeTurn, if_pos hlen, returns_note_bind, Int.sub_self]
      exact hret.quiet
    obtain hturn | ⟨-, n, hn, hturn⟩ := writeTurn_returns buf h hlen
    · exact ⟨_, _, Returns.loop_exit (hfirst hturn)⟩
    · exact ⟨_, _, Returns.loop_next (hfirst hturn) (Returns.loop_exit (hnext hn))⟩
  · rw [if_neg hlen, List.append_nil]
    refine ⟨none, f, ?_⟩
    rw [setFile_self h]
    exact Returns.loop_exit (hnext hlen)

theorem returns_reqAt (h : w.reqs.get conn = some r) : Returns (reqAt conn) w r w := by
  rw [reqAt, returns_load_bind, h]
  exact returns_pure.mpr ⟨rfl, rfl⟩

theorem eventHttpWrite_within (h : Held w conn r i f) :
    ∃ w' cs, Returns (Noted.eventHttpWrite conn r.fd) (w, []) () (w', cs) ∧
      ∀ c ∈ cs, c.Within := by
  obtain ⟨x, f', hloop⟩ :=
    writeLoop_noted (l := []) h.file (sendBuf.length + 1) sendBuf sendBuf.length
  rw [if_pos (Int.natCast_pos.mpr sendBuf_pos), List.nil_append] at hloop
  have hwithin : ∀ c ∈ [(⟨0, sendBuf.length, sendBuf.length + 1, sendBuf.length⟩ : Passed)],
      c.Within := by
    intro c hc
    rw [List.mem_singleton.mp hc]
    exact within_all (Nat.le_add_right _ 1)
  rcases x with - | e
  · obtain ⟨w', hcount⟩ : ∃ w', Returns (count r.sd fun sd =>
        { sd with writeNum := sd.writeNum + 1 }) (w.setFile i f') () w' := by
      rw [h.sd]
      exact ⟨_, returns_count.mpr rfl⟩
    exact ⟨w', _, (returns_reqAt h.req).quiet_bind (hloop.bind hcount.quiet), hwithin⟩
  · exact ⟨_, _, (returns_reqAt h.req).quiet_bind (hloop.bind (returns_pure.mpr ⟨rfl, rfl⟩)),
      hwithin⟩

theorem eventHttpReverse_within (h : Served w conn r i f) :
    ∃ w' cs, Returns (Noted.eventHttpReverse conn r.fd) (w, []) () (w', cs) ∧
      ∀ c ∈ cs, c.Within := by
  have hnone : ∀ c ∈ ([] : List Passed), c.Within := fun c hc => by cases hc
  by_cases hm : ∃ got e, Meets 4096 f.read got e
  · obtain ⟨got, e, hm⟩ := hm
    obtain ⟨q, hloop⟩ := readLoop_meets h.file hm
    have h₁ := h.setRead q
    rcases eq_or_ne e .eagain with rfl | he
    · rcases hup : upstream w.sockets with - | ans
      · have hup₁ : upstream (w.setFile i { f with read := q }).sockets = none := hup
        obtain ⟨w', hret, -⟩ := clientSocket_refused hup₁
        exact ⟨w', [], hloop.quiet_bind (hret.quiet_bind (returns_pure.mpr ⟨rfl, rfl⟩)), hnone⟩
      · have hup₁ : upstream (w.setFile i { f with read := q }).sockets = some ans := hup
        obtain ⟨s, w₂, hdial, hfree, hat, hserved⟩ := clientSocket_returns hup₁
        obtain ⟨w₃, hex, -, hserved'⟩ := exchange_returns got hat
        have h₃ := hserved' (hserved h₁) (h₁.fd_ne hfree) h₁.file_ne
        obtain ⟨x, f', hwrite⟩ := writeLoop_noted (l := [⟨0, got.length, 4096, got.length⟩])
          h₃.file 4096 (received 4096 (ans.read.headD (.ok []))).2
          (received 4096 (ans.read.headD (.ok []))).1
        have hwithin : ∀ c ∈ [⟨0, got.length, 4096, got.length⟩] ++
            if 0 < (received 4096 (ans.read.headD (.ok []))).1 then
              [(⟨0, (received 4096 (ans.read.headD (.ok []))).1, 4096,
                (received 4096 (ans.read.headD (.ok []))).2.length⟩ : Passed)]
            else [], c.Within := by
          intro c hc
          rcases List.mem_append.mp hc with hc | hc
          · rw [List.mem_singleton.mp hc]
            exact within_all hm.length_le
          · split_ifs at hc with hpos
            · rw [List.mem_singleton.mp hc]
              exact received_within_iff.mpr (received_pos hpos)
            · cases hc
        rcases x with - | e
        · have h₄ : Served (w₃.setFile i f') conn r i f' := h₃.setFile
          obtain ⟨w', hclose, -⟩ := handleClose_returns h₄
          exact ⟨w', _, hloop.quiet_bind (hdial.quiet_bind ((returns_note_bind.mpr
            hex.quiet).bind (hwrite.bind hclose.quiet))), hwithin⟩
        · exact ⟨_, _, hloop.quiet_bind (hdial.quiet_bind ((returns_note_bind.mpr
            hex.quiet).bind (hwrite.bind (returns_pure.mpr ⟨rfl, rfl⟩)))), hwithin⟩
    · rw [if_neg he] at hloop
      exact ⟨_, [], hloop.quiet_bind (returns_pure.mpr ⟨rfl, rfl⟩), hnone⟩
  · obtain ⟨got, q, hloop⟩ := readLoop_closed h.file fun got e hge => hm ⟨got, e, hge⟩
    obtain ⟨w', hret, -⟩ := handleClose_returns (h.setRead q)
    exact ⟨w', [], hloop.quiet_bind hret.quiet, hnone⟩

/-! ### HTTPS -/

theorem sslWriteFrom_answers (hl : r.ssl = some ssl) (hs : w.sslFd ssl = some fd)
    (buf : Bytes) (len : Int) :
    ∃ x w', Returns (sslWriteFrom r.ssl buf len) w x w' ∧ w'.ssls = w.ssls := by
  refine ⟨(sslWrite fd buf len w).1, (sslWrite fd buf len w).2, ?_, onFile_ssls⟩
  obtain ⟨finished, hssl⟩ := sslFd_eq_some.mp hs
  rw [sslWriteFrom, hl, returns_sslAt_bind hssl]
  exact returns_call.mpr rfl

/-- The handler makes two calls of `SSL_write`, the second one for the result
of `SSL_read`. -/
theorem handleHttpsReadWrite_notes (h : TlsClient w conn r ssl fd i f) {n : Int} {body : Bytes}
    (hn : (firstRecord 1024 f.sslRead).1 = n) (hb : (firstRecord 1024 f.sslRead).2.1 = body) :
    ∃ w', Returns (Noted.handleHttpsReadWrite conn) (w, []) () (w',
      [⟨0, (httpsResponse n).length, 1024, (httpsResponse n).length⟩,
        ⟨0, n, 1024, body.length⟩]) := by
  have hread := sslReadInto_returns h 1024
  rw [hn, hb] at hread
  set w₁ := w.setFile i { f with sslRead := (firstRecord 1024 f.sslRead).2.2 }
  have hs₁ : w₁.sslFd ssl = some fd := h.attached
  obtain ⟨x, w₂, hhead, hssls⟩ := sslWriteFrom_answers h.linked hs₁
    (httpsResponse n) (httpsResponse n).length
  obtain ⟨y, w', hbody, -⟩ := sslWriteFrom_answers h.linked
    ((sslFd_congr hssls).trans hs₁) body n
  refine ⟨w', (returns_reqAt h.req).quiet_bind (hread.quiet_bind ?_)⟩
  refine (returns_note_bind.mpr hhead.quiet).bind ?_
  exact (returns_note_bind.mpr hbody.quiet).bind (returns_pure.mpr ⟨rfl, rfl⟩)

theorem handleHttpsReadWrite_within_iff (h : TlsClient w conn r ssl fd i f) :
    ∃ w' cs, Returns (Noted.handleHttpsReadWrite conn) (w, []) () (w', cs) ∧
      ((∀ c ∈ cs, c.Within) ↔ ¬ SslFailed (f.sslRead.headD (.error 1))) := by
  obtain ⟨w', hret⟩ := handleHttpsReadWrite_notes h rfl rfl
  refine ⟨w', _, hret, ?_⟩
  rw [List.forall_mem_cons, List.forall_mem_singleton, firstRecord_within_iff]
  refine and_iff_right_of_imp fun hok => ?_
  -- what was read fits into the buffer, so its length has few digits
  obtain ⟨-, hpos, hle, -⟩ := firstRecord_within_iff.mpr hok
  obtain ⟨n, hn⟩ := Int.eq_ofNat_of_zero_le hpos
  have hle' : (0 : Int) + (firstRecord 1024 f.sslRead).1 ≤ (1024 : Nat) := hle
  have hn' : (firstRecord 1024 f.sslRead).1 = n := hn
  rw [hn'] at hle' ⊢
  exact within_all (httpsResponse_length_le (by omega))

instance {S : Table Ssl} : Preserves (fun w => w.ssls = S) clientSocket := by
  have hsocket : Preserves (fun w => w.ssls = S) (call World.socket) := by
    refine .call fun w hw => ?_
    rw [World.socket]
    split <;> exact hw
  refine .seq hsocket fun x => ?_
  rcases x with e | sockfd
  · exact inferInstanceAs (Preserves _ (pure _))
  · refine .seq (.call fun w hw => onFile_ssls.trans hw) fun ok => ?_
    cases ok <;> exact inferInstanceAs (Preserves _ (pure _))

theorem clientSocket_ssls {x : Option Fd} (h : Returns clientSocket w x w') :
    w'.ssls = w.ssls := by
  have hkeep : Preserves (fun v => v.ssls = w.ssls) clientSocket := inferInstance
  exact (hkeep.keep w rfl).of_returns h

/-- Without an upstream the handler makes no call, and with one it passes on
the results of `SSL_read` and of `recv`. -/
theorem eventHttpsReverse_notes (h : TlsClient w conn r ssl fd i f) {n : Int} {body : Bytes}
    (hn : (firstRecord 4096 f.sslRead).1 = n) (hb : (firstRecord 4096 f.sslRead).2.1 = body) :
    ∃ w', Returns (Noted.eventHttpsReverse conn) (w, []) () (w',
      match upstream w.sockets with
      | none => []
      | some ans => [⟨0, n, 4096, body.length⟩,
          ⟨0, (received 4096 (ans.read.headD (.ok []))).1, 4096,
            (received 4096 (ans.read.headD (.ok []))).2.length⟩]) := by
  have hread := sslReadInto_returns h 4096
  rw [hn, hb] at hread
  set w₁ := w.setFile i { f with sslRead := (firstRecord 4096 f.sslRead).2.2 } with hw₁
  rcases hup : upstream w.sockets with - | ans
  · have hup₁ : upstream w₁.sockets = none := hup
    obtain ⟨w', hret, -⟩ := clientSocket_refused hup₁
    exact ⟨w', (returns_reqAt h.req).quiet_bind (hread.quiet_bind
      (hret.quiet_bind (returns_pure.mpr ⟨rfl, rfl⟩)))⟩
  · have hup₁ : upstream w₁.sockets = some ans := hup
    obtain ⟨s, w₂, hdial, -, hat, -⟩ := clientSocket_returns hup₁
    obtain ⟨g', hex, -⟩ := exchange_calls body n hat
    have hs₃ : ((w₂.setFile w₁.files.bound g').closeFd s).sslFd ssl = some fd :=
      (sslFd_congr (clientSocket_ssls hdial)).trans h.attached
    obtain ⟨x, w', hwrite, -⟩ := sslWriteFrom_answers h.linked hs₃
      (received 4096 (ans.read.headD (.ok []))).2 (received 4096 (ans.read.headD (.ok []))).1
    refine ⟨w', (returns_reqAt h.req).quiet_bind (hread.quiet_bind (hdial.quiet_bind ?_))⟩
    refine (returns_note_bind.mpr hex.quiet).bind ?_
    exact (returns_note_bind.mpr hwrite.quiet).bind (returns_pure.mpr ⟨rfl, rfl⟩)

theorem eventHttpsReverse_within_iff (h : TlsClient w conn r ssl fd i f) :
    ∃ w' cs, Returns (Noted.eventHttpsReverse conn) (w, []) () (w', cs) ∧
      ((∀ c ∈ cs, c.Within) ↔ ∀ ans, upstream w.sockets = some ans →
        ¬ SslFailed (f.sslRead.headD (.error 1)) ∧
          ∃ piece, ans.read.headD (.ok []) = .ok piece) := by
  obtain ⟨w', hret⟩ := eventHttpsReverse_notes h rfl rfl
  refine ⟨w', _, hret, ?_⟩
  rcases hup : upstream w.sockets with - | ans
  · exact iff_of_true (fun c hc => by cases hc) (fun ans hans => by cases hans)
  · rw [List.forall_mem_cons, List.forall_mem_singleton, firstRecord_within_iff,
      received_within_iff]
    constructor
    · rintro hok ans' hans
      rwa [← Option.some.inj hans]
    · exact fun hok => hok ans rfl

/-- **Lengths.**  Every length that `event_http_write` and
`event_http_reverse` pass on is in order.  Those of `handle_https_read_write`
are exactly if `SSL_read` has not failed, and those of `event_https_reverse`
exactly if there is no upstream or neither `SSL_read` nor `recv` has failed. -/
theorem lengths_within_iff (w : World) (conn : Addr) (r : ReqT) (i : FileId) (f : File) :
    (Held w conn r i f →
      ∃ w' cs, Returns (Noted.eventHttpWrite conn r.fd) (w, []) () (w', cs) ∧
        ∀ c ∈ cs, c.Within) ∧
    (Served w conn r i f →
      ∃ w' cs, Returns (Noted.eventHttpReverse conn r.fd) (w, []) () (w', cs) ∧
        ∀ c ∈ cs, c.Within) ∧
    ∀ ssl fd, TlsClient w conn r ssl fd i f →
      (∃ w' cs, Returns (Noted.handleHttpsReadWrite conn) (w, []) () (w', cs) ∧
        ((∀ c ∈ cs, c.Within) ↔ ¬ SslFailed (f.sslRead.headD (.error 1)))) ∧
      ∃ w' cs, Returns (Noted.eventHttpsReverse conn) (w, []) () (w', cs) ∧
        ((∀ c ∈ cs, c.Within) ↔ ∀ ans, upstream w.sockets = some ans →
          ¬ SslFailed (f.sslRead.headD (.error 1)) ∧
            ∃ piece, ans.read.headD (.ok []) = .ok piece) := by
  refine ⟨eventHttpWrite_within, eventHttpReverse_within, fun ssl fd h => ?_⟩
  exact ⟨handleHttpsReadWrite_within_iff h, eventHttpsReverse_within_iff h⟩

theorem lengths_within_hello :
    ∃ w' cs, Returns (Noted.handleHttpsReadWrite 0)
        (oneTlsClient { Answers.io [] [] with sslRead := [.ok (bytes "hello")] }, []) ()
        (w', cs) ∧ ∀ c ∈ cs, c.Within := by
  obtain ⟨-, -, htls⟩ := lengths_within_iff
    (oneTlsClient { Answers.io [] [] with sslRead := [.ok (bytes "hello")] }) 0 _ _ _
  obtain ⟨⟨w', cs, hret, hiff⟩, -⟩ := htls _ _
    (oneTlsClient_client { Answers.io [] [] with sslRead := [.ok (bytes "hello")] })
  refine ⟨w', cs, hret, hiff.mpr ?_⟩
  rintro ⟨c, -, hc⟩
  cases hc

/-- `SSL_read` fails: `SSL_write` is called with the length -1, and with an
upstream so is `send`. -/
theorem handlers_pass_negative :
    (∃ w' cs, Returns (Noted.handleHttpsReadWrite 0) (oneTlsClient (.io [] []), []) () (w', cs) ∧
      ∃ c ∈ cs, c.len = -1 ∧ ¬ c.Within) ∧
    ∃ w' cs, Returns (Noted.eventHttpsReverse 0)
        ({ oneTlsClient (.io [] []) with sockets := [.ok (6, .io [] [])] }, []) () (w', cs) ∧
      ∃ c ∈ cs, c.len = -1 ∧ ¬ c.Within := by
  have hbad : ∀ size filled, ¬ (⟨0, -1, size, filled⟩ : Passed).Within := by
    rintro size filled ⟨-, hlen, -⟩
    exact absurd hlen (show ¬ (0 : Int) ≤ -1 by omega)
  have hclient := oneTlsClient_client (.io [] [])
  obtain ⟨w₁, hret₁⟩ := handleHttpsReadWrite_notes hclient rfl rfl
  obtain ⟨w₂, hret₂⟩ := eventHttpsReverse_notes
    ({ hclient with } : TlsClient { oneTlsClient (.io [] []) with
      sockets := [.ok (6, .io [] [])] } _ _ _ _ _ _) rfl rfl
  exact ⟨⟨w₁, _, hret₁, _, List.mem_cons_of_mem _ List.mem_cons_self, rfl, hbad _ _⟩,
    w₂, _, hret₂, _, List.mem_cons_self, rfl, hbad _ _⟩

end DmfServer
