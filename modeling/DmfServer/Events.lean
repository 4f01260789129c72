/-
DmfServer/Events.lean

The worker: `dm_socket.c`, `dm_events.c` and the event loop of
`dm_server.c`.

Every function is a program over `World`.  A pointer to a `req_t` is an
address, and reading through it is `reqAt`, which faults when the object was
released; `SSL *` is treated in the same way.

The two loops that collect input (`event_http_read`, `event_http_reverse`)
are one definition over the size of the buffer, `readTurn`, and the two that
write are one over the buffer, `writeTurn`.  The two accept loops are one
over the part about a client, `acceptTurn`.  A counter of the shared memory
is reached through `req->sd`, which is dereferenced first.
-/
import DmfServer.Kernel

namespace DmfServer

open Imperative Imperative.Prog Strings World

/-! ### Memory -/

/-- `*conn`. -/
def reqAt (conn : Addr) : Prog World ReqT := do deref ((← load reqs).get conn)

/-- `*ssl`. -/
def sslAt (ssl : Option Addr) : Prog World (Addr × Ssl) := do
  let ssl ← deref ssl
  let s ← deref ((← load ssls).get ssl)
  pure (ssl, s)

/-- `malloc` of a `req_t` that is filled with `r`. -/
def newReqT (r : ReqT) : Prog World Addr := call fun w => (w.reqs.bound, w.newReq r)

/-- `SSL_new`. -/
def sslNew : Prog World Addr := call fun w => (w.ssls.bound, w.newSsl ⟨none, false⟩)

/-- `SSL_set_fd`: the handshake is what it was. -/
def sslSetFd (ssl : Option Addr) (fd : Fd) : Prog World Unit := do
  let (ssl, s) ← sslAt ssl
  store (setSsl ssl { s with fd := some fd })

/-- `SSL_accept`.  A session whose handshake is finished answers 1 at once,
whoever is at its descriptor now. -/
def sslAccept (ssl : Option Addr) : Prog World Shake := do
  let (ssl, s) ← sslAt ssl
  if s.finished then pure .done
  else match s.fd with
    | none => pure .failed
    | some fd => do
        let answer ← call (shake fd)
        if answer = .done then do
          store (setSsl ssl { s with finished := true })
          pure .done
        else pure answer

/-- `SSL_free`, and `free` of the same pointer. -/
def sslFree (ssl : Option Addr) : Prog World Unit := do
  let (ssl, _) ← sslAt ssl
  store (freeSsl ssl)

/-- Count in the shared memory behind `sd`. -/
def count (sd : Option Unit) (f : ShmData → ShmData) : Prog World Unit := do
  let _ ← deref sd
  store fun w => w.setShm (f w.shm)

/-! ### `dm_socket.c` -/

/-- `set_non_blocking`; `false` is -1. -/
def setNonBlocking (fd : Fd) : Prog World Bool := do
  if ← call (fcntl fd) then call (fcntl fd)
  else pure false

/-- `client_socket`; `none` is -1. -/
def clientSocket : Prog World (Option Fd) := do
  match ← call socket with
  | .error _ => pure none
  | .ok sockfd =>
      if ← call (connect sockfd) then pure (some sockfd)
      else pure none

/-! ### Closing -/

/-- `free(req->data)`: nothing in the program allocates it. -/
def freeData : Option Addr → Prog World Unit
  | none => pure ()
  | some _ => fault

/-- The part of `handle_close` about the TLS session. -/
def closeSsl : Option Addr → Prog World Unit
  | none => pure ()
  | some ssl => do
      let _ ← sslAt (some ssl)
      sslFree (some ssl)
      -- `free(req->ssl)`
      sslFree (some ssl)

/-- `handle_close`. -/
def handleClose (conn : Addr) : Prog World Unit := do
  let req ← reqAt conn
  let _ ← call (epollCtl req.efd .del req.fd)
  let _ ← call (close req.fd)
  count req.sd fun sd => { sd with closeNum := sd.closeNum + 1 }
  zoom timers setTimers (deleteTimer (some conn))
  freeData req.data
  closeSsl req.ssl
  store (freeReq conn)

/-! ### Accepting -/

/-- A turn of the accept loop of `event_accept_http` and `event_accept_https`;
`register` is what differs, the part about a descriptor that is non-blocking
now. -/
def acceptTurn {β : Type} (serfd : Fd) (register : Fd → Prog World (β ⊕ Unit)) :
    Prog World (β ⊕ Unit) := do
  match ← call (accept serfd) with
  | .error _ => pure (Sum.inr ())
  | .ok clifd =>
      if 0 < clifd then
        if ← setNonBlocking clifd then register clifd
        else pure (Sum.inr ())
      else pure (Sum.inr ())

/-- The part of `event_accept_http` about one client. -/
def registerHttp (type : LisType) (epollFd : Fd) (sd : Option Unit) (clifd : Fd) :
    Prog World (Unit ⊕ Unit) := do
  let req ← newReqT ⟨clifd, epollFd, type, none, none, sd⟩
  count sd fun sd => { sd with acceptNum := sd.acceptNum + 1 }
  match ← call (epollCtl epollFd (.add ⟨inEdge, req⟩) clifd) with
  | .error _ => do
      let _ ← call (close clifd)
      pure (Sum.inl ())
  | .ok _ => pure (Sum.inl ())

/-- `event_accept_http`. -/
def eventAcceptHttp (type : LisType) (serfd epollFd : Fd) (sd : Option Unit) : Prog World Unit :=
  loop (fun _ => acceptTurn serfd (registerHttp type epollFd sd)) ()

/-- A turn of the handshake loop, at `retryTimes`: it ends with the return
code and the counter. -/
def sslAcceptTurn (ssl : Option Addr) (retryTimes : Nat) : Prog World (Nat ⊕ (Int × Nat)) := do
  let answer ← sslAccept ssl
  if answer.code ≤ 0 then
    if retryTimes < 100 then
      if answer ≠ .wantRead then pure (Sum.inr (answer.code, retryTimes + 1))
      else pure (Sum.inl (retryTimes + 1))
    else pure (Sum.inr (answer.code, retryTimes + 1))
  else pure (Sum.inr (answer.code, retryTimes))

/-- The part of `event_accept_https` about one client, at `retryTimes`; `req`
was allocated before the loop. -/
def registerHttps (epollFd : Fd) (req : Addr) (retryTimes : Nat) (clifd : Fd) :
    Prog World (Nat ⊕ Unit) := do
  sslSetFd (← reqAt req).ssl clifd
  let (code, retryTimes) ← loop (sslAcceptTurn (← reqAt req).ssl) retryTimes
  if code ≠ 1 then do
    let _ ← call (close clifd)
    sslFree (← reqAt req).ssl
    pure (Sum.inr ())
  else do
    let r ← reqAt req
    store (setReq req { r with fd := clifd })
    let _ ← call (epollCtl epollFd (.add ⟨inEdge, req⟩) clifd)
    pure (Sum.inl retryTimes)

/-- `event_accept_https`. -/
def eventAcceptHttps (type : LisType) (serfd epollFd : Fd) : Prog World Unit := do
  let ssl ← sslNew
  let req ← newReqT ⟨0, 0, type, none, some ssl, none⟩
  loop (fun retryTimes => acceptTurn serfd (registerHttps epollFd req retryTimes)) 0

/-- `handle_accept`. -/
def handleAccept (lisInf : LisInf) (epollFd : Fd) (sd : Option Unit) : Prog World Unit :=
  match lisInf.type with
  | .http => eventAcceptHttp .http lisInf.fd epollFd sd
  | .https => eventAcceptHttps .https lisInf.fd epollFd
  | .httpProxy => eventAcceptHttp .httpProxy lisInf.fd epollFd sd
  | .httpsProxy => eventAcceptHttps .httpsProxy lisInf.fd epollFd
  | .tcpProxy => pure ()

/-! ### Input and output loops -/

/-- How a loop over `read` ends. -/
inductive ReadEnd where
  /-- `EAGAIN`: there is no more for now. -/
  | dry
  /-- `read` answered 0. -/
  | closed
  | failed (e : Errno)
  deriving DecidableEq

/-- A turn of the loop that reads into a buffer of `size` bytes, which holds
`buf` so far. -/
def readTurn (clientFd : Fd) (size : Nat) (buf : Bytes) :
    Prog World (Bytes ⊕ (ReadEnd × Bytes)) := do
  match ← call (read clientFd (size - buf.length)) with
  | .error e =>
      if e = .eagain ∨ e = .ewouldblock then pure (Sum.inr (.dry, buf))
      else pure (Sum.inr (.failed e, buf))
  | .ok [] => pure (Sum.inr (.closed, buf))
  | .ok (c :: piece) => pure (Sum.inl (buf ++ c :: piece))

/-- A turn of the loop that writes the first `size` bytes of `buf`, of which
`n` are left.  It ends with the error of a `write` that failed for another
reason than `EAGAIN`. -/
def writeTurn (clientFd : Fd) (buf : Bytes) (size n : Int) :
    Prog World (Int ⊕ Option Errno) := do
  if 0 < n then
    match ← call (write clientFd (buf.drop (size - n).toNat) n) with
    | .error e => if e ≠ .eagain then pure (Sum.inr (some e)) else pure (Sum.inr none)
    | .ok nwrite =>
        if nwrite < n then pure (Sum.inr none)
        else pure (Sum.inl (n - nwrite))
  else pure (Sum.inr none)

/-! ### HTTP -/

/-- `send_buf`. -/
def sendBuf : Bytes :=
  bytes "HTTP/1.1 200 OK\r\nContent-type: text/html\r\nContent-length: 629\r\n" ++
  bytes "Connection: close\r\n\r\n" ++
  (List.replicate 9
    (bytes "qwertyuiopasdfghjklzxcvbnm123456789123456789123456789123456789\n")).flatten ++
  bytes "qwertyuiopasdfghjklzxcvbnm123456789123456789123456789123456789"

/-- `event_http_read`. -/
def eventHttpRead (conn : Addr) (clientFd epollFd : Fd) : Prog World Unit := do
  match ← loop (readTurn clientFd 1024) [] with
  | (.failed e, _) =>
      if e = .econnreset then do
        let req ← reqAt conn
        count req.sd fun sd => { sd with readNum := sd.readNum + 1 }
        handleClose conn
      else pure ()
  | (.closed, _) => handleClose conn
  | (.dry, _) => do
      let req ← reqAt conn
      count req.sd fun sd => { sd with readNum := sd.readNum + 1 }
      let _ ← call (epollCtl epollFd (.mod ⟨outEdge, conn⟩) clientFd)
      pure ()

/-- `event_http_write`. -/
def eventHttpWrite (conn : Addr) (clientFd : Fd) : Prog World Unit := do
  let req ← reqAt conn
  let dataSize : Int := sendBuf.length
  match ← loop (writeTurn clientFd sendBuf dataSize) dataSize with
  | some _ => pure ()
  | none => count req.sd fun sd => { sd with writeNum := sd.writeNum + 1 }

/-- What both proxies do with the upstream: send the first `len` bytes of the
buffer, receive once, and hang up.  It answers `recv_len` and the buffer. -/
def exchange (cliSock : Fd) (buffer : Bytes) (len : Int) : Prog World (Int × Bytes) := do
  let _ ← call (send cliSock buffer len)
  let answer ← call (recv cliSock 4096)
  let _ ← call (close cliSock)
  pure (match answer with
    | .error _ => (-1, [])
    | .ok piece => (piece.length, piece))

/-- `event_http_reverse`. -/
def eventHttpReverse (conn : Addr) (clientFd : Fd) : Prog World Unit := do
  match ← loop (readTurn clientFd 4096) [] with
  | (.failed _, _) => pure ()
  | (.closed, _) => handleClose conn
  | (.dry, buffer) => do
      match ← clientSocket with
      | none => pure ()
      | some cliSock => do
          let (recvLen, buffer) ← exchange cliSock buffer buffer.length
          match ← loop (writeTurn clientFd buffer recvLen) recvLen with
          | some _ => pure ()
          | none => handleClose conn

/-! ### HTTPS -/

/-- `https_response`, formatted with the length. -/
def httpsResponse (readSize : Int) : Bytes :=
  bytes "HTTP/1.1 200 OK\r\nServer: httpd\r\nContent-Length: " ++ bytes (toString readSize) ++
  bytes "\r\nConnection: keep-alive\r\n\r\n"

/-- `SSL_read` into a buffer of `size` bytes: the return value and the
bytes. -/
def sslReadInto (ssl : Option Addr) (size : Nat) : Prog World (Int × Bytes) := do
  let (_, s) ← sslAt ssl
  match s.fd with
  | none => pure (-1, [])
  | some fd =>
      match ← call (sslRead fd size) with
      | .error c => pure (-c, [])
      | .ok piece => pure (piece.length, piece)

/-- `SSL_write` of `len` bytes. -/
def sslWriteFrom (ssl : Option Addr) (buf : Bytes) (len : Int) : Prog World Int := do
  let (_, s) ← sslAt ssl
  match s.fd with
  | none => pure (-1)
  | some fd => call (sslWrite fd buf len)

/-- `handle_https_read_write`. -/
def handleHttpsReadWrite (conn : Addr) : Prog World Unit := do
  let req ← reqAt conn
  let (readSize, buf) ← sslReadInto req.ssl 1024
  let sendBuf := httpsResponse readSize
  let _ ← sslWriteFrom req.ssl sendBuf sendBuf.length
  let _ ← sslWriteFrom req.ssl buf readSize
  pure ()

/-- `event_https_reverse`. -/
def eventHttpsReverse (conn : Addr) : Prog World Unit := do
  let req ← reqAt conn
  let (totalRead, buffer) ← sslReadInto req.ssl 4096
  match ← clientSocket with
  | none => pure ()
  | some cliSock => do
      let (recvLen, buffer) ← exchange cliSock buffer totalRead
      let _ ← sslWriteFrom req.ssl buffer recvLen
      pure ()

/-! ### Dispatch -/

/-- `handle_read`. -/
def handleRead (conn : Addr) : Prog World Unit := do
  let req ← reqAt conn
  match req.type with
  | .http => eventHttpRead conn req.fd req.efd
  | .https => handleHttpsReadWrite conn
  | .httpProxy => eventHttpReverse conn req.fd
  | .httpsProxy => eventHttpsReverse conn
  | .tcpProxy => pure ()

/-- `handle_write`. -/
def handleWrite (conn : Addr) : Prog World Unit := do
  let req ← reqAt conn
  match req.type with
  | .http => do
      eventHttpWrite conn req.fd
      handleClose conn
  | _ => pure ()

/-- One turn of the loop over the events of `server_make`. -/
def serverEvent (lisInfs : List LisInf) (epollFd : Fd) (sd : Option Unit) (ev : EpollEvent) :
    Prog World Unit := do
  let reqData ← reqAt ev.ptr
  if reqData.fd ≤ lisInfs.length then do
    let lisInf ← deref lisInfs[reqData.fd]?
    handleAccept lisInf epollFd sd
  else if ev.events.epollin then handleRead ev.ptr
  else if ev.events.epollout then handleWrite ev.ptr
  else if ev.events.epollhup || ev.events.epollerr then handleClose ev.ptr
  else pure ()

/-- The loop over the listeners in `server_make`, from the `k`-th on; `junk`
is what `malloc` left in the fields that are not set. -/
def serverListen (junk : Nat → ReqT) (epollFd : Fd) : Nat → List LisInf → Prog World Unit
  | _, [] => pure ()
  | k, lisInf :: lisInfs => do
      let firstReq ← newReqT { junk k with fd := k, data := none }
      let _ ← call (epollCtl epollFd (.add ⟨inEdge, firstReq⟩) lisInf.fd)
      serverListen junk epollFd (k + 1) lisInfs

/-- What `server_make` does before its loop: it answers the descriptor of the
epoll set. -/
def serverSetup (junk : Nat → ReqT) (hint : Fd) (lisInfs : List LisInf) : Prog World Fd := do
  let epollFd ← call (epollCreate hint)
  serverListen junk epollFd 0 lisInfs
  pure epollFd

/-! ### Reading the programs -/

section rules

variable {α : Type} {w w' : World} {a : α} {Q : α → World → Prop} {conn : Addr} {r : ReqT}

theorem reqAt_bind_run {k : ReqT → Prog World α} (h : w.reqs.get conn = some r) :
    (reqAt conn >>= k) w = k r w := by
  funext n
  have hr : reqAt conn w n = .ok (r, w) := by
    rw [reqAt, bind_run]
    simp only [load, h]
    rfl
  rw [bind_run, hr]

theorem safe_reqAt_bind {k : ReqT → Prog World α} (h : w.reqs.get conn = some r) :
    Safe (reqAt conn >>= k) w Q ↔ Safe (k r) w Q := safe_congr (reqAt_bind_run h)

theorem returns_reqAt_bind {k : ReqT → Prog World α} (h : w.reqs.get conn = some r) :
    Returns (reqAt conn >>= k) w a w' ↔ Returns (k r) w a w' := returns_congr (reqAt_bind_run h)

theorem returns_sslAt {ssl : Addr} {s : Ssl} (h : w.ssls.get ssl = some s) :
    Returns (sslAt (some ssl)) w (ssl, s) w := by
  rw [sslAt, returns_deref_bind, returns_load_bind, h, returns_deref_bind]
  exact returns_pure.mpr ⟨rfl, rfl⟩

theorem returns_sslAt_bind {k : Addr × Ssl → Prog World α} {ssl : Addr} {s : Ssl}
    (h : w.ssls.get ssl = some s) :
    Returns (sslAt (some ssl) >>= k) w a w' ↔ Returns (k (ssl, s)) w a w' :=
  returns_bind_iff (returns_sslAt h)

theorem returns_sslFree {ssl : Addr} {s : Ssl} (h : w.ssls.get ssl = some s) :
    Returns (sslFree (some ssl)) w () (w.freeSsl ssl) := by
  rw [sslFree, returns_sslAt_bind h]
  exact returns_store.mpr rfl

theorem returns_sslFree_bind {k : Unit → Prog World α} {ssl : Addr} {s : Ssl}
    (h : w.ssls.get ssl = some s) :
    Returns (sslFree (some ssl) >>= k) w a w' ↔ Returns (k ()) (w.freeSsl ssl) a w' :=
  returns_bind_iff (returns_sslFree h)

@[simp] theorem safe_count_bind {k : Unit → Prog World α} {f : ShmData → ShmData} :
    Safe (count (some ()) f >>= k) w Q ↔ Safe (k ()) (w.setShm (f w.shm)) Q := Iff.rfl

@[simp] theorem safe_count {f : ShmData → ShmData} {Q : Unit → World → Prop} :
    Safe (count (some ()) f) w Q ↔ Q () (w.setShm (f w.shm)) := safe_store

@[simp] theorem returns_count_bind {k : Unit → Prog World α} {f : ShmData → ShmData} :
    Returns (count (some ()) f >>= k) w a w' ↔ Returns (k ()) (w.setShm (f w.shm)) a w' := Iff.rfl

@[simp] theorem returns_count {f : ShmData → ShmData} {u : Unit} :
    Returns (count (some ()) f) w u w' ↔ w.setShm (f w.shm) = w' := returns_store

@[simp] theorem freeData_none : freeData none = pure () := rfl

@[simp] theorem closeSsl_none : closeSsl none = pure () := rfl

/-- On an empty list of timers `deleteTimer` does nothing. -/
theorem deleteTimer_bind_run {k : Unit → Prog World α} {t : Option Addr}
    (h : w.timers.heap = none) : (zoom timers setTimers (deleteTimer t) >>= k) w = k () w := by
  funext n
  have hd : deleteTimer t w.timers n = .ok ((), w.timers) := by
    rw [deleteTimer, bind_run]
    simp only [load, h]
    rfl
  have hz : zoom timers setTimers (deleteTimer t) w n = .ok ((), w) := by
    simp only [zoom, hd]
    rfl
  rw [bind_run, hz]

theorem safe_deleteTimer_bind {k : Unit → Prog World α} {t : Option Addr}
    (h : w.timers.heap = none) :
    Safe (zoom timers setTimers (deleteTimer t) >>= k) w Q ↔ Safe (k ()) w Q :=
  safe_congr (deleteTimer_bind_run h)

theorem returns_deleteTimer_bind {k : Unit → Prog World α} {t : Option Addr}
    (h : w.timers.heap = none) :
    Returns (zoom timers setTimers (deleteTimer t) >>= k) w a w' ↔ Returns (k ()) w a w' :=
  returns_congr (deleteTimer_bind_run h)

end rules

end DmfServer
