/-
DmfServer/SslServer.lean

`epoll_ssl_server` of `dm_server.c`: one process that serves TLS clients.

It keeps its sessions in a singly linked list from descriptors to sessions
(`fd_ssl_map`), behind a head node of which only `next` is set: what is in the
other fields of it is what `malloc` left there.  To find the session of an
event it goes through the list from the head (`lookup`), with `pre` one node
behind; `pre` is not initialised either.

The system calls and the TLS sessions are those of `DmfServer.Kernel`.  The
data of an epoll event is a union, and here it holds the descriptor
(`EpollEvent.ptr`).  `EPOLLRDHUP` is not asked for, so only `EPOLLHUP` ends a
connection.
-/
import DmfServer.Events

namespace DmfServer

open Imperative Imperative.Prog Strings World

/-- `fd_ssl_map`. -/
structure FdSslMap where
  fd : Int
  ssl : Option Addr
  next : Option Addr

/-- The process, and the nodes it has allocated. -/
structure SslServer where
  world : World
  nodes : Table FdSslMap

namespace SslServer

@[simps] def setWorld (w : World) (s : SslServer) : SslServer := { s with world := w }

@[simps] def setNode (a : Addr) (node : FdSslMap) (s : SslServer) : SslServer :=
  { s with nodes := s.nodes.set a node }

@[simps] def newNode (node : FdSslMap) (s : SslServer) : SslServer :=
  { s with nodes := s.nodes.push node }

end SslServer

open SslServer

variable {α : Type}

/-- Code that does not touch the nodes. -/
def sys (p : Prog World α) : Prog SslServer α := zoom world setWorld p

/-- `*it`. -/
def fsmAt (it : Option Addr) : Prog SslServer (Addr × FdSslMap) := do
  let it ← deref it
  let node ← deref ((← load nodes).get it)
  pure (it, node)

/-- `it->next = next`. -/
def setFsmNext (it next : Option Addr) : Prog SslServer Unit := do
  let (it, node) ← fsmAt it
  store (setNode it { node with next := next })

/-- `malloc` of a node that is filled with `node`. -/
def newFsm (node : FdSslMap) : Prog SslServer Addr := call fun s => (s.nodes.bound, s.newNode node)

/-- The part of `epoll_ssl_server` about a new client. -/
def sslAcceptClient (serfd efd : Fd) (fsmHead : Addr) : Prog SslServer Unit := do
  match ← sys (call (accept serfd)) with
  | .error _ => pure ()
  | .ok cfd =>
      if 0 < cfd then do
        let ssl ← sys sslNew
        let _ ← sys (call (fcntl cfd))
        let _ ← sys (call (fcntl cfd))
        sys (sslSetFd (some ssl) cfd)
        let (code, _) ← sys (loop (sslAcceptTurn (some ssl)) 0)
        if code ≠ 1 then do
          let _ ← sys (call (close cfd))
          sys (sslFree (some ssl))
        else do
          let _ ← sys (call (epollCtl efd (.add ⟨inEdge, cfd⟩) cfd))
          let per ← newFsm ⟨cfd, some ssl, none⟩
          let (_, head) ← fsmAt (some fsmHead)
          if head.next = none then setFsmNext (some fsmHead) (some per)
          else do
            setFsmNext (some per) head.next
            setFsmNext (some fsmHead) (some per)
      else pure ()

/-- A turn of the search, at `it` and with `pre` behind it. -/
def lookupTurn (fd : Fd) : Option Addr × Addr →
    Prog SslServer ((Option Addr × Addr) ⊕ (Option Addr × Addr))
  | (pre, it) => do
      let (_, node) ← fsmAt (some it)
      match node.next with
      | none => pure (Sum.inr (pre, it))
      | some next =>
          if node.fd = fd then pure (Sum.inr (pre, it))
          else pure (Sum.inl (some it, next))

/-- The search for the node of `fd`: it answers `pre` and `it`. -/
def lookup (fsmHead : Addr) (fd : Fd) : Prog SslServer (Option Addr × Addr) :=
  loop (lookupTurn fd) (none, fsmHead)

/-- The part of `epoll_ssl_server` about a client that has hung up. -/
def sslHangUp (efd fd : Fd) (pre : Option Addr) (it : Addr) : Prog SslServer Unit := do
  let _ ← sys (call (close fd))
  let (_, node) ← fsmAt (some it)
  -- `SSL_shutdown`
  let _ ← sys (sslAt node.ssl)
  sys (sslFree node.ssl)
  if node.next = none then setFsmNext pre none
  let (_, node) ← fsmAt (some it)
  setFsmNext pre node.next
  let _ ← sys (call (epollCtl efd .del fd))
  pure ()

/-- The part of `epoll_ssl_server` about a client that has sent something. -/
def sslEcho (it : Addr) : Prog SslServer Unit := do
  let (_, node) ← fsmAt (some it)
  let (readSize, buf) ← sys (sslReadInto node.ssl 512)
  if readSize ≤ 0 then pure ()
  else do
    let sendBuf := httpsResponse readSize
    let _ ← sys (sslWriteFrom node.ssl sendBuf sendBuf.length)
    let _ ← sys (sslWriteFrom node.ssl buf readSize)
    pure ()

/-- One turn of the loop over the events of `epoll_ssl_server`. -/
def sslServerEvent (serfd efd : Fd) (fsmHead : Addr) (event : EpollEvent) :
    Prog SslServer Unit := do
  if event.ptr = serfd then sslAcceptClient serfd efd fsmHead
  else do
    let (pre, it) ← lookup fsmHead event.ptr
    if event.events.epollhup then sslHangUp efd event.ptr pre it
    else if event.events.epollin then sslEcho it
    else pure ()

/-- What `epoll_ssl_server` does before its loop; `junk` is what `malloc` left in
the head of the list.  It answers the epoll set and the head. -/
def sslServerSetup (junk : FdSslMap) (hint serfd : Fd) : Prog SslServer (Fd × Addr) := do
  let efd ← sys (call (epollCreate hint))
  let _ ← sys (call (epollCtl efd (.add ⟨inEdge, serfd⟩) serfd))
  let fsmHead ← newFsm { junk with next := none }
  pure (efd, fsmHead)

/-! ### Reading the programs -/

section rules

variable {β : Type} {s s' : SslServer} {w' : World} {a : α} {b : β}

theorem returns_sys {p : Prog World α} (h : Returns p s.world a w') :
    Returns (sys p) s a (s.setWorld w') := h.zoom

theorem returns_sys_bind {p : Prog World α} {k : α → Prog SslServer β}
    (h : Returns p s.world a w') :
    Returns (sys p >>= k) s b s' ↔ Returns (k a) (s.setWorld w') b s' :=
  returns_bind_iff (returns_sys h)

theorem returns_sys_call_bind {f : World → α × World} {k : α → Prog SslServer β} :
    Returns (sys (call f) >>= k) s b s' ↔
      Returns (k (f s.world).1) (s.setWorld (f s.world).2) b s' :=
  returns_sys_bind (returns_call.mpr rfl)

theorem ends_sys_bind {p : Prog World α} {k : α → Prog SslServer β} {Q : β → SslServer → Prop}
    (h : Returns p s.world a w') :
    Ends (sys p >>= k) s Q ↔ Ends (k a) (s.setWorld w') Q :=
  ends_bind_iff (returns_sys h)

theorem ends_sys_call_bind {f : World → α × World} {k : α → Prog SslServer β}
    {Q : β → SslServer → Prop} :
    Ends (sys (call f) >>= k) s Q ↔ Ends (k (f s.world).1) (s.setWorld (f s.world).2) Q :=
  ends_sys_bind (returns_call.mpr rfl)

theorem returns_fsmAt {it : Addr} {node : FdSslMap} (h : s.nodes.get it = some node) :
    Returns (fsmAt (some it)) s (it, node) s := by
  rw [fsmAt, returns_deref_bind, returns_load_bind, h, returns_deref_bind]
  exact returns_pure.mpr ⟨rfl, rfl⟩

theorem returns_fsmAt_bind {it : Addr} {node : FdSslMap} {k : Addr × FdSslMap → Prog SslServer β}
    (h : s.nodes.get it = some node) :
    Returns (fsmAt (some it) >>= k) s b s' ↔ Returns (k (it, node)) s b s' :=
  returns_bind_iff (returns_fsmAt h)

theorem returns_setFsmNext {it : Addr} {next : Option Addr} {node : FdSslMap}
    (h : s.nodes.get it = some node) :
    Returns (setFsmNext (some it) next) s () (s.setNode it { node with next := next }) := by
  rw [setFsmNext, returns_fsmAt_bind h]
  exact returns_store.mpr rfl

end rules

end DmfServer
