/-
DmfServer/Stepwise.lean

The handlers of a worker in atomic steps.

The workers share the counters of `shm_data_t` and nothing else.  Between two
steps of a handler another worker can count, so the handlers that count are
written once more, as sequences of steps: a system call is one, a read
through a pointer is one, and so is an update of a counter, which is an
atomic instruction.  A loop that only talks to the network is one step, since
nobody else can see it, but the accept loop is not.

For each handler `denote` is the program of `DmfServer.Events`.
-/
import DmfServer.Events
import DmfServer.Interleave

namespace DmfServer

open Imperative Imperative.Prog Strings World

/-! ### The counters -/

attribute [ext] ShmData

namespace ShmData

instance : Add ShmData where
  add a b := ⟨a.acceptNum + b.acceptNum, a.readNum + b.readNum, a.writeNum + b.writeNum,
    a.closeNum + b.closeNum⟩

instance : Zero ShmData := ⟨⟨0, 0, 0, 0⟩⟩

variable {a b : ShmData}

@[simp] theorem add_acceptNum : (a + b).acceptNum = a.acceptNum + b.acceptNum := rfl

@[simp] theorem add_readNum : (a + b).readNum = a.readNum + b.readNum := rfl

@[simp] theorem add_writeNum : (a + b).writeNum = a.writeNum + b.writeNum := rfl

@[simp] theorem add_closeNum : (a + b).closeNum = a.closeNum + b.closeNum := rfl

@[simp] theorem zero_acceptNum : (0 : ShmData).acceptNum = 0 := rfl

@[simp] theorem zero_readNum : (0 : ShmData).readNum = 0 := rfl

@[simp] theorem zero_writeNum : (0 : ShmData).writeNum = 0 := rfl

@[simp] theorem zero_closeNum : (0 : ShmData).closeNum = 0 := rfl

instance : AddCancelCommMonoid ShmData where
  add_assoc a b c := by ext <;> exact Nat.add_assoc _ _ _
  zero_add a := by ext <;> exact Nat.zero_add _
  add_zero _ := rfl
  add_comm a b := by ext <;> exact Nat.add_comm _ _
  add_left_cancel a b c h := by
    have hf : ∀ f : ShmData → Nat, f (a + b) = f (a + c) := fun f => congrArg f h
    ext
    · exact Nat.add_left_cancel (hf acceptNum)
    · exact Nat.add_left_cancel (hf readNum)
    · exact Nat.add_left_cancel (hf writeNum)
    · exact Nat.add_left_cancel (hf closeNum)
  nsmul := nsmulRec

end ShmData

/-- What the workers share. -/
instance : Shared ShmData World where
  get := shm
  put := setShm
  get_put _ _ := rfl
  put_get _ := rfl
  put_put _ _ _ := rfl

/-! ### Steps are transparent -/

section transparent

variable {α : Type}

instance : Transparent (load World.reqs) := .load fun _ _ => rfl

instance : Transparent (load World.ssls) := .load fun _ _ => rfl

instance (conn : Addr) : Transparent (reqAt conn) := by
  unfold reqAt
  infer_instance

instance (ssl : Option Addr) : Transparent (sslAt ssl) := by
  unfold sslAt
  infer_instance

instance (r : ReqT) : Transparent (newReqT r) := .call fun _ _ => rfl

instance : Transparent sslNew := .call fun _ _ => rfl

instance (conn : Addr) : Transparent (store (freeReq conn)) := .store fun _ _ => rfl

instance (conn : Addr) (r : ReqT) : Transparent (store (setReq conn r)) := .store fun _ _ => rfl

instance (ssl : Addr) : Transparent (store (freeSsl ssl)) := .store fun _ _ => rfl

instance (ssl : Addr) (s : Ssl) : Transparent (store (setSsl ssl s)) := .store fun _ _ => rfl

/-- A counter goes up. -/
theorem count_transparent {sd : Option Unit} {f : ShmData → ShmData}
    (hf : ∀ d s, f (s + d) = f s + d) : Transparent (count sd f) := by
  have hstore : Transparent (store fun w : World => w.setShm (f w.shm)) :=
    .store fun d w => congrArg (fun sd => w.setShm sd) (hf d w.shm)
  unfold count
  infer_instance

section counters

variable {sd : Option Unit}

instance : Transparent (count sd fun sd => { sd with acceptNum := sd.acceptNum + 1 }) :=
  count_transparent fun _ _ => by ext <;> simp [Nat.add_right_comm]

instance : Transparent (count sd fun sd => { sd with readNum := sd.readNum + 1 }) :=
  count_transparent fun _ _ => by ext <;> simp [Nat.add_right_comm]

instance : Transparent (count sd fun sd => { sd with writeNum := sd.writeNum + 1 }) :=
  count_transparent fun _ _ => by ext <;> simp [Nat.add_right_comm]

instance : Transparent (count sd fun sd => { sd with closeNum := sd.closeNum + 1 }) :=
  count_transparent fun _ _ => by ext <;> simp [Nat.add_right_comm]

end counters

/-- A call on a file. -/
theorem onFile_shift {bad : α} {call : File → α × File} {fd : Fd} {d : ShmData} {w : World} :
    onFile bad call fd (shift d w) = Prod.map id (shift d) (onFile bad call fd w) := by
  have hfile : (shift d w).fileAt fd = w.fileAt fd := rfl
  rw [onFile, onFile, hfile]
  rcases w.fileAt fd with - | ⟨i, f⟩ <;> rfl

instance (fd : Fd) (count : Nat) : Transparent (call (World.read fd count)) :=
  .call fun _ _ => onFile_shift

instance (fd : Fd) (count : Nat) : Transparent (call (World.recv fd count)) :=
  .call fun _ _ => onFile_shift

instance (fd : Fd) (buf : Bytes) (len : Int) : Transparent (call (World.write fd buf len)) :=
  .call fun _ _ => onFile_shift

instance (fd : Fd) (buf : Bytes) (len : Int) : Transparent (call (World.send fd buf len)) :=
  .call fun _ _ => onFile_shift

instance (fd : Fd) : Transparent (call (World.fcntl fd)) := .call fun _ _ => onFile_shift

instance (fd : Fd) : Transparent (call (World.connect fd)) := .call fun _ _ => onFile_shift

instance (fd : Fd) : Transparent (call (World.shake fd)) := .call fun _ _ => onFile_shift

instance (fd : Fd) (count : Nat) : Transparent (call (World.sslRead fd count)) :=
  .call fun _ _ => onFile_shift

instance (fd : Fd) (buf : Bytes) (len : Int) : Transparent (call (World.sslWrite fd buf len)) :=
  .call fun _ _ => onFile_shift

instance (efd : Fd) (op : EpollOp) (fd : Fd) : Transparent (call (epollCtl efd op fd)) := by
  refine .call fun d w => ?_
  rw [epollCtl, epollCtl, ctlCall, onFile_shift]
  rcases onFile none (fun f => (some (f.ctl.headD true), { f with ctl := f.ctl.tail })) fd w
    with ⟨_ | granted, w₁⟩
  · rfl
  · by_cases he : efd ≠ w₁.epfd
    · have he' : efd ≠ (shift d w₁).epfd := he
      simp only [Prod.map, id, if_pos he, if_pos he']
    · have he' : ¬ efd ≠ (shift d w₁).epfd := he
      have hi : (shift d w₁).interest = w₁.interest := rfl
      simp only [Prod.map, id, if_neg he, if_neg he', hi]
      cases granted
      · rfl
      · rcases op with ev | ev | - <;> rcases w₁.interest.get fd with - | reg <;> rfl

instance (fd : Fd) : Transparent (call (World.close fd)) := by
  refine .call fun d w => ?_
  have hfds : (shift d w).fds = w.fds := rfl
  rw [World.close, World.close, hfds]
  rcases w.fds.get fd with - | i <;> rfl

instance (serfd : Fd) : Transparent (call (World.accept serfd)) := by
  refine .call fun d w => ?_
  have hback : (shift d w).backlog = w.backlog := rfl
  rw [World.accept, World.accept, hback]
  rcases w.backlog serfd with - | ⟨e | ⟨hint, ans⟩, q⟩ <;> rfl

instance : Transparent (call World.socket) := by
  refine .call fun d w => ?_
  have hsock : (shift d w).sockets = w.sockets := rfl
  rw [World.socket, World.socket, hsock]
  rcases w.sockets with - | ⟨e | ⟨hint, ans⟩, q⟩ <;> rfl

/-! ### The parts of the handlers that do not count -/

instance (fd : Fd) : Transparent (setNonBlocking fd) := by
  unfold setNonBlocking
  infer_instance

instance : Transparent clientSocket := by
  unfold clientSocket
  refine .seq inferInstance fun r => ?_
  cases r <;> infer_instance

instance (fd : Fd) (size : Nat) (buf : Bytes) : Transparent (readTurn fd size buf) := by
  unfold readTurn
  refine .seq inferInstance fun r => ?_
  rcases r with e | _ | ⟨c, piece⟩ <;> infer_instance

instance (fd : Fd) (buf : Bytes) (size n : Int) : Transparent (writeTurn fd buf size n) := by
  unfold writeTurn
  refine @Transparent.ite _ _ _ _ _ _ _ _ _ ?_ inferInstance
  refine .seq inferInstance fun r => ?_
  cases r <;> infer_instance

instance (cliSock : Fd) (buffer : Bytes) (len : Int) :
    Transparent (exchange cliSock buffer len) := by
  unfold exchange
  infer_instance

instance (t : Option Addr) : Transparent (zoom timers setTimers (deleteTimer t)) :=
  .zoom (fun _ _ => rfl) fun _ _ _ => rfl

instance (data : Option Addr) : Transparent (freeData data) := by
  cases data <;> unfold freeData <;> infer_instance

instance (ssl : Option Addr) : Transparent (sslFree ssl) := by
  unfold sslFree
  infer_instance

instance (ssl : Option Addr) : Transparent (closeSsl ssl) := by
  cases ssl <;> unfold closeSsl <;> infer_instance

instance (ssl : Option Addr) (fd : Fd) : Transparent (sslSetFd ssl fd) := by
  unfold sslSetFd
  infer_instance

instance (ssl : Option Addr) : Transparent (sslAccept ssl) := by
  unfold sslAccept
  apply Transparent.seq inferInstance
  rintro ⟨ssl, s⟩
  refine @Transparent.ite _ _ _ _ _ _ _ _ _ inferInstance ?_
  cases s.fd <;> infer_instance

instance (ssl : Option Addr) (retryTimes : Nat) : Transparent (sslAcceptTurn ssl retryTimes) := by
  unfold sslAcceptTurn
  infer_instance

instance (ssl : Option Addr) (size : Nat) : Transparent (sslReadInto ssl size) := by
  unfold sslReadInto
  apply Transparent.seq inferInstance
  rintro ⟨ssl, s⟩
  dsimp only
  cases s.fd
  · infer_instance
  · refine .seq inferInstance fun r => ?_
    cases r <;> infer_instance

instance (ssl : Option Addr) (buf : Bytes) (len : Int) :
    Transparent (sslWriteFrom ssl buf len) := by
  unfold sslWriteFrom
  apply Transparent.seq inferInstance
  rintro ⟨ssl, s⟩
  dsimp only
  cases s.fd <;> infer_instance

instance (conn : Addr) : Transparent (handleHttpsReadWrite conn) := by
  unfold handleHttpsReadWrite
  infer_instance

instance (conn : Addr) : Transparent (eventHttpsReverse conn) := by
  unfold eventHttpsReverse
  refine .seq inferInstance fun req => ?_
  apply Transparent.seq inferInstance
  rintro ⟨totalRead, buffer⟩
  refine .seq inferInstance fun sock => ?_
  cases sock <;> infer_instance

instance (type : LisType) (serfd epollFd : Fd) :
    Transparent (eventAcceptHttps type serfd epollFd) := by
  have hregister : ∀ req retryTimes clifd,
      Transparent (registerHttps epollFd req retryTimes clifd) := by
    intro req retryTimes clifd
    unfold registerHttps
    refine .seq inferInstance fun r => .seq inferInstance fun _ => .seq inferInstance fun r' => ?_
    apply Transparent.seq inferInstance
    rintro ⟨code, retryTimes⟩
    infer_instance
  have hturn : ∀ req retryTimes,
      Transparent (DmfServer.acceptTurn serfd (registerHttps epollFd req retryTimes)) := by
    intro req retryTimes
    unfold DmfServer.acceptTurn
    refine .seq inferInstance fun r => ?_
    cases r <;> infer_instance
  unfold eventAcceptHttps
  infer_instance

end transparent

/-! ### The handlers that count -/

namespace Stepwise

open Code

/-- `handle_close`. -/
def handleClose (conn : Addr) : Code World Unit := do
  let req ← atom (reqAt conn)
  let _ ← atom (call (epollCtl req.efd .del req.fd))
  let _ ← atom (call (close req.fd))
  atom (count req.sd fun sd => { sd with closeNum := sd.closeNum + 1 })
  atom (zoom timers setTimers (deleteTimer (some conn)))
  atom (freeData req.data)
  atom (closeSsl req.ssl)
  atom (store (freeReq conn))

/-- A turn of the accept loop. -/
def acceptTurn {β : Type} (serfd : Fd) (register : Fd → Code World (β ⊕ Unit)) :
    Code World (β ⊕ Unit) := do
  match ← atom (call (accept serfd)) with
  | .error _ => pure (Sum.inr ())
  | .ok clifd =>
      if 0 < clifd then
        if ← atom (setNonBlocking clifd) then register clifd
        else pure (Sum.inr ())
      else pure (Sum.inr ())

/-- The part of `event_accept_http` about one client. -/
def registerHttp (type : LisType) (epollFd : Fd) (sd : Option Unit) (clifd : Fd) :
    Code World (Unit ⊕ Unit) := do
  let req ← atom (newReqT ⟨clifd, epollFd, type, none, none, sd⟩)
  atom (count sd fun sd => { sd with acceptNum := sd.acceptNum + 1 })
  match ← atom (call (epollCtl epollFd (.add ⟨inEdge, req⟩) clifd)) with
  | .error _ => do
      let _ ← atom (call (close clifd))
      pure (Sum.inl ())
  | .ok _ => pure (Sum.inl ())

/-- `event_accept_http`. -/
def eventAcceptHttp (type : LisType) (serfd epollFd : Fd) (sd : Option Unit) : Code World Unit :=
  cycle (fun _ => acceptTurn serfd (registerHttp type epollFd sd)) ()

/-- `handle_accept`. -/
def handleAccept (lisInf : LisInf) (epollFd : Fd) (sd : Option Unit) : Code World Unit :=
  match lisInf.type with
  | .http => eventAcceptHttp .http lisInf.fd epollFd sd
  | .https => atom (eventAcceptHttps .https lisInf.fd epollFd)
  | .httpProxy => eventAcceptHttp .httpProxy lisInf.fd epollFd sd
  | .httpsProxy => atom (eventAcceptHttps .httpsProxy lisInf.fd epollFd)
  | .tcpProxy => pure ()

/-- `event_http_read`. -/
def eventHttpRead (conn : Addr) (clientFd epollFd : Fd) : Code World Unit := do
  match ← atom (loop (readTurn clientFd 1024) []) with
  | (.failed e, _) =>
      if e = .econnreset then do
        let req ← atom (reqAt conn)
        atom (count req.sd fun sd => { sd with readNum := sd.readNum + 1 })
        handleClose conn
      else pure ()
  | (.closed, _) => handleClose conn
  | (.dry, _) => do
      let req ← atom (reqAt conn)
      atom (count req.sd fun sd => { sd with readNum := sd.readNum + 1 })
      let _ ← atom (call (epollCtl epollFd (.mod ⟨outEdge, conn⟩) clientFd))
      pure ()

/-- `event_http_write`. -/
def eventHttpWrite (conn : Addr) (clientFd : Fd) : Code World Unit := do
  let req ← atom (reqAt conn)
  let dataSize : Int := sendBuf.length
  match ← atom (loop (writeTurn clientFd sendBuf dataSize) dataSize) with
  | some _ => pure ()
  | none => atom (count req.sd fun sd => { sd with writeNum := sd.writeNum + 1 })

/-- `event_http_reverse`. -/
def eventHttpReverse (conn : Addr) (clientFd : Fd) : Code World Unit := do
  match ← atom (loop (readTurn clientFd 4096) []) with
  | (.failed _, _) => pure ()
  | (.closed, _) => handleClose conn
  | (.dry, buffer) => do
      match ← atom clientSocket with
      | none => pure ()
      | some cliSock => do
          let (recvLen, buffer) ← atom (exchange cliSock buffer buffer.length)
          match ← atom (loop (writeTurn clientFd buffer recvLen) recvLen) with
          | some _ => pure ()
          | none => handleClose conn

/-- `handle_read`. -/
def handleRead (conn : Addr) : Code World Unit := do
  let req ← atom (reqAt conn)
  match req.type with
  | .http => eventHttpRead conn req.fd req.efd
  | .https => atom (handleHttpsReadWrite conn)
  | .httpProxy => eventHttpReverse conn req.fd
  | .httpsProxy => atom (eventHttpsReverse conn)
  | .tcpProxy => pure ()

/-- `handle_write`. -/
def handleWrite (conn : Addr) : Code World Unit := do
  let req ← atom (reqAt conn)
  match req.type with
  | .http => do
      eventHttpWrite conn req.fd
      handleClose conn
  | _ => pure ()

/-- One turn of the loop over the events of `server_make`. -/
def serverEvent (lisInfs : List LisInf) (epollFd : Fd) (sd : Option Unit) (ev : EpollEvent) :
    Code World Unit := do
  let reqData ← atom (reqAt ev.ptr)
  if reqData.fd ≤ lisInfs.length then do
    let lisInf ← atom (deref lisInfs[reqData.fd]?)
    handleAccept lisInf epollFd sd
  else if ev.events.epollin then handleRead ev.ptr
  else if ev.events.epollout then handleWrite ev.ptr
  else if ev.events.epollhup || ev.events.epollerr then handleClose ev.ptr
  else pure ()

/-! ### Without the cuts -/

/-- Two sequences are compared answer by answer. -/
theorem bind_congr {α β : Type} {p : Prog World α} {k k' : α → Prog World β}
    (h : ∀ a, k a = k' a) : p >>= k = p >>= k' := congrArg (p >>= ·) (funext h)

theorem handleClose_denote (conn : Addr) :
    (handleClose conn).denote = DmfServer.handleClose conn := by
  simp only [handleClose, DmfServer.handleClose, denote_bind, denote_atom]

theorem registerHttp_denote (type : LisType) (epollFd : Fd) (sd : Option Unit) (clifd : Fd) :
    (registerHttp type epollFd sd clifd).denote =
      DmfServer.registerHttp type epollFd sd clifd := by
  simp only [registerHttp, DmfServer.registerHttp, denote_bind, denote_atom]
  refine bind_congr fun req => bind_congr fun _ => bind_congr fun r => ?_
  rcases r with e | u
  · simp only [denote_bind, denote_atom, denote_pure]
  · rfl

theorem eventAcceptHttp_denote (type : LisType) (serfd epollFd : Fd) (sd : Option Unit) :
    (eventAcceptHttp type serfd epollFd sd).denote =
      DmfServer.eventAcceptHttp type serfd epollFd sd := by
  rw [eventAcceptHttp, DmfServer.eventAcceptHttp, denote_cycle]
  congr
  funext u
  simp only [acceptTurn, DmfServer.acceptTurn, denote_bind, denote_atom]
  refine bind_congr fun r => ?_
  rcases r with e | clifd
  · rfl
  · dsimp only
    split_ifs
    · rw [denote_bind, denote_atom]
      refine bind_congr fun ok => ?_
      split_ifs
      · exact registerHttp_denote type epollFd sd clifd
      · rfl
    · rfl

theorem handleAccept_denote (lisInf : LisInf) (epollFd : Fd) (sd : Option Unit) :
    (handleAccept lisInf epollFd sd).denote = DmfServer.handleAccept lisInf epollFd sd := by
  rw [handleAccept, DmfServer.handleAccept]
  cases lisInf.type
  · exact eventAcceptHttp_denote _ _ _ _
  · exact denote_atom _
  · exact eventAcceptHttp_denote _ _ _ _
  · exact denote_atom _
  · rfl

theorem eventHttpRead_denote (conn : Addr) (clientFd epollFd : Fd) :
    (eventHttpRead conn clientFd epollFd).denote =
      DmfServer.eventHttpRead conn clientFd epollFd := by
  simp only [eventHttpRead, DmfServer.eventHttpRead, denote_bind, denote_atom]
  apply bind_congr
  rintro ⟨outcome, buf⟩
  rcases outcome with - | - | e
  · simp only [denote_bind, denote_atom, denote_pure]
  · exact handleClose_denote conn
  · dsimp only
    split_ifs
    · simp only [denote_bind, denote_atom, handleClose_denote]
    · rfl

theorem eventHttpWrite_denote (conn : Addr) (clientFd : Fd) :
    (eventHttpWrite conn clientFd).denote = DmfServer.eventHttpWrite conn clientFd := by
  simp only [eventHttpWrite, DmfServer.eventHttpWrite, denote_bind, denote_atom]
  refine bind_congr fun req => bind_congr fun r => ?_
  rcases r with - | e
  · exact denote_atom _
  · rfl

theorem eventHttpReverse_denote (conn : Addr) (clientFd : Fd) :
    (eventHttpReverse conn clientFd).denote = DmfServer.eventHttpReverse conn clientFd := by
  simp only [eventHttpReverse, DmfServer.eventHttpReverse, denote_bind, denote_atom]
  apply bind_congr
  rintro ⟨outcome, buf⟩
  rcases outcome with - | - | e
  · simp only [denote_bind, denote_atom]
    refine bind_congr fun sock => ?_
    rcases sock with - | cliSock
    · rfl
    · simp only [denote_bind, denote_atom]
      apply bind_congr
      rintro ⟨recvLen, buffer⟩
      apply bind_congr
      intro r
      rcases r with - | e
      · exact handleClose_denote conn
      · rfl
  · exact handleClose_denote conn
  · rfl

theorem handleRead_denote (conn : Addr) : (handleRead conn).denote = DmfServer.handleRead conn := by
  rw [handleRead, DmfServer.handleRead, denote_bind, denote_atom]
  refine bind_congr fun req => ?_
  cases req.type
  · exact eventHttpRead_denote _ _ _
  · exact denote_atom _
  · exact eventHttpReverse_denote _ _
  · exact denote_atom _
  · rfl

theorem handleWrite_denote (conn : Addr) :
    (handleWrite conn).denote = DmfServer.handleWrite conn := by
  rw [handleWrite, DmfServer.handleWrite, denote_bind, denote_atom]
  refine bind_congr fun req => ?_
  cases req.type
  · simp only [denote_bind, eventHttpWrite_denote, handleClose_denote]
  all_goals rfl

/-- **The cuts change nothing** for a worker that is alone. -/
theorem serverEvent_denote (lisInfs : List LisInf) (epollFd : Fd) (sd : Option Unit)
    (ev : EpollEvent) :
    (serverEvent lisInfs epollFd sd ev).denote = DmfServer.serverEvent lisInfs epollFd sd ev := by
  rw [serverEvent, DmfServer.serverEvent, denote_bind, denote_atom]
  refine bind_congr fun reqData => ?_
  split_ifs
  · rw [denote_bind, denote_atom]
    exact bind_congr fun lisInf => handleAccept_denote lisInf epollFd sd
  · exact handleRead_denote ev.ptr
  · exact handleWrite_denote ev.ptr
  · exact handleClose_denote ev.ptr
  · rfl

end Stepwise

end DmfServer
