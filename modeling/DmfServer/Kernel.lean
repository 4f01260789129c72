/-
DmfServer/Kernel.lean

What a worker runs on: descriptors, open files, the epoll set, the heap, the
OpenSSL objects, the timer list and the shared counters.

The environment is a script.  Every open file carries what the system calls
on it will answer, one list for each kind of call and one entry for a call
(`Answers`); a listening descriptor carries the connections pending on it
and the errors `accept` meets between them (`backlog`).  A list that is used
up answers as a file on which nothing happens: there is nothing to read, and
all else succeeds.  So a statement about all worlds is one about all answers.

The kernel itself decides what the script cannot: a call on a descriptor
that is not open is `EBADF`, a new descriptor is a free one not below `low`,
`epoll_ctl` needs the descriptor to be registered or not to be, `close` ends
a registration, and `read` and `write` move no more bytes than asked for.

`malloc` and `SSL_new` succeed, and an address is not given out twice, so
that a pointer to released memory never points to anything else; using one
is a fault.  What is printed is left out.

`File.sent`, `File.writes`, `File.via`, `closes` and `accepts` record what
happened.
-/
import DmfServer.Table
import DmfServer.Timer
import DmfServer.Strings

namespace DmfServer

open Imperative Imperative.Prog Strings

abbrev Fd : Type := Nat

/-- An open file description, of which a descriptor is the number. -/
abbrev FileId : Type := Nat

/-- A heap address. -/
abbrev Addr : Type := Nat

/-- The error numbers that the source or the kernel of the model tells
apart. -/
inductive Errno where
  | eagain
  | eintr
  | econnaborted
  | econnreset
  | epipe
  | ebadf
  | eexist
  | enoent
  | other (n : Nat)
  deriving DecidableEq

/-- On Linux the same number. -/
abbrev Errno.ewouldblock : Errno := .eagain

/-! ### Files -/

/-- The outcome of a call of `SSL_accept`. -/
inductive Shake where
  | done
  | wantRead
  | failed
  deriving DecidableEq

/-- The return code of `SSL_accept`. -/
def Shake.code : Shake → Int
  | .done => 1
  | .wantRead => -1
  | .failed => -1

/-- What calls on a file will answer. -/
structure Answers where
  /-- `fcntl` succeeds. -/
  fcntl : List Bool
  /-- `epoll_ctl` is granted its resources. -/
  ctl : List Bool
  /-- `connect` succeeds. -/
  connect : List Bool
  /-- The input of `read` and `recv`; an empty piece is the end of it. -/
  read : List (Except Errno Bytes)
  /-- `write` and `send` take at most so much. -/
  write : List (Except Errno Nat)
  handshake : List Shake
  /-- `SSL_read` gives a piece, or the negative of a number. -/
  sslRead : List (Except Nat Bytes)
  /-- `SSL_write` succeeds. -/
  sslWrite : List Bool

/-- An open file. -/
structure File extends Answers where
  /-- The listening descriptor it was accepted on. -/
  via : Option Fd
  /-- What was written to it. -/
  sent : Bytes
  /-- The calls of `write` and `send` on it. -/
  writes : Nat

/-- A file nothing has happened to yet. -/
def Answers.file (ans : Answers) (via : Option Fd) : File :=
  { ans with via, sent := [], writes := 0 }

namespace File

/-- `read` and `recv` of at most `count` bytes; `dry` is the answer when the
input is used up.  What does not fit stays. -/
def receive (count : Nat) (dry : Except Errno Bytes) (f : File) : Except Errno Bytes × File :=
  if count = 0 then (.ok [], f)
  else match f.read.headD dry with
    | .error e => (.error e, { f with read := f.read.tail })
    | .ok piece =>
        if piece.length ≤ count then (.ok piece, { f with read := f.read.tail })
        else (.ok (piece.take count), { f with read := .ok (piece.drop count) :: f.read.tail })

/-- `write` and `send` of `len` bytes from the front of `buf`. -/
def transmit (buf : Bytes) (len : Int) (dry : Except Errno Nat) (f : File) :
    Except Errno Nat × File :=
  if len < 0 then (.error (.other 0), { f with writes := f.writes + 1 })
  else match f.write.headD dry with
    | .error e => (.error e, { f with write := f.write.tail, writes := f.writes + 1 })
    | .ok k =>
        let n := min k len.toNat
        (.ok n, { f with
          write := f.write.tail, writes := f.writes + 1, sent := f.sent ++ buf.take n })

end File

/-! ### Events -/

/-- The event bits. -/
structure EpollEvents where
  epollin : Bool
  epollout : Bool
  epollet : Bool
  epollhup : Bool
  epollerr : Bool
  deriving DecidableEq

/-- `struct epoll_event`, with a pointer as the data. -/
structure EpollEvent where
  events : EpollEvents
  ptr : Addr

/-- `EPOLLIN | EPOLLET`. -/
def inEdge : EpollEvents := ⟨true, false, true, false, false⟩

/-- `EPOLLOUT | EPOLLET`. -/
def outEdge : EpollEvents := ⟨false, true, true, false, false⟩

inductive EpollOp where
  | add (ev : EpollEvent)
  | mod (ev : EpollEvent)
  | del

/-! ### The data of the server -/

/-- `lis_type_t`. -/
inductive LisType where
  | http
  | https
  | httpProxy
  | httpsProxy
  | tcpProxy
  deriving DecidableEq

/-- `lis_inf_t`. -/
structure LisInf where
  fd : Fd
  type : LisType

/-- `req_t`.  `sd` is the pointer to the shared counters; the node
`timer_event` has the address of the object. -/
structure ReqT where
  fd : Fd
  efd : Fd
  type : LisType
  data : Option Addr
  ssl : Option Addr
  sd : Option Unit

/-- An OpenSSL session object: the descriptor it is attached to, and whether
its handshake is finished. -/
structure Ssl where
  fd : Option Fd
  finished : Bool

/-- The counters of `shm_data_t`. -/
structure ShmData where
  acceptNum : Nat
  readNum : Nat
  writeNum : Nat
  closeNum : Nat

/-- The state of a worker and of what it runs on. -/
structure World where
  fds : Table FileId
  files : Table File
  /-- The kernel gives out no descriptor below this one. -/
  low : Fd
  /-- The descriptor of the epoll set. -/
  epfd : Fd
  interest : Table EpollEvent
  reqs : Table ReqT
  ssls : Table Ssl
  timers : Timers Addr Unit
  shm : ShmData
  /-- What `accept` will answer: a connection, and the descriptor it gets if
  that is free, or an error. -/
  backlog : Fd → List (Except Errno (Fd × Answers))
  /-- What `socket` will answer. -/
  sockets : List (Except Errno (Fd × Answers))
  /-- For each call of `close` the file it closed. -/
  closes : List (Option FileId)
  /-- For each call of `accept` the descriptor it was on and the answer. -/
  accepts : List (Fd × Except Errno Fd)

namespace World

/-! ### Updates -/

@[simps] def setFile (i : FileId) (f : File) (w : World) : World :=
  { w with files := w.files.set i f }

@[simps] def register (fd : Fd) (ev : EpollEvent) (w : World) : World :=
  { w with interest := w.interest.set fd ev }

@[simps] def unregister (fd : Fd) (w : World) : World :=
  { w with interest := w.interest.erase fd }

/-- A new file, under the descriptor `fd`. -/
@[simps] def openFile (fd : Fd) (f : File) (w : World) : World :=
  { w with fds := w.fds.set fd w.files.bound, files := w.files.push f }

/-- Give up the descriptor `fd`, and its registration. -/
@[simps] def closeFd (fd : Fd) (w : World) : World :=
  { w with
    fds := w.fds.erase fd, interest := w.interest.erase fd
    closes := w.closes ++ [w.fds.get fd] }

@[simps] def setReq (a : Addr) (r : ReqT) (w : World) : World :=
  { w with reqs := w.reqs.set a r }

@[simps] def newReq (r : ReqT) (w : World) : World := { w with reqs := w.reqs.push r }

@[simps] def freeReq (a : Addr) (w : World) : World := { w with reqs := w.reqs.erase a }

@[simps] def setSsl (a : Addr) (s : Ssl) (w : World) : World :=
  { w with ssls := w.ssls.set a s }

@[simps] def newSsl (s : Ssl) (w : World) : World := { w with ssls := w.ssls.push s }

@[simps] def freeSsl (a : Addr) (w : World) : World := { w with ssls := w.ssls.erase a }

@[simps] def setTimers (t : Timers Addr Unit) (w : World) : World := { w with timers := t }

@[simps] def setShm (sd : ShmData) (w : World) : World := { w with shm := sd }

@[simps] def setSockets (q : List (Except Errno (Fd × Answers))) (w : World) : World :=
  { w with sockets := q }

/-- `accept` on `serfd` has answered `r`, and `q` is what is left. -/
@[simps] def popBacklog (serfd : Fd) (r : Except Errno Fd)
    (q : List (Except Errno (Fd × Answers))) (w : World) : World :=
  { w with
    backlog := Function.update w.backlog serfd q
    accepts := w.accepts ++ [(serfd, r)] }

/-- The epoll set is a new one, behind `fd`. -/
@[simps] def newEpoll (fd : Fd) (w : World) : World :=
  { w with epfd := fd, interest := Table.empty }

/-! ### System calls -/

/-- The file behind a descriptor. -/
def fileAt (w : World) (fd : Fd) : Option (FileId × File) :=
  (w.fds.get fd).bind fun i => (w.files.get i).map fun f => (i, f)

/-- A call on the file behind `fd`, which answers `bad` when there is none. -/
def onFile {α : Type} (bad : α) (call : File → α × File) (fd : Fd) (w : World) : α × World :=
  match w.fileAt fd with
  | none => (bad, w)
  | some (i, f) => ((call f).1, w.setFile i (call f).2)

section onFile

variable {α : Type} {bad : α} {call : File → α × File} {fd : Fd} {w : World}

theorem fileAt_eq_some {i : FileId} {f : File} :
    w.fileAt fd = some (i, f) ↔ w.fds.get fd = some i ∧ w.files.get i = some f := by
  rw [fileAt]
  rcases w.fds.get fd with - | j
  · simp
  · rcases hj : w.files.get j with - | g
    · simp only [Option.bind_some, hj, Option.map_none, reduceCtorEq, false_iff, not_and]
      rintro h
      rw [← Option.some.inj h, hj]
      simp
    · simp only [Option.bind_some, hj, Option.map_some, Option.some.injEq, Prod.mk.injEq]
      refine and_congr_right fun h => ?_
      rw [← h, hj, Option.some.injEq]

/-- A call on a file does nothing, or it replaces the file. -/
theorem onFile_cases (bad : α) (call : File → α × File) (fd : Fd) (w : World) :
    onFile bad call fd w = (bad, w) ∨
    ∃ i f, w.fds.get fd = some i ∧ w.files.get i = some f ∧
      onFile bad call fd w = ((call f).1, w.setFile i (call f).2) := by
  rw [onFile]
  rcases h : w.fileAt fd with - | ⟨i, f⟩
  · exact .inl rfl
  · obtain ⟨hi, hf⟩ := fileAt_eq_some.mp h
    exact .inr ⟨i, f, hi, hf, rfl⟩

theorem onFile_eq {i : FileId} {f : File} (h : w.fileAt fd = some (i, f)) :
    onFile bad call fd w = ((call f).1, w.setFile i (call f).2) := by
  rw [onFile, h]

@[simp] theorem onFile_fds : (onFile bad call fd w).2.fds = w.fds := by
  rcases onFile_cases bad call fd w with h | ⟨i, f, -, -, h⟩ <;> simp [h]

@[simp] theorem onFile_interest : (onFile bad call fd w).2.interest = w.interest := by
  rcases onFile_cases bad call fd w with h | ⟨i, f, -, -, h⟩ <;> simp [h]

@[simp] theorem onFile_reqs : (onFile bad call fd w).2.reqs = w.reqs := by
  rcases onFile_cases bad call fd w with h | ⟨i, f, -, -, h⟩ <;> simp [h]

@[simp] theorem onFile_ssls : (onFile bad call fd w).2.ssls = w.ssls := by
  rcases onFile_cases bad call fd w with h | ⟨i, f, -, -, h⟩ <;> simp [h]

@[simp] theorem onFile_timers : (onFile bad call fd w).2.timers = w.timers := by
  rcases onFile_cases bad call fd w with h | ⟨i, f, -, -, h⟩ <;> simp [h]

@[simp] theorem onFile_epfd : (onFile bad call fd w).2.epfd = w.epfd := by
  rcases onFile_cases bad call fd w with h | ⟨i, f, -, -, h⟩ <;> simp [h]

end onFile

/-- `read`. -/
def read (fd : Fd) (count : Nat) : World → Except Errno Bytes × World :=
  onFile (.error .ebadf) (File.receive count (.error .eagain)) fd

/-- `recv`, on a blocking socket: it does not end before the peer does. -/
def recv (fd : Fd) (count : Nat) : World → Except Errno Bytes × World :=
  onFile (.error .ebadf) (File.receive count (.ok [])) fd

/-- `write`, of `len` bytes from the front of `buf`. -/
def write (fd : Fd) (buf : Bytes) (len : Int) : World → Except Errno Nat × World :=
  onFile (.error .ebadf) (File.transmit buf len (.error .eagain)) fd

/-- `send`, on a blocking socket. -/
def send (fd : Fd) (buf : Bytes) (len : Int) : World → Except Errno Nat × World :=
  onFile (.error .ebadf) (File.transmit buf len (.ok len.toNat)) fd

/-- `fcntl`, with `F_GETFL` or `F_SETFL`. -/
def fcntl (fd : Fd) : World → Bool × World :=
  onFile false (fun f => (f.fcntl.headD true, { f with fcntl := f.fcntl.tail })) fd

/-- `connect`. -/
def connect (fd : Fd) : World → Bool × World :=
  onFile false (fun f => (f.connect.headD true, { f with connect := f.connect.tail })) fd

/-- The next part of a handshake with the peer behind `fd`. -/
def shake (fd : Fd) : World → Shake × World :=
  onFile .failed (fun f => (f.handshake.headD .wantRead,
    { f with handshake := f.handshake.tail })) fd

/-- `SSL_read` of at most `count` bytes: they come from one record, and the
rest of it waits. -/
def sslRead (fd : Fd) (count : Nat) : World → Except Nat Bytes × World :=
  onFile (.error 1) (fun f =>
    match f.sslRead.headD (.error 1) with
    | .error c => (.error c, { f with sslRead := f.sslRead.tail })
    | .ok piece =>
        if piece.length ≤ count then (.ok piece, { f with sslRead := f.sslRead.tail })
        else (.ok (piece.take count),
          { f with sslRead := .ok (piece.drop count) :: f.sslRead.tail })) fd

/-- `SSL_write`: all or nothing, and nothing for a length that is not
positive. -/
def sslWrite (fd : Fd) (buf : Bytes) (len : Int) : World → Int × World :=
  onFile (-1) (fun f =>
    if len ≤ 0 then (min len 0, f)
    else if f.sslWrite.headD true then
      (len, { f with sslWrite := f.sslWrite.tail, sent := f.sent ++ buf.take len.toNat })
    else (-1, { f with sslWrite := f.sslWrite.tail })) fd

/-- The file takes note of a call of `epoll_ctl`: `none` when there is no
such descriptor. -/
def ctlCall (fd : Fd) : World → Option Bool × World :=
  onFile none (fun f => (some (f.ctl.headD true), { f with ctl := f.ctl.tail })) fd

/-- `epoll_ctl`. -/
def epollCtl (efd : Fd) (op : EpollOp) (fd : Fd) (w : World) : Except Errno Unit × World :=
  let (granted, w) := ctlCall fd w
  match granted with
  | none => (.error .ebadf, w)
  | some granted =>
      if efd ≠ w.epfd then (.error .ebadf, w)
      else if !granted then (.error (.other 0), w)
      else match op, w.interest.get fd with
        | .add ev, none => (.ok (), w.register fd ev)
        | .add _, some _ => (.error .eexist, w)
        | .mod ev, some _ => (.ok (), w.register fd ev)
        | .mod _, none => (.error .enoent, w)
        | .del, some _ => (.ok (), w.unregister fd)
        | .del, none => (.error .enoent, w)

/-- `epoll_create`. -/
def epollCreate (hint : Fd) (w : World) : Fd × World :=
  let fd := w.fds.pick w.low hint
  (fd, (w.openFile fd (Answers.file ⟨[], [], [], [], [], [], [], []⟩ none)).newEpoll fd)

/-- `close`. -/
def close (fd : Fd) (w : World) : Except Errno Unit × World :=
  match w.fds.get fd with
  | none => (.error .ebadf, w.closeFd fd)
  | some _ => (.ok (), w.closeFd fd)

/-- `accept`. -/
def accept (serfd : Fd) (w : World) : Except Errno Fd × World :=
  match w.backlog serfd with
  | [] => (.error .eagain, w.popBacklog serfd (.error .eagain) [])
  | .error e :: q => (.error e, w.popBacklog serfd (.error e) q)
  | .ok (hint, ans) :: q =>
      let fd := w.fds.pick w.low hint
      (.ok fd, (w.openFile fd (ans.file (some serfd))).popBacklog serfd (.ok fd) q)

/-- `socket`. -/
def socket (w : World) : Except Errno Fd × World :=
  match w.sockets with
  | [] => (.error (.other 0), w)
  | .error e :: q => (.error e, w.setSockets q)
  | .ok (hint, ans) :: q =>
      let fd := w.fds.pick w.low hint
      (.ok fd, (w.openFile fd (ans.file none)).setSockets q)

/-! ### What the calls do -/

section effects

variable {efd fd serfd : Fd} {op : EpollOp} {ev : EpollEvent} {w : World}

/-- `epoll_ctl` fails and changes nothing, or does what it is told. -/
theorem epollCtl_cases (efd : Fd) (op : EpollOp) (fd : Fd) (w : World) :
    (∃ e, epollCtl efd op fd w = (.error e, (ctlCall fd w).2)) ∨
    (∃ ev, (op = .add ev ∧ w.interest.get fd = none ∨ op = .mod ev ∧ w.interest.get fd ≠ none) ∧
      epollCtl efd op fd w = (.ok (), (ctlCall fd w).2.register fd ev)) ∨
    op = .del ∧ epollCtl efd op fd w = (.ok (), (ctlCall fd w).2.unregister fd) := by
  have hi : (ctlCall fd w).2.interest = w.interest := onFile_interest
  rw [epollCtl]
  rcases hg : ctlCall fd w with ⟨granted, w₁⟩
  rw [hg] at hi
  rcases granted with - | granted
  · exact .inl ⟨_, rfl⟩
  · simp only
    split
    · exact .inl ⟨_, rfl⟩
    split
    · exact .inl ⟨_, rfl⟩
    rw [show w₁.interest = w.interest from hi]
    rcases op with ev | ev | - <;> rcases hr : w.interest.get fd with - | reg
    · exact .inr (.inl ⟨ev, .inl ⟨rfl, rfl⟩, rfl⟩)
    · exact .inl ⟨_, rfl⟩
    · exact .inl ⟨_, rfl⟩
    · exact .inr (.inl ⟨ev, .inr ⟨rfl, Option.some_ne_none _⟩, rfl⟩)
    · exact .inl ⟨_, rfl⟩
    · exact .inr (.inr ⟨rfl, rfl⟩)

@[simp] theorem close_snd : (close fd w).2 = w.closeFd fd := by
  rw [close]
  split <;> rfl

/-- `accept` answers what the backlog says. -/
theorem accept_cases (serfd : Fd) (w : World) :
    (∃ e q, q <:+ w.backlog serfd ∧
      accept serfd w = (.error e, w.popBacklog serfd (.error e) q)) ∨
    ∃ hint ans q, w.backlog serfd = .ok (hint, ans) :: q ∧
      accept serfd w = (.ok (w.fds.pick w.low hint),
        (w.openFile (w.fds.pick w.low hint) (ans.file (some serfd))).popBacklog serfd
          (.ok (w.fds.pick w.low hint)) q) := by
  rw [accept]
  rcases h : w.backlog serfd with - | ⟨e | ⟨hint, ans⟩, q⟩
  · exact .inl ⟨_, [], List.nil_suffix, rfl⟩
  · exact .inl ⟨e, q, List.suffix_cons _ _, rfl⟩
  · exact .inr ⟨hint, ans, q, rfl, rfl⟩

/-- `socket` fails, or opens a new file. -/
theorem socket_cases (w : World) :
    (∃ e q, socket w = (.error e, w.setSockets q)) ∨
    ∃ hint, ∃ ans : Answers, ∃ q, socket w = (.ok (w.fds.pick w.low hint),
      (w.openFile (w.fds.pick w.low hint) (ans.file none)).setSockets q) := by
  rw [socket]
  rcases h : w.sockets with - | ⟨e | ⟨hint, ans⟩, q⟩
  · exact .inl ⟨_, w.sockets, rfl⟩
  · exact .inl ⟨e, q, rfl⟩
  · exact .inr ⟨hint, ans, q, rfl⟩

end effects

end World

namespace File

/-- Reading writes nothing. -/
theorem receive_quiet (count : Nat) (dry : Except Errno Bytes) (f : File) :
    (f.receive count dry).2.via = f.via ∧ (f.receive count dry).2.sent = f.sent ∧
      (f.receive count dry).2.writes = f.writes := by
  rw [receive]
  split_ifs
  · exact ⟨rfl, rfl, rfl⟩
  · split
    · exact ⟨rfl, rfl, rfl⟩
    · split_ifs <;> exact ⟨rfl, rfl, rfl⟩

/-- Writing appends what is taken from the front of the buffer. -/
theorem transmit_cases (buf : Bytes) (len : Int) (dry : Except Errno Nat) (f : File) :
    (f.transmit buf len dry).2.via = f.via ∧ (f.transmit buf len dry).2.writes = f.writes + 1 ∧
      ((∃ e, (f.transmit buf len dry).1 = .error e ∧ (f.transmit buf len dry).2.sent = f.sent) ∨
        ∃ m : Nat, (f.transmit buf len dry).1 = .ok m ∧ (m : Int) ≤ len ∧
          (f.transmit buf len dry).2.sent = f.sent ++ buf.take m) := by
  rw [transmit]
  split_ifs with hlen
  · exact ⟨rfl, rfl, .inl ⟨_, rfl, rfl⟩⟩
  · split
    · exact ⟨rfl, rfl, .inl ⟨_, rfl, rfl⟩⟩
    · refine ⟨rfl, rfl, .inr ⟨_, rfl, ?_, rfl⟩⟩
      omega

end File

/-! ### A worker with one listener -/

/-- Answers of `read` and `write`, or of `recv` and `send`; all else
succeeds. -/
def Answers.io (read : List (Except Errno Bytes)) (write : List (Except Errno Nat)) : Answers :=
  ⟨[], [], [], read, write, [], [], []⟩

/-- A client that answers the calls of `SSL_accept` by `handshake`. -/
def tlsClient (handshake : List Shake) : Answers := ⟨[], [], [], [], [], handshake, [], []⟩

/-- A worker that listens on the descriptor 4, where `accept` will answer
`q`. -/
def listening (q : List (Except Errno (Fd × Answers))) : World where
  fds := Table.empty.set 4 0
  files := Table.empty.push ((Answers.io [] []).file none)
  low := 5
  epfd := 3
  interest := Table.empty.set 4 ⟨inEdge, 0⟩
  reqs := Table.empty.push ⟨0, 0, .http, none, none, none⟩
  ssls := Table.empty
  timers := ⟨none, fun _ => ⟨0, (), none⟩, []⟩
  shm := ⟨0, 0, 0, 0⟩
  backlog := Function.update (fun _ => []) 4 q
  sockets := []
  closes := []
  accepts := []

end DmfServer
