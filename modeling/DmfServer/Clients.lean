/-
DmfServer/Clients.lean

Every client of a worker is served as if it were the only one.

A worker handles the events of all its connections one after the other, over
one table of descriptors and one heap.  `Peer` is a single connection: what
`read` and `write` will answer on it, what it was sent, and whether it is
connected.  `Peer.step` is what one event makes of it, and takes nothing but
the connection itself and, for a proxy, what the upstream will answer.
`clients_alone` says that in every run a connection is what its own events
make of it, one after the other, whatever else the worker does in between.

The proof has two halves.

* A handler that runs for another object makes no call on the descriptor of
  the connection, and does not touch its object.  The invariant `Beside` says
  so, and is kept by all parts of the handlers (`Preserves`), for any
  descriptor but that of the connection.
* The handler of the connection itself is evaluated.  The two loops are those
  of `DmfServer.Calls`; what stands between them, the exchange with the
  upstream, runs beside the connection again.
-/
import DmfServer.Lifecycle
import DmfServer.HttpWrite

namespace DmfServer.Clients

open Imperative Imperative.Prog Strings World

/-! ### A connection by itself -/

/-- A connection: what `read` and `write` will answer on it, what was written to
it, and whether its descriptor is open. -/
structure Peer where
  input : List (Except Errno Bytes)
  output : List (Except Errno Nat)
  sent : Bytes
  connected : Bool

/-- The connection behind the file `f`. -/
def Peer.of (f : File) (connected : Bool) : Peer := ⟨f.read, f.write, f.sent, connected⟩

namespace Peer

/-- The loop over `read`, into a buffer of `size` bytes. -/
def read (size : Nat) (c : Peer) : Peer := { c with input := (collect size [] c.input).2.2 }

/-- One call of `write`. -/
def write (buf : Bytes) (c : Peer) : Peer :=
  { c with
    output := c.output.tail
    sent := c.sent ++ buf.take (taken (c.output.headD (.error .eagain)) buf.length) }

/-- `handle_close`. -/
def close (c : Peer) : Peer := { c with connected := false }

/-- `event_http_read`. -/
def httpRead (c : Peer) : Peer :=
  match (collect 1024 [] c.input).1 with
  | .dry => c.read 1024
  | .closed => (c.read 1024).close
  | .failed e => if e = .econnreset then (c.read 1024).close else c.read 1024

/-- The end of `event_http_reverse`: the response is written, and unless that
fails the connection is closed. -/
def deliver (response : Bytes) (c : Peer) : Peer :=
  if response = [] then c.close
  else if (writeError (c.output.headD (.error .eagain))).isSome then c.write response
  else (c.write response).close

/-- `event_http_reverse`, where `up` is what the upstream will answer, if there is
one. -/
def httpReverse (up : Option Answers) (c : Peer) : Peer :=
  match (collect 4096 [] c.input).1 with
  | .failed _ => c.read 4096
  | .closed => (c.read 4096).close
  | .dry =>
      match up with
      | none => c.read 4096
      | some ans => (c.read 4096).deliver (received 4096 (ans.read.headD (.ok []))).2

/-- `handle_read`. -/
def handleRead (type : LisType) (up : Option Answers) (c : Peer) : Peer :=
  match type with
  | .http => c.httpRead
  | .httpProxy => c.httpReverse up
  | _ => c

/-- `handle_write`. -/
def handleWrite (type : LisType) (c : Peer) : Peer :=
  match type with
  | .http => (c.write sendBuf).close
  | _ => c

/-- One event of a connection that was accepted on a listener for `type`. -/
def step (type : LisType) (c : Peer) (turn : EpollEvents × Option Answers) : Peer :=
  if turn.1.epollin then c.handleRead type turn.2
  else if turn.1.epollout then c.handleWrite type
  else if turn.1.epollhup || turn.1.epollerr then c.close
  else c

end Peer

/-! ### Beside a connection -/

section beside

/-- The file `i` is `f`, and it is behind the descriptor `o` and no other, which
is registered with the object `p`.  The objects that were there are those of
the heap `R`. -/
structure Beside (p : Addr) (o : Option Fd) (i : FileId) (f : File) (R : Table ReqT)
    (w : World) : Prop where
  file : w.files.get i = some f
  behind : ∀ d, w.fds.get d = some i ↔ o = some d
  reg : ∀ d, o = some d → ∃ ev, w.interest.get d = some ev ∧ ev.ptr = p
  reqs : ∀ a < R.bound, w.reqs.get a = R.get a
  le : R.bound ≤ w.reqs.bound

variable {p q : Addr} {o : Option Fd} {i : FileId} {f : File} {R : Table ReqT}
variable {w w' : World} {fd serfd epollFd : Fd} {sd : Option Unit} {r : ReqT}

theorem Beside.same (h : Beside p o i f R w) (hfiles : w'.files = w.files) (hfds : w'.fds = w.fds)
    (hint : w'.interest = w.interest) (hreqs : w'.reqs = w.reqs) : Beside p o i f R w' where
  file := by rw [hfiles, h.file]
  behind := by rw [hfds]; exact h.behind
  reg := by rw [hint]; exact h.reg
  reqs := by rw [hreqs]; exact h.reqs
  le := by rw [hreqs]; exact h.le

theorem Beside.setSockets (h : Beside p o i f R w) (q : List (Except Errno (Fd × Answers))) :
    Beside p o i f R (w.setSockets q) := h.same rfl rfl rfl rfl

theorem Beside.popBacklog (h : Beside p o i f R w) (serfd : Fd) (x : Except Errno Fd)
    (q : List (Except Errno (Fd × Answers))) : Beside p o i f R (w.popBacklog serfd x q) :=
  h.same rfl rfl rfl rfl

/-- Another file changes. -/
theorem Beside.setFile {j : FileId} {g : File} (h : Beside p o i f R w)
    (hj : w.fds.get fd = some j) (ho : o ≠ some fd) : Beside p o i f R (w.setFile j g) := by
  have hne : i ≠ j := by
    rintro rfl
    exact ho ((h.behind fd).mp hj)
  exact { h with file := (Table.get_set_of_ne hne).trans h.file }

theorem Beside.onFile {α : Type} {bad : α} {call : File → α × File} (h : Beside p o i f R w)
    (ho : o ≠ some fd) : Beside p o i f R (World.onFile bad call fd w).2 := by
  rcases onFile_cases bad call fd w with he | ⟨j, g, hj, -, he⟩
  · rw [he]
    exact h
  · rw [he]
    exact h.setFile hj ho

/-- A descriptor that is free is not that of the connection. -/
theorem Beside.ne_of_free (h : Beside p o i f R w) (hfree : w.fds.get fd = none) :
    o ≠ some fd := by
  intro ho
  rw [(h.behind fd).mpr ho] at hfree
  cases hfree

theorem Beside.openFile (h : Beside p o i f R w) (hfree : w.fds.get fd = none) (g : File) :
    Beside p o i f R (w.openFile fd g) where
  file := (Table.get_push_of_ne (ne_of_lt (Table.lt_bound h.file))).trans h.file
  behind d := by
    rcases eq_or_ne d fd with rfl | hne
    · refine iff_of_false (fun hd => ?_) (h.ne_of_free hfree)
      -- the file is a new one
      rw [openFile_fds, Table.get_set_self] at hd
      exact ne_of_lt (Table.lt_bound h.file) (Option.some.inj hd).symm
    · rw [openFile_fds, Table.get_set_of_ne hne]
      exact h.behind d
  reg := h.reg
  reqs := h.reqs
  le := h.le

theorem Beside.closeFd (h : Beside p o i f R w) (ho : o ≠ some fd) :
    Beside p o i f R (w.closeFd fd) where
  file := h.file
  behind d := by
    rw [closeFd_fds, Table.get_erase_eq_some, h.behind d]
    refine ⟨And.right, fun hd => ⟨?_, hd⟩⟩
    rintro rfl
    exact ho hd
  reg d hd := by
    have hne : d ≠ fd := by
      rintro rfl
      exact ho hd
    rw [closeFd_interest, Table.get_erase_of_ne hne]
    exact h.reg d hd
  reqs := h.reqs
  le := h.le

theorem Beside.register (h : Beside p o i f R w) (ho : o ≠ some fd) (ev : EpollEvent) :
    Beside p o i f R (w.register fd ev) := by
  refine { h with reg := fun d hd => ?_ }
  have hne : d ≠ fd := by
    rintro rfl
    exact ho hd
  rw [register_interest, Table.get_set_of_ne hne]
  exact h.reg d hd

theorem Beside.unregister (h : Beside p o i f R w) (ho : o ≠ some fd) :
    Beside p o i f R (w.unregister fd) := by
  refine { h with reg := fun d hd => ?_ }
  have hne : d ≠ fd := by
    rintro rfl
    exact ho hd
  rw [unregister_interest, Table.get_erase_of_ne hne]
  exact h.reg d hd

theorem Beside.newReq (h : Beside p o i f R w) (r : ReqT) : Beside p o i f R (w.newReq r) where
  file := h.file
  behind := h.behind
  reg := h.reg
  reqs a ha :=
    (Table.get_push_of_ne (ne_of_lt (lt_of_lt_of_le ha h.le))).trans (h.reqs a ha)
  le := by
    rw [newReq_reqs, Table.bound_push]
    exact Nat.le_succ_of_le h.le

/-- An object is released. -/
theorem Beside.freeReq (h : Beside p o i f R w) (q : Addr) :
    Beside p o i f (R.erase q) (w.freeReq q) where
  file := h.file
  behind := h.behind
  reg := h.reg
  reqs a ha := by
    rcases eq_or_ne a q with rfl | hne
    · rw [freeReq_reqs, Table.get_erase_self, Table.get_erase_self]
    · rw [freeReq_reqs, Table.get_erase_of_ne hne, Table.get_erase_of_ne hne]
      exact h.reqs a ha
  le := h.le

theorem Beside.epollCtl (h : Beside p o i f R w) (ho : o ≠ some fd) (efd : Fd) (op : EpollOp) :
    Beside p o i f R (World.epollCtl efd op fd w).2 := by
  have h₁ : Beside p o i f R (ctlCall fd w).2 := h.onFile ho
  rcases epollCtl_cases efd op fd w with ⟨e, he⟩ | ⟨ev, -, he⟩ | ⟨-, he⟩
  · rw [he]
    exact h₁
  · rw [he]
    exact h₁.register ho ev
  · rw [he]
    exact h₁.unregister ho

/-! ### The parts of the handlers -/

section calls

variable [ho : Fact (o ≠ some fd)]

theorem preserves_onFile {α : Type} {bad : α} {call : File → α × File} :
    Preserves (Beside p o i f R) (Prog.call (onFile bad call fd)) :=
  .call fun _ h => h.onFile ho.out

instance {count : Nat} : Preserves (Beside p o i f R) (call (World.read fd count)) :=
  preserves_onFile

instance {count : Nat} : Preserves (Beside p o i f R) (call (World.recv fd count)) :=
  preserves_onFile

instance {buf : Bytes} {len : Int} :
    Preserves (Beside p o i f R) (call (World.write fd buf len)) := preserves_onFile

instance {buf : Bytes} {len : Int} :
    Preserves (Beside p o i f R) (call (World.send fd buf len)) := preserves_onFile

instance : Preserves (Beside p o i f R) (call (World.fcntl fd)) := preserves_onFile

instance : Preserves (Beside p o i f R) (call (World.close fd)) := by
  refine .call fun w h => ?_
  rw [close_snd]
  exact h.closeFd ho.out

instance {efd : Fd} {op : EpollOp} : Preserves (Beside p o i f R) (call (epollCtl efd op fd)) :=
  .call fun _ h => h.epollCtl ho.out efd op

instance : Preserves (Beside p o i f R) (setNonBlocking fd) := by
  unfold setNonBlocking
  infer_instance

instance {size : Nat} {buf : Bytes} : Preserves (Beside p o i f R) (readTurn fd size buf) := by
  unfold readTurn
  refine .seq inferInstance fun r => ?_
  rcases r with e | _ | ⟨c, piece⟩ <;> infer_instance

instance {buf : Bytes} {size n : Int} :
    Preserves (Beside p o i f R) (writeTurn fd buf size n) := by
  unfold writeTurn
  refine @Preserves.ite _ _ _ _ _ _ _ ?_ inferInstance
  refine .seq inferInstance fun r => ?_
  cases r <;> infer_instance

instance {buffer : Bytes} {len : Int} : Preserves (Beside p o i f R) (exchange fd buffer len) := by
  unfold exchange
  infer_instance

end calls

instance {f' : ShmData → ShmData} : Preserves (Beside p o i f R) (count sd f') := by
  have hstore : Preserves (Beside p o i f R) (store fun w : World => w.setShm (f' w.shm)) :=
    .store fun w h => h.same rfl rfl rfl rfl
  unfold count
  infer_instance

instance : Preserves (Beside p o i f R) (reqAt q) := by
  unfold reqAt
  infer_instance

instance {t : Prog (Timers Addr Unit) Unit} :
    Preserves (Beside p o i f R) (zoom timers setTimers t) :=
  .zoom fun _ _ h => h.same rfl rfl rfl rfl

instance {data : Option Addr} : Preserves (Beside p o i f R) (freeData data) := by
  cases data <;> unfold freeData <;> infer_instance

instance : Preserves (Beside p o i f R) (newReqT r) := .call fun _ h => h.newReq r

/-! ### Handlers for others -/

/-- `q` is the object of a client on another descriptor. -/
structure Other (o : Option Fd) (R : Table ReqT) (q : Addr) (r : ReqT) : Prop where
  req : R.get q = some r
  ne : o ≠ some r.fd
  ssl : r.ssl = none
  plain : r.type = .http ∨ r.type = .httpProxy

/-- A handler for `q` has returned, and may have released it. -/
def Left (p : Addr) (o : Option Fd) (i : FileId) (f : File) (R : Table ReqT) (q : Addr)
    (w : World) : Prop := Beside p o i f R w ∨ Beside p o i f (R.erase q) w

theorem Beside.req (h : Beside p o i f R w) (hq : R.get q = some r) : w.reqs.get q = some r :=
  (h.reqs q (Table.lt_bound hq)).trans hq

theorem Beside.handleClose (h : Beside p o i f R w) (hq : Other o R q r) :
    Partially (handleClose q) w fun _ w' => Beside p o i f (R.erase q) w' := by
  have hne : Fact (o ≠ some r.fd) := ⟨hq.ne⟩
  rw [DmfServer.handleClose, partially_congr (reqAt_bind_run (h.req hq.req)), hq.ssl]
  refine Preserves.partially_bind (Beside p o i f R) h fun _ w₁ h₁ => ?_
  refine Preserves.partially_bind (Beside p o i f R) h₁ fun _ w₂ h₂ => ?_
  refine Preserves.partially_bind (Beside p o i f R) h₂ fun _ w₃ h₃ => ?_
  refine Preserves.partially_bind (Beside p o i f R) h₃ fun _ w₄ h₄ => ?_
  refine Preserves.partially_bind (Beside p o i f R) h₄ fun _ w₅ h₅ => ?_
  rw [closeSsl_none, partially_pure_bind]
  exact partially_store.mpr (h₅.freeReq q)

/-- A handler that ends by closing. -/
theorem Beside.left (h : Beside p o i f R w) (hq : Other o R q r) :
    Partially (DmfServer.handleClose q) w fun _ w' => Left p o i f R q w' :=
  (h.handleClose hq).mono fun _ _ h' => .inr h'

theorem Beside.eventHttpRead (h : Beside p o i f R w) (hq : Other o R q r) (efd : Fd) :
    Partially (eventHttpRead q r.fd efd) w fun _ w' => Left p o i f R q w' := by
  have hne : Fact (o ≠ some r.fd) := ⟨hq.ne⟩
  rw [DmfServer.eventHttpRead]
  refine Preserves.partially_bind (Beside p o i f R) h ?_
  rintro ⟨outcome, buf⟩ w₁ h₁
  rcases outcome with - | - | e
  · refine Preserves.partially_bind (Beside p o i f R) h₁ fun req w₂ h₂ => ?_
    refine Preserves.partially_bind (Beside p o i f R) h₂ fun _ w₃ h₃ => ?_
    refine Preserves.partially_bind (Beside p o i f R) h₃ fun _ w₄ h₄ => ?_
    exact partially_pure.mpr (.inl h₄)
  · exact h₁.left hq
  · show Partially (if e = .econnreset then _ else _) w₁ _
    split
    · refine Preserves.partially_bind (Beside p o i f R) h₁ fun req w₂ h₂ => ?_
      refine Preserves.partially_bind (Beside p o i f R) h₂ fun _ w₃ h₃ => ?_
      exact h₃.left hq
    · exact partially_pure.mpr (.inl h₁)

/-- The descriptor of the upstream was free. -/
theorem Beside.clientSocket (h : Beside p o i f R w) : Partially clientSocket w fun sock w' =>
    Beside p o i f R w' ∧ ∀ s, sock = some s → o ≠ some s := by
  rw [DmfServer.clientSocket, partially_call_bind]
  rcases socket_cases w with ⟨e, q, he⟩ | ⟨hint, ans, q, he⟩
  · rw [he]
    exact partially_pure.mpr ⟨h.setSockets q, fun s hs => by cases hs⟩
  · have hfree : w.fds.get (w.fds.pick w.low hint) = none := Table.get_pick
    have hne : Fact (o ≠ some (w.fds.pick w.low hint)) := ⟨h.ne_of_free hfree⟩
    have h₁ := (h.openFile hfree (ans.file none)).setSockets q
    rw [he, partially_call_bind]
    have h₂ : Beside p o i f R (World.connect (w.fds.pick w.low hint) _).2 := h₁.onFile hne.out
    split
    · refine partially_pure.mpr ⟨h₂, fun s hs => ?_⟩
      rw [← Option.some.inj hs]
      exact hne.out
    · exact partially_pure.mpr ⟨h₂, fun s hs => by cases hs⟩

theorem Beside.eventHttpReverse (h : Beside p o i f R w) (hq : Other o R q r) :
    Partially (eventHttpReverse q r.fd) w fun _ w' => Left p o i f R q w' := by
  have hne : Fact (o ≠ some r.fd) := ⟨hq.ne⟩
  rw [DmfServer.eventHttpReverse]
  refine Preserves.partially_bind (Beside p o i f R) h ?_
  rintro ⟨outcome, buf⟩ w₁ h₁
  rcases outcome with - | - | e
  · refine Partially.bind (h₁.clientSocket.mono ?_)
    rintro (- | s) w₂ ⟨h₂, hs⟩
    · exact partially_pure.mpr (.inl h₂)
    · have hne' : Fact (o ≠ some s) := ⟨hs s rfl⟩
      refine Preserves.partially_bind (Beside p o i f R) h₂ ?_
      rintro ⟨recvLen, answer⟩ w₃ h₃
      refine Preserves.partially_bind (Beside p o i f R) h₃ ?_
      rintro (- | e) w₄ h₄
      · exact h₄.left hq
      · exact partially_pure.mpr (.inl h₄)
  · exact h₁.left hq
  · exact partially_pure.mpr (.inl h₁)

theorem Beside.handleRead (h : Beside p o i f R w) (hq : Other o R q r) :
    Partially (handleRead q) w fun _ w' => Left p o i f R q w' := by
  rw [DmfServer.handleRead, partially_congr (reqAt_bind_run (h.req hq.req))]
  rcases hq.plain with ht | ht
  · rw [ht]
    exact h.eventHttpRead hq r.efd
  · rw [ht]
    exact h.eventHttpReverse hq

theorem Beside.handleWrite (h : Beside p o i f R w) (hq : Other o R q r) :
    Partially (handleWrite q) w fun _ w' => Left p o i f R q w' := by
  have hne : Fact (o ≠ some r.fd) := ⟨hq.ne⟩
  have hwrite : Preserves (Beside p o i f R) (eventHttpWrite q r.fd) := by
    unfold eventHttpWrite
    refine .seq inferInstance fun req => .seq inferInstance fun res => ?_
    cases res <;> infer_instance
  rw [DmfServer.handleWrite, partially_congr (reqAt_bind_run (h.req hq.req))]
  rcases hq.plain with ht | ht
  · rw [ht]
    refine Preserves.partially_bind (Beside p o i f R) h fun _ w₁ h₁ => ?_
    exact h₁.left hq
  · rw [ht]
    exact partially_pure.mpr (.inl h)

/-- The accept loop on a listener for HTTP or its proxy. -/
theorem preserves_eventAcceptHttp (type : LisType) :
    Preserves (Beside p o i f R) (eventAcceptHttp type serfd epollFd sd) := by
  have hturn : Preserves (Beside p o i f R)
      (acceptTurn serfd (registerHttp type epollFd sd)) := by
    refine ⟨fun w h => ?_⟩
    rw [acceptTurn, partially_call_bind]
    rcases accept_cases serfd w with ⟨e, q, -, he⟩ | ⟨hint, ans, q, -, he⟩
    · rw [he]
      exact partially_pure.mpr (h.popBacklog serfd _ q)
    · have hfree : w.fds.get (w.fds.pick w.low hint) = none := Table.get_pick
      have hne : Fact (o ≠ some (w.fds.pick w.low hint)) := ⟨h.ne_of_free hfree⟩
      have hregister : Preserves (Beside p o i f R)
          (registerHttp type epollFd sd (w.fds.pick w.low hint)) := by
        unfold registerHttp
        refine .seq inferInstance fun req => .seq inferInstance fun _ =>
          .seq inferInstance fun x => ?_
        cases x <;> infer_instance
      have h₁ := (h.openFile hfree (ans.file (some serfd))).popBacklog serfd
        (.ok (w.fds.pick w.low hint)) q
      rw [he]
      have hrest : Preserves (Beside p o i f R) (if 0 < w.fds.pick w.low hint then do
            if ← setNonBlocking (w.fds.pick w.low hint)
            then registerHttp type epollFd sd (w.fds.pick w.low hint)
            else pure (Sum.inr ())
          else pure (Sum.inr ())) := inferInstance
      exact hrest.keep _ h₁
  unfold eventAcceptHttp
  infer_instance

/-- With no TLS client pending the first `accept` fails. -/
theorem Beside.eventAcceptHttps (h : Beside p o i f R w) (type : LisType)
    (hplain : ∀ x ∈ w.backlog serfd, ∃ e, x = .error e) :
    Partially (eventAcceptHttps type serfd epollFd) w fun _ w' => Beside p o i f R w' := by
  rw [DmfServer.eventAcceptHttps, sslNew, partially_call_bind, newReqT, partially_call_bind]
  set w₁ := (w.newSsl ⟨none, false⟩).newReq ⟨0, 0, type, none, some w.ssls.bound, none⟩ with hw₁
  have hnew : Beside p o i f R (w.newSsl ⟨none, false⟩) := h.same rfl rfl rfl rfl
  have h₁ : Beside p o i f R w₁ := hnew.newReq _
  refine Partially.loop (fun _ w' => Beside p o i f R w' ∧ w'.backlog serfd = w.backlog serfd)
    ?_ ⟨h₁, rfl⟩
  rintro retryTimes w₂ ⟨h₂, hback⟩
  rw [acceptTurn, partially_call_bind]
  rcases accept_cases serfd w₂ with ⟨e, q, -, he⟩ | ⟨hint, ans, q, hq, -⟩
  · rw [he]
    exact partially_pure.mpr (h₂.popBacklog serfd _ q)
  · obtain ⟨e, he⟩ := hplain (.ok (hint, ans)) (by rw [← hback, hq]; exact List.mem_cons_self)
    cases he

theorem Beside.handleAccept (h : Beside p o i f R w) {lisInfs : List LisInf}
    (hinv : Inv lisInfs epollFd none w) {l : LisInf} (hl : l ∈ lisInfs) :
    Partially (handleAccept l epollFd sd) w fun _ w' => Beside p o i f R w' := by
  rw [DmfServer.handleAccept]
  rcases ht : l.type
  · exact (preserves_eventAcceptHttp _).keep w h
  · exact h.eventAcceptHttps _ (hinv.plain l hl (.inl ht))
  · exact (preserves_eventAcceptHttp _).keep w h
  · exact h.eventAcceptHttps _ (hinv.plain l hl (.inr ht))
  · exact partially_pure.mpr h

/-- An event that was reported for another descriptor. -/
theorem Beside.serverEvent (h : Beside p o i f w.reqs w) {lisInfs : List LisInf}
    (hinv : Inv lisInfs epollFd none w) {ev reg : EpollEvent} (hreg : w.interest.get fd = some reg)
    (hptr : reg.ptr = ev.ptr) (ho : o ≠ some fd) :
    Partially (serverEvent lisInfs epollFd sd ev) w fun _ w' =>
      Left p o i f w.reqs ev.ptr w' := by
  obtain ⟨-, r, hr, hs⟩ := hinv.registered fd reg hreg
  rw [hptr] at hr
  rw [DmfServer.serverEvent, partially_congr (reqAt_bind_run hr)]
  rcases hs with hs | hc
  · obtain ⟨l, hl, -⟩ := id hs
    rw [if_pos (Nat.le_of_lt hs.lt), hl]
    exact (h.handleAccept hinv (List.mem_of_getElem? hl)).mono fun _ _ h' => .inl h'
  · have hfd := hc.fd_eq
    obtain ⟨j, g, -, -, l, -, -, htype, hl⟩ := hc.file
    have hq : Other o w.reqs ev.ptr r :=
      ⟨hr, by rw [hfd]; exact ho, hc.ssl, by rw [← htype]; exact hl⟩
    rw [if_neg (Nat.not_le_of_lt (hinv.lt_fd hc))]
    split
    · exact h.handleRead hq
    split
    · exact h.handleWrite hq
    split
    · exact h.left hq
    · exact partially_pure.mpr (.inl h)

end beside

/-! ### The connection's own handlers -/

/-- The connection as the worker has it is `c`: its descriptor is `fd` as long as
it is connected, and after that its object is gone. -/
inductive Shows (p : Addr) (fd : Fd) (i : FileId) (R : Table ReqT) : Peer → World → Prop
  | connected {f : File} {c : Peer} {w : World} (h : Beside p (some fd) i f R w)
      (hc : Peer.of f true = c) : Shows p fd i R c w
  | closed {f : File} {c : Peer} {w : World} (h : Beside p none i f (R.erase p) w)
      (hc : Peer.of f false = c) : Shows p fd i R c w

section own

variable {p : Addr} {i : FileId} {f f' : File} {R : Table ReqT} {w w' : World} {fd : Fd} {r : ReqT}

/-- The file of the connection changes. -/
theorem Beside.setOwn (h : Beside p (some fd) i f R w) :
    Beside p (some fd) i f' R (w.setFile i f') := { h with file := Table.get_set_self }

theorem Beside.fileAt (h : Beside p (some fd) i f R w) : w.fileAt fd = some (i, f) :=
  fileAt_eq_some.mpr ⟨(h.behind fd).mpr rfl, h.file⟩

/-- The kernel has looked the descriptor of the connection up. -/
theorem Beside.ctlCall (h : Beside p (some fd) i f R w) :
    Beside p (some fd) i { f with ctl := f.ctl.tail } R (World.ctlCall fd w).2 := by
  rw [World.ctlCall, onFile_eq h.fileAt]
  exact h.setOwn

/-- `EPOLL_CTL_MOD` of the connection: it stays registered. -/
theorem Beside.epollMod (h : Beside p (some fd) i f R w) (efd : Fd) (events : EpollEvents) :
    Shows p fd i R (.of f true) (World.epollCtl efd (.mod ⟨events, p⟩) fd w).2 := by
  have h₁ := h.ctlCall
  rcases epollCtl_cases efd (.mod ⟨events, p⟩) fd w with ⟨e, he⟩ | ⟨ev, hop, he⟩ | ⟨hop, -⟩
  · rw [he]
    exact .connected h₁ rfl
  · rw [he]
    refine .connected { h₁ with reg := fun d hd => ?_ } rfl
    obtain rfl := Option.some.inj hd
    rcases hop with ⟨hop, -⟩ | ⟨hop, -⟩
    · cases hop
    · cases hop
      exact ⟨_, Table.get_set_self, rfl⟩
  · cases hop

/-- The descriptor of the connection is closed, whatever is registered. -/
theorem Beside.closeOwn (h : Beside p (some fd) i f R w) (I : Table EpollEvent) :
    Beside p none i f R (({ w with interest := I } : World).closeFd fd) where
  file := h.file
  behind d := by
    refine iff_of_false (fun hd => ?_) (Option.some_ne_none d).symm
    obtain ⟨hne, hd⟩ := Table.get_erase_eq_some.mp hd
    exact hne (Option.some.inj ((h.behind d).mp hd)).symm
  reg d hd := by cases hd
  reqs := h.reqs
  le := h.le

/-- `handle_close` of the connection. -/
theorem Beside.close (h : Beside p (some fd) i f R w) (hp : R.get p = some r) (hfd : r.fd = fd)
    (hssl : r.ssl = none) :
    Partially (DmfServer.handleClose p) w fun _ w' => Shows p fd i R (Peer.of f true).close w' := by
  have h₁ := h.ctlCall
  have h₂ : Beside p none i { f with ctl := f.ctl.tail } R
      ((World.epollCtl r.efd .del fd w).2.closeFd fd) := by
    rcases epollCtl_cases r.efd .del fd w with ⟨e, he⟩ | ⟨ev, hop, -⟩ | ⟨-, he⟩
    · rw [he]
      exact h₁.closeOwn _
    · rcases hop with ⟨hop, -⟩ | ⟨hop, -⟩ <;> cases hop
    · rw [he]
      exact h₁.closeOwn _
  rw [DmfServer.handleClose, partially_congr (reqAt_bind_run (h.req hp)), hfd, hssl,
    partially_call_bind, partially_call_bind, close_snd]
  refine Preserves.partially_bind (Beside p none i _ R) h₂ fun _ w₃ h₃ => ?_
  refine Preserves.partially_bind (Beside p none i _ R) h₃ fun _ w₄ h₄ => ?_
  refine Preserves.partially_bind (Beside p none i _ R) h₄ fun _ w₅ h₅ => ?_
  rw [closeSsl_none, partially_pure_bind]
  exact partially_store.mpr (.closed (h₅.freeReq p) rfl)

/-- The loop over `read` has ended. -/
theorem Beside.read (h : Beside p (some fd) i f R w) (size : Nat)
    {k : ReadEnd × Bytes → Prog World Unit}
    (he : Returns (loop (readTurn fd size) [] >>= k) w () w') :
    ∃ w₁ f₁, Beside p (some fd) i f₁ R w₁ ∧ Peer.of f₁ true = (Peer.of f true).read size ∧
      w₁.sockets = w.sockets ∧
      Returns (k ((collect size [] f.read).1, (collect size [] f.read).2.1)) w₁ () w' :=
  ⟨_, _, h.setOwn, rfl, rfl, (returns_bind_iff (readLoop_returns size [] h.fileAt rfl)).mp he⟩

/-- One call of `write` has been made. -/
theorem transmit_peer (f : File) (buf : Bytes) (connected : Bool) :
    Peer.of (f.transmit buf buf.length (.error .eagain)).2 connected
      = (Peer.of f connected).write buf := by
  have hwrite : (f.transmit buf buf.length (.error .eagain)).2.write = f.write.tail := by
    rw [File.transmit, if_neg (by omega)]
    rcases f.write.headD (.error .eagain) with e | k <;> rfl
  rw [Peer.of, File.transmit_read, hwrite, File.transmit_sent]
  rfl

theorem writeError_transmit (f : File) (buf : Bytes) :
    writeError (f.transmit buf buf.length (.error .eagain)).1
      = writeError (f.write.headD (.error .eagain)) := by
  rw [File.transmit_eq]
  rcases f.write.headD (.error .eagain) with e | k <;> rfl

/-- `event_http_read` of the connection. -/
theorem Beside.httpRead (h : Beside p (some fd) i f R w) (hp : R.get p = some r)
    (hfd : r.fd = fd) (hssl : r.ssl = none) {efd : Fd}
    (he : Returns (DmfServer.eventHttpRead p fd efd) w () w') :
    Shows p fd i R (Peer.of f true).httpRead w' := by
  obtain ⟨w₁, f₁, h₁, hpeer, -, he⟩ := h.read 1024 he
  have hclose : ∀ w₂, Beside p (some fd) i f₁ R w₂ → Partially (DmfServer.handleClose p) w₂
      fun _ w' => Shows p fd i R ((Peer.of f true).read 1024).close w' := by
    intro w₂ h₂
    rw [← hpeer]
    exact h₂.close hp hfd hssl
  rw [Peer.httpRead, show (Peer.of f true).input = f.read from rfl]
  rcases hstop : (collect 1024 [] f.read).1 with - | - | e <;> rw [hstop] at he
  · have hrest : Partially (do
        let req ← reqAt p
        count req.sd fun sd => { sd with readNum := sd.readNum + 1 }
        let _ ← call (World.epollCtl efd (.mod ⟨outEdge, p⟩) fd)
        pure ()) w₁ fun _ w' => Shows p fd i R (.of f₁ true) w' := by
      refine Preserves.partially_bind (Beside p (some fd) i f₁ R) h₁ fun req w₂ h₂ => ?_
      refine Preserves.partially_bind (Beside p (some fd) i f₁ R) h₂ fun _ w₃ h₃ => ?_
      rw [partially_call_bind]
      exact partially_pure.mpr (h₃.epollMod efd outEdge)
    rw [hpeer] at hrest
    exact hrest.of_returns he
  · exact (hclose w₁ h₁).of_returns he
  · have hfail : Partially (if e = .econnreset then do
          let req ← reqAt p
          count req.sd fun sd => { sd with readNum := sd.readNum + 1 }
          DmfServer.handleClose p
        else pure ()) w₁ fun _ w' => Shows p fd i R (if e = .econnreset then
          ((Peer.of f true).read 1024).close else (Peer.of f true).read 1024) w' := by
      split
      · refine Preserves.partially_bind (Beside p (some fd) i f₁ R) h₁ fun req w₂ h₂ => ?_
        refine Preserves.partially_bind (Beside p (some fd) i f₁ R) h₂ fun _ w₃ h₃ => ?_
        exact hclose w₃ h₃
      · exact partially_pure.mpr (.connected h₁ hpeer)
    exact hfail.of_returns he

/-- What `recv` has got is written to the connection, which is closed unless that
fails. -/
theorem Beside.deliver (h : Beside p (some fd) i f R w) (hp : R.get p = some r)
    (hfd : r.fd = fd) (hssl : r.ssl = none) (answer : Except Errno Bytes)
    {k : Option Errno → Prog World Unit} (hnone : k none = DmfServer.handleClose p)
    (hsome : ∀ e, k (some e) = pure ())
    (he : Returns (loop (writeTurn fd (received 4096 answer).2 (received 4096 answer).1)
      (received 4096 answer).1 >>= k) w () w') :
    Shows p fd i R ((Peer.of f true).deliver (received 4096 answer).2) w' := by
  rw [Peer.deliver]
  by_cases hnil : (received 4096 answer).2 = []
  · have hlen : ¬ 0 < (received 4096 answer).1 := by
      rcases answer with e | piece
      · exact show ¬ (0 : Int) < -1 by omega
      · have hlen : (received 4096 (.ok piece)).1 = (received 4096 (.ok piece)).2.length := rfl
        rw [hlen, hnil]
        exact Int.lt_irrefl 0
    rw [returns_bind_iff (writeLoop_nothing hlen), hnone] at he
    rw [if_pos hnil]
    exact (h.close hp hfd hssl).of_returns he
  · have hlen : (received 4096 answer).1 = (received 4096 answer).2.length := by
      rcases answer with e | piece
      · exact absurd rfl hnil
      · rfl
    have hpos := List.length_pos_iff.mpr hnil
    have hloop := writeLoop_returns (received 4096 answer).2 h.fileAt (Int.natCast_pos.mpr hpos)
    rw [hlen, returns_bind_iff hloop, writeError_transmit] at he
    have hpeer := transmit_peer f (received 4096 answer).2 true
    rw [if_neg hnil, show (Peer.of f true).output = f.write from rfl]
    rcases hw : writeError (f.write.headD (.error .eagain)) with - | e
    · rw [hw, hnone] at he
      rw [Option.isSome_none, if_neg Bool.false_ne_true, ← hpeer]
      exact (h.setOwn.close hp hfd hssl).of_returns he
    · rw [hw, hsome] at he
      obtain ⟨-, rfl⟩ := returns_pure.mp he
      rw [Option.isSome_some, if_pos rfl]
      exact .connected h.setOwn hpeer

/-- `event_http_reverse` of the connection. -/
theorem Beside.httpReverse (h : Beside p (some fd) i f R w) (hp : R.get p = some r)
    (hfd : r.fd = fd) (hssl : r.ssl = none)
    (he : Returns (DmfServer.eventHttpReverse p fd) w () w') :
    Shows p fd i R ((Peer.of f true).httpReverse (upstream w.sockets)) w' := by
  obtain ⟨w₁, f₁, h₁, hpeer, hsockets, he⟩ := h.read 4096 he
  unfold Peer.httpReverse
  rw [show (Peer.of f true).input = f.read from rfl, ← hpeer, ← hsockets]
  rcases hstop : (collect 4096 [] f.read).1 with - | - | e <;> rw [hstop] at he
  · rcases hup : upstream w₁.sockets with - | ans
    · obtain ⟨w₂, hdial, -⟩ := clientSocket_refused hup
      obtain ⟨h₂, -⟩ := h₁.clientSocket.of_returns hdial
      have he₂ := (returns_bind_iff hdial).mp he
      obtain ⟨-, rfl⟩ := returns_pure.mp he₂
      exact .connected h₂ rfl
    · obtain ⟨s, w₂, hdial, -, hat, -⟩ := clientSocket_returns hup
      obtain ⟨h₂, hs⟩ := h₁.clientSocket.of_returns hdial
      -- the exchange is over another descriptor
      have hne : Fact (some fd ≠ some s) := ⟨hs s rfl⟩
      obtain ⟨w₃, hexchange, -⟩ := exchange_returns (collect 4096 [] f.read).2.1 hat
      have h₃ : Beside p (some fd) i f₁ R w₃ := (Preserves.keep w₂ h₂).of_returns hexchange
      have he₂ := (returns_bind_iff hdial).mp he
      have he₃ := (returns_bind_iff hexchange).mp he₂
      exact h₃.deliver hp hfd hssl (ans.read.headD (.ok [])) rfl (fun _ => rfl) he₃
  · exact (h₁.close hp hfd hssl).of_returns he
  · obtain ⟨-, rfl⟩ := returns_pure.mp he
    exact .connected h₁ rfl

/-- `event_http_write` of the connection, and `handle_close` after it. -/
theorem Beside.httpWrite (h : Beside p (some fd) i f R w) (hp : R.get p = some r)
    (hfd : r.fd = fd) (hssl : r.ssl = none)
    (he : Returns (do DmfServer.eventHttpWrite p fd; DmfServer.handleClose p) w () w') :
    Shows p fd i R ((Peer.of f true).write sendBuf).close w' := by
  have hloop := writeLoop_returns sendBuf h.fileAt (Int.natCast_pos.mpr sendBuf_pos)
  rw [eventHttpWrite, Prog.bind_assoc, returns_reqAt_bind (h.req hp), Prog.bind_assoc,
    returns_bind_iff hloop] at he
  rw [← transmit_peer]
  rcases hw : writeError (f.transmit sendBuf sendBuf.length (.error .eagain)).1 with - | e <;>
    rw [hw] at he <;> generalize (f.transmit sendBuf sendBuf.length (.error .eagain)).2 = f' at he ⊢
  · have hrest : Partially (do
        count r.sd fun sd => { sd with writeNum := sd.writeNum + 1 }
        DmfServer.handleClose p) (w.setFile i f') fun _ w' =>
          Shows p fd i R (Peer.of f' true).close w' :=
      Preserves.partially_bind (Beside p (some fd) i f' R) h.setOwn fun _ w₂ h₂ =>
        h₂.close hp hfd hssl
    exact hrest.of_returns he
  · exact (h.setOwn.close hp hfd hssl).of_returns he

/-- An event of the connection. -/
theorem Beside.own (h : Beside p (some fd) i f w.reqs w) {lisInfs : List LisInf} {epollFd : Fd}
    (hinv : Inv lisInfs epollFd none w) (hc : Conn lisInfs epollFd w fd p r) {ev : EpollEvent}
    (hptr : ev.ptr = p) {sd : Option Unit}
    (he : Returns (DmfServer.serverEvent lisInfs epollFd sd ev) w () w') :
    Shows p fd i w.reqs ((Peer.of f true).step r.type (ev.events, upstream w.sockets)) w' := by
  obtain ⟨-, -, -, -, l, -, -, htype, hl⟩ := hc.client.file
  have hplain : r.type = .http ∨ r.type = .httpProxy := htype ▸ hl
  have hfd := hc.client.fd_eq
  have hssl := hc.client.ssl
  rw [DmfServer.serverEvent, hptr, returns_reqAt_bind hc.req,
    if_neg (Nat.not_le_of_lt (hinv.lt_fd hc.client))] at he
  rw [Peer.step]
  split_ifs at he ⊢
  · rw [DmfServer.handleRead, returns_reqAt_bind hc.req, hfd] at he
    rcases hplain with ht | ht <;> rw [ht] at he ⊢
    · exact h.httpRead hc.req hfd hssl he
    · exact h.httpReverse hc.req hfd hssl he
  · rw [DmfServer.handleWrite, returns_reqAt_bind hc.req, hfd] at he
    rcases hplain with ht | ht <;> rw [ht] at he ⊢
    · exact h.httpWrite hc.req hfd hssl he
    · obtain ⟨-, rfl⟩ := returns_pure.mp he
      exact .connected h rfl
  · exact (h.close hc.req hfd hssl).of_returns he
  · obtain ⟨-, rfl⟩ := returns_pure.mp he
    exact .connected h rfl

end own

/-! ### The run -/

/-- An event that is handled, and what the upstream would answer then. -/
abbrev Handled : Type := EpollEvent × Option Answers

/-- How the event loop goes on from `w₀`, where `evs₀` are still to be handled.
The list has the events that were handled since. -/
inductive Continues (lisInfs : List LisInf) (epollFd : Fd) (w₀ : World) (evs₀ : List EpollEvent) :
    List Handled → World → List EpollEvent → Prop
  | start : Continues lisInfs epollFd w₀ evs₀ [] w₀ evs₀
  | wait {log w} (h : Continues lisInfs epollFd w₀ evs₀ log w []) (fds : List Fd) (hn : fds.Nodup)
      (evs : List EpollEvent)
      (hr : List.Forall₂ (fun fd ev => ∃ reg, w.interest.get fd = some reg ∧ ev.ptr = reg.ptr)
        fds evs) :
      Continues lisInfs epollFd w₀ evs₀ log w evs
  | event {log w w' ev evs} (h : Continues lisInfs epollFd w₀ evs₀ log w (ev :: evs))
      (he : Returns (serverEvent lisInfs epollFd (some ()) ev) w () w') :
      Continues lisInfs epollFd w₀ evs₀ (log ++ [(ev, upstream w.sockets)]) w' evs
  | timers {log w w'} (h : Continues lisInfs epollFd w₀ evs₀ log w []) (now : Int)
      (ht : Returns (zoom timers setTimers (executeTimers idle now)) w () w') :
      Continues lisInfs epollFd w₀ evs₀ log w' []

/-- The events of the object `p`. -/
def ownTurns (p : Addr) (log : List Handled) : List (EpollEvents × Option Answers) :=
  (log.filter fun t => t.1.ptr = p).map fun t => (t.1.events, t.2)

section run

variable {lisInfs : List LisInf} {epollFd hint : Fd} {junk : Nat → ReqT} {w₀ w w' : World}
variable {evs evs' : List EpollEvent} {log : List Handled}
variable {p : Addr} {fd : Fd} {r : ReqT} {i : FileId} {f : File} {R : Table ReqT} {c : Peer}

/-- It is the event loop of the worker. -/
theorem Continues.worker (h : Continues lisInfs epollFd w evs log w' evs')
    (hw : Worker junk hint lisInfs w₀ epollFd w evs) :
    Worker junk hint lisInfs w₀ epollFd w' evs' := by
  induction h with
  | start => exact hw
  | wait h fds hn evs hr ih => exact .wait ih fds hn evs hr
  | event h he ih => exact .event ih he
  | timers h now ht ih => exact .timers ih now ht

/-- Between two events: the connection is registered with its object, or closed
and the object gone. -/
inductive Tracks (lisInfs : List LisInf) (epollFd : Fd) (p : Addr) (fd : Fd) (r : ReqT)
    (i : FileId) (c : Peer) (w : World) : Prop
  | connected {f : File} (h : Beside p (some fd) i f w.reqs w)
      (hconn : Conn lisInfs epollFd w fd p r) (hc : Peer.of f true = c)
  | closed {f : File} (h : Beside p none i f w.reqs w) (hgone : w.reqs.get p = none)
      (hlt : p < w.reqs.bound) (hc : Peer.of f false = c)

theorem Beside.self {o : Option Fd} (h : Beside p o i f R w) : Beside p o i f w.reqs w :=
  { h with reqs := fun _ _ => rfl, le := Nat.le_refl _ }

/-- The object of a connection that is still registered is the client's. -/
theorem Beside.conn (h : Beside p (some fd) i f R w) (hinv : Inv lisInfs epollFd none w)
    (hp : R.get p = some r) (hgt : lisInfs.length < r.fd) :
    Conn lisInfs epollFd w fd p r := by
  obtain ⟨ev, hev, hptr⟩ := h.reg fd rfl
  obtain ⟨-, r', hr', hs⟩ := hinv.registered fd ev hev
  rw [hptr, h.req hp] at hr'
  obtain rfl := Option.some.inj hr'
  refine ⟨⟨ev, hev, hptr⟩, h.req hp, hs.resolve_left fun hl => ?_⟩
  exact Nat.lt_asymm hl.lt hgt

/-- After one of its own events. -/
theorem Shows.tracks (h : Shows p fd i w.reqs c w') (hinv : Inv lisInfs epollFd none w)
    (hinv' : Inv lisInfs epollFd none w') (hconn : Conn lisInfs epollFd w fd p r) :
    Tracks lisInfs epollFd p fd r i c w' := by
  rcases h with ⟨h, hc⟩ | ⟨h, hc⟩
  · exact .connected h.self (h.conn hinv' hconn.req (hinv.lt_fd hconn.client)) hc
  · have hlt := Table.lt_bound hconn.req
    refine .closed h.self ?_ (lt_of_lt_of_le hlt h.le) hc
    rw [h.reqs p hlt, Table.get_erase_self]

/-- After an event of another object. -/
theorem Tracks.other (h : Tracks lisInfs epollFd p fd r i c w) (hinv : Inv lisInfs epollFd none w)
    (hinv' : Inv lisInfs epollFd none w') {ev reg : EpollEvent} {d : Fd}
    (hreg : w.interest.get d = some reg) (hptr : reg.ptr = ev.ptr) (hne : ev.ptr ≠ p)
    (he : Returns (serverEvent lisInfs epollFd (some ()) ev) w () w') :
    Tracks lisInfs epollFd p fd r i c w' := by
  have herase : (w.reqs.erase ev.ptr).get p = w.reqs.get p := Table.get_erase_of_ne hne.symm
  rcases h with ⟨h, hconn, hc⟩ | ⟨h, hgone, hlt, hc⟩
  · have hd : some fd ≠ some d := by
      intro hd
      obtain rfl := Option.some.inj hd
      obtain ⟨reg', hreg', hptr'⟩ := hconn.reg
      rw [hreg] at hreg'
      exact hne (by rw [← hptr, Option.some.inj hreg', hptr'])
    have hgt := hinv.lt_fd hconn.client
    rcases (h.serverEvent hinv hreg hptr hd).of_returns he with h' | h'
    · exact .connected h'.self (h'.conn hinv' hconn.req hgt) hc
    · exact .connected h'.self (h'.conn hinv' (herase.trans hconn.req) hgt) hc
  · rcases (h.serverEvent hinv hreg hptr (Option.some_ne_none d).symm).of_returns he with h' | h'
    · exact .closed h'.self ((h'.reqs p hlt).trans hgone) (lt_of_lt_of_le hlt h'.le) hc
    · exact .closed h'.self ((h'.reqs p hlt).trans (herase.trans hgone))
        (lt_of_lt_of_le hlt h'.le) hc

/-- One event of the worker. -/
theorem Tracks.event (h : Tracks lisInfs epollFd p fd r i c w) (hinv : Inv lisInfs epollFd none w)
    (hinv' : Inv lisInfs epollFd none w') {ev reg : EpollEvent} {d : Fd}
    (hreg : w.interest.get d = some reg) (hptr : reg.ptr = ev.ptr)
    (he : Returns (serverEvent lisInfs epollFd (some ()) ev) w () w') :
    Tracks lisInfs epollFd p fd r i
      ((ownTurns p [(ev, upstream w.sockets)]).foldl (Peer.step r.type) c) w' := by
  by_cases hp : ev.ptr = p
  · rw [ownTurns, List.filter_singleton, decide_eq_true hp]
    rcases h with ⟨h, hconn, rfl⟩ | ⟨h, hgone, -, -⟩
    · exact (h.own hinv hconn hp he).tracks hinv hinv' hconn
    · -- an object that is gone has no events
      obtain ⟨-, r', hr', -⟩ := hinv.registered d reg hreg
      rw [hptr, hp, hgone] at hr'
      cases hr'
  · rw [ownTurns, List.filter_singleton, decide_eq_false hp]
    exact h.other hinv hinv' hreg hptr hp he

/-- Any run of the event loop. -/
theorem Tracks.run (h : Tracks lisInfs epollFd p fd r i c w) (h₀ : Booted lisInfs w₀)
    (hw : Worker junk hint lisInfs w₀ epollFd w evs)
    (hrun : Continues lisInfs epollFd w evs log w' evs') :
    Tracks lisInfs epollFd p fd r i ((ownTurns p log).foldl (Peer.step r.type) c) w' := by
  induction hrun with
  | start => exact h
  | wait _ _ _ _ _ ih => exact ih
  | @event log w₁ w₂ ev evs hrun he ih =>
      obtain ⟨hinv, hpend⟩ := (hrun.worker hw).inv h₀
      obtain ⟨d, reg, hreg, hptr⟩ := hpend.2 ev List.mem_cons_self
      have hinv' := ((serverEvent_safe hinv hreg hptr).of_returns he).1
      have hnext := ih.event hinv hinv' hreg hptr he
      rwa [← List.foldl_append, ownTurns, ownTurns, ← List.map_append, ← List.filter_append]
        at hnext
  | timers hrun now ht ih =>
      obtain ⟨hinv, -⟩ := (hrun.worker hw).inv h₀
      rw [(executeTimers_safe hinv now).of_returns ht]
      exact ih

/-- A client of the worker, as the worker has it. -/
theorem tracks_of_conn (hc : Conn lisInfs epollFd w fd p r) (hinv : Inv lisInfs epollFd none w)
    (hf : w.fileAt fd = some (i, f)) :
    Tracks lisInfs epollFd p fd r i (Peer.of f true) w := by
  obtain ⟨hi, hget⟩ := fileAt_eq_some.mp hf
  refine .connected ⟨hget, fun d => ?_, fun d hd => ?_, fun _ _ => rfl, Nat.le_refl _⟩ hc rfl
  · constructor
    · exact fun hd => congrArg some (hinv.fds_inj fd d i hc.client.low hi hd)
    · rintro hd
      rw [← Option.some.inj hd]
      exact hi
  · rw [← Option.some.inj hd]
    exact hc.reg

/-- **Every client is served as if it were the only one.**  Take any client of a
worker, in any state of its run, and let the run go on in any way.  Then what is
left of the client's input, what is left of the answers of `write`, what was
written to it and whether it is connected, are what the client's own events make of
them; and as long as it is connected it stays registered with its object. -/
theorem clients_alone (h₀ : Booted lisInfs w₀) (hw : Worker junk hint lisInfs w₀ epollFd w evs)
    (hc : Conn lisInfs epollFd w fd p r) (hf : w.fileAt fd = some (i, f))
    (hrun : Continues lisInfs epollFd w evs log w' evs') :
    ∃ f' connected, w'.files.get i = some f' ∧
      Peer.of f' connected = (ownTurns p log).foldl (Peer.step r.type) (Peer.of f true) ∧
      (connected = true ↔ ∃ d, w'.fds.get d = some i) ∧
      (connected = true → Conn lisInfs epollFd w' fd p r) := by
  have hstart := tracks_of_conn hc (hw.inv h₀).1 hf
  rcases hstart.run h₀ hw hrun with ⟨h, hconn, hpeer⟩ | ⟨h, -, -, hpeer⟩
  · exact ⟨_, true, h.file, hpeer, iff_of_true rfl ⟨fd, (h.behind fd).mpr rfl⟩, fun _ => hconn⟩
  · refine ⟨_, false, h.file, hpeer, iff_of_false Bool.false_ne_true ?_,
      fun hno => absurd hno Bool.false_ne_true⟩
    rintro ⟨d, hd⟩
    cases (h.behind d).mp hd

/-- A request is read after another client was accepted. -/
theorem clients_alone_two : ∃ w w' f' connected,
    Continues [⟨4, .http⟩] 7 w [] [(⟨inEdge, 1⟩, none), (⟨inEdge, 2⟩, none)] w' [] ∧
      w'.files.get 2 = some f' ∧ Peer.of f' connected = ⟨[], [.ok 900], [], true⟩ ∧
      (connected = true ↔ ∃ d, w'.fds.get d = some 2) := by
  let q : List (Except Errno (Fd × Answers)) :=
    [.ok (6, .io [.ok (bytes "GET /")] [.ok 900]), .error .eagain, .ok (8, .io [] [])]
  obtain ⟨w, f, log, w', hworker, hconn, hfile, hf, hrun, rfl⟩ : ∃ w f log w',
      Worker (fun _ => ⟨0, 0, .http, none, none, none⟩) 7 [⟨4, .http⟩] (listening q) 7 w [] ∧
      Conn [⟨4, .http⟩] 7 w 6 2 ⟨6, 7, .http, none, none, some ()⟩ ∧ w.fileAt 6 = some (2, f) ∧
      Peer.of f true = ⟨[.ok (bytes "GET /")], [.ok 900], [], true⟩ ∧
      Continues [⟨4, .http⟩] 7 w [] log w' [] ∧
      log = [(⟨inEdge, 1⟩, none), (⟨inEdge, 2⟩, none)] := by
    refine ⟨_, _, _, _, .event (.wait (.start (.of_run 0 fun _ => rfl)) [4] (by decide)
      [⟨inEdge, 1⟩] (.cons ⟨⟨inEdge, 1⟩, rfl, rfl⟩ .nil)) (.of_run 2 fun _ => rfl), ?_, rfl, rfl,
      .event (.event (.wait .start [4, 6] (by decide) [⟨inEdge, 1⟩, ⟨inEdge, 2⟩]
        (.cons ⟨⟨inEdge, 1⟩, rfl, rfl⟩ (.cons ⟨⟨inEdge, 2⟩, rfl, rfl⟩ .nil)))
        (.of_run 2 fun _ => rfl)) (.of_run 2 fun _ => rfl), rfl⟩
    exact ⟨⟨⟨inEdge, 2⟩, rfl, rfl⟩, rfl, rfl, by decide, rfl, rfl, rfl, rfl, 2, _, rfl, rfl,
      ⟨4, .http⟩, List.mem_singleton_self _, rfl, rfl, .inl rfl⟩
  obtain ⟨f', connected, hget, hpeer, hopen, -⟩ :=
    clients_alone (listening_booted q) hworker hconn hfile hrun
  rw [hf] at hpeer
  exact ⟨w, w', f', connected, hrun, hget, hpeer, hopen⟩

end run

end DmfServer.Clients
