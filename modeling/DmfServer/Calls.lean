/-
DmfServer/Calls.lean

What the parts of the handlers for clients answer, exactly.

The loops over `read` and `write` are evaluated on the answers of the file.
The first one collects pieces until the buffer is full, the peer closes or
an error is met (`collect`, `readLoop_returns`), the second one makes at most
one call of `write`, since only a call that takes all that is left does not
end it (`writeLoop_returns`).  `handle_close` of a client that is in order
releases it, whatever `epoll_ctl` answers (`handleClose_returns`).

`Served` says what it means that a client is in order.
-/
import DmfServer.Handlers

namespace DmfServer

open Imperative Imperative.Prog Strings World

variable {w w' : World} {fd : Fd} {i : FileId} {f f' : File} {r : ReqT} {conn : Addr}
variable {size : Nat} {buf : Bytes}

/-! ### Files -/

theorem fileAt_setFile (h : w.fileAt fd = some (i, f)) :
    (w.setFile i f').fileAt fd = some (i, f') :=
  fileAt_eq_some.mpr ⟨(fileAt_eq_some.mp h).1, Table.get_set_self⟩

theorem setFile_setFile : (w.setFile i f).setFile i f' = w.setFile i f' := by
  show { w with files := (w.files.set i f).set i f' } = { w with files := w.files.set i f' }
  rw [Table.set_set]

theorem setFile_self (h : w.fileAt fd = some (i, f)) : w.setFile i f = w := by
  show { w with files := w.files.set i f } = w
  rw [Table.set_self (fileAt_eq_some.mp h).2]

/-! ### Sessions -/

/-- The descriptor that the session `ssl` is attached to. -/
def World.sslFd (w : World) (ssl : Addr) : Option Fd := (w.ssls.get ssl).bind Ssl.fd

theorem sslFd_eq_some {ssl : Addr} :
    w.sslFd ssl = some fd ↔ ∃ finished, w.ssls.get ssl = some ⟨some fd, finished⟩ := by
  rw [World.sslFd]
  rcases w.ssls.get ssl with - | ⟨fd', finished⟩
  · simp
  · simp [Ssl.mk.injEq]

theorem sslFd_congr {ssl : Addr} (h : w'.ssls = w.ssls) : w'.sslFd ssl = w.sslFd ssl := by
  rw [World.sslFd, h, World.sslFd]

/-! ### The loop over `read` -/

/-- What the loop over `read` makes of the answers, with `buf` read so far:
how it ends, what is in the buffer, and the answers that are left. -/
def collect (size : Nat) : Bytes → List (Except Errno Bytes) →
    ReadEnd × Bytes × List (Except Errno Bytes)
  | buf, [] => (if size ≤ buf.length then .closed else .dry, buf, [])
  | buf, .error e :: q =>
      if size ≤ buf.length then (.closed, buf, .error e :: q)
      else (if e = .eagain then .dry else .failed e, buf, q)
  | buf, .ok piece :: q =>
      if size ≤ buf.length then (.closed, buf, .ok piece :: q)
      else if piece = [] then (.closed, buf, q)
      else if piece.length ≤ size - buf.length then collect size (buf ++ piece) q
      else (.closed, buf ++ piece.take (size - buf.length),
        .ok (piece.drop (size - buf.length)) :: q)

/-- A full buffer is taken for the end of the input. -/
theorem collect_full {q : List (Except Errno Bytes)} (h : size ≤ buf.length) :
    collect size buf q = (.closed, buf, q) := by
  rcases q with - | ⟨e | piece, q⟩
  · rw [collect, if_pos h]
  · rw [collect, if_pos h]
  · rw [collect, if_pos h]

theorem readTurn_error {e : Errno} (h : w.fileAt fd = some (i, f))
    (hr : f.receive (size - buf.length) (.error .eagain) = (.error e, f')) :
    Returns (readTurn fd size buf) w (Sum.inr (if e = .eagain then .dry else .failed e, buf))
      (w.setFile i f') := by
  rw [readTurn, returns_call_bind, World.read, onFile_eq h, hr]
  show Returns (if e = .eagain ∨ e = .eagain then _ else _) _ _ _
  by_cases he : e = .eagain
  · rw [if_pos (.inl he), if_pos he]
    exact returns_pure.mpr ⟨rfl, rfl⟩
  · rw [if_neg (not_or.mpr ⟨he, he⟩), if_neg he]
    exact returns_pure.mpr ⟨rfl, rfl⟩

theorem readTurn_closed (h : w.fileAt fd = some (i, f))
    (hr : f.receive (size - buf.length) (.error .eagain) = (.ok [], f')) :
    Returns (readTurn fd size buf) w (Sum.inr (.closed, buf)) (w.setFile i f') := by
  rw [readTurn, returns_call_bind, World.read, onFile_eq h, hr]
  exact returns_pure.mpr ⟨rfl, rfl⟩

theorem readTurn_piece {piece : Bytes} (h : w.fileAt fd = some (i, f)) (hne : piece ≠ [])
    (hr : f.receive (size - buf.length) (.error .eagain) = (.ok piece, f')) :
    Returns (readTurn fd size buf) w (Sum.inl (buf ++ piece)) (w.setFile i f') := by
  rw [readTurn, returns_call_bind, World.read, onFile_eq h, hr]
  obtain ⟨c, piece, rfl⟩ := List.exists_cons_of_ne_nil hne
  exact returns_pure.mpr ⟨rfl, rfl⟩

/-- A full buffer ends the loop as if the peer had closed. -/
theorem readLoop_full (h : w.fileAt fd = some (i, f)) (hfull : size ≤ buf.length) :
    Returns (loop (readTurn fd size) buf) w (.closed, buf) w := by
  have hr : f.receive (size - buf.length) (.error .eagain) = (.ok [], f) := by
    rw [Nat.sub_eq_zero_of_le hfull]
    exact if_pos rfl
  have ht := readTurn_closed h hr
  rw [setFile_self h] at ht
  exact Returns.loop_exit ht

/-- The loop over `read`, evaluated. -/
theorem readLoop_returns (size : Nat) (buf : Bytes) {q : List (Except Errno Bytes)}
    (h : w.fileAt fd = some (i, f)) (hq : f.read = q) :
    Returns (loop (readTurn fd size) buf) w
      ((collect size buf q).1, (collect size buf q).2.1)
      (w.setFile i { f with read := (collect size buf q).2.2 }) := by
  induction q generalizing w f buf with
  | nil =>
      by_cases hfull : size ≤ buf.length
      · rw [collect_full hfull, ← hq, setFile_self h]
        exact readLoop_full h hfull
      · have hr : f.receive (size - buf.length) (.error .eagain)
            = (.error .eagain, { f with read := [] }) := by
          rw [File.receive, if_neg (by omega), hq]
          rfl
        rw [collect, if_neg hfull]
        exact Returns.loop_exit (readTurn_error h hr)
  | cons x q ih =>
      by_cases hfull : size ≤ buf.length
      · rw [collect_full hfull, ← hq, setFile_self h]
        exact readLoop_full h hfull
      have hcount : ¬ size - buf.length = 0 := by omega
      rcases x with e | piece
      · have hr : f.receive (size - buf.length) (.error .eagain)
            = (.error e, { f with read := q }) := by
          rw [File.receive, if_neg hcount, hq]
          rfl
        rw [collect, if_neg hfull]
        exact Returns.loop_exit (readTurn_error h hr)
      rw [collect, if_neg hfull]
      by_cases hnil : piece = []
      · have hr : f.receive (size - buf.length) (.error .eagain)
            = (.ok [], { f with read := q }) := by
          rw [File.receive, if_neg hcount, hq, hnil]
          exact if_pos (Nat.zero_le _)
        rw [if_pos hnil]
        exact Returns.loop_exit (readTurn_closed h hr)
      rw [if_neg hnil]
      by_cases hfit : piece.length ≤ size - buf.length
      · have hr : f.receive (size - buf.length) (.error .eagain)
            = (.ok piece, { f with read := q }) := by
          rw [File.receive, if_neg hcount, hq]
          exact if_pos hfit
        have hrest : Returns (loop (readTurn fd size) (buf ++ piece))
            (w.setFile i { f with read := q }) _ _ := ih (buf ++ piece) (fileAt_setFile h) rfl
        rw [setFile_setFile] at hrest
        rw [if_pos hfit]
        exact Returns.loop_next (readTurn_piece h hnil hr) hrest
      · -- the buffer is full now
        have hr : f.receive (size - buf.length) (.error .eagain)
            = (.ok (piece.take (size - buf.length)),
              { f with read := .ok (piece.drop (size - buf.length)) :: q }) := by
          rw [File.receive, if_neg hcount, hq]
          exact if_neg hfit
        have hne : piece.take (size - buf.length) ≠ [] := by
          intro he
          have := congrArg List.length he
          rw [List.length_take, List.length_nil] at this
          omega
        have hfull' : size ≤ (buf ++ piece.take (size - buf.length)).length := by
          rw [List.length_append, List.length_take]
          omega
        rw [if_neg hfit]
        exact Returns.loop_next (readTurn_piece h hne hr)
          (readLoop_full (fileAt_setFile h) hfull')

/-- `read` answers `got`, in pieces that leave room in a buffer of `size`
bytes, and then the error `e`.  Answers that are used up are `EAGAIN`. -/
def Meets (size : Nat) (answers : List (Except Errno Bytes)) (got : Bytes) (e : Errno) : Prop :=
  ∃ (pieces : List Bytes) (rest : List (Except Errno Bytes)),
    answers = pieces.map .ok ++ rest ∧ (∀ p ∈ pieces, p ≠ []) ∧ pieces.flatten = got ∧
      got.length < size ∧ rest.headD (.error .eagain) = .error e

theorem collect_of_pieces {pieces : List Bytes} {rest : List (Except Errno Bytes)} {e : Errno}
    (hne : ∀ p ∈ pieces, p ≠ []) (hlen : (buf ++ pieces.flatten).length < size)
    (he : rest.headD (.error .eagain) = .error e) :
    collect size buf (pieces.map .ok ++ rest)
      = (if e = .eagain then .dry else .failed e, buf ++ pieces.flatten, rest.tail) := by
  induction pieces generalizing buf with
  | nil =>
      rw [List.flatten_nil, List.append_nil] at hlen ⊢
      have hroom : ¬ size ≤ buf.length := Nat.not_le_of_lt hlen
      rcases rest with - | ⟨x, rest⟩
      · cases he
        rw [List.map_nil, List.nil_append, collect, if_neg hroom, if_pos rfl]
        rfl
      · cases he
        rw [List.map_nil, List.nil_append, collect, if_neg hroom]
        rfl
  | cons p pieces ih =>
      rw [List.flatten_cons, ← List.append_assoc] at hlen ⊢
      have hlen' := hlen
      rw [List.length_append, List.length_append] at hlen'
      rw [List.map_cons, List.cons_append, collect, if_neg (by omega),
        if_neg (hne p List.mem_cons_self), if_pos (by omega)]
      exact ih (fun p hp => hne p (List.mem_cons_of_mem _ hp)) hlen

/-- What the loop has read, and how it ends, are determined. -/
theorem Meets.collect {answers : List (Except Errno Bytes)} {got : Bytes} {e : Errno}
    (h : Meets size answers got e) : ∃ rest, collect size [] answers
      = (if e = .eagain then .dry else .failed e, got, rest) := by
  obtain ⟨pieces, rest, rfl, hne, rfl, hlen, he⟩ := h
  exact ⟨rest.tail, collect_of_pieces hne hlen he⟩

/-- The loop meets an error, or it ends as if the peer had closed. -/
theorem collect_cases (size : Nat) (buf : Bytes) (answers : List (Except Errno Bytes)) :
    (∃ got rest, collect size buf answers = (.closed, got, rest)) ∨
    ∃ (pieces : List Bytes) (rest : List (Except Errno Bytes)) (e : Errno),
      answers = pieces.map .ok ++ rest ∧ (∀ p ∈ pieces, p ≠ []) ∧
      (buf ++ pieces.flatten).length < size ∧ rest.headD (.error .eagain) = .error e := by
  induction answers generalizing buf with
  | nil =>
      by_cases hfull : size ≤ buf.length
      · exact .inl ⟨buf, [], collect_full hfull⟩
      · exact .inr ⟨[], [], .eagain, rfl, by simp, by simpa using hfull, rfl⟩
  | cons x q ih =>
      by_cases hfull : size ≤ buf.length
      · exact .inl ⟨buf, _, collect_full hfull⟩
      rcases x with e | piece
      · exact .inr ⟨[], .error e :: q, e, rfl, by simp, by simpa using hfull, rfl⟩
      rw [collect, if_neg hfull]
      by_cases hnil : piece = []
      · exact .inl ⟨buf, q, by rw [if_pos hnil]⟩
      rw [if_neg hnil]
      by_cases hfit : piece.length ≤ size - buf.length
      · rw [if_pos hfit]
        refine (ih (buf ++ piece)).imp_right ?_
        rintro ⟨pieces, rest, e, rfl, hne, hlen, he⟩
        refine ⟨piece :: pieces, rest, e, rfl, List.forall_mem_cons.mpr ⟨hnil, hne⟩, ?_, he⟩
        rwa [List.flatten_cons, ← List.append_assoc]
      · exact .inl ⟨_, _, by rw [if_neg hfit]⟩

theorem Meets.unique {answers : List (Except Errno Bytes)} {got got' : Bytes} {e e' : Errno}
    (h : Meets size answers got e) (h' : Meets size answers got' e') : got = got' ∧ e = e' := by
  obtain ⟨rest, hc⟩ := h.collect
  obtain ⟨rest', hc'⟩ := h'.collect
  rw [hc, Prod.mk.injEq, Prod.mk.injEq] at hc'
  refine ⟨hc'.2.1, ?_⟩
  have hend := hc'.1
  split_ifs at hend with h₁ h₂
  · exact h₁.trans h₂.symm
  · exact ReadEnd.failed.inj hend

/-- The loop over `read`, when it meets the error `e`. -/
theorem readLoop_meets {got : Bytes} {e : Errno} (h : w.fileAt fd = some (i, f))
    (hm : Meets size f.read got e) : ∃ q, Returns (loop (readTurn fd size) []) w
      (if e = .eagain then .dry else .failed e, got) (w.setFile i { f with read := q }) := by
  obtain ⟨q, hc⟩ := hm.collect
  have hret := readLoop_returns size [] h rfl
  rw [hc] at hret
  exact ⟨q, hret⟩

/-- The loop over `read`, when it meets no error. -/
theorem readLoop_closed (h : w.fileAt fd = some (i, f))
    (hm : ∀ got e, ¬ Meets size f.read got e) : ∃ got q, Returns (loop (readTurn fd size) []) w
      (.closed, got) (w.setFile i { f with read := q }) := by
  rcases collect_cases size [] f.read with ⟨got, q, hc⟩ | ⟨pieces, rest, e, hr, hne, hlen, he⟩
  · have hret := readLoop_returns size [] h rfl
    rw [hc] at hret
    exact ⟨got, q, hret⟩
  · exact absurd ⟨pieces, rest, hr, hne, rfl, hlen, he⟩ (hm pieces.flatten e)

/-- Pieces that fill the buffer end the loop before an error does. -/
theorem collect_overflow {pieces : List Bytes} {rest : List (Except Errno Bytes)}
    (hne : ∀ p ∈ pieces, p ≠ []) (hlen : size ≤ (buf ++ pieces.flatten).length) :
    ∃ got q, collect size buf (pieces.map .ok ++ rest) = (.closed, got, q) := by
  induction pieces generalizing buf with
  | nil =>
      rw [List.flatten_nil, List.append_nil] at hlen
      exact ⟨buf, rest, collect_full hlen⟩
  | cons p pieces ih =>
      rw [List.map_cons, List.cons_append]
      by_cases hfull : size ≤ buf.length
      · exact ⟨buf, _, collect_full hfull⟩
      rw [collect, if_neg hfull, if_neg (hne p List.mem_cons_self)]
      by_cases hfit : p.length ≤ size - buf.length
      · rw [if_pos hfit]
        rw [List.flatten_cons, ← List.append_assoc] at hlen
        exact ih (fun p hp => hne p (List.mem_cons_of_mem _ hp)) hlen
      · rw [if_neg hfit]
        exact ⟨_, _, rfl⟩

theorem not_meets_of_overflow {pieces : List Bytes} {rest : List (Except Errno Bytes)}
    (hne : ∀ p ∈ pieces, p ≠ []) (hlen : size ≤ pieces.flatten.length) (got : Bytes) (e : Errno) :
    ¬ Meets size (pieces.map .ok ++ rest) got e := by
  intro hm
  obtain ⟨q, hc⟩ := hm.collect
  obtain ⟨got', q', hc'⟩ := @collect_overflow size [] pieces rest hne hlen
  rw [hc] at hc'
  split_ifs at hc' <;> cases congrArg Prod.fst hc'

/-! ### The loop over `write` -/

/-- The error `write` fails with for another reason than `EAGAIN`. -/
def writeError (answer : Except Errno Nat) : Option Errno :=
  match answer with
  | .error e => if e ≠ .eagain then some e else none
  | .ok _ => none

/-- The first turn of the loop over `write`: it ends the loop, or nothing is
left. -/
theorem writeTurn_returns {len : Int} (buf : Bytes) (h : w.fileAt fd = some (i, f))
    (hlen : 0 < len) :
    Returns (writeTurn fd buf len len) w
        (Sum.inr (writeError (f.transmit buf len (.error .eagain)).1))
        (w.setFile i (f.transmit buf len (.error .eagain)).2) ∨
      writeError (f.transmit buf len (.error .eagain)).1 = none ∧ ∃ n, ¬ 0 < n ∧
        Returns (writeTurn fd buf len len) w (Sum.inl n)
          (w.setFile i (f.transmit buf len (.error .eagain)).2) := by
  have hbuf : buf.drop (len - len).toNat = buf := by
    rw [Int.sub_self]
    rfl
  have hcall : ∀ {a w'} {answer : Except Errno Nat},
      (f.transmit buf len (.error .eagain)).1 = answer →
      Returns (match answer with
        | .error e => if e ≠ .eagain then pure (Sum.inr (some e)) else pure (Sum.inr none)
        | .ok nwrite => if (nwrite : Int) < len then pure (Sum.inr none)
            else pure (Sum.inl (len - nwrite)))
        (w.setFile i (f.transmit buf len (.error .eagain)).2) a w' →
      Returns (writeTurn fd buf len len) w a w' := by
    rintro a w' answer rfl ha
    rw [writeTurn, if_pos hlen, returns_call_bind, hbuf, World.write, onFile_eq h]
    exact ha
  rcases hr : (f.transmit buf len (.error .eagain)).1 with e | k
  · refine .inl (hcall hr ?_)
    show Returns (if e ≠ .eagain then _ else _) _ _ _
    rw [writeError]
    split <;> exact returns_pure.mpr ⟨rfl, rfl⟩
  · by_cases hk : (k : Int) < len
    · refine .inl (hcall hr ?_)
      show Returns (if (k : Int) < len then _ else _) _ _ _
      rw [if_pos hk]
      exact returns_pure.mpr ⟨rfl, rfl⟩
    · refine .inr ⟨rfl, len - k, by omega, hcall hr ?_⟩
      show Returns (if (k : Int) < len then _ else _) _ _ _
      rw [if_neg hk]
      exact returns_pure.mpr ⟨rfl, rfl⟩

theorem writeTurn_nothing {len n : Int} (hn : ¬ 0 < n) :
    Returns (writeTurn fd buf len n) w (Sum.inr none) w := by
  rw [writeTurn, if_neg hn]
  exact returns_pure.mpr ⟨rfl, rfl⟩

/-- The loop over `write`, evaluated: with something to write there is one
call. -/
theorem writeLoop_returns {len : Int} (buf : Bytes) (h : w.fileAt fd = some (i, f))
    (hlen : 0 < len) :
    Returns (loop (writeTurn fd buf len) len) w
      (writeError (f.transmit buf len (.error .eagain)).1)
      (w.setFile i (f.transmit buf len (.error .eagain)).2) := by
  obtain hturn | ⟨hnone, n, hn, hturn⟩ := writeTurn_returns buf h hlen
  · exact Returns.loop_exit hturn
  · -- all of it was taken, so the next turn ends the loop
    rw [hnone]
    exact Returns.loop_next hturn (Returns.loop_exit (writeTurn_nothing hn))

theorem writeLoop_nothing {len : Int} (hlen : ¬ 0 < len) :
    Returns (loop (writeTurn fd buf len) len) w none w :=
  Returns.loop_exit (writeTurn_nothing hlen)

/-! ### `handle_close` -/

/-- `conn` is the object of a client that waits for input, behind the file
`f` with the number `i`. -/
structure Served (w : World) (conn : Addr) (r : ReqT) (i : FileId) (f : File) : Prop where
  req : w.reqs.get conn = some r
  efd : r.efd = w.epfd
  sd : r.sd = some ()
  ssl : r.ssl = none
  data : r.data = none
  file : w.fileAt r.fd = some (i, f)
  registered : w.interest.get r.fd = some ⟨inEdge, conn⟩
  heap : w.timers.heap = none

/-- `conn` is the object of a client behind the file `f` with the number `i`,
whatever it is registered for. -/
structure Held (w : World) (conn : Addr) (r : ReqT) (i : FileId) (f : File) : Prop where
  req : w.reqs.get conn = some r
  sd : r.sd = some ()
  ssl : r.ssl = none
  data : r.data = none
  file : w.fileAt r.fd = some (i, f)
  heap : w.timers.heap = none

theorem Served.held (h : Served w conn r i f) : Held w conn r i f := { h with }

theorem Served.setFile (h : Served w conn r i f) : Served (w.setFile i f') conn r i f' :=
  { h with file := fileAt_setFile h.file }

/-- Some of the input is read. -/
theorem Served.setRead (h : Served w conn r i f) (q : List (Except Errno Bytes)) :
    Served (w.setFile i { f with read := q }) conn r i { f with read := q } := h.setFile

theorem Served.setShm {sd : ShmData} (h : Served w conn r i f) :
    Served (w.setShm sd) conn r i f := { h with }

/-- A worker with one client, on the descriptor 5: the calls on it answer
`ans`, and `socket` answers `sockets`. -/
def oneClient (type : LisType) (ans : Answers) (sockets : List (Except Errno (Fd × Answers))) :
    World where
  fds := Table.empty.set 5 0
  files := Table.empty.push (ans.file (some 4))
  low := 4
  epfd := 3
  interest := Table.empty.set 5 ⟨inEdge, 0⟩
  reqs := Table.empty.push ⟨5, 3, type, none, none, some ()⟩
  ssls := Table.empty
  timers := ⟨none, fun _ => ⟨0, (), none⟩, []⟩
  shm := ⟨1, 0, 0, 0⟩
  backlog _ := []
  sockets := sockets
  closes := []
  accepts := [(4, .ok 5)]

theorem oneClient_served (type : LisType) (ans : Answers)
    (sockets : List (Except Errno (Fd × Answers))) :
    Served (oneClient type ans sockets) 0 ⟨5, 3, type, none, none, some ()⟩ 0
      (ans.file (some 4)) :=
  ⟨rfl, rfl, rfl, rfl, rfl, rfl, rfl, rfl⟩

/-- The object and the descriptor are released. -/
structure Released (w : World) (conn : Addr) (fd : Fd) : Prop where
  freed : w.reqs.get conn = none
  closed : w.fds.get fd = none
  gone : w.interest.get fd = none

/-- A connection that is still there was not released. -/
theorem not_released_of_req (h : w.reqs.get conn = some r) : ¬ Released w conn r.fd := by
  intro hrel
  have hfreed := hrel.freed
  rw [h] at hfreed
  cases hfreed

/-- What was written to the files is the same. -/
def SameOutput (w w' : World) : Prop :=
  ∀ j, (w'.files.get j).map File.sent = (w.files.get j).map File.sent

theorem SameOutput.onFile {α : Type} {bad : α} {call : File → α × File}
    (hc : ∀ f, (call f).2.sent = f.sent) : SameOutput w (World.onFile bad call fd w).2 := by
  rcases onFile_cases bad call fd w with he | ⟨i, f, -, hf, he⟩
  · rw [he]
    exact fun _ => rfl
  · rw [he]
    intro j
    rcases eq_or_ne j i with rfl | hne
    · rw [setFile_files, Table.get_set_self, hf]
      exact congrArg some (hc f)
    · rw [setFile_files, Table.get_set_of_ne hne]

theorem SameOutput.epollCtl (efd : Fd) (op : EpollOp) :
    SameOutput w (World.epollCtl efd op fd w).2 := by
  have h : SameOutput w (ctlCall fd w).2 := SameOutput.onFile fun _ => rfl
  rcases epollCtl_cases efd op fd w with ⟨e, he⟩ | ⟨ev, -, he⟩ | ⟨-, he⟩
  · rw [he]
    exact h
  · rw [he]
    exact h
  · rw [he]
    exact h

/-- `handle_close` of a client releases it. -/
theorem Held.close_returns (h : Held w conn r i f) :
    ∃ w', Returns (handleClose conn) w () w' ∧ Released w' conn r.fd ∧ SameOutput w w' := by
  let w₁ := ((epollCtl r.efd .del r.fd w).2).closeFd r.fd
  let w₂ := w₁.setShm { w₁.shm with closeNum := w₁.shm.closeNum + 1 }
  have hheap : w₂.timers.heap = none := by
    show (epollCtl r.efd .del r.fd w).2.timers.heap = none
    rcases epollCtl_cases r.efd .del r.fd w with ⟨e, he⟩ | ⟨ev, -, he⟩ | ⟨-, he⟩ <;>
      (rw [he]; exact (congrArg Timers.heap onFile_timers).trans h.heap)
  refine ⟨w₂.freeReq conn, ?_, ?_, ?_⟩
  · rw [handleClose, returns_reqAt_bind h.req, h.sd, h.data, h.ssl, returns_call_bind,
      returns_call_bind, close_snd, returns_count_bind]
    refine (returns_deleteTimer_bind hheap).mpr ?_
    rw [freeData_none, closeSsl_none, returns_pure_bind, returns_pure_bind]
    exact returns_store.mpr rfl
  · exact ⟨Table.get_erase_self, Table.get_erase_self, Table.get_erase_self⟩
  · exact SameOutput.epollCtl r.efd .del

/-- `handle_close` of a client that is in order. -/
theorem handleClose_returns (h : Served w conn r i f) :
    ∃ w', Returns (handleClose conn) w () w' ∧ Released w' conn r.fd ∧ SameOutput w w' :=
  h.held.close_returns

end DmfServer
