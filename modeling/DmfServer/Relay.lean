/-
DmfServer/Relay.lean

What `event_http_reverse` relays.

The handler reads the request into a buffer of 4096 bytes, sends it with one
call, takes the response with one call into the same buffer, and writes that
to the client with one call.  `eventHttpReverse_relays` says what is written
on both sides, in terms of the answers of the calls.

So the relay is transparent exactly when each direction fits into its calls
(`eventHttpReverse_transparent_iff`): a request that fills the buffer is
taken for the end of the connection, and of everything else what the one
call does not move is lost.
-/
import DmfServer.Calls

namespace DmfServer

open Imperative Imperative.Prog Strings World

variable {w w' : World} {s : Fd} {i b : FileId} {f g : File} {r : ReqT} {conn : Addr}
variable {ans : Answers} {got : Bytes}

/-! ### The client, while the upstream is talked to -/

theorem Served.fd_ne (h : Served w conn r i f) (hfree : w.fds.get s = none) : r.fd ≠ s := by
  intro heq
  have hi := (fileAt_eq_some.mp h.file).1
  rw [heq, hfree] at hi
  cases hi

theorem Served.file_ne (h : Served w conn r i f) : i ≠ w.files.bound :=
  ne_of_lt (Table.lt_bound (fileAt_eq_some.mp h.file).2)

theorem Served.setSockets (h : Served w conn r i f) {q : List (Except Errno (Fd × Answers))} :
    Served (w.setSockets q) conn r i f := { h with }

theorem Served.setFile_other (h : Served w conn r i f) (hne : i ≠ b) :
    Served (w.setFile b g) conn r i f := by
  obtain ⟨hi, hf⟩ := fileAt_eq_some.mp h.file
  exact { h with file := fileAt_eq_some.mpr ⟨hi, (Table.get_set_of_ne hne).trans hf⟩ }

theorem Served.openFile (h : Served w conn r i f) (hfree : w.fds.get s = none) :
    Served (w.openFile s g) conn r i f := by
  obtain ⟨hi, hf⟩ := fileAt_eq_some.mp h.file
  exact { h with
    file := fileAt_eq_some.mpr ⟨(Table.get_set_of_ne (h.fd_ne hfree)).trans hi,
      (Table.get_push_of_ne h.file_ne).trans hf⟩ }

theorem Served.closeFd (h : Served w conn r i f) (hne : r.fd ≠ s) :
    Served (w.closeFd s) conn r i f := by
  obtain ⟨hi, hf⟩ := fileAt_eq_some.mp h.file
  exact { h with
    file := fileAt_eq_some.mpr ⟨(Table.get_erase_of_ne hne).trans hi, hf⟩
    registered := (Table.get_erase_of_ne hne).trans h.registered }

/-! ### The upstream -/

/-- What the upstream will answer, when `socket` and `connect` succeed. -/
def upstream : List (Except Errno (Fd × Answers)) → Option Answers
  | .ok (_, ans) :: _ => if ans.connect.headD true then some ans else none
  | _ => none

/-- How many of `n` bytes a call of `write` or `send` takes. -/
def taken (answer : Except Errno Nat) (n : Nat) : Nat :=
  match answer with
  | .error _ => 0
  | .ok k => min k n

theorem taken_le (answer : Except Errno Nat) (n : Nat) : taken answer n ≤ n := by
  rcases answer with e | k
  · exact Nat.zero_le n
  · exact Nat.min_le_right k n

/-- What a call of `recv` with room for `size` bytes answers: the return
value, and the bytes. -/
def received (size : Nat) (answer : Except Errno Bytes) : Int × Bytes :=
  match answer with
  | .error _ => (-1, [])
  | .ok piece => ((piece.take size).length, piece.take size)

theorem File.transmit_sent (f : File) (buf : Bytes) (n : Nat) (dry : Except Errno Nat) :
    (f.transmit buf n dry).2.sent = f.sent ++ buf.take (taken (f.write.headD dry) n) := by
  rw [File.transmit, if_neg (by omega)]
  rcases f.write.headD dry with e | k
  · show f.sent = f.sent ++ buf.take 0
    rw [List.take_zero, List.append_nil]
  · show f.sent ++ buf.take (min k (n : Int).toNat) = f.sent ++ buf.take (min k n)
    rw [Int.toNat_natCast]

theorem File.transmit_read (f : File) (buf : Bytes) (len : Int) (dry : Except Errno Nat) :
    (f.transmit buf len dry).2.read = f.read := by
  rw [File.transmit]
  split_ifs
  · rfl
  · rcases f.write.headD dry with e | k <;> rfl

theorem File.transmit_eq (f : File) (buf : Bytes) (n : Nat) (dry : Except Errno Nat) :
    (f.transmit buf n dry).1 = (f.write.headD dry).map (min · n) := by
  rw [File.transmit, if_neg (by omega)]
  rcases f.write.headD dry with e | k
  · rfl
  · show Except.ok (min k (n : Int).toNat) = Except.ok (min k n)
    rw [Int.toNat_natCast]

theorem File.receive_eq (f : File) {size : Nat} (hsize : 0 < size) (dry : Except Errno Bytes) :
    (f.receive size dry).1 = (f.read.headD dry).map (List.take size) := by
  rw [File.receive, if_neg (by omega)]
  rcases f.read.headD dry with e | piece
  · rfl
  · show (if piece.length ≤ size then _ else _ : Except Errno Bytes × File).1 = _
    by_cases hlen : piece.length ≤ size
    · rw [if_pos hlen]
      exact congrArg Except.ok (List.take_of_length_le hlen).symm
    · rw [if_neg hlen]
      rfl

/-- The upstream's file, after the call of `connect`. -/
def dialled (ans : Answers) : File := { ans.file none with connect := ans.connect.tail }

/-- The world in which `client_socket` has called `connect` on the descriptor
`s`. -/
def World.dials (s : Fd) (ans : Answers) (q : List (Except Errno (Fd × Answers))) (w : World) :
    World :=
  ((w.openFile s (ans.file none)).setSockets q).setFile w.files.bound (dialled ans)

/-- `client_socket`, when `socket` succeeds: whatever `connect` answers, the
descriptor is open. -/
theorem clientSocket_dials {hint : Fd} {q : List (Except Errno (Fd × Answers))}
    (hq : w.sockets = .ok (hint, ans) :: q) :
    Returns clientSocket w (if ans.connect.headD true then some (w.fds.pick w.low hint) else none)
      (w.dials (w.fds.pick w.low hint) ans q) ∧
    (w.dials (w.fds.pick w.low hint) ans q).fileAt (w.fds.pick w.low hint)
      = some (w.files.bound, dialled ans) := by
  have hat : ((w.openFile (w.fds.pick w.low hint) (ans.file none)).setSockets q).fileAt
      (w.fds.pick w.low hint) = some (w.files.bound, ans.file none) :=
    fileAt_eq_some.mpr ⟨Table.get_set_self, Table.get_push_self⟩
  refine ⟨?_, fileAt_setFile hat⟩
  rw [clientSocket, returns_call_bind, World.socket, hq, returns_call_bind, World.connect,
    onFile_eq hat]
  show Returns (if ans.connect.headD true then _ else _) _ _ _
  split_ifs
  · exact returns_pure.mpr ⟨rfl, rfl⟩
  · exact returns_pure.mpr ⟨rfl, rfl⟩

/-- It is not the client's. -/
theorem Served.dials {hint : Fd} (hs : Served w conn r i f)
    (q : List (Except Errno (Fd × Answers))) :
    Served (w.dials (w.fds.pick w.low hint) ans q) conn r i f :=
  (hs.openFile Table.get_pick).setSockets.setFile_other hs.file_ne

/-- `client_socket`, when the upstream accepts. -/
theorem clientSocket_returns (h : upstream w.sockets = some ans) :
    ∃ s w', Returns clientSocket w (some s) w' ∧ w.fds.get s = none ∧
      w'.fileAt s = some (w.files.bound, dialled ans) ∧
      ∀ {conn r i f}, Served w conn r i f → Served w' conn r i f := by
  rcases hq : w.sockets with - | ⟨e | ⟨hint, ans'⟩, q⟩
  · rw [hq] at h
    cases h
  · rw [hq] at h
    cases h
  · rw [hq, upstream] at h
    split_ifs at h with hc
    obtain rfl : ans' = ans := Option.some.inj h
    obtain ⟨hret, hat⟩ := clientSocket_dials hq
    rw [if_pos hc] at hret
    exact ⟨_, _, hret, Table.get_pick, hat, fun hs => hs.dials q⟩

/-- `client_socket`, when there is no upstream. -/
theorem clientSocket_refused (h : upstream w.sockets = none) :
    ∃ w', Returns clientSocket w none w' ∧
      ∀ {conn r i f}, Served w conn r i f → Served w' conn r i f := by
  rcases hq : w.sockets with - | ⟨e | ⟨hint, ans⟩, q⟩
  · refine ⟨w, ?_, fun hs => hs⟩
    rw [clientSocket, returns_call_bind, World.socket, hq]
    exact returns_pure.mpr ⟨rfl, rfl⟩
  · refine ⟨w.setSockets q, ?_, fun hs => hs.setSockets⟩
    rw [clientSocket, returns_call_bind, World.socket, hq]
    exact returns_pure.mpr ⟨rfl, rfl⟩
  · rw [hq, upstream] at h
    split_ifs at h with hc
    obtain ⟨hret, -⟩ := clientSocket_dials hq
    rw [if_neg hc] at hret
    exact ⟨_, hret, fun hs => hs.dials q⟩

/-- The output of the file `i` is `out`. -/
def Wrote (w : World) (i : FileId) (out : Bytes) : Prop :=
  (w.files.get i).map File.sent = some out

/-- One call of `send` and one of `recv`; the descriptor is given back. -/
theorem exchange_calls (buf : Bytes) (len : Int) (h : w.fileAt s = some (b, g)) :
    ∃ g' : File, Returns (exchange s buf len) w (received 4096 (g.read.headD (.ok [])))
        ((w.setFile b g').closeFd s) ∧
      g'.sent = (g.transmit buf len (.ok len.toNat)).2.sent := by
  set g₁ := (g.transmit buf len (.ok len.toNat)).2 with hg₁
  refine ⟨(g₁.receive 4096 (.ok [])).2, ?_, (File.receive_quiet 4096 (.ok []) g₁).2.1⟩
  rw [exchange, returns_call_bind, World.send, onFile_eq h, returns_call_bind, World.recv, ← hg₁,
    onFile_eq (fileAt_setFile h), returns_call_bind, close_snd, setFile_setFile]
  refine returns_pure.mpr ⟨?_, rfl⟩
  rw [File.receive_eq g₁ (by omega), hg₁, File.transmit_read]
  rcases g.read.headD (.ok []) with e | piece <;> rfl

/-- What the upstream was sent, for all of a buffer. -/
theorem exchange_returns (buf : Bytes) (h : w.fileAt s = some (b, g)) :
    ∃ w', Returns (exchange s buf buf.length) w (received 4096 (g.read.headD (.ok []))) w' ∧
      Wrote w' b (g.sent ++ buf.take (taken (g.write.headD (.ok buf.length)) buf.length)) ∧
      ∀ {conn r i f}, Served w conn r i f → r.fd ≠ s → i ≠ b → Served w' conn r i f := by
  obtain ⟨g', hret, hsent⟩ := exchange_calls buf buf.length h
  rw [Int.toNat_natCast, File.transmit_sent] at hsent
  refine ⟨_, hret, ?_, fun hs hfd hb => (hs.setFile_other hb).closeFd hfd⟩
  rw [Wrote, closeFd_files, setFile_files, Table.get_set_self, Option.map_some, hsent]

/-! ### `event_http_reverse` -/

theorem Wrote.same (h : SameOutput w w') {out : Bytes} : Wrote w' i out ↔ Wrote w i out := by
  rw [Wrote, Wrote, h i]

theorem Served.wrote (h : Served w conn r i f) : Wrote w i f.sent :=
  congrArg (Option.map File.sent) (fileAt_eq_some.mp h.file).2

/-- The input ends, or seems to, before the request does. -/
theorem eventHttpReverse_closed (h : Served w conn r i f)
    (hm : ∀ got e, ¬ Meets 4096 f.read got e) :
    ∃ q w', Returns (eventHttpReverse conn r.fd) w () w' ∧ Released w' conn r.fd ∧
      SameOutput (w.setFile i { f with read := q }) w' := by
  obtain ⟨got, q, hloop⟩ := readLoop_closed h.file hm
  obtain ⟨w', hret, hrel, hout⟩ := handleClose_returns (h.setRead q)
  exact ⟨q, w', hloop.bind hret, hrel, hout⟩

/-- Another error than `EAGAIN`: the client is left as it is. -/
theorem eventHttpReverse_fails {e : Errno} (h : Served w conn r i f)
    (hm : Meets 4096 f.read got e) (he : e ≠ .eagain) :
    ∃ w' f', Returns (eventHttpReverse conn r.fd) w () w' ∧ Served w' conn r i f' := by
  obtain ⟨q, hloop⟩ := readLoop_meets h.file hm
  rw [if_neg he] at hloop
  exact ⟨_, _, hloop.bind (returns_pure.mpr ⟨rfl, rfl⟩), h.setRead q⟩

/-- No upstream: the client is left as it is. -/
theorem eventHttpReverse_refused (h : Served w conn r i f) (hm : Meets 4096 f.read got .eagain)
    (hup : upstream w.sockets = none) :
    ∃ w' f', Returns (eventHttpReverse conn r.fd) w () w' ∧ Served w' conn r i f' := by
  obtain ⟨q, hloop⟩ := readLoop_meets h.file hm
  rw [if_pos rfl] at hloop
  have hup' : upstream (w.setFile i { f with read := q }).sockets = none := hup
  obtain ⟨w', hret, hserved⟩ := clientSocket_refused hup'
  exact ⟨w', _, hloop.bind (hret.bind (returns_pure.mpr ⟨rfl, rfl⟩)), hserved (h.setRead q)⟩

theorem Served.not_released (h : Served w conn r i f) : ¬ Released w conn r.fd :=
  not_released_of_req h.req

/-- `write` fails on a response that was not empty. -/
def Undelivered (answer : Except Errno Bytes) (write : Except Errno Nat) : Prop :=
  ∃ piece e, answer = .ok piece ∧ piece ≠ [] ∧ write = .error e ∧ e ≠ .eagain

/-- Writing the response to the client. -/
theorem writeLoop_delivers (h : w.fileAt s = some (i, f)) (answer : Except Errno Bytes) :
    ∃ x f', Returns (loop (writeTurn s (received 4096 answer).2 (received 4096 answer).1)
        (received 4096 answer).1) w x (w.setFile i f') ∧
      f'.sent = f.sent ++ (received 4096 answer).2.take
        (taken (f.write.headD (.error .eagain)) (received 4096 answer).2.length) ∧
      (x = none ↔ ¬ Undelivered answer (f.write.headD (.error .eagain))) := by
  have hnothing : ∀ {out : Bytes} {len : Int}, ¬ 0 < len →
      Returns (loop (writeTurn s out len) len) w none (w.setFile i f) := by
    intro out len hlen
    rw [setFile_self h]
    exact writeLoop_nothing hlen
  rcases answer with e | piece
  · refine ⟨none, f, hnothing (show ¬ (0 : Int) < -1 by omega), ?_, iff_of_true rfl ?_⟩
    · show f.sent = f.sent ++ List.take _ []
      rw [List.take_nil, List.append_nil]
    · rintro ⟨piece, e', hans, -⟩
      cases hans
  rcases eq_or_ne piece [] with rfl | hne
  · refine ⟨none, f, hnothing (show ¬ (0 : Int) < 0 by omega), ?_, iff_of_true rfl ?_⟩
    · show f.sent = f.sent ++ List.take _ []
      rw [List.take_nil, List.append_nil]
    · rintro ⟨piece, e', hans, hne, -⟩
      exact hne (Except.ok.inj hans).symm
  · have hpos : 0 < (piece.take 4096).length := by
      have := List.length_pos_of_ne_nil hne
      rw [List.length_take]
      omega
    have hret := writeLoop_returns (piece.take 4096) h (Int.natCast_pos.mpr hpos)
    refine ⟨_, _, hret, File.transmit_sent f _ _ _, ?_⟩
    rw [File.transmit_eq]
    rcases hw : f.write.headD (.error .eagain) with e | k
    · show (if e ≠ .eagain then some e else none) = none ↔ _
      by_cases he : e = .eagain
      · rw [if_neg (not_not.mpr he)]
        refine iff_of_true rfl ?_
        rintro ⟨piece', e', -, -, hans, hne'⟩
        exact hne' ((Except.error.inj hans).symm.trans he)
      · rw [if_pos he]
        exact iff_of_false (Option.some_ne_none e) (not_not.mpr ⟨piece, e, rfl, hne, rfl, he⟩)
    · refine iff_of_true rfl ?_
      rintro ⟨piece', e', -, -, hans, -⟩
      cases hans

/-- The rest of `event_http_reverse`, when the upstream answers. -/
theorem eventHttpReverse_relays (h : Served w conn r i f) (hm : Meets 4096 f.read got .eagain)
    (hup : upstream w.sockets = some ans) :
    ∃ w', Returns (eventHttpReverse conn r.fd) w () w' ∧
      Wrote w' w.files.bound (got.take (taken (ans.write.headD (.ok got.length)) got.length)) ∧
      Wrote w' i (f.sent ++ (received 4096 (ans.read.headD (.ok []))).2.take
        (taken (f.write.headD (.error .eagain))
          (received 4096 (ans.read.headD (.ok []))).2.length)) ∧
      (Released w' conn r.fd ↔
        ¬ Undelivered (ans.read.headD (.ok [])) (f.write.headD (.error .eagain))) := by
  obtain ⟨q, hloop⟩ := readLoop_meets h.file hm
  rw [if_pos rfl] at hloop
  have h₁ := h.setRead q
  have hbound : (w.setFile i { f with read := q }).files.bound = w.files.bound :=
    Table.bound_set (Table.lt_bound (fileAt_eq_some.mp h.file).2)
  have hup' : upstream (w.setFile i { f with read := q }).sockets = some ans := hup
  obtain ⟨s, w₂, hdial, hfree, hat, hserved⟩ := clientSocket_returns hup'
  obtain ⟨w₃, hex, hout, hserved'⟩ := exchange_returns got hat
  have h₃ := hserved' (hserved h₁) (h₁.fd_ne hfree) h₁.file_ne
  obtain ⟨x, f', hwrite, hsent, hx⟩ := writeLoop_delivers h₃.file (ans.read.headD (.ok []))
  have h₄ : Served (w₃.setFile i f') conn r i f' := h₃.setFile
  have hup₄ : Wrote (w₃.setFile i f') w.files.bound
      (got.take (taken (ans.write.headD (.ok got.length)) got.length)) := by
    rw [hbound] at hout
    rw [Wrote, setFile_files, Table.get_set_of_ne h.file_ne.symm]
    exact hout
  have hcl₄ := h₄.wrote
  rw [hsent] at hcl₄
  rcases x with - | e
  · obtain ⟨w', hclose, hrel, hsame⟩ := handleClose_returns h₄
    exact ⟨w', hloop.bind (hdial.bind (hex.bind (hwrite.bind hclose))),
      (Wrote.same hsame).mpr hup₄, (Wrote.same hsame).mpr hcl₄, iff_of_true hrel (hx.mp rfl)⟩
  · have hend : Returns (pure () : Prog World Unit) (w₃.setFile i f') () (w₃.setFile i f') :=
      returns_pure.mpr ⟨rfl, rfl⟩
    exact ⟨_, hloop.bind (hdial.bind (hex.bind (hwrite.bind hend))), hup₄, hcl₄,
      iff_of_false h₄.not_released fun hn => Option.some_ne_none e (hx.mpr hn)⟩

/-! ### Transparency -/

theorem Wrote.iff {out out' : Bytes} (h : Wrote w i out) : Wrote w i out' ↔ out = out' := by
  rw [Wrote, show (w.files.get i).map File.sent = some out from h, Option.some.injEq]

/-- The request arrived at the upstream, whose file is the next one, and the
response at the client. -/
def Relayed (w w' : World) (i : FileId) (f : File) (request response : Bytes) : Prop :=
  Wrote w' w.files.bound request ∧ Wrote w' i (f.sent ++ response)

theorem received_eq_nil {size : Nat} {answer : Except Errno Bytes}
    (hend : ∀ p, answer = .ok p → p = []) : (received size answer).2 = [] := by
  rcases answer with e | p
  · rfl
  · rw [hend p rfl]
    exact List.take_nil

/-- What one call of `recv` gets is a part of the response from its
beginning. -/
theorem received_isPrefix {answers : List Bytes} {rest : List (Except Errno Bytes)} (size : Nat)
    (hend : ∀ p, rest.headD (.ok []) = .ok p → p = []) :
    (received size ((answers.map Except.ok ++ rest).headD (.ok []))).2 <+: answers.flatten := by
  rcases answers with - | ⟨p, answers⟩
  · rw [List.map_nil, List.nil_append, received_eq_nil hend]
    exact List.nil_prefix
  · exact (List.take_prefix size p).trans (List.prefix_append p _)

/-- It is all of it, if that comes in one piece and fits. -/
theorem received_iff {answers : List Bytes} {rest : List (Except Errno Bytes)} {size : Nat}
    (ha : ∀ p ∈ answers, p ≠ []) (hend : ∀ p, rest.headD (.ok []) = .ok p → p = []) :
    (received size ((answers.map Except.ok ++ rest).headD (.ok []))).2 = answers.flatten ↔
      answers.length ≤ 1 ∧ answers.flatten.length ≤ size := by
  rcases answers with - | ⟨p, answers⟩
  · rw [List.map_nil, List.nil_append, received_eq_nil hend]
    exact iff_of_true rfl ⟨Nat.zero_le 1, Nat.zero_le size⟩
  · show p.take size = p ++ answers.flatten ↔ _
    rw [List.flatten_cons, List.length_cons, List.length_append]
    constructor
    · intro heq
      have hlen := congrArg List.length heq
      rw [List.length_take, List.length_append] at hlen
      have hnil : answers = [] := by
        rcases answers with - | ⟨p', answers⟩
        · rfl
        · have hpos := List.length_pos_of_ne_nil (ha p' (by simp))
          rw [List.flatten_cons, List.length_append] at hlen
          omega
      rw [hnil] at hlen ⊢
      exact ⟨Nat.le_refl 1, by omega⟩
    · rintro ⟨hone, hlen⟩
      obtain rfl : answers = [] := List.length_eq_zero_iff.mp (by omega)
      rw [List.flatten_nil, List.append_nil]
      exact List.take_of_length_le (by omega)

theorem take_taken_iff {out out' : Bytes} (hp : out <+: out') (answer : Except Errno Nat) :
    out.take (taken answer out.length) = out' ↔
      out = out' ∧ taken answer out'.length = out'.length := by
  constructor
  · intro heq
    have hlen := congrArg List.length heq
    rw [List.length_take] at hlen
    have hout : out = out' := hp.eq_of_length_le (by omega)
    rw [← hout] at hlen ⊢
    have := taken_le answer out.length
    exact ⟨rfl, by omega⟩
  · rintro ⟨rfl, htaken⟩
    rw [htaken, List.take_length]

/-- **When the relay is transparent.**  The request is the pieces that the
client has sent, and the response those that the upstream sends until it
closes.  Both arrive exactly when the request leaves room in the buffer and
one call of `send` takes it, and the response comes as at most one piece,
fits into the buffer, and one call of `write` takes it. -/
theorem eventHttpReverse_transparent_iff (h : Served w conn r i f)
    {pieces answers : List Bytes} {rest upRest : List (Except Errno Bytes)}
    (hread : f.read = pieces.map .ok ++ rest) (hp : ∀ p ∈ pieces, p ≠ [])
    (hrest : rest.headD (.error .eagain) = .error .eagain)
    (hup : upstream w.sockets = some ans)
    (hans : ans.read = answers.map .ok ++ upRest) (ha : ∀ p ∈ answers, p ≠ [])
    (hend : upRest.headD (.ok []) = .ok []) :
    ∃ w', Returns (eventHttpReverse conn r.fd) w () w' ∧
      (Relayed w w' i f pieces.flatten answers.flatten ↔
        (pieces.flatten.length < 4096 ∧
          taken (ans.write.headD (.ok pieces.flatten.length)) pieces.flatten.length
            = pieces.flatten.length) ∧
        (answers.length ≤ 1 ∧ answers.flatten.length ≤ 4096) ∧
          taken (f.write.headD (.error .eagain)) answers.flatten.length
            = answers.flatten.length) := by
  by_cases hlen : pieces.flatten.length < 4096
  · have hends : ∀ p, upRest.headD (.ok []) = .ok p → p = [] := fun p he =>
      (Except.ok.inj (hend.symm.trans he)).symm
    obtain ⟨w', hret, hout, hcl, -⟩ := eventHttpReverse_relays h
      ⟨pieces, rest, hread, hp, rfl, hlen, hrest⟩ hup
    refine ⟨w', hret, and_congr ?_ ?_⟩
    · rw [hout.iff, take_taken_iff (List.prefix_refl _), and_iff_right rfl, and_iff_right hlen]
    · rw [hcl.iff, List.append_cancel_left_eq, hans,
        take_taken_iff (received_isPrefix 4096 hends), received_iff ha hends]
  · -- the buffer is full: the client is closed, and `socket` never called
    have hm : ∀ got e, ¬ Meets 4096 f.read got e := fun got e => by
      rw [hread]
      exact not_meets_of_overflow hp (Nat.le_of_not_lt hlen) got e
    obtain ⟨q, w', hret, -, hsame⟩ := eventHttpReverse_closed h hm
    refine ⟨w', hret, iff_of_false ?_ fun hc => hlen hc.1.1⟩
    rintro ⟨hout, -⟩
    rw [Wrote.same hsame, Wrote, setFile_files, Table.get_set_of_ne h.file_ne.symm,
      Table.get_bound] at hout
    cases hout

theorem eventHttpReverse_transparent_ping :
    ∃ w', Returns (eventHttpReverse 0 5) (oneClient .httpProxy
        (.io [.ok (bytes "pi"), .ok (bytes "ng")] [.ok 4])
        [.ok (6, .io [.ok (bytes "pong")] [.ok 9])]) () w' ∧
      Wrote w' 1 (bytes "ping") ∧ Wrote w' 0 (bytes "pong") := by
  have hread : (Answers.io [.ok (bytes "pi"), .ok (bytes "ng")] [.ok 4]).read
      = [bytes "pi", bytes "ng"].map .ok ++ [] := rfl
  have hans : (Answers.io [.ok (bytes "pong")] [.ok 9]).read = [bytes "pong"].map .ok ++ [] := rfl
  obtain ⟨w', hret, hiff⟩ := eventHttpReverse_transparent_iff
    (oneClient_served .httpProxy _ [.ok (6, .io [.ok (bytes "pong")] [.ok 9])])
    hread (by decide) rfl rfl hans (by decide) rfl
  exact ⟨w', hret, hiff.mpr (by decide)⟩

/-- A response that comes in two pieces is cut off after the first one. -/
theorem eventHttpReverse_cuts_response :
    ∃ w', Returns (eventHttpReverse 0 5) (oneClient .httpProxy
        (.io [.ok (bytes "ping")] [.ok 4])
        [.ok (6, .io [.ok (bytes "po"), .ok (bytes "ng")] [.ok 4])]) () w' ∧
      Wrote w' 1 (bytes "ping") ∧ Wrote w' 0 (bytes "po") ∧ ¬ Wrote w' 0 (bytes "pong") := by
  obtain ⟨w', hret, hout, hcl, -⟩ := eventHttpReverse_relays
    (oneClient_served .httpProxy (.io [.ok (bytes "ping")] [.ok 4])
      [.ok (6, .io [.ok (bytes "po"), .ok (bytes "ng")] [.ok 4])])
    ⟨[bytes "ping"], [], rfl, by decide, rfl, by decide, rfl⟩ rfl
  refine ⟨w', hret, hout, hcl, ?_⟩
  rw [hcl.iff]
  decide

end DmfServer
