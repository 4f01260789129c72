/-
DmfServer/Accepting.lean

What a turn of the accept loops does, exactly.

Both loops accept a connection and make it non-blocking (`acceptTurn`).  A
connection for which that works is admitted (`World.Admits`), and the turn
goes on with `register` in the world `World.arrive`; otherwise the turn ends
the loop.  For TLS what follows depends on the handshake and on the counter
of the retries (`shakes`), but only up to the first handshake that is done:
the loop has one session, which answers for the peer that finished its
handshake, whoever has connected since (`joins`).

The calls of `epoll_ctl` that follow are evaluated here as well
(`epollCtl_add`, `epollCtl_rest`); what a whole loop leaves behind is in
`DmfServer.Drain`.
-/
import DmfServer.Calls

namespace DmfServer

open Imperative Imperative.Prog Strings World

variable {w w' : World} {serfd fd epollFd : Fd} {i : FileId} {f f' : File} {a s : Addr} {r : ReqT}
variable {c : Fd × Answers} {q : List (Except Errno (Fd × Answers))}

/-! ### A new connection -/

/-- `accept` has given out `fd`, and the calls on the new file have made it
`f`. -/
def World.arrive (serfd fd : Fd) (q : List (Except Errno (Fd × Answers))) (f : File) (w : World) :
    World :=
  (w.openFile fd f).popBacklog serfd (.ok fd) q

theorem arrive_fileAt : (w.arrive serfd fd q f).fileAt fd = some (w.files.bound, f) :=
  fileAt_eq_some.mpr ⟨Table.get_set_self, Table.get_push_self⟩

theorem arrive_setFile :
    (w.arrive serfd fd q f).setFile w.files.bound f' = w.arrive serfd fd q f' := by
  show { (w.arrive serfd fd q f) with files := (w.files.set w.files.bound f).set w.files.bound f' }
    = { (w.arrive serfd fd q f) with files := w.files.set w.files.bound f' }
  rw [Table.set_set]

/-- `accept` gives out a descriptor above 0, and it can be made
non-blocking. -/
def World.Admits (w : World) (c : Fd × Answers) : Prop :=
  0 < w.fds.pick w.low c.1 ∧ c.2.fcntl.headD true = true ∧ c.2.fcntl.tail.headD true = true

instance (w : World) (c : Fd × Answers) : Decidable (w.Admits c) :=
  inferInstanceAs (Decidable (_ ∧ _))

theorem World.Admits.congr (hlow : w'.low = w.low) (hzero : w'.fds.get 0 = w.fds.get 0) :
    w'.Admits c ↔ w.Admits c := by
  rw [World.Admits, World.Admits, Table.pick_pos_iff, Table.pick_pos_iff, hlow, hzero]

theorem setNonBlocking_returns (h : w.fileAt fd = some (i, f)) :
    ∃ f', Returns (setNonBlocking fd) w (f.fcntl.headD true && f.fcntl.tail.headD true)
      (w.setFile i f') ∧ f'.ctl = f.ctl ∧ f'.handshake = f.handshake := by
  rw [setNonBlocking]
  simp only [returns_call_bind, World.fcntl, onFile_eq h]
  rcases hf : f.fcntl.headD true
  · exact ⟨_, returns_pure.mpr ⟨rfl, rfl⟩, rfl, rfl⟩
  · refine ⟨{ f with fcntl := f.fcntl.tail.tail }, ?_, rfl, rfl⟩
    show Returns (call (onFile _ _ _)) _ _ _
    rw [returns_call, onFile_eq (fileAt_setFile h), setFile_setFile, Bool.true_and]

/-! ### A turn of the accept loop -/

section turns

variable {β : Type} {register : Fd → Prog World (β ⊕ Unit)}

/-- `accept` fails, and the loop ends. -/
theorem acceptTurn_error {e : Errno}
    (h : w.backlog serfd = [] ∧ e = .eagain ∧ q = [] ∨ w.backlog serfd = .error e :: q) :
    Returns (acceptTurn serfd register) w (Sum.inr ()) (w.popBacklog serfd (.error e) q) := by
  rw [acceptTurn, returns_call_bind, World.accept]
  rcases h with ⟨hb, rfl, rfl⟩ | hb
  · rw [hb]
    exact returns_pure.mpr ⟨rfl, rfl⟩
  · rw [hb]
    exact returns_pure.mpr ⟨rfl, rfl⟩

/-- A connection that is admitted is registered. -/
theorem acceptTurn_admitted (register : Fd → Prog World (β ⊕ Unit))
    (h : w.backlog serfd = .ok c :: q) (hc : w.Admits c) :
    ∃ f, f.ctl = c.2.ctl ∧ f.handshake = c.2.handshake ∧ ∀ {x w'},
      Returns (register (w.fds.pick w.low c.1)) (w.arrive serfd (w.fds.pick w.low c.1) q f) x w' →
        Returns (acceptTurn serfd register) w x w' := by
  obtain ⟨hpos, hget, hset⟩ := hc
  obtain ⟨f, hret, hctl, hshake⟩ := setNonBlocking_returns
    (arrive_fileAt : (w.arrive serfd (w.fds.pick w.low c.1) q (c.2.file (some serfd))).fileAt _ = _)
  refine ⟨f, hctl, hshake, fun hreg => ?_⟩
  rw [arrive_setFile, show (c.2.file (some serfd)).fcntl = c.2.fcntl from rfl, hget, hset] at hret
  rw [acceptTurn, returns_call_bind, World.accept, h]
  show Returns (if 0 < w.fds.pick w.low c.1 then _ else _) _ _ _
  rw [if_pos hpos]
  exact hret.bind hreg

/-- One that is not ends the loop. -/
theorem acceptTurn_rejected (h : w.backlog serfd = .ok c :: q) (hc : ¬ w.Admits c) :
    ∃ f, Returns (acceptTurn serfd register) w (Sum.inr ())
      (w.arrive serfd (w.fds.pick w.low c.1) q f) := by
  obtain ⟨f, hret, hctl, hshake⟩ := setNonBlocking_returns
    (arrive_fileAt : (w.arrive serfd (w.fds.pick w.low c.1) q (c.2.file (some serfd))).fileAt _ = _)
  rw [arrive_setFile, show (c.2.file (some serfd)).fcntl = c.2.fcntl from rfl] at hret
  by_cases hpos : 0 < w.fds.pick w.low c.1
  · have hno : (c.2.fcntl.headD true && c.2.fcntl.tail.headD true) = false := by
      rw [Bool.eq_false_iff, ne_eq, Bool.and_eq_true]
      exact fun hb => hc ⟨hpos, hb⟩
    rw [hno] at hret
    refine ⟨f, ?_⟩
    rw [acceptTurn, returns_call_bind, World.accept, h]
    show Returns (if 0 < w.fds.pick w.low c.1 then _ else _) _ _ _
    rw [if_pos hpos]
    exact hret.bind (returns_pure.mpr ⟨rfl, rfl⟩)
  · refine ⟨c.2.file (some serfd), ?_⟩
    rw [acceptTurn, returns_call_bind, World.accept, h]
    show Returns (if 0 < w.fds.pick w.low c.1 then _ else _) _ _ _
    rw [if_neg hpos]
    exact returns_pure.mpr ⟨rfl, rfl⟩

end turns

/-! ### The handshake -/

/-- The counter of the retries after a handshake that begins at `k`, if it
succeeds. -/
def shakes : Nat → List Shake → Option Nat
  | _, [] => none
  | k, .done :: _ => some k
  | k, .wantRead :: q => if k < 100 then shakes (k + 1) q else none
  | _, .failed :: _ => none

/-- How often a handshake wants to read before it is done. -/
def waits : List Shake → Option Nat
  | [] => none
  | .done :: _ => some 0
  | .wantRead :: q => (waits q).map (· + 1)
  | .failed :: _ => none

/-- The handshake succeeds if the counter has room for it. -/
theorem shakes_eq_some {k k' : Nat} {l : List Shake} (hk : k ≤ 100) :
    shakes k l = some k' ↔ ∃ n, waits l = some n ∧ k + n = k' ∧ k' ≤ 100 := by
  induction l generalizing k with
  | nil => simp [shakes, waits]
  | cons x l ih =>
      rcases x with - | - | -
      · rw [shakes, waits, Option.some.injEq]
        constructor
        · rintro rfl
          exact ⟨0, rfl, rfl, hk⟩
        · rintro ⟨n, hn, rfl, -⟩
          rw [← Option.some.inj hn, Nat.add_zero]
      · -- one more retry
        rw [shakes, waits]
        by_cases hlt : k < 100
        · rw [if_pos hlt, ih hlt]
          constructor
          · rintro ⟨n, hn, rfl, hle⟩
            exact ⟨n + 1, by rw [hn]; rfl, by omega, hle⟩
          · rintro ⟨n, hn, rfl, hle⟩
            obtain ⟨m, hm, rfl⟩ := Option.map_eq_some_iff.mp hn
            exact ⟨m, hm, by omega, hle⟩
        · rw [if_neg hlt]
          refine iff_of_false (Option.some_ne_none k').symm ?_
          rintro ⟨n, hn, rfl, hle⟩
          obtain ⟨m, -, rfl⟩ := Option.map_eq_some_iff.mp hn
          omega
      · rw [shakes, waits]
        refine iff_of_false (Option.some_ne_none k').symm ?_
        rintro ⟨n, hn, -⟩
        cases hn

/-- What a turn of the handshake loop makes of the answer. -/
def shakeTurn : Shake → Nat → Nat ⊕ (Int × Nat)
  | .done, k => .inr (1, k)
  | .wantRead, k => if k < 100 then .inl (k + 1) else .inr (-1, k + 1)
  | .failed, k => .inr (-1, k + 1)

theorem setSsl_self {x : Ssl} (h : w.ssls.get s = some x) : w.setSsl s x = w := by
  show { w with ssls := w.ssls.set s x } = w
  rw [Table.set_self h]

theorem setSsl_setFile {x y : Ssl} :
    ((w.setSsl s x).setFile i f).setSsl s y = (w.setFile i f).setSsl s y := by
  show { (w.setFile i f) with ssls := (w.ssls.set s x).set s y } = _
  rw [Table.set_set]
  rfl

theorem sslAccept_returns (hs : w.ssls.get s = some ⟨some fd, false⟩)
    (h : w.fileAt fd = some (i, f)) :
    Returns (sslAccept (some s)) w (f.handshake.headD .wantRead)
      ((w.setFile i { f with handshake := f.handshake.tail }).setSsl s
        ⟨some fd, decide (f.handshake.headD .wantRead = .done)⟩) := by
  rw [sslAccept, returns_sslAt_bind hs]
  show Returns (call (shake fd) >>= _) _ _ _
  rw [returns_call_bind, World.shake, onFile_eq h]
  by_cases hd : f.handshake.headD .wantRead = .done
  · show Returns (if f.handshake.headD .wantRead = .done then _ else _) _ _ _
    rw [if_pos hd, returns_store_bind, hd]
    exact returns_pure.mpr ⟨rfl, rfl⟩
  · show Returns (if f.handshake.headD .wantRead = .done then _ else _) _ _ _
    rw [if_neg hd, decide_eq_false hd]
    have hs' : (w.setFile i { f with handshake := f.handshake.tail }).ssls.get s
        = some ⟨some fd, false⟩ := hs
    exact returns_pure.mpr ⟨rfl, (setSsl_self hs').symm⟩

theorem sslAcceptTurn_returns (hs : w.ssls.get s = some ⟨some fd, false⟩)
    (h : w.fileAt fd = some (i, f)) (k : Nat) :
    Returns (sslAcceptTurn (some s) k) w (shakeTurn (f.handshake.headD .wantRead) k)
      ((w.setFile i { f with handshake := f.handshake.tail }).setSsl s
        ⟨some fd, decide (f.handshake.headD .wantRead = .done)⟩) := by
  rw [sslAcceptTurn]
  refine (sslAccept_returns hs h).bind ?_
  rcases f.handshake.headD .wantRead with - | - | -
  · exact returns_pure.mpr ⟨rfl, rfl⟩
  · show Returns (if k < 100 then _ else _) _ (if k < 100 then _ else _) _
    by_cases hk : k < 100
    · rw [if_pos hk, if_pos hk]
      exact returns_pure.mpr ⟨rfl, rfl⟩
    · rw [if_neg hk, if_neg hk]
      exact returns_pure.mpr ⟨rfl, rfl⟩
  · show Returns (if k < 100 then _ else _) _ _ _
    by_cases hk : k < 100
    · rw [if_pos hk]
      exact returns_pure.mpr ⟨rfl, rfl⟩
    · rw [if_neg hk]
      exact returns_pure.mpr ⟨rfl, rfl⟩

/-- A session whose handshake is finished needs no peer. -/
theorem handshake_finished (hs : w.ssls.get s = some ⟨some fd, true⟩) (k : Nat) :
    Returns (loop (sslAcceptTurn (some s)) k) w (1, k) w := by
  refine Returns.loop_exit ?_
  rw [sslAcceptTurn]
  have haccept : Returns (sslAccept (some s)) w .done w := by
    rw [sslAccept, returns_sslAt_bind hs]
    exact returns_pure.mpr ⟨rfl, rfl⟩
  exact haccept.bind (returns_pure.mpr ⟨rfl, rfl⟩)

/-- A peer that is silent uses up the retries. -/
theorem handshake_silent (hs : w.ssls.get s = some ⟨some fd, false⟩)
    (h : w.fileAt fd = some (i, f)) (hsilent : f.handshake = []) (m k : Nat) (hm : 100 ≤ k + m) :
    ∃ k', Returns (loop (sslAcceptTurn (some s)) k) w (-1, k') w := by
  have hself : (w.setFile i { f with handshake := f.handshake.tail }).setSsl s
      ⟨some fd, decide (f.handshake.headD .wantRead = .done)⟩ = w := by
    rw [hsilent, List.tail_nil, ← hsilent, setFile_self h, hsilent]
    exact setSsl_self hs
  have hturn := sslAcceptTurn_returns hs h
  rw [hself, hsilent] at hturn
  -- over the retries that are left, since a turn changes nothing else
  induction m generalizing k with
  | zero =>
      have hk := hturn k
      rw [List.headD_nil, shakeTurn, if_neg (by omega)] at hk
      exact ⟨k + 1, Returns.loop_exit hk⟩
  | succ m ih =>
      have hk := hturn k
      rw [List.headD_nil, shakeTurn] at hk
      split_ifs at hk
      · obtain ⟨k', hret⟩ := ih (k + 1) (by omega)
        exact ⟨k', Returns.loop_next hk hret⟩
      · exact ⟨k + 1, Returns.loop_exit hk⟩

/-- The handshake loop, for a session that has shaken hands with nobody. -/
theorem handshake_returns (hs : w.ssls.get s = some ⟨some fd, false⟩)
    (h : w.fileAt fd = some (i, f)) (k : Nat) : ∃ f' code k',
      Returns (loop (sslAcceptTurn (some s)) k) w (code, k')
        ((w.setFile i f').setSsl s ⟨some fd, decide (code = 1)⟩) ∧ f'.ctl = f.ctl ∧
      (code = 1 ∧ shakes k f.handshake = some k' ∨ code ≠ 1 ∧ shakes k f.handshake = none) := by
  induction hl : f.handshake generalizing w f k with
  | nil =>
      obtain ⟨k', hret⟩ := handshake_silent hs h hl 100 k (by omega)
      refine ⟨f, -1, k', ?_, rfl, .inr ⟨by decide, rfl⟩⟩
      rw [setFile_self h]
      exact (setSsl_self hs).symm ▸ hret
  | cons x l ih =>
      have hturn := sslAcceptTurn_returns hs h k
      rw [hl, List.headD_cons, List.tail_cons] at hturn
      rcases x with - | - | -
      · exact ⟨_, 1, k, Returns.loop_exit hturn, rfl, .inl ⟨rfl, rfl⟩⟩
      · rw [shakeTurn] at hturn
        rw [shakes]
        split_ifs at hturn ⊢
        · have hs' : ((w.setFile i { f with handshake := l }).setSsl s ⟨some fd, false⟩).ssls.get s
              = some ⟨some fd, false⟩ := Table.get_set_self
          obtain ⟨f', code, k', hret, hctl, hcode⟩ := ih hs' (fileAt_setFile h) (k + 1) rfl
          rw [setSsl_setFile, setFile_setFile] at hret
          exact ⟨f', code, k', Returns.loop_next hturn hret, hctl, hcode⟩
        · exact ⟨_, -1, k + 1, Returns.loop_exit hturn, rfl, .inr ⟨by decide, rfl⟩⟩
      · exact ⟨_, -1, k + 1, Returns.loop_exit hturn, rfl, .inr ⟨by decide, rfl⟩⟩

/-! ### The two kinds of `register` -/

/-- `epoll_ctl` is about the epoll set and the file. -/
theorem epollCtl_rest (efd : Fd) (op : EpollOp) (fd : Fd) (w : World) :
    ∃ I F, (epollCtl efd op fd w).2 = { w with interest := I, files := F } := by
  have hcall : ∃ F, (ctlCall fd w).2 = { w with files := F } := by
    rcases onFile_cases none (fun f => (some (f.ctl.headD true), { f with ctl := f.ctl.tail })) fd w
      with he | ⟨i, f, -, -, he⟩
    · exact ⟨w.files, congrArg Prod.snd he⟩
    · exact ⟨_, congrArg Prod.snd he⟩
  obtain ⟨F, hF⟩ := hcall
  rcases epollCtl_cases efd op fd w with ⟨e, he⟩ | ⟨ev, -, he⟩ | ⟨-, he⟩
  · exact ⟨w.interest, F, by rw [he, hF]⟩
  · exact ⟨w.interest.set fd ev, F, by rw [he, hF]; rfl⟩
  · exact ⟨w.interest.erase fd, F, by rw [he, hF]; rfl⟩

/-- `epoll_ctl` registers a new descriptor, if the resources are granted. -/
theorem epollCtl_add (hfile : w.fileAt fd = some (i, f)) (hepfd : w.epfd = epollFd)
    (hctl : f.ctl.headD true = true) (hnew : w.interest.get fd = none) (ev : EpollEvent) :
    epollCtl epollFd (.add ev) fd w
      = (.ok (), (w.setFile i { f with ctl := f.ctl.tail }).register fd ev) := by
  have hcall : ctlCall fd w = (some true, w.setFile i { f with ctl := f.ctl.tail }) := by
    rw [← hctl]
    exact onFile_eq hfile
  rw [epollCtl, hcall]
  simp only [setFile_epfd, setFile_interest, hepfd, hnew, ne_eq, not_true_eq_false, if_false,
    Bool.not_true, Bool.false_eq_true]

/-- `event_accept_http` registers the client, or closes it. -/
theorem registerHttp_returns (type : LisType) (epollFd fd : Fd) (w : World) :
    ∃ w', Returns (registerHttp type epollFd (some ()) fd) w (Sum.inl ()) w' ∧
      w'.low = w.low ∧ (∀ b, b ≠ fd → w'.fds.get b = w.fds.get b) ∧
      w'.backlog = w.backlog ∧ w'.accepts = w.accepts := by
  rw [registerHttp, newReqT]
  simp only [returns_call_bind, returns_count_bind]
  generalize hw : (w.newReq ⟨fd, epollFd, type, none, none, some ()⟩).setShm _ = w₁
  obtain ⟨I, F, hrest⟩ := epollCtl_rest epollFd (.add ⟨inEdge, w.reqs.bound⟩) fd w₁
  generalize epollCtl epollFd (.add ⟨inEdge, w.reqs.bound⟩) fd w₁ = res at hrest ⊢
  obtain ⟨e | u, w₂⟩ := res
  · -- the descriptor is closed again; the object stays
    obtain rfl : w₂ = { w₁ with interest := I, files := F } := hrest
    refine ⟨closeFd fd { w₁ with interest := I, files := F }, ?_, ?_⟩
    · show Returns (call (close fd) >>= _) _ _ _
      rw [returns_call_bind, close_snd]
      exact returns_pure.mpr ⟨rfl, rfl⟩
    · rw [← hw]
      exact ⟨rfl, fun b hb => Table.get_erase_of_ne hb, rfl, rfl⟩
  · obtain rfl : w₂ = { w₁ with interest := I, files := F } := hrest
    refine ⟨_, returns_pure.mpr ⟨rfl, rfl⟩, ?_⟩
    rw [← hw]
    exact ⟨rfl, fun _ _ => rfl, rfl, rfl⟩

/-- The object and the TLS session that `event_accept_https` works with;
`finished` says whether the session has shaken hands. -/
structure Session (w : World) (a s : Addr) (r : ReqT) (finished : Bool) : Prop where
  req : w.reqs.get a = some r
  ssl : r.ssl = some s
  live : ∃ fd, w.ssls.get s = some ⟨fd, finished⟩

/-- The counter of the retries when a client has been let in, if it is: by its
own handshake, or by an earlier one. -/
def joins (finished : Bool) (k : Nat) (l : List Shake) : Option Nat :=
  if finished then some k else shakes k l

/-- The session is attached to the client, and the handshake is made. -/
theorem registerHttps_shakes {finished : Bool} (h : Session w a s r finished) (k : Nat)
    {x : Nat ⊕ Unit} {k' : Nat} {code : Int} {w₁ : World}
    (hloop : Returns (loop (sslAcceptTurn (some s)) k) (w.setSsl s ⟨some fd, finished⟩) (code, k')
      w₁)
    (hrest : Returns (if code ≠ 1 then do
          let _ ← call (close fd)
          sslFree (← reqAt a).ssl
          pure (Sum.inr ())
        else do
          let r ← reqAt a
          store (setReq a { r with fd := fd })
          let _ ← call (epollCtl epollFd (.add ⟨inEdge, a⟩) fd)
          pure (Sum.inl k')) w₁ x w') :
    Returns (registerHttps epollFd a k fd) w x w' := by
  obtain ⟨y, hy⟩ := h.live
  have hset : Returns (sslSetFd r.ssl fd) w () (w.setSsl s ⟨some fd, finished⟩) := by
    rw [h.ssl, sslSetFd, returns_sslAt_bind hy]
    exact returns_store.mpr rfl
  rw [registerHttps, returns_reqAt_bind h.req]
  refine hset.bind ?_
  rw [returns_reqAt_bind (show (w.setSsl s ⟨some fd, finished⟩).reqs.get a = some r from h.req),
    h.ssl]
  exact hloop.bind hrest

/-- A handshake that succeeds, or is not needed: the object is handed to the
client. -/
theorem registerHttps_done {finished : Bool} (epollFd : Fd) (h : Session w a s r finished)
    (hfile : w.fileAt fd = some (i, f)) {k k' : Nat}
    (hk : joins finished k f.handshake = some k') :
    ∃ f', f'.ctl = f.ctl ∧ Returns (registerHttps epollFd a k fd) w (Sum.inl k')
      (epollCtl epollFd (.add ⟨inEdge, a⟩) fd
        (((w.setFile i f').setSsl s ⟨some fd, true⟩).setReq a { r with fd := fd })).2 := by
  obtain ⟨f', hctl, hloop⟩ : ∃ f', f'.ctl = f.ctl ∧
      Returns (loop (sslAcceptTurn (some s)) k) (w.setSsl s ⟨some fd, finished⟩) (1, k')
        ((w.setFile i f').setSsl s ⟨some fd, true⟩) := by
    have hfile' : (w.setSsl s ⟨some fd, finished⟩).fileAt fd = some (i, f) := hfile
    rcases finished with - | -
    · -- by its own handshake
      obtain ⟨f', code, k₁, hloop, hctl, ⟨rfl, hk₁⟩ | ⟨-, hk₁⟩⟩ :=
        handshake_returns Table.get_set_self hfile' k
      · obtain rfl : k' = k₁ := Option.some.inj (hk.symm.trans hk₁)
        rw [setSsl_setFile] at hloop
        exact ⟨f', hctl, hloop⟩
      · rw [joins, if_neg Bool.false_ne_true, hk₁] at hk
        cases hk
    · -- by an earlier one: the client is not asked
      obtain rfl : k = k' := Option.some.inj hk
      refine ⟨f, rfl, ?_⟩
      rw [setFile_self hfile]
      exact handshake_finished Table.get_set_self k
  refine ⟨f', hctl, registerHttps_shakes h k hloop ?_⟩
  have hreq : ((w.setFile i f').setSsl s ⟨some fd, true⟩).reqs.get a = some r := h.req
  rw [if_neg (not_not.mpr rfl), returns_reqAt_bind hreq, returns_store_bind, returns_call_bind]
  exact returns_pure.mpr ⟨rfl, rfl⟩

/-- One that fails: the client is closed, and the session released. -/
theorem registerHttps_failed {finished : Bool} (epollFd : Fd) (h : Session w a s r finished)
    (hfile : w.fileAt fd = some (i, f)) {k : Nat} (hk : joins finished k f.handshake = none) :
    ∃ f', Returns (registerHttps epollFd a k fd) w (Sum.inr ())
      ((((w.setFile i f').setSsl s ⟨some fd, false⟩).closeFd fd).freeSsl s) := by
  rcases finished with - | -
  · have hfile' : (w.setSsl s ⟨some fd, false⟩).fileAt fd = some (i, f) := hfile
    obtain ⟨f', code, k₁, hloop, -, ⟨-, hk₁⟩ | ⟨hcode, -⟩⟩ :=
      handshake_returns Table.get_set_self hfile' k
    · rw [joins, if_neg Bool.false_ne_true, hk₁] at hk
      cases hk
    · rw [setSsl_setFile, decide_eq_false hcode] at hloop
      refine ⟨f', registerHttps_shakes h k hloop ?_⟩
      have hreq : (((w.setFile i f').setSsl s ⟨some fd, false⟩).closeFd fd).reqs.get a = some r :=
        h.req
      rw [if_pos hcode, returns_call_bind, close_snd, returns_reqAt_bind hreq, h.ssl]
      have hlive : (((w.setFile i f').setSsl s ⟨some fd, false⟩).closeFd fd).ssls.get s
          = some ⟨some fd, false⟩ := Table.get_set_self
      exact (returns_sslFree_bind hlive).mpr (returns_pure.mpr ⟨rfl, rfl⟩)
  · cases hk

end DmfServer
