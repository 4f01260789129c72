/-
DmfServer/Isolation.lean

The clients that `event_accept_https` accepts in one batch.

The object, the TLS session and the counter of the retries are made once,
before the loop, and every client of the batch is given the same ones.  What
isolation would mean is `Isolated`: every client whose own handshake succeeds
is registered with an object and a session of its own, and whether it is
registered does not depend on the handshakes of the others.  Exactly the
batches of at most one client are isolated (`eventAcceptHttps_isolated_iff`).
In a larger one the first handshake decides: if it succeeds, the session lets
all the others in, who take it over (`Overtaken`); if it fails, nobody is
served.

A turn of the loop ends in one of two worlds, `World.handOver` and
`World.hangUp`; `Joined` is what the turns behind the first handshake keep.
-/
import DmfServer.Drain

namespace DmfServer

open Imperative Imperative.Prog Strings World

variable {w w' : World} {serfd fd epollFd : Fd} {i : FileId} {f : File} {a s : Addr} {r : ReqT}
variable {c : Fd × Answers} {conns conns' : List (Fd × Answers)} {k k' : Nat}

/-! ### A turn of the loop -/

/-- The new client `fd` was given the object and the session, and was
registered. -/
def World.handOver (serfd fd : Fd) (conns : List (Fd × Answers)) (f : File) (a s : Addr) (r : ReqT)
    (w : World) : World :=
  (((w.arrive serfd fd (conns.map .ok) f).setSsl s ⟨some fd, true⟩).setReq a
    { r with fd := fd }).register fd ⟨inEdge, a⟩

/-- The new client `fd` was closed, and the session released. -/
def World.hangUp (serfd fd : Fd) (conns : List (Fd × Answers)) (f : File) (s : Addr) (w : World) :
    World :=
  (((w.arrive serfd fd (conns.map .ok) f).setSsl s ⟨some fd, false⟩).closeFd fd).freeSsl s

/-- The clients `conns` are pending on `serfd`; `accept`, `fcntl` and
`epoll_ctl` succeed for them.  The descriptors and the epoll set are in
order. -/
structure Ready (serfd epollFd : Fd) (conns : List (Fd × Answers)) (w : World) : Prop where
  backlog : w.backlog serfd = conns.map .ok
  admitted : ∀ c ∈ conns, w.Admits c
  granted : ∀ c ∈ conns, c.2.ctl.headD true = true
  epfd : w.epfd = epollFd
  files : ∀ fd i, w.fds.get fd = some i → i < w.files.bound
  closed : ∀ fd, w.fds.get fd = none → w.interest.get fd = none

theorem Ready.done {finished : Bool} (h : Ready serfd epollFd (c :: conns) w)
    (hs : Session w a s r finished) (hk : joins finished k c.2.handshake = some k') :
    ∃ f, Returns (acceptTurn serfd (registerHttps epollFd a k)) w (Sum.inl k')
      (w.handOver serfd (w.fds.pick w.low c.1) conns f a s r) := by
  obtain ⟨f, hctl, hshake, hturn⟩ := acceptTurn_admitted (registerHttps epollFd a k) h.backlog
    (h.admitted c List.mem_cons_self)
  generalize hfd : w.fds.pick w.low c.1 = fd at hturn ⊢
  have hfree : w.fds.get fd = none := hfd ▸ Table.get_pick
  have hs' : Session (w.arrive serfd fd (conns.map .ok) f) a s r finished :=
    ⟨hs.req, hs.ssl, hs.live⟩
  rw [← hshake] at hk
  obtain ⟨f', hctl', hret⟩ := registerHttps_done epollFd hs' arrive_fileAt hk
  rw [arrive_setFile] at hret
  have hfile : (((w.arrive serfd fd (conns.map .ok) f').setSsl s ⟨some fd, true⟩).setReq a
      { r with fd := fd }).fileAt fd = some (w.files.bound, f') :=
    fileAt_eq_some.mpr ⟨Table.get_set_self, Table.get_push_self⟩
  have hgranted : f'.ctl.headD true = true := by
    rw [hctl', hctl]
    exact h.granted c List.mem_cons_self
  rw [epollCtl_add hfile h.epfd hgranted (h.closed fd hfree)] at hret
  have he : w.handOver serfd fd conns { f' with ctl := f'.ctl.tail } a s r
      = ((((w.arrive serfd fd (conns.map .ok) f').setFile w.files.bound
          { f' with ctl := f'.ctl.tail }).setSsl s ⟨some fd, true⟩).setReq a
          { r with fd := fd }).register fd ⟨inEdge, a⟩ := by
    rw [arrive_setFile]
    rfl
  exact ⟨{ f' with ctl := f'.ctl.tail }, hturn (he ▸ hret)⟩

theorem Ready.failed {finished : Bool} (h : Ready serfd epollFd (c :: conns) w)
    (hs : Session w a s r finished) (hk : joins finished k c.2.handshake = none) :
    ∃ f, Returns (acceptTurn serfd (registerHttps epollFd a k)) w (Sum.inr ())
      (w.hangUp serfd (w.fds.pick w.low c.1) conns f s) := by
  obtain ⟨f, -, hshake, hturn⟩ := acceptTurn_admitted (registerHttps epollFd a k) h.backlog
    (h.admitted c List.mem_cons_self)
  have hs' : Session (w.arrive serfd (w.fds.pick w.low c.1) (conns.map .ok) f) a s r finished :=
    ⟨hs.req, hs.ssl, hs.live⟩
  rw [← hshake] at hk
  obtain ⟨f', hret⟩ := registerHttps_failed epollFd hs' arrive_fileAt hk
  rw [arrive_setFile] at hret
  exact ⟨f', hturn hret⟩

theorem Ready.empty (h : Ready serfd epollFd [] w) :
    Returns (acceptTurn serfd (registerHttps epollFd a k)) w (Sum.inr ())
      (w.popBacklog serfd (.error .eagain) []) :=
  acceptTurn_error (.inl ⟨h.backlog, rfl, rfl⟩)

theorem Session.handOver {finished : Bool} (h : Session w a s r finished) (serfd fd : Fd)
    (conns : List (Fd × Answers)) (f : File) :
    Session (w.handOver serfd fd conns f a s r) a s { r with fd := fd } true :=
  ⟨Table.get_set_self, h.ssl, ⟨_, Table.get_set_self⟩⟩

/-- The clients behind the one that was registered are pending. -/
theorem Ready.handOver (h : Ready serfd epollFd (c :: conns) w) :
    Ready serfd epollFd conns (w.handOver serfd (w.fds.pick w.low c.1) conns f a s r) := by
  obtain ⟨hadm, hrest⟩ := List.forall_mem_cons.mp h.admitted
  have hzero : (w.handOver serfd (w.fds.pick w.low c.1) conns f a s r).fds.get 0 = w.fds.get 0 :=
    Table.get_set_of_ne (ne_of_lt hadm.1)
  have hlow : (w.handOver serfd (w.fds.pick w.low c.1) conns f a s r).low = w.low := rfl
  refine ⟨Function.update_self .., fun c' hc' => ?_,
    fun c' hc' => h.granted c' (List.mem_cons_of_mem c hc'), h.epfd, fun fd i hi => ?_,
    fun fd hfd => ?_⟩
  · exact (World.Admits.congr hlow hzero).mpr (hrest c' hc')
  · rcases Table.get_set_eq_some.mp hi with ⟨-, rfl⟩ | ⟨-, hi⟩
    · exact Nat.lt_of_lt_of_eq (Nat.lt_succ_self _) Table.bound_push.symm
    · exact Nat.lt_of_lt_of_le (h.files fd i hi) (Nat.le_max_left _ _)
  · have hne : fd ≠ w.fds.pick w.low c.1 := by
      rintro rfl
      rw [show (w.handOver serfd _ conns f a s r).fds = w.fds.set _ w.files.bound from rfl,
        Table.get_set_self] at hfd
      cases hfd
    refine (Table.get_set_of_ne hne).trans (h.closed fd ?_)
    exact (Table.get_set_of_ne hne).symm.trans hfd

/-! ### Behind the first handshake -/

/-- Clients have been let in: the descriptors there were are as they were, and
the new ones have new files. -/
structure Joined (w w' : World) : Prop where
  kept : ∀ fd i, w.fds.get fd = some i →
    w'.fds.get fd = some i ∧ w'.interest.get fd = w.interest.get fd
  fresh : ∀ fd i, w'.fds.get fd = some i → w.fds.get fd = some i ∨ w.files.bound ≤ i
  bound : w.files.bound ≤ w'.files.bound

theorem Joined.trans {w₁ w₂ : World} (h : Joined w w₁) (h' : Joined w₁ w₂) : Joined w w₂ where
  kept fd i hi := by
    obtain ⟨hi₁, hreg₁⟩ := h.kept fd i hi
    obtain ⟨hi₂, hreg₂⟩ := h'.kept fd i hi₁
    exact ⟨hi₂, hreg₂.trans hreg₁⟩
  fresh fd i hi := by
    rcases h'.fresh fd i hi with hi₁ | hle
    · exact h.fresh fd i hi₁
    · exact .inr (Nat.le_trans h.bound hle)
  bound := Nat.le_trans h.bound h'.bound

/-- One more client has been let in. -/
theorem joined_handOver (h : w.fds.get fd = none) :
    Joined w (w.handOver serfd fd conns f a s r) := by
  refine ⟨fun fd' i hi => ?_, fun fd' i hi => ?_, Nat.le_max_left _ _⟩
  · have hne : fd' ≠ fd := by
      rintro rfl
      rw [h] at hi
      cases hi
    exact ⟨(Table.get_set_of_ne hne).trans hi, Table.get_set_of_ne hne⟩
  · rcases Table.get_set_eq_some.mp hi with ⟨-, rfl⟩ | ⟨-, hi⟩
    · exact .inr (Nat.le_refl _)
    · exact .inl hi

/-- **Behind the first handshake** everybody is let in, and the session goes to
the last one. -/
theorem httpsLoop_joins (h : Ready serfd epollFd conns w) (hs : Session w a s r true) (k : Nat) :
    ∃ w' r', Returns (loop (fun k => acceptTurn serfd (registerHttps epollFd a k)) k) w () w' ∧
      Joined w w' ∧ Session w' a s r' true ∧
      (conns ≠ [] → ∀ x fd, w'.ssls.get s = some x → x.fd = some fd → w.fds.get fd = none) := by
  induction conns generalizing w r with
  | nil =>
      refine ⟨_, r, Returns.loop_exit h.empty, ⟨fun _ _ hi => ⟨hi, rfl⟩, fun _ _ hi => .inl hi,
        Nat.le_refl _⟩, ⟨hs.req, hs.ssl, hs.live⟩, fun hne => absurd rfl hne⟩
  | cons c conns ih =>
      obtain ⟨f, hturn⟩ := h.done (k := k) hs rfl
      have hfree : w.fds.get (w.fds.pick w.low c.1) = none := Table.get_pick
      have hjoin : Joined w (w.handOver serfd _ conns f a s r) := joined_handOver hfree
      obtain ⟨w', r', hret, hrest, hs', hlast⟩ := ih h.handOver (hs.handOver ..)
      refine ⟨w', r', Returns.loop_next hturn hret, hjoin.trans hrest, hs', fun _ x fd hx hfd => ?_⟩
      -- whose session it is, is decided by the last client
      rcases conns with - | ⟨c₁, conns⟩
      · -- the session is with this client
        obtain ⟨-, hexit⟩ := hret.unique (Returns.loop_exit h.handOver.empty)
        rw [hexit] at hx
        obtain rfl := Option.some.inj (hx.symm.trans Table.get_set_self)
        rw [← Option.some.inj hfd]
        exact hfree
      · by_contra hopen
        obtain ⟨i, hi⟩ := Option.ne_none_iff_exists'.mp hopen
        have hnone := hlast (List.cons_ne_nil _ _) x fd hx hfd
        rw [(hjoin.kept fd i hi).1] at hnone
        cases hnone

/-! ### What a batch does -/

/-- With a counter of its own, the handshake of the client succeeds. -/
def Succeeds (c : Fd × Answers) : Prop := ∃ n, waits c.2.handshake = some n ∧ n ≤ 100

theorem succeeds_iff : Succeeds c ↔ ∃ k, joins false 0 c.2.handshake = some k := by
  simp only [joins, Bool.false_eq_true, if_false, shakes_eq_some (Nat.zero_le 100), Nat.zero_add]
  constructor
  · rintro ⟨n, hn, hle⟩
    exact ⟨n, n, hn, rfl, hle⟩
  · rintro ⟨k, n, hn, he, hle⟩
    exact ⟨n, hn, he ▸ hle⟩

/-- The descriptor of the `k`-th client of a batch is open: its file is the
`k`-th new one. -/
def Opened (w w' : World) (k : Nat) (fd : Fd) : Prop := w'.fds.get fd = some (w.files.bound + k)

/-- The `k`-th client of a batch is registered. -/
def Registered (w w' : World) (k : Nat) : Prop :=
  ∃ fd ev, Opened w w' k fd ∧ w'.interest.get fd = some ev

/-- What is wrong with the first client of a batch, once another one has been
accepted: it has the object, but the session of that is another client's. -/
structure Overtaken (w w' : World) (a s : Addr) (fd : Fd) : Prop where
  opened : ∀ fd', Opened w w' 0 fd' → fd' = fd
  registered : w'.interest.get fd = some ⟨inEdge, a⟩
  object : ∃ r, w'.reqs.get a = some r ∧ r.ssl = some s
  session : ∀ x, w'.ssls.get s = some x → x.fd ≠ some fd

/-- When the first handshake succeeds, the first client is overtaken, and the
second one is registered, whatever its handshake is. -/
theorem httpsLoop_overtakes {c₁ : Fd × Answers} (h : Ready serfd epollFd (c :: c₁ :: conns) w)
    (hs : Session w a s r false) (hc : Succeeds c) :
    ∃ w', Returns (loop (fun k => acceptTurn serfd (registerHttps epollFd a k)) 0) w () w' ∧
      Overtaken w w' a s (w.fds.pick w.low c.1) ∧ Registered w w' 1 := by
  obtain ⟨k, hk⟩ := succeeds_iff.mp hc
  obtain ⟨f, hturn⟩ := h.done hs hk
  have hready : Ready serfd epollFd (c₁ :: conns)
      (w.handOver serfd (w.fds.pick w.low c.1) (c₁ :: conns) f a s r) := h.handOver
  have hsess : Session (w.handOver serfd (w.fds.pick w.low c.1) (c₁ :: conns) f a s r) a s _ true :=
    hs.handOver ..
  generalize w.fds.pick w.low c.1 = fd at hturn hready hsess ⊢
  set w₁ := w.handOver serfd fd (c₁ :: conns) f a s r with hw₁
  have hget : w₁.fds.get fd = some w.files.bound := Table.get_set_self
  have hbound : w₁.files.bound = w.files.bound + 1 := Table.bound_push
  obtain ⟨w', r', hret, hjoin, hs', hlast⟩ := httpsLoop_joins hready hsess k
  refine ⟨w', Returns.loop_next hturn hret, ⟨fun fd' hopen => ?_, ?_, ⟨r', hs'.req, hs'.ssl⟩,
    fun x hx hfd => ?_⟩, ?_⟩
  · -- the file of the first client has one descriptor only
    rcases hjoin.fresh fd' _ hopen with hold | hle
    · rcases Table.get_set_eq_some.mp hold with ⟨he, -⟩ | ⟨-, hold⟩
      · exact he
      · exact absurd (h.files fd' _ hold) (Nat.lt_irrefl _)
    · omega
  · exact (hjoin.kept fd _ hget).2.trans Table.get_set_self
  · have hnone := hlast (List.cons_ne_nil _ _) x fd hx hfd
    rw [hget] at hnone
    cases hnone
  · -- the second turn, and what follows it
    obtain ⟨f₁, hturn₁⟩ := hready.done (k := k) hsess rfl
    obtain ⟨w'', -, hret', hjoin', -, -⟩ := httpsLoop_joins hready.handOver (hsess.handOver ..) k
    obtain rfl : w' = w'' := (hret.unique (Returns.loop_next hturn₁ hret')).2
    obtain ⟨hopen, hreg⟩ := hjoin'.kept (w₁.fds.pick w₁.low c₁.1) _ Table.get_set_self
    refine ⟨_, ⟨inEdge, a⟩, hopen.trans (congrArg some hbound), hreg.trans Table.get_set_self⟩

/-- The descriptor `fd` is registered with an object and a session of its
own. -/
def Owns (w : World) (fd : Fd) (ev : EpollEvent) : Prop :=
  ∃ r s x, w.reqs.get ev.ptr = some r ∧ r.fd = fd ∧ r.ssl = some s ∧ w.ssls.get s = some x ∧
    x.fd = some fd

theorem httpsLoop_single (h : Ready serfd epollFd [c] w) (hs : Session w a s r false)
    (hc : Succeeds c) :
    ∃ w', Returns (loop (fun k => acceptTurn serfd (registerHttps epollFd a k)) 0) w () w' ∧
      ∃ fd ev, Opened w w' 0 fd ∧ w'.interest.get fd = some ev ∧ Owns w' fd ev := by
  obtain ⟨k, hk⟩ := succeeds_iff.mp hc
  obtain ⟨f, hturn⟩ := h.done hs hk
  refine ⟨_, Returns.loop_next hturn (Returns.loop_exit h.handOver.empty), _, ⟨inEdge, a⟩,
    Table.get_set_self, Table.get_set_self, { r with fd := w.fds.pick w.low c.1 }, s, _,
    Table.get_set_self, rfl, hs.ssl, Table.get_set_self, rfl⟩

/-- When the first handshake fails, the loop ends and nobody is there. -/
theorem httpsLoop_fails (h : Ready serfd epollFd (c :: conns) w) (hs : Session w a s r false)
    (hc : ¬ Succeeds c) :
    ∃ w', Returns (loop (fun k => acceptTurn serfd (registerHttps epollFd a k)) 0) w () w' ∧
      ∀ k fd, ¬ Opened w w' k fd := by
  have hk : joins false 0 c.2.handshake = none := by
    rw [succeeds_iff, ← Option.isSome_iff_exists, Option.not_isSome_iff_eq_none] at hc
    exact hc
  obtain ⟨f, hturn⟩ := h.failed hs hk
  refine ⟨_, Returns.loop_exit hturn, fun k fd hopen => ?_⟩
  obtain ⟨hne, hopen⟩ := Table.get_erase_eq_some.mp hopen
  exact Nat.not_lt.mpr (Nat.le_add_right _ k)
    (h.files fd _ ((Table.get_set_of_ne hne).symm.trans hopen))

/-- The loop returns. -/
theorem httpsLoop_returns (h : Ready serfd epollFd conns w) (hs : Session w a s r false) :
    ∃ w', Returns (loop (fun k => acceptTurn serfd (registerHttps epollFd a k)) 0) w () w' := by
  rcases conns with - | ⟨c, conns⟩
  · exact ⟨_, Returns.loop_exit h.empty⟩
  · by_cases hc : Succeeds c
    · obtain ⟨k, hk⟩ := succeeds_iff.mp hc
      obtain ⟨f, hturn⟩ := h.done hs hk
      obtain ⟨w', -, hret, -⟩ := httpsLoop_joins h.handOver (hs.handOver ..) k
      exact ⟨w', Returns.loop_next hturn hret⟩
    · obtain ⟨w', hret, -⟩ := httpsLoop_fails h hs hc
      exact ⟨w', hret⟩

/-! ### Isolation -/

/-- The same batch, except for the handshakes of other clients than the
`k`-th. -/
def SameBut (k : Nat) (conns conns' : List (Fd × Answers)) : Prop :=
  conns'[k]? = conns[k]? ∧
    List.Forall₂ (fun c c' => ∃ l, c' = (c.1, { c.2 with handshake := l })) conns conns'

/-- The clients `conns` are pending on `serfd` instead of what is. -/
def World.withPending (serfd : Fd) (conns : List (Fd × Answers)) (w : World) : World :=
  { w with backlog := Function.update w.backlog serfd (conns.map .ok) }

/-- The clients `conns` of a batch do not affect each other; the loop has led
from `w` to `w'`. -/
structure Isolated (type : LisType) (serfd epollFd : Fd) (conns : List (Fd × Answers))
    (w w' : World) : Prop where
  /-- A client whose own handshake succeeds is registered, with an object and
  a session of its own. -/
  own : ∀ k c, conns[k]? = some c → Succeeds c →
    ∃ fd ev, Opened w w' k fd ∧ w'.interest.get fd = some ev ∧ Owns w' fd ev
  /-- No two clients share an object or a session. -/
  apart : ∀ k k', k < conns.length → k' < conns.length → k ≠ k' → ∀ fd fd' ev ev',
    Opened w w' k fd → w'.interest.get fd = some ev →
    Opened w w' k' fd' → w'.interest.get fd' = some ev' →
    ev.ptr ≠ ev'.ptr ∧ ∀ r r' s, w'.reqs.get ev.ptr = some r → w'.reqs.get ev'.ptr = some r' →
      r.ssl = some s → r'.ssl ≠ some s
  /-- Whether a client is registered does not depend on the handshakes of the
  others. -/
  independent : ∀ k, k < conns.length → ∀ conns', SameBut k conns conns' → ∀ w'',
    Returns (eventAcceptHttps type serfd epollFd) (w.withPending serfd conns') () w'' →
    (Registered w w' k ↔ Registered w w'' k)

theorem Ready.withPending (h : Ready serfd epollFd conns w) (hsame : SameBut k conns conns') :
    Ready serfd epollFd conns' (w.withPending serfd conns') := by
  obtain ⟨-, hsame⟩ := hsame
  have hcalls : ∀ c' ∈ conns', w.Admits c' ∧ c'.2.ctl.headD true = true := by
    have hadm := h.admitted
    have hctl := h.granted
    clear h
    induction hsame with
    | nil => simp
    | @cons c c' conns conns' hc hrest ih =>
        obtain ⟨hadmc, hadm⟩ := List.forall_mem_cons.mp hadm
        obtain ⟨hctlc, hctl⟩ := List.forall_mem_cons.mp hctl
        obtain ⟨l, rfl⟩ := hc
        exact List.forall_mem_cons.mpr ⟨⟨hadmc, hctlc⟩, ih hadm hctl⟩
  exact ⟨Function.update_self .., fun c hc => (hcalls c hc).1, fun c hc => (hcalls c hc).2, h.epfd,
    h.files, h.closed⟩

theorem Ready.httpsStart (h : Ready serfd epollFd conns w) (type : LisType) :
    Ready serfd epollFd conns (httpsStart type w) :=
  ⟨h.backlog, h.admitted, h.granted, h.epfd, h.files, h.closed⟩

theorem eventAcceptHttps_returns (type : LisType) (h : Ready serfd epollFd conns w) :
    ∃ w', Returns (eventAcceptHttps type serfd epollFd) w () w' := by
  obtain ⟨w', hret⟩ := httpsLoop_returns (h.httpsStart type) (httpsStart_session type w)
  exact ⟨w', eventAcceptHttps_iff.mpr hret⟩

/-- The same batch, but the first client shakes hands at once. -/
theorem sameBut_first (c c₁ : Fd × Answers) (conns : List (Fd × Answers)) :
    SameBut 1 (c :: c₁ :: conns) ((c.1, { c.2 with handshake := [.done] }) :: c₁ :: conns) := by
  have hrefl : ∀ l : List (Fd × Answers),
      List.Forall₂ (fun c c' => ∃ l, c' = (c.1, { c.2 with handshake := l })) l l :=
    fun l => List.forall₂_same.mpr fun c _ => ⟨c.2.handshake, rfl⟩
  exact ⟨rfl, .cons ⟨[.done], rfl⟩ (hrefl (c₁ :: conns))⟩

/-- In a batch of two or more the first client loses its session to the
others, or keeps them from being served. -/
theorem eventAcceptHttps_not_isolated {type : LisType} {c₁ : Fd × Answers}
    (h : Ready serfd epollFd (c :: c₁ :: conns) w)
    (hret : Returns (eventAcceptHttps type serfd epollFd) w () w') :
    ¬ Isolated type serfd epollFd (c :: c₁ :: conns) w w' := by
  intro hiso
  have hready := h.httpsStart type
  have hsess := httpsStart_session type w
  by_cases hc : Succeeds c
  · -- the first client is registered, with a session that is not its own
    obtain ⟨w₂, hret₂, hover, -⟩ := httpsLoop_overtakes hready hsess hc
    obtain rfl : w' = w₂ := (hret.unique (eventAcceptHttps_iff.mpr hret₂)).2
    obtain ⟨fd, ev, hopen, hreg, r, s, x, hr, -, hs, hssl, hx⟩ := hiso.own 0 c rfl hc
    obtain rfl := hover.opened fd hopen
    rw [hover.registered] at hreg
    cases hreg
    obtain ⟨r', hr', hs'⟩ := hover.object
    rw [hr'] at hr
    cases hr
    rw [hs'] at hs
    cases hs
    exact hover.session x hssl hx
  · -- nobody is served; but the second client would be, had the first shaken hands
    obtain ⟨w₂, hret₂, hnone⟩ := httpsLoop_fails hready hsess hc
    obtain rfl : w' = w₂ := (hret.unique (eventAcceptHttps_iff.mpr hret₂)).2
    have hsame := sameBut_first c c₁ conns
    obtain ⟨w₃, hret₃, -, hreg⟩ := httpsLoop_overtakes
      ((h.withPending hsame).httpsStart type) (httpsStart_session type _)
      (⟨0, rfl, Nat.zero_le 100⟩ : Succeeds (c.1, { c.2 with handshake := [.done] }))
    have hiff := hiso.independent 1 (Nat.succ_lt_succ (Nat.succ_pos _)) _ hsame w₃
      (eventAcceptHttps_iff.mpr hret₃)
    obtain ⟨fd, ev, hopen, -⟩ := hiff.mpr hreg
    exact hnone 1 fd hopen

/-- A batch of none. -/
theorem isolated_nil (type : LisType) : Isolated type serfd epollFd [] w w' where
  own k c hk := by cases hk
  apart k k' hk := absurd hk (Nat.not_lt_zero k)
  independent k hk := absurd hk (Nat.not_lt_zero k)

/-- A batch of one. -/
theorem eventAcceptHttps_single {type : LisType} (h : Ready serfd epollFd [c] w)
    (hret : Returns (eventAcceptHttps type serfd epollFd) w () w') :
    Isolated type serfd epollFd [c] w w' where
  own k c' hk hc := by
    obtain ⟨rfl, rfl⟩ : k = 0 ∧ c = c' := by
      rcases k with - | k
      · exact ⟨rfl, Option.some.inj hk⟩
      · cases hk
    obtain ⟨w₂, hret₂, hown⟩ := httpsLoop_single (h.httpsStart type) (httpsStart_session type w) hc
    obtain rfl : w' = w₂ := (hret.unique (eventAcceptHttps_iff.mpr hret₂)).2
    exact hown
  apart k k' hk hk' hne := by
    rw [List.length_singleton] at hk hk'
    omega
  independent k hk conns' hsame w₂ hret₂ := by
    rw [List.length_singleton, Nat.lt_one_iff] at hk
    obtain ⟨hhead, hsame⟩ := hsame
    -- there are no others
    have hconns : conns' = [c] := by
      rcases hsame with - | ⟨-, - | -⟩
      rw [hk] at hhead
      exact congrArg (· :: []) (Option.some.inj hhead)
    have hw : w.withPending serfd [c] = w := by
      have hself : Function.update w.backlog serfd ([c].map .ok) = w.backlog := by
        rw [← h.backlog, Function.update_eq_self]
      rw [World.withPending, hself]
    rw [hconns, hw] at hret₂
    rw [(hret.unique hret₂).2]

/-- **Isolation of a batch.**  The clients that `event_accept_https` accepts
in one call are isolated exactly when there is at most one of them. -/
theorem eventAcceptHttps_isolated_iff (type : LisType) (h : Ready serfd epollFd conns w) :
    ∃ w', Returns (eventAcceptHttps type serfd epollFd) w () w' ∧
      (Isolated type serfd epollFd conns w w' ↔ conns.length ≤ 1) := by
  obtain ⟨w', hret⟩ := eventAcceptHttps_returns type h
  refine ⟨w', hret, ?_⟩
  rcases conns with - | ⟨c, - | ⟨c₁, conns⟩⟩
  · exact iff_of_true (isolated_nil type) (Nat.zero_le 1)
  · exact iff_of_true (eventAcceptHttps_single h hret) (Nat.le_refl 1)
  · refine iff_of_false (eventAcceptHttps_not_isolated h hret) fun hlen => ?_
    rw [List.length_cons, List.length_cons] at hlen
    omega

/-- Clients that can be accepted on the listener. -/
theorem listening_ready (conns : List (Fd × Answers))
    (hc : ∀ c ∈ conns, (listening []).Admits c ∧ c.2.ctl.headD true = true) :
    Ready 4 3 conns (listening (conns.map .ok)) := by
  refine ⟨rfl, fun c hmem => (hc c hmem).1, fun c hmem => (hc c hmem).2, rfl, fun fd i hi => ?_,
    fun fd hfd => ?_⟩
  · rcases Table.get_set_eq_some.mp hi with ⟨-, rfl⟩ | ⟨-, hi⟩
    · exact Nat.lt_of_lt_of_eq Nat.one_pos rfl
    · cases hi
  · have hne : fd ≠ 4 := by
      rintro rfl
      cases hfd
    exact Table.get_set_of_ne hne

theorem eventAcceptHttps_isolated_one :
    ∃ w', Returns (eventAcceptHttps .https 4 3) (listening [.ok (6, tlsClient [.done])]) () w' ∧
      Isolated .https 4 3 [(6, tlsClient [.done])] (listening [.ok (6, tlsClient [.done])]) w' := by
  obtain ⟨w', hret, hiff⟩ := eventAcceptHttps_isolated_iff .https
    (listening_ready [(6, tlsClient [.done])] (by decide))
  exact ⟨w', hret, hiff.mpr (Nat.le_refl 1)⟩

/-- Two clients are registered with the same object, which is the second
one's. -/
theorem eventAcceptHttps_shares :
    ∃ w', Returns (eventAcceptHttps .https 4 3)
        (listening [.ok (6, tlsClient [.done]), .ok (7, tlsClient [.done])]) () w' ∧
      w'.interest.get 6 = some ⟨inEdge, 1⟩ ∧ w'.interest.get 7 = some ⟨inEdge, 1⟩ ∧
      (w'.reqs.get 1).map ReqT.fd = some 7 ∧
      ¬ Isolated .https 4 3 [(6, tlsClient [.done]), (7, tlsClient [.done])]
        (listening [.ok (6, tlsClient [.done]), .ok (7, tlsClient [.done])]) w' := by
  have h : Ready 4 3 [(6, tlsClient [.done]), (7, tlsClient [.done])]
      (listening [.ok (6, tlsClient [.done]), .ok (7, tlsClient [.done])]) :=
    listening_ready _ (by decide)
  have hready := h.httpsStart .https
  have hsess := httpsStart_session .https
    (listening [.ok (6, tlsClient [.done]), .ok (7, tlsClient [.done])])
  obtain ⟨f₁, hturn₁⟩ := hready.done (k := 0) hsess rfl
  have hready₁ := hready.handOver (f := f₁) (a := 1) (s := 0)
    (r := ⟨0, 0, .https, none, some 0, none⟩)
  obtain ⟨f₂, hturn₂⟩ := hready₁.done (hsess.handOver 4 6 [(7, tlsClient [.done])] f₁) rfl
  have hret := eventAcceptHttps_iff.mpr (Returns.loop_next hturn₁ (Returns.loop_next hturn₂
    (Returns.loop_exit hready₁.handOver.empty)))
  exact ⟨_, hret, rfl, rfl, rfl, eventAcceptHttps_not_isolated h hret⟩

end DmfServer
