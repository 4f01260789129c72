/-
DmfServer/HttpsClose.lean

Closing a TLS client.

`event_accept_https` clears the object of a client with `memset` and sets
`ssl`, `type` and `fd` of it, but, unlike `event_accept_http`, neither `efd`
nor `sd`; and no other code sets them later.  So whatever happens to a
connection, when the event loop calls `handle_close` for it, the descriptor is
closed and then `req->sd->close_num` is counted through a null pointer.

That nothing sets `sd` is an invariant of every handler of the worker
(`Unset`).  A handler for a TLS client may itself fault in this way, so the
judgement is that of partial correctness, and the handlers are gone through by
instances of `Preserves`.
-/
import DmfServer.Steady

namespace DmfServer

open Imperative Imperative.Prog Strings World Relation

variable {w w' : World} {fd serfd epollFd : Fd} {p a : Addr} {ev : EpollEvent}
variable {lisInfs : List LisInf} {sd : Option Unit}

/-! ### The invariants -/

/-- The object at `p` has been given out, and as long as it is there its `sd`
is null. -/
def Unset (p : Addr) (w : World) : Prop :=
  p < w.reqs.bound ∧ ∀ r, w.reqs.get p = some r → r.sd = none

/-- What was not in the epoll set `I` is registered with the object `a`. -/
def Enrolled (I : Table EpollEvent) (a : Addr) (w : World) : Prop :=
  ∀ fd ev, w.interest.get fd = some ev → I.get fd = some ev ∨ ev.ptr = a

instance : Steady (Unset p) where
  grow w w' hr _ _ h := by
    rw [Unset, hr]
    exact h

instance {I : Table EpollEvent} : Steady (Enrolled I a) where
  grow w w' _ hi _ h := by
    rw [Enrolled, hi]
    exact h

/-! ### No handler sets `sd` -/

instance : Preserves (Unset p) (call (World.close fd)) := by
  refine .call fun w h => ?_
  rw [close_snd]
  exact h

instance {efd : Fd} {op : EpollOp} : Preserves (Unset p) (call (epollCtl efd op fd)) := by
  refine .call fun w h => ?_
  have hr : (ctlCall fd w).2.reqs = w.reqs := onFile_reqs
  have h₁ : Unset p (ctlCall fd w).2 := by
    rw [Unset, hr]
    exact h
  rcases epollCtl_cases efd op fd w with ⟨e, he⟩ | ⟨ev, -, he⟩ | ⟨-, he⟩
  · rw [he]
    exact h₁
  · rw [he]
    exact h₁
  · rw [he]
    exact h₁

/-- Another object is allocated. -/
theorem Unset.newReq (h : Unset p w) (r : ReqT) : Unset p (w.newReq r) := by
  obtain ⟨hlt, hr⟩ := h
  refine ⟨?_, fun r' hr' => ?_⟩
  · rw [newReq_reqs, Table.bound_push]
    exact Nat.lt_succ_of_lt hlt
  rw [newReq_reqs, Table.get_push_of_ne (ne_of_lt hlt)] at hr'
  exact hr r' hr'

instance {r : ReqT} : Preserves (Unset p) (newReqT r) := .call fun _ h => h.newReq r

instance : Preserves (Unset p) (store (freeReq a)) := by
  refine .store fun w h => ⟨h.1, fun r hr => ?_⟩
  exact h.2 r (Table.get_erase_eq_some.mp hr).2

/-- The one assignment to a `req_t` that is in use: its `sd` stays. -/
theorem preserves_setFd {α : Type} {k : Unit → Prog World α}
    [hk : ∀ u, Preserves (Unset p) (k u)] :
    Preserves (Unset p) (do
      let r ← reqAt a
      let u ← store (setReq a { r with fd := fd })
      k u) where
  keep w h := by
    intro n x w' hn
    rcases hr : w.reqs.get a with - | r
    · rw [reqAt, Prog.bind_assoc, bind_run] at hn
      simp only [load, hr] at hn
      cases hn
    · rw [reqAt_bind_run hr] at hn
      have h' : Unset p (w.setReq a { r with fd := fd }) := by
        refine ⟨lt_of_lt_of_le h.1 (Nat.le_max_left _ _), fun r' hr' => ?_⟩
        rcases Table.get_set_eq_some.mp hr' with ⟨rfl, rfl⟩ | ⟨-, hr'⟩
        · exact h.2 r hr
        · exact h.2 r' hr'
      exact (hk ()).keep _ h' n x w' hn

instance {req : Addr} {retryTimes : Nat} {clifd : Fd} :
    Preserves (Unset p) (registerHttps epollFd req retryTimes clifd) :=
  preserves_registerHttps_of inferInstance fun _ => preserves_setFd

instance {type : LisType} : Preserves (Unset p) (eventAcceptHttps type serfd epollFd) := by
  have hnew : Preserves (Unset p) sslNew := .call fun _ h => h
  have hturn : ∀ req retryTimes,
      Preserves (Unset p) (acceptTurn serfd (registerHttps epollFd req retryTimes)) :=
    fun _ _ => preserves_acceptTurn fun _ => inferInstance
  unfold eventAcceptHttps
  infer_instance

instance {type : LisType} : Preserves (Unset p) (eventAcceptHttp type serfd epollFd sd) := by
  have hregister : ∀ clifd, Preserves (Unset p) (registerHttp type epollFd sd clifd) := by
    intro clifd
    unfold registerHttp
    refine .seq inferInstance fun req => .seq inferInstance fun _ => .seq inferInstance fun r => ?_
    cases r <;> infer_instance
  have hturn : Preserves (Unset p) (acceptTurn serfd (registerHttp type epollFd sd)) :=
    preserves_acceptTurn hregister
  unfold eventAcceptHttp
  infer_instance

instance {lisInf : LisInf} : Preserves (Unset p) (handleAccept lisInf epollFd sd) := by
  unfold handleAccept
  cases lisInf.type <;> infer_instance

instance : Preserves (Unset p) (handleClose a) := by
  unfold handleClose
  refine .seq inferInstance fun req => .seq inferInstance fun _ => .seq inferInstance fun _ => ?_
  infer_instance

instance : Preserves (Unset p) (eventHttpRead a fd epollFd) := by
  unfold eventHttpRead
  apply Preserves.seq inferInstance
  rintro ⟨outcome, buf⟩
  rcases outcome with - | - | e <;> infer_instance

instance {buffer : Bytes} {len : Int} : Preserves (Unset p) (exchange fd buffer len) := by
  unfold exchange
  infer_instance

instance : Preserves (Unset p) (eventHttpReverse a fd) := by
  unfold eventHttpReverse
  apply Preserves.seq inferInstance
  rintro ⟨outcome, buf⟩
  rcases outcome with - | - | e
  · refine .seq inferInstance fun sock => ?_
    rcases sock with - | cliSock
    · infer_instance
    · apply Preserves.seq inferInstance
      rintro ⟨recvLen, buffer⟩
      refine .seq inferInstance fun r => ?_
      cases r <;> infer_instance
  · infer_instance
  · infer_instance

instance : Preserves (Unset p) (eventHttpsReverse a) := by
  unfold eventHttpsReverse
  refine .seq inferInstance fun req => ?_
  apply Preserves.seq inferInstance
  rintro ⟨totalRead, buffer⟩
  refine .seq inferInstance fun sock => ?_
  cases sock <;> infer_instance

instance : Preserves (Unset p) (handleHttpsReadWrite a) := by
  unfold handleHttpsReadWrite
  infer_instance

instance : Preserves (Unset p) (handleRead a) := by
  unfold handleRead
  refine .seq inferInstance fun req => ?_
  cases req.type <;> infer_instance

instance : Preserves (Unset p) (eventHttpWrite a fd) := by
  unfold eventHttpWrite
  refine .seq inferInstance fun req => .seq inferInstance fun r => ?_
  cases r <;> infer_instance

instance : Preserves (Unset p) (handleWrite a) := by
  unfold handleWrite
  refine .seq inferInstance fun req => ?_
  cases req.type <;> infer_instance

/-- No handler sets the `sd` of an object. -/
instance : Preserves (Unset p) (serverEvent lisInfs epollFd sd ev) := by
  unfold serverEvent
  infer_instance

/-! ### The accept path -/

instance {I : Table EpollEvent} : Preserves (Enrolled I a) (call (World.close fd)) := by
  refine .call fun w h => ?_
  rw [close_snd]
  exact fun fd ev hev => h fd ev (Table.get_erase_eq_some.mp hev).2

instance {I : Table EpollEvent} {events : EpollEvents} :
    Preserves (Enrolled I a) (call (epollCtl epollFd (.add ⟨events, a⟩) fd)) := by
  refine .call fun w h => ?_
  have h₁ : Enrolled I a (ctlCall fd w).2 :=
    Steady.same w _ onFile_reqs onFile_interest onFile_fds h
  rcases epollCtl_cases epollFd (.add ⟨events, a⟩) fd w with ⟨e, he⟩ | ⟨ev, hop, he⟩ | ⟨hop, -⟩
  · rw [he]
    exact h₁
  · rw [he]
    intro fd' ev' hev'
    rcases Table.get_set_eq_some.mp hev' with ⟨-, rfl⟩ | ⟨-, hev'⟩
    · rcases hop with ⟨hop, -⟩ | ⟨hop, -⟩
      · cases hop
        exact .inr rfl
      · cases hop
    · exact h₁ fd' ev' hev'
  · cases hop

instance {I : Table EpollEvent} {retryTimes : Nat} {clifd : Fd} :
    Preserves (Enrolled I a) (registerHttps epollFd a retryTimes clifd) := by
  have hset : ∀ r, Preserves (Enrolled I a) (store (setReq a r)) :=
    fun _ => .store fun _ h => h
  exact preserves_registerHttps_of inferInstance fun _ => inferInstance

/-- `event_accept_https` registers its clients with one object, whose `sd` it
does not set. -/
theorem eventAcceptHttps_unset (type : LisType) (serfd epollFd : Fd) (w : World) :
    Partially (eventAcceptHttps type serfd epollFd) w fun _ w' =>
      ∀ fd ev, w'.interest.get fd = some ev → w.interest.get fd ≠ some ev → Unset ev.ptr w' := by
  rw [eventAcceptHttps]
  apply Partially.bind
  rintro n ssl w₁ hssl
  obtain ⟨-, rfl⟩ := Prod.mk.inj (Outcome.ok.inj hssl)
  apply Partially.bind
  rintro n req w₁ hreq
  obtain ⟨rfl, rfl⟩ := Prod.mk.inj (Outcome.ok.inj hreq)
  set a : Addr := (w.newSsl ⟨none, false⟩).reqs.bound with ha
  set w₁ := (w.newSsl ⟨none, false⟩).newReq ⟨0, 0, type, none, some ssl, none⟩ with hw₁
  have hunset : Unset a w₁ := by
    refine ⟨?_, fun r hr => ?_⟩
    · rw [hw₁, newReq_reqs, Table.bound_push]
      exact Nat.lt_succ_self _
    obtain rfl := Option.some.inj (Table.get_push_self.symm.trans hr)
    rfl
  have henrolled : Enrolled w.interest a w₁ := fun _ _ hev => .inl hev
  have hloop : ∀ (I : World → Prop) [Steady I] [∀ retryTimes clifd,
      Preserves I (registerHttps epollFd a retryTimes clifd)],
      Preserves I (loop (fun retryTimes =>
        acceptTurn serfd (registerHttps epollFd a retryTimes)) 0) := by
    intro I _ _
    have hturn : ∀ retryTimes, Preserves I
        (acceptTurn serfd (registerHttps epollFd a retryTimes)) :=
      fun _ => preserves_acceptTurn inferInstance
    infer_instance
  intro n u w₂ hn
  have hunset₂ := (hloop (Unset a)).keep w₁ hunset n u w₂ hn
  have henrolled₂ := (hloop (Enrolled w.interest a)).keep w₁ henrolled n u w₂ hn
  intro fd ev hev hold
  rcases henrolled₂ fd ev hev with hev | hptr
  · exact absurd hev hold
  · rw [hptr]
    exact hunset₂

/-! ### The run -/

/-- A turn of the event loop: an event is handled, or the timers run. -/
inductive Turn (lisInfs : List LisInf) (epollFd : Fd) (sd : Option Unit) : World → World → Prop
  | event {w w' : World} {ev : EpollEvent}
      (h : Returns (serverEvent lisInfs epollFd sd ev) w () w') : Turn lisInfs epollFd sd w w'
  | timers {w w' : World} {now : Int}
      (h : Returns (zoom timers setTimers (executeTimers idle now)) w () w') :
      Turn lisInfs epollFd sd w w'

theorem Unset.turn (h : Unset p w) (ht : Turn lisInfs epollFd sd w w') : Unset p w' := by
  cases ht with
  | event hret => exact (Preserves.keep w h).of_returns hret
  | timers hret => exact (Preserves.keep w h).of_returns hret

theorem Unset.run (h : Unset p w) (hrun : ReflTransGen (Turn lisInfs epollFd sd) w w') :
    Unset p w' := by
  induction hrun with
  | refl => exact h
  | tail _ ht ih => exact ih.turn ht

/-- `handle_close` closes the descriptor, and does not come further than to
the counter. -/
theorem handleClose_faults (h : Unset p w) (n : Nat) : handleClose p w n = .fault := by
  rcases hr : w.reqs.get p with - | r
  · rw [handleClose, reqAt, Prog.bind_assoc, bind_run]
    simp only [load, hr]
    rfl
  · rw [handleClose, reqAt_bind_run hr, h.2 r hr]
    rfl

/-- **TLS clients cannot be closed.**  For a client that `event_accept_https`
has registered, after any run of the event loop, `handle_close` faults. -/
theorem handleClose_https_faults (lisInfs : List LisInf) (epollFd : Fd) (sd : Option Unit)
    (type : LisType) (serfd fd : Fd) (ev : EpollEvent) (w₁ w₂ w₃ : World)
    (haccept : Returns (eventAcceptHttps type serfd epollFd) w₁ () w₂)
    (hnew : w₂.interest.get fd = some ev) (hold : w₁.interest.get fd ≠ some ev)
    (hrun : ReflTransGen (Turn lisInfs epollFd sd) w₂ w₃) :
    ∀ n, handleClose ev.ptr w₃ n = .fault := by
  have hunset := (eventAcceptHttps_unset type serfd epollFd w₁).of_returns haccept fd ev hnew hold
  exact handleClose_faults (hunset.run hrun)

/-- A TLS client on the descriptor 6, which asks for a page. -/
def tlsAsking : World :=
  listening [.ok (6, { tlsClient [.done] with sslRead := [.ok (bytes "GET /")] })]

/-- It is answered first. -/
theorem handleClose_https_faults_served : ∃ w₂ w₃,
    Returns (eventAcceptHttps .https 4 3) tlsAsking () w₂ ∧
    Returns (serverEvent [⟨4, .https⟩] 3 (some ()) ⟨inEdge, 1⟩) w₂ () w₃ ∧
    ∀ n, handleClose 1 w₃ n = .fault := by
  refine ⟨_, _, .of_run 2 fun _ => rfl, .of_run 0 fun _ => rfl, ?_⟩
  apply handleClose_https_faults [⟨4, .https⟩] 3 (some ()) .https 4 6 ⟨inEdge, 1⟩ tlsAsking
  · exact .of_run 2 fun _ => rfl
  · rfl
  · show none ≠ some _
    exact nofun
  · apply ReflTransGen.single
    refine .event (?_ : Returns (serverEvent _ _ _ ⟨inEdge, 1⟩) _ () _)
    exact .of_run 0 fun _ => rfl

/-- It hangs up, and the worker crashes. -/
theorem hangUp_https_faults : ∃ w₂,
    Returns (eventAcceptHttps .https 4 3) tlsAsking () w₂ ∧
    w₂.interest.get 6 = some ⟨inEdge, 1⟩ ∧
    (∀ n, handleClose 1 w₂ n = .fault) ∧
    ∀ n, serverEvent [⟨4, .https⟩] 3 (some ()) ⟨⟨false, false, false, true, false⟩, 1⟩ w₂ n
      = .fault :=
  ⟨_, .of_run 2 fun _ => rfl, rfl, fun _ => rfl, fun _ => rfl⟩

end DmfServer
