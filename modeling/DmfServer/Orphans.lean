/-
DmfServer/Orphans.lean

What becomes of a connection on the error paths of the handlers.

When `event_http_read` or `event_http_reverse` returns, somebody should be
about to serve the connection or it should be gone.  `no_orphan_iff` says
when that is so: exactly when the handler does not take one of the exits that
only print a message.  After one of those the descriptor is open, the object
is allocated, and the registration is the old one for input, which was edge
triggered.
-/
import DmfServer.Relay

namespace DmfServer

open Imperative Imperative.Prog Strings World

variable {w w' : World} {fd : Fd} {i : FileId} {f f' : File} {r : ReqT} {conn : Addr}
variable {got : Bytes}

/-- The connection waits until it can be written to. -/
structure Rearmed (w : World) (conn : Addr) (r : ReqT) : Prop where
  req : w.reqs.get conn = some r
  opened : ∃ i f, w.fileAt r.fd = some (i, f)
  registered : w.interest.get r.fd = some ⟨outEdge, conn⟩

theorem Served.not_rearmed (h : Served w conn r i f) : ¬ Rearmed w conn r := by
  intro hr
  have hreg := hr.registered
  rw [h.registered] at hreg
  cases hreg

/-! ### `event_http_read` -/

/-- `EPOLL_CTL_MOD` on a client in order is a matter of resources. -/
theorem epollCtl_mod (h : Served w conn r i f) (ev : EpollEvent) :
    (f.ctl.headD true = true ∧ epollCtl r.efd (.mod ev) r.fd w
      = (.ok (), (w.setFile i { f with ctl := f.ctl.tail }).register r.fd ev)) ∨
    (f.ctl.headD true = false ∧ epollCtl r.efd (.mod ev) r.fd w
      = (.error (.other 0), w.setFile i { f with ctl := f.ctl.tail })) := by
  have hcall : ctlCall r.fd w =
      (some (f.ctl.headD true), w.setFile i { f with ctl := f.ctl.tail }) :=
    onFile_eq h.file
  rw [epollCtl, hcall]
  rcases hg : f.ctl.headD true
  · refine .inr ⟨rfl, ?_⟩
    simp only [setFile_epfd, h.efd, ne_eq, not_true_eq_false, if_false, Bool.not_false, if_true]
  · refine .inl ⟨rfl, ?_⟩
    simp only [setFile_epfd, setFile_interest, h.efd, h.registered, ne_eq, not_true_eq_false,
      if_false, Bool.not_true, Bool.false_eq_true]

theorem eventHttpRead_closed (h : Served w conn r i f) (hm : ∀ got e, ¬ Meets 1024 f.read got e) :
    ∃ w', Returns (eventHttpRead conn r.fd r.efd) w () w' ∧ Released w' conn r.fd := by
  obtain ⟨got, q, hloop⟩ := readLoop_closed h.file hm
  obtain ⟨w', hret, hrel, -⟩ := handleClose_returns (h.setRead q)
  exact ⟨w', hloop.bind hret, hrel⟩

theorem eventHttpRead_reset (h : Served w conn r i f) (hm : Meets 1024 f.read got .econnreset) :
    ∃ w', Returns (eventHttpRead conn r.fd r.efd) w () w' ∧ Released w' conn r.fd := by
  obtain ⟨q, hloop⟩ := readLoop_meets h.file hm
  have hs := h.setRead q
  obtain ⟨w', hret, hrel, -⟩ := handleClose_returns
    (hs.setShm : Served (setShm { w.shm with readNum := w.shm.readNum + 1 } _) conn r i _)
  refine ⟨w', hloop.bind ?_, hrel⟩
  show Returns (reqAt conn >>= _) _ _ _
  rw [returns_reqAt_bind hs.req, hs.sd, returns_count_bind]
  exact hret

/-- Another error: the client is left as it is. -/
theorem eventHttpRead_fails {e : Errno} (h : Served w conn r i f) (hm : Meets 1024 f.read got e)
    (he : e ≠ .eagain) (hr : e ≠ .econnreset) :
    ∃ w' f', Returns (eventHttpRead conn r.fd r.efd) w () w' ∧ Served w' conn r i f' := by
  obtain ⟨q, hloop⟩ := readLoop_meets h.file hm
  rw [if_neg he] at hloop
  refine ⟨_, _, hloop.bind ?_, h.setRead q⟩
  show Returns (if e = .econnreset then _ else _) _ _ _
  rw [if_neg hr]
  exact returns_pure.mpr ⟨rfl, rfl⟩

/-- The request has been read: the client waits for output, if `epoll_ctl`
is granted, and is left as it is otherwise. -/
theorem eventHttpRead_dry (h : Served w conn r i f) (hm : Meets 1024 f.read got .eagain) :
    ∃ w', Returns (eventHttpRead conn r.fd r.efd) w () w' ∧
      (f.ctl.headD true = true ∧ Rearmed w' conn r ∨
        f.ctl.headD true = false ∧ ∃ f', Served w' conn r i f') := by
  obtain ⟨q, hloop⟩ := readLoop_meets h.file hm
  rw [if_pos rfl] at hloop
  have hs := h.setRead q
  have hs' : Served (setShm { w.shm with readNum := w.shm.readNum + 1 } _) conn r i _ := hs.setShm
  have hsteps : ∀ {x w'}, epollCtl r.efd (.mod ⟨outEdge, conn⟩) r.fd
      (setShm { w.shm with readNum := w.shm.readNum + 1 } (w.setFile i { f with read := q }))
        = (x, w') → Returns (eventHttpRead conn r.fd r.efd) w () w' := by
    intro x w' hctl
    refine hloop.bind ?_
    show Returns (reqAt conn >>= _) _ _ _
    rw [returns_reqAt_bind hs.req, hs.sd, returns_count_bind, returns_call_bind]
    exact returns_pure.mpr ⟨rfl, congrArg Prod.snd hctl⟩
  rcases epollCtl_mod hs' ⟨outEdge, conn⟩ with ⟨hg, hctl⟩ | ⟨hg, hctl⟩
  · exact ⟨_, hsteps hctl, .inl ⟨hg, hs'.req, ⟨i, _, hs'.setFile.file⟩, Table.get_set_self⟩⟩
  · exact ⟨_, hsteps hctl, .inr ⟨hg, _, hs'.setFile⟩⟩

/-- When `event_http_read` has settled what becomes of the connection. -/
theorem eventHttpRead_settles_iff (h : Served w conn r i f) :
    ∃ w', Returns (eventHttpRead conn r.fd r.efd) w () w' ∧
      (Released w' conn r.fd ∨ Rearmed w' conn r ↔
        ∀ got e, Meets 1024 f.read got e → e = .econnreset ∨ e = .eagain ∧ f.ctl.headD true = true)
      := by
  by_cases hm : ∃ got e, Meets 1024 f.read got e
  · obtain ⟨got, e, hm⟩ := hm
    have hcond : (∀ got e, Meets 1024 f.read got e →
        e = .econnreset ∨ e = .eagain ∧ f.ctl.headD true = true) ↔
        e = .econnreset ∨ e = .eagain ∧ f.ctl.headD true = true :=
      ⟨fun hc => hc got e hm, fun hc got' e' hm' => (hm.unique hm').2 ▸ hc⟩
    simp only [hcond]
    rcases eq_or_ne e .econnreset with rfl | hr
    · obtain ⟨w', hret, hrel⟩ := eventHttpRead_reset h hm
      exact ⟨w', hret, iff_of_true (.inl hrel) (.inl rfl)⟩
    rcases eq_or_ne e .eagain with rfl | he
    · obtain ⟨w', hret, ⟨hg, harm⟩ | ⟨hg, f', hs⟩⟩ := eventHttpRead_dry h hm
      · exact ⟨w', hret, iff_of_true (.inr harm) (.inr ⟨rfl, hg⟩)⟩
      · refine ⟨w', hret, iff_of_false ?_ ?_⟩
        · exact fun hw => hw.elim hs.not_released hs.not_rearmed
        · rintro (hc | ⟨-, hc⟩)
          · exact hr hc
          · rw [hg] at hc
            cases hc
    · obtain ⟨w', f', hret, hs⟩ := eventHttpRead_fails h hm he hr
      refine ⟨w', hret, iff_of_false (fun hw => hw.elim hs.not_released hs.not_rearmed) ?_⟩
      rintro (hc | ⟨hc, -⟩)
      · exact hr hc
      · exact he hc
  · have hno : ∀ got e, ¬ Meets 1024 f.read got e := fun got e hge => hm ⟨got, e, hge⟩
    obtain ⟨w', hret, hrel⟩ := eventHttpRead_closed h hno
    exact ⟨w', hret, iff_of_true (.inl hrel) fun got e hge => absurd hge (hno got e)⟩

/-! ### `event_http_reverse` -/

/-- When `event_http_reverse` has released the connection. -/
theorem eventHttpReverse_releases_iff (h : Served w conn r i f) :
    ∃ w', Returns (eventHttpReverse conn r.fd) w () w' ∧
      (Released w' conn r.fd ↔ ∀ got e, Meets 4096 f.read got e → e = .eagain ∧
        ∃ ans, upstream w.sockets = some ans ∧
          ¬ Undelivered (ans.read.headD (.ok [])) (f.write.headD (.error .eagain))) := by
  by_cases hm : ∃ got e, Meets 4096 f.read got e
  · obtain ⟨got, e, hm⟩ := hm
    have hcond : (∀ got e, Meets 4096 f.read got e → e = .eagain ∧
        ∃ ans, upstream w.sockets = some ans ∧
          ¬ Undelivered (ans.read.headD (.ok [])) (f.write.headD (.error .eagain))) ↔
        e = .eagain ∧ ∃ ans, upstream w.sockets = some ans ∧
          ¬ Undelivered (ans.read.headD (.ok [])) (f.write.headD (.error .eagain)) :=
      ⟨fun hc => hc got e hm, fun hc got' e' hm' => (hm.unique hm').2 ▸ hc⟩
    simp only [hcond]
    rcases eq_or_ne e .eagain with rfl | he
    · rcases hup : upstream w.sockets with - | ans
      · obtain ⟨w', f', hret, hs⟩ := eventHttpReverse_refused h hm hup
        refine ⟨w', hret, iff_of_false hs.not_released ?_⟩
        rintro ⟨-, ans, hans, -⟩
        cases hans
      · obtain ⟨w', hret, -, -, hrel⟩ := eventHttpReverse_relays h hm hup
        refine ⟨w', hret, hrel.trans ⟨fun hd => ⟨rfl, ans, rfl, hd⟩, ?_⟩⟩
        rintro ⟨-, ans', hans, hd⟩
        rwa [Option.some.inj hans]
    · obtain ⟨w', f', hret, hs⟩ := eventHttpReverse_fails h hm he
      exact ⟨w', hret, iff_of_false hs.not_released fun hc => he hc.1⟩
  · have hno : ∀ got e, ¬ Meets 4096 f.read got e := fun got e hge => hm ⟨got, e, hge⟩
    obtain ⟨q, w', hret, hrel, -⟩ := eventHttpReverse_closed h hno
    exact ⟨w', hret, iff_of_true hrel fun got e hge => absurd hge (hno got e)⟩

/-! ### Both handlers -/

/-- **No orphans.**  A connection in order is released, or waits for output,
when `event_http_read` returns, exactly when the error that `read` meets is
`ECONNRESET`, or it is `EAGAIN` and `EPOLL_CTL_MOD` succeeds.  It is released
when `event_http_reverse` returns exactly when the error is `EAGAIN`, the
upstream accepts, and `write` does not fail on a response.  When `read` meets
no error, since the peer has closed or the buffer is full, both release it. -/
theorem no_orphan_iff (h : Served w conn r i f) :
    (∃ w', Returns (eventHttpRead conn r.fd r.efd) w () w' ∧
      (Released w' conn r.fd ∨ Rearmed w' conn r ↔
        ∀ got e, Meets 1024 f.read got e →
          e = .econnreset ∨ e = .eagain ∧ f.ctl.headD true = true)) ∧
    ∃ w', Returns (eventHttpReverse conn r.fd) w () w' ∧
      (Released w' conn r.fd ↔ ∀ got e, Meets 4096 f.read got e → e = .eagain ∧
        ∃ ans, upstream w.sockets = some ans ∧
          ¬ Undelivered (ans.read.headD (.ok [])) (f.write.headD (.error .eagain))) :=
  ⟨eventHttpRead_settles_iff h, eventHttpReverse_releases_iff h⟩

theorem no_orphan_request :
    (∃ w', Returns (eventHttpRead 0 5 3)
        (oneClient .http (.io [.ok (bytes "GET /")] []) []) () w' ∧
      (Released w' 0 5 ∨ Rearmed w' 0 ⟨5, 3, .http, none, none, some ()⟩)) ∧
    ∃ w', Returns (eventHttpReverse 0 5)
        (oneClient .httpProxy (.io [.ok (bytes "GET /")] [.ok 9])
          [.ok (6, .io [.ok (bytes "pong")] [.ok 9])]) () w' ∧ Released w' 0 5 := by
  have hm : ∀ size write, 5 < size →
      Meets size (Answers.io [.ok (bytes "GET /")] write).read (bytes "GET /") .eagain :=
    fun size write hsize => ⟨[bytes "GET /"], [], rfl, by decide, rfl, hsize, rfl⟩
  obtain ⟨⟨w₁, hret₁, hiff₁⟩, -⟩ := no_orphan_iff
    (oneClient_served .http (.io [.ok (bytes "GET /")] []) [])
  obtain ⟨-, w₂, hret₂, hiff₂⟩ := no_orphan_iff
    (oneClient_served .httpProxy (.io [.ok (bytes "GET /")] [.ok 9])
      [.ok (6, .io [.ok (bytes "pong")] [.ok 9])])
  refine ⟨⟨w₁, hret₁, hiff₁.mpr fun got e hge => .inr ?_⟩,
    w₂, hret₂, hiff₂.mpr fun got e hge => ?_⟩
  · obtain ⟨-, rfl⟩ := (hm 1024 [] (by decide)).unique hge
    exact ⟨rfl, rfl⟩
  · obtain ⟨-, rfl⟩ := (hm 4096 [.ok 9] (by decide)).unique hge
    refine ⟨rfl, _, rfl, ?_⟩
    rintro ⟨piece, e, -, -, hw, -⟩
    cases hw

/-- After a `read` that was interrupted, and after an upstream that refused,
the client is as it was: open, allocated, and registered for input. -/
theorem handlers_orphan :
    (∃ w', Returns (eventHttpRead 0 5 3) (oneClient .http (.io [.error .eintr] []) []) () w' ∧
      ¬ Released w' 0 5 ∧ ¬ Rearmed w' 0 ⟨5, 3, .http, none, none, some ()⟩) ∧
    ∃ w' f', Returns (eventHttpReverse 0 5)
        (oneClient .httpProxy (.io [.ok (bytes "GET /")] []) [.error (.other 0)]) () w' ∧
      ¬ Released w' 0 5 ∧ Served w' 0 ⟨5, 3, .httpProxy, none, none, some ()⟩ 0 f' := by
  obtain ⟨w₁, f₁, hret₁, hs₁⟩ := eventHttpRead_fails
    (oneClient_served .http (.io [.error .eintr] []) [])
    ⟨[], [.error .eintr], rfl, by decide, rfl, by decide, rfl⟩ (by decide) (by decide)
  obtain ⟨w₂, f₂, hret₂, hs₂⟩ := eventHttpReverse_refused
    (oneClient_served .httpProxy (.io [.ok (bytes "GET /")] []) [.error (.other 0)])
    ⟨[bytes "GET /"], [], rfl, by decide, rfl, by decide, rfl⟩ rfl
  exact ⟨⟨w₁, hret₁, hs₁.not_released, hs₁.not_rearmed⟩, w₂, f₂, hret₂, hs₂.not_released, hs₂⟩

end DmfServer
