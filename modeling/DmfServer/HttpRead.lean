/-
DmfServer/HttpRead.lean

Which requests `event_http_read` serves.

The function asks `read` for the room that is left in 1024 bytes, and takes
the answer 0 for the end of the connection.  With no room left it asks for 0
bytes, and 0 is the answer whatever the peer does.  So a request is served,
and only a peer that is gone is closed, exactly when the request leaves room
or the peer is gone (`eventHttpRead_serves_iff`).  How the request is cut
into pieces does not matter.
-/
import DmfServer.Orphans

namespace DmfServer

open Imperative Imperative.Prog Strings World

variable {w w' : World} {i : FileId} {f : File} {r : ReqT} {conn : Addr}
variable {pieces : List Bytes} {rest : List (Except Errno Bytes)}

/-- `read` has answered so because the peer has closed or reset the
connection. -/
def PeerGone (answer : Except Errno Bytes) : Prop :=
  answer = .ok [] ∨ answer = .error .econnreset

/-- The request is read, with `left` still to come, and counted, and the
connection waits until it can be written to. -/
structure Consumed (w w' : World) (conn : Addr) (r : ReqT) (i : FileId)
    (left : List (Except Errno Bytes)) : Prop where
  req : w'.reqs.get conn = some r
  file : ∃ f', w'.fileAt r.fd = some (i, f') ∧ f'.read = left
  counted : w'.shm = { w.shm with readNum := w.shm.readNum + 1 }
  registered : w'.interest.get r.fd = some ⟨outEdge, conn⟩
  closes : w'.closes = w.closes

/-- A request that leaves room in the buffer. -/
theorem eventHttpRead_consumes (h : Served w conn r i f)
    (hread : f.read = pieces.map .ok ++ rest) (hp : ∀ p ∈ pieces, p ≠ [])
    (hlen : pieces.flatten.length < 1024)
    (hend : rest.headD (.error .eagain) = .error .eagain) (hctl : f.ctl.headD true = true) :
    ∃ w', Returns (eventHttpRead conn r.fd r.efd) w () w' ∧ Consumed w w' conn r i rest.tail := by
  have hloop := readLoop_returns 1024 [] h.file hread
  rw [collect_of_pieces hp hlen hend, if_pos rfl, List.nil_append] at hloop
  have hs := h.setRead rest.tail
  let w₁ := setShm { w.shm with readNum := w.shm.readNum + 1 }
    (w.setFile i { f with read := rest.tail })
  have hs₁ : Served w₁ conn r i { f with read := rest.tail } := hs.setShm
  obtain ⟨-, hmod⟩ | ⟨hno, -⟩ := epollCtl_mod hs₁ ⟨outEdge, conn⟩
  · let w₂ := w₁.setFile i { f with read := rest.tail, ctl := f.ctl.tail }
    have hs₂ : Served w₂ conn r i { f with read := rest.tail, ctl := f.ctl.tail } := hs₁.setFile
    refine ⟨w₂.register r.fd ⟨outEdge, conn⟩, hloop.bind ?_, hs₂.req, ⟨_, hs₂.file, rfl⟩, rfl,
      Table.get_set_self, rfl⟩
    show Returns (reqAt conn >>= _) _ _ _
    rw [returns_reqAt_bind hs.req, hs.sd, returns_count_bind, returns_call_bind]
    exact returns_pure.mpr ⟨rfl, congrArg Prod.snd hmod⟩
  · -- the call of `epoll_ctl` was granted
    rw [show f.ctl.headD true = false from hno] at hctl
    cases hctl

/-- A request that leaves room in the buffer, before a peer that is there:
the connection is not closed. -/
theorem eventHttpRead_keeps {e : Errno} (h : Served w conn r i f)
    (hm : Meets 1024 f.read pieces.flatten e) (hr : e ≠ .econnreset) :
    ∃ w', Returns (eventHttpRead conn r.fd r.efd) w () w' ∧ ¬ Released w' conn r.fd := by
  rcases eq_or_ne e .eagain with rfl | he
  · obtain ⟨w', hret, ⟨-, harm⟩ | ⟨-, f', hs⟩⟩ := eventHttpRead_dry h hm
    · exact ⟨w', hret, not_released_of_req harm.req⟩
    · exact ⟨w', hret, hs.not_released⟩
  · obtain ⟨w', f', hret, hs⟩ := eventHttpRead_fails h hm he hr
    exact ⟨w', hret, hs.not_released⟩

/-- **Which requests are served.**  The client has sent the pieces, and `rest`
begins with what `read` answers behind them.  Only a peer that is gone is
closed, and a request before `EAGAIN` is consumed if `epoll_ctl` succeeds:
both hold exactly when the pieces leave room in the buffer or the peer is
gone. -/
theorem eventHttpRead_serves_iff (h : Served w conn r i f)
    (hread : f.read = pieces.map .ok ++ rest) (hp : ∀ p ∈ pieces, p ≠ [])
    (hrest : ∀ p, rest.headD (.error .eagain) = .ok p → p = []) :
    ∃ w', Returns (eventHttpRead conn r.fd r.efd) w () w' ∧
      ((Released w' conn r.fd → PeerGone (rest.headD (.error .eagain))) ∧
        (rest.headD (.error .eagain) = .error .eagain → f.ctl.headD true = true →
          Consumed w w' conn r i rest.tail) ↔
        pieces.flatten.length < 1024 ∨ PeerGone (rest.headD (.error .eagain))) := by
  have hfull : ∀ got e, 1024 ≤ pieces.flatten.length → ¬ Meets 1024 f.read got e := by
    intro got e hle
    rw [hread]
    exact not_meets_of_overflow hp hle got e
  by_cases hgone : PeerGone (rest.headD (.error .eagain))
  · -- whatever becomes of the connection, the peer does not mind
    have hleft : ∀ w', (Released w' conn r.fd → PeerGone (rest.headD (.error .eagain))) ∧
        (rest.headD (.error .eagain) = .error .eagain → f.ctl.headD true = true →
          Consumed w w' conn r i rest.tail) := by
      refine fun w' => ⟨fun _ => hgone, fun hend => ?_⟩
      rw [hend] at hgone
      obtain hgone | hgone := hgone <;> cases hgone
    obtain ⟨w', hret, -⟩ := eventHttpRead_settles_iff h
    exact ⟨w', hret, iff_of_true (hleft w') (.inr hgone)⟩
  · rcases hend : rest.headD (.error .eagain) with e | p
    · rw [hend] at hgone
      by_cases hlen : pieces.flatten.length < 1024
      · have hm : Meets 1024 f.read pieces.flatten e := ⟨pieces, rest, hread, hp, rfl, hlen, hend⟩
        by_cases hdry : e = .eagain ∧ f.ctl.headD true = true
        · obtain ⟨rfl, hctl⟩ := hdry
          obtain ⟨w', hret, hcons⟩ := eventHttpRead_consumes h hread hp hlen hend hctl
          exact ⟨w', hret, iff_of_true ⟨fun hrel => absurd hrel (not_released_of_req hcons.req),
            fun _ _ => hcons⟩ (.inl hlen)⟩
        · obtain ⟨w', hret, hkept⟩ := eventHttpRead_keeps h hm fun he => hgone (.inr (he ▸ rfl))
          exact ⟨w', hret, iff_of_true ⟨fun hrel => absurd hrel hkept,
            fun he hctl => absurd ⟨Except.error.inj he, hctl⟩ hdry⟩ (.inl hlen)⟩
      · obtain ⟨w', hret, hrel⟩ := eventHttpRead_closed h fun got e => hfull got e (by omega)
        exact ⟨w', hret, iff_of_false (fun hc => hgone (hc.1 hrel)) (not_or.mpr ⟨hlen, hgone⟩)⟩
    · exact absurd (.inl (hend.trans (congrArg _ (hrest p hend)))) hgone

/-- A request that comes in two pieces, from a peer that stays. -/
theorem eventHttpRead_serves_get :
    ∃ w', Returns (eventHttpRead 0 5 3)
        (oneClient .http (.io [.ok (bytes "GET "), .ok (bytes "/")] []) []) () w' ∧
      Consumed (oneClient .http (.io [.ok (bytes "GET "), .ok (bytes "/")] []) []) w' 0
        ⟨5, 3, .http, none, none, some ()⟩ 0 [] := by
  have hread : (Answers.io [.ok (bytes "GET "), .ok (bytes "/")] []).read
      = [bytes "GET ", bytes "/"].map .ok ++ [] := rfl
  have hserved := oneClient_served .http (.io [.ok (bytes "GET "), .ok (bytes "/")] []) []
  obtain ⟨w', hret, hiff⟩ := eventHttpRead_serves_iff hserved hread (by decide)
    fun p hp => by cases hp
  exact ⟨w', hret, (hiff.mpr (.inl (by decide))).2 rfl rfl⟩

/-- A request of 1024 bytes: the client is closed, though it is there and
`read` would answer `EAGAIN` next. -/
theorem eventHttpRead_closes_peer :
    ∃ w', Returns (eventHttpRead 0 5 3)
        (oneClient .http (.io [.ok (List.replicate 1024 65), .error .eagain] []) []) () w' ∧
      Released w' 0 5 ∧ ¬ PeerGone (.error .eagain) := by
  have hm : ∀ got e, ¬ Meets 1024
      ([List.replicate 1024 65].map Except.ok ++ [.error .eagain]) got e := by
    apply not_meets_of_overflow
    · intro p hp hnil
      rw [List.mem_singleton.mp hp] at hnil
      cases hnil
    · rw [List.flatten_singleton, List.length_replicate]
  have hserved := oneClient_served .http
    (.io [.ok (List.replicate 1024 65), .error .eagain] []) []
  obtain ⟨w', hret, hrel⟩ := eventHttpRead_closed hserved hm
  refine ⟨w', hret, hrel, ?_⟩
  rintro (hgone | hgone) <;> cases hgone

end DmfServer
