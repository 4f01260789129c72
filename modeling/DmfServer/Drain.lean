/-
DmfServer/Drain.lean

When `handle_accept` drains the backlog of a listener.

The listeners are edge triggered, so what is pending at the edge has to be
accepted before the handler returns, until `accept` reports `EAGAIN`
(`Drained`).  Both loops end early on a connection they cannot handle and on
any other error of `accept`, so they drain the backlog exactly when there is
none of these (`handleAccept_drains_iff`); for TLS the first handshake must
also be done within a hundred retries.  The others are not made: the session
of the loop is finished by then, and lets everybody in.

`acceptLoop_drains_iff` proves this for both loops, from what `register`
makes of one connection.
-/
import DmfServer.Accepting

namespace DmfServer

open Imperative Imperative.Prog Strings World

variable {w w' : World} {serfd fd epollFd : Fd} {f : File} {a s : Addr} {r : ReqT}
variable {c : Fd × Answers} {q : List (Except Errno (Fd × Answers))}

/-! ### The edge -/

/-- `accept` reports that nothing is pending. -/
def isAgain : Except Errno (Fd × Answers) → Bool
  | .error .eagain => true
  | _ => false

/-- What is pending at the edge. -/
def atEdge (q : List (Except Errno (Fd × Answers))) : List (Except Errno (Fd × Answers)) :=
  q.takeWhile fun x => !isAgain x

/-- What comes after `accept` has reported `EAGAIN`. -/
def afterEdge (q : List (Except Errno (Fd × Answers))) : List (Except Errno (Fd × Answers)) :=
  (q.dropWhile fun x => !isAgain x).tail

/-- The last call of `accept` reported `EAGAIN`, and what was pending before
was accepted. -/
structure Drained (serfd : Fd) (w w' : World) : Prop where
  last : w'.accepts.getLast? = some (serfd, .error .eagain)
  rest : w'.backlog serfd = afterEdge (w.backlog serfd)

/-- When `accept` fails, the backlog is drained if the error is `EAGAIN`. -/
theorem drained_popBacklog {w₀ : World} {e : Errno} :
    Drained serfd w₀ (w.popBacklog serfd (.error e) q) ↔
      e = .eagain ∧ q = afterEdge (w₀.backlog serfd) := by
  have hlast : (w.popBacklog serfd (.error e) q).accepts.getLast? = some (serfd, .error e) := by
    rw [popBacklog_accepts, List.getLast?_concat]
  have hrest : (w.popBacklog serfd (.error e) q).backlog serfd = q := Function.update_self ..
  constructor
  · rintro ⟨hl, hr⟩
    rw [hlast] at hl
    rw [hrest] at hr
    cases hl
    exact ⟨rfl, hr⟩
  · rintro ⟨rfl, hq⟩
    exact ⟨hlast, hrest.trans hq⟩

section loops

variable {β γ : Type} {pass : γ → Fd × Answers → Option γ} {b : β} {g : γ}

/-- What is pending are connections, each one is admitted, and each one is
passed, where `pass` updates what the loop depends on. -/
def Passable (w : World) (pass : γ → Fd × Answers → Option γ) (g : γ)
    (q : List (Except Errno (Fd × Answers))) : Prop :=
  ∃ conns : List (Fd × Answers), atEdge q = conns.map .ok ∧ (∀ c ∈ conns, w.Admits c) ∧
    (conns.foldlM pass g).isSome

theorem passable_nil : Passable w pass g [] := ⟨[], rfl, by simp, rfl⟩

theorem passable_again : Passable w pass g (.error .eagain :: q) := ⟨[], rfl, by simp, rfl⟩

theorem not_passable_error {e : Errno} (he : e ≠ .eagain) :
    ¬ Passable w pass g (.error e :: q) := by
  rintro ⟨conns, hconns, -⟩
  have hno : isAgain (.error e) = false := by
    cases e <;> first | rfl | exact absurd rfl he
  rw [atEdge, List.takeWhile_cons, hno] at hconns
  rcases conns with - | ⟨c, conns⟩ <;> cases hconns

theorem passable_ok : Passable w pass g (.ok c :: q) ↔
    w.Admits c ∧ ∃ g', pass g c = some g' ∧ Passable w pass g' q := by
  constructor
  · rintro ⟨conns, hconns, hadm, hpass⟩
    rcases conns with - | ⟨c', conns⟩
    · cases hconns
    · obtain ⟨hc, hrest⟩ := List.cons.inj hconns
      obtain rfl : c = c' := Except.ok.inj hc
      obtain ⟨hadmc, hadm⟩ := List.forall_mem_cons.mp hadm
      rw [List.foldlM_cons] at hpass
      rcases hg : pass g c with - | g'
      · rw [hg] at hpass
        cases hpass
      · rw [hg] at hpass
        exact ⟨hadmc, g', rfl, conns, hrest, hadm, hpass⟩
  · rintro ⟨hadmc, g', hg, conns, hconns, hadm, hpass⟩
    refine ⟨c :: conns, congrArg (Except.ok c :: ·) hconns,
      List.forall_mem_cons.mpr ⟨hadmc, hadm⟩, ?_⟩
    rw [List.foldlM_cons, hg]
    exact hpass

/-- An accept loop drains the backlog if it can pass what is pending.  `I`
ties what the loop depends on to its variable and the world. -/
theorem acceptLoop_drains_iff {register : β → Fd → Prog World (β ⊕ Unit)}
    (I : γ → β → World → Prop)
    (hreg : ∀ g b w c q f, I g b w → w.backlog serfd = .ok c :: q → w.Admits c →
      f.handshake = c.2.handshake →
      (∃ g' b' w', pass g c = some g' ∧
        Returns (register b (w.fds.pick w.low c.1)) (w.arrive serfd (w.fds.pick w.low c.1) q f)
          (Sum.inl b') w' ∧
        I g' b' w' ∧ w'.low = w.low ∧ w'.fds.get 0 = w.fds.get 0 ∧ w'.backlog serfd = q) ∨
      ∃ w' fd, pass g c = none ∧
        Returns (register b (w.fds.pick w.low c.1)) (w.arrive serfd (w.fds.pick w.low c.1) q f)
          (Sum.inr ()) w' ∧
        w'.accepts.getLast? = some (serfd, .ok fd))
    (hI : I g b w) :
    ∃ w', Returns (loop (fun b => acceptTurn serfd (register b)) b) w () w' ∧
      (Drained serfd w w' ↔ Passable w pass g (w.backlog serfd)) := by
  have hrule : ∃ u w', Returns (loop (fun b => acceptTurn serfd (register b)) b) w u w' ∧
      (Drained serfd w w' ↔ Passable w pass g (w.backlog serfd)) := by
    apply Returns.loop_rule
      (fun b₁ w₁ => ∃ g₁, I g₁ b₁ w₁ ∧ w₁.low = w.low ∧ w₁.fds.get 0 = w.fds.get 0 ∧
        afterEdge (w₁.backlog serfd) = afterEdge (w.backlog serfd) ∧
        (Passable w pass g₁ (w₁.backlog serfd) ↔ Passable w pass g (w.backlog serfd)))
      (fun _ w₁ => (w₁.backlog serfd).length) ?_ ⟨g, hI, rfl, rfl, rfl, Iff.rfl⟩
    rintro b₁ w₁ ⟨g₁, h₁, hlow, hzero, hafter, hpass⟩
    rcases hb : w₁.backlog serfd with - | ⟨e | c, q⟩
    · -- nothing is pending: `EAGAIN`
      rw [hb] at hafter hpass
      refine .inr ⟨(), _, acceptTurn_error (.inl ⟨hb, rfl, rfl⟩), ?_⟩
      exact iff_of_true (drained_popBacklog.mpr ⟨rfl, hafter⟩) (hpass.mp passable_nil)
    · -- any error ends the loop, but only `EAGAIN` after the last connection
      rw [hb] at hafter hpass
      refine .inr ⟨(), _, acceptTurn_error (.inr hb), ?_⟩
      rcases eq_or_ne e .eagain with rfl | he
      · exact iff_of_true (drained_popBacklog.mpr ⟨rfl, hafter⟩) (hpass.mp passable_again)
      · exact iff_of_false (fun hd => he (drained_popBacklog.mp hd).1)
          fun hp => not_passable_error he (hpass.mpr hp)
    · rw [hb] at hafter hpass
      rw [passable_ok, ← World.Admits.congr hlow hzero] at hpass
      by_cases hc : w₁.Admits c
      · obtain ⟨f, -, hshake, hturn⟩ := acceptTurn_admitted (register b₁) hb hc
        rcases hreg g₁ b₁ w₁ c q f h₁ hb hc hshake with
          ⟨g₂, b₂, w₂, hg₂, hret, h₂, hlow₂, hzero₂, hq⟩ | ⟨w₂, fd, hno, hret, hlast⟩
        · refine .inl ⟨b₂, w₂, hturn hret,
            ⟨g₂, h₂, hlow₂.trans hlow, hzero₂.trans hzero, ?_, ?_⟩, ?_⟩
          · rw [hq]
            exact hafter
          · rw [hq, ← hpass]
            constructor
            · exact fun hp => ⟨hc, g₂, hg₂, hp⟩
            · rintro ⟨-, g₃, hg₃, hp⟩
              rwa [Option.some.inj (hg₂.symm.trans hg₃)]
          · show (w₂.backlog serfd).length < q.length + 1
            rw [hq]
            exact Nat.lt_succ_self q.length
        · -- the last call of `accept` was for this client
          refine .inr ⟨(), w₂, hturn hret, iff_of_false (fun hd => ?_) fun hp => ?_⟩
          · have hd' := hd.last
            rw [hlast] at hd'
            cases hd'
          · obtain ⟨-, g₂, hg₂, -⟩ := hpass.mpr hp
            rw [hno] at hg₂
            cases hg₂
      · obtain ⟨f, hturn⟩ := acceptTurn_rejected hb hc
        refine .inr ⟨(), _, hturn, iff_of_false (fun hd => ?_) fun hp => hc (hpass.mpr hp).1⟩
        have hd' := hd.last
        rw [World.arrive, popBacklog_accepts, List.getLast?_concat] at hd'
        cases hd'
  obtain ⟨u, w', hret, hq⟩ := hrule
  exact ⟨w', hret, hq⟩

end loops

/-! ### The listeners for HTTP -/

theorem eventAcceptHttp_drains_iff (type : LisType) (serfd epollFd : Fd) (w : World) :
    ∃ w', Returns (eventAcceptHttp type serfd epollFd (some ())) w () w' ∧
      (Drained serfd w w' ↔ Passable w (fun _ _ => some ()) () (w.backlog serfd)) := by
  rw [eventAcceptHttp]
  apply acceptLoop_drains_iff (fun _ _ _ => True) _ trivial
  rintro - - w₁ c q f - - ⟨hpos, -⟩ -
  obtain ⟨w₂, hret, hlow, hfds, hback, -⟩ := registerHttp_returns type epollFd
    (w₁.fds.pick w₁.low c.1) (w₁.arrive serfd (w₁.fds.pick w₁.low c.1) q f)
  refine .inl ⟨(), (), w₂, rfl, hret, trivial, hlow, ?_, ?_⟩
  · rw [hfds 0 (ne_of_lt hpos)]
    exact Table.get_set_of_ne (ne_of_lt hpos)
  · rw [hback]
    exact Function.update_self ..

/-- Every connection that is admitted is passed. -/
theorem passable_http_iff : Passable w (fun _ _ => some ()) () q ↔
    ∃ conns : List (Fd × Answers), atEdge q = conns.map .ok ∧ ∀ c ∈ conns, w.Admits c := by
  refine exists_congr fun conns => ?_
  have hpass : (conns.foldlM (fun (_ : Unit) _ => some ()) ()).isSome := by
    induction conns with
    | nil => rfl
    | cons c conns ih => exact ih
  rw [and_iff_left hpass]

/-! ### The listeners for TLS -/

/-- The client is registered, and the object stays the same. -/
theorem Session.registered {finished : Bool} (h : Session w a s r finished) (epollFd serfd fd : Fd)
    (q : List (Except Errno (Fd × Answers))) (f : File) :
    ∃ w', (epollCtl epollFd (.add ⟨inEdge, a⟩) fd
        (((w.arrive serfd fd q f).setSsl s ⟨some fd, true⟩).setReq a { r with fd := fd })).2 = w' ∧
      Session w' a s { r with fd := fd } true ∧ w'.low = w.low ∧
      (∀ b, b ≠ fd → w'.fds.get b = w.fds.get b) ∧ w'.backlog serfd = q := by
  obtain ⟨I, F, hrest⟩ := epollCtl_rest epollFd (.add ⟨inEdge, a⟩) fd
    (((w.arrive serfd fd q f).setSsl s ⟨some fd, true⟩).setReq a { r with fd := fd })
  refine ⟨_, hrest, ⟨Table.get_set_self, h.ssl, ⟨_, Table.get_set_self⟩⟩, rfl, ?_, ?_⟩
  · exact fun b hb => Table.get_set_of_ne hb
  · exact Function.update_self ..

/-- What the loop for TLS depends on is the counter, and whether its session
has shaken hands. -/
def passHttps (g : Nat × Bool) (c : Fd × Answers) : Option (Nat × Bool) :=
  (joins g.2 g.1 c.2.handshake).map fun k => (k, true)

theorem acceptHttpsLoop_drains_iff {finished : Bool} (serfd epollFd : Fd)
    (h : Session w a s r finished) (k : Nat) :
    ∃ w', Returns (loop (fun k => acceptTurn serfd (registerHttps epollFd a k)) k) w () w' ∧
      (Drained serfd w w' ↔ Passable w passHttps (k, finished) (w.backlog serfd)) := by
  apply acceptLoop_drains_iff (fun g k w => k = g.1 ∧ ∃ r, Session w a s r g.2) _ ⟨rfl, r, h⟩
  rintro ⟨k₀, finished⟩ k w₁ c q f ⟨rfl, r, h₁⟩ - ⟨hpos, -⟩ hshake
  have h₂ : Session (w₁.arrive serfd (w₁.fds.pick w₁.low c.1) q f) a s r finished :=
    ⟨h₁.req, h₁.ssl, h₁.live⟩
  rcases hk : joins finished k c.2.handshake with - | k'
  · have hpass : passHttps (k, finished) c = none := Option.map_eq_none_iff.mpr hk
    rw [← hshake] at hk
    obtain ⟨f', hret⟩ := registerHttps_failed epollFd h₂ arrive_fileAt hk
    refine .inr ⟨_, w₁.fds.pick w₁.low c.1, hpass, hret, ?_⟩
    exact List.getLast?_concat
  · have hpass : passHttps (k, finished) c = some (k', true) :=
      Option.map_eq_some_iff.mpr ⟨k', hk, rfl⟩
    rw [← hshake] at hk
    obtain ⟨f', -, hret⟩ := registerHttps_done epollFd h₂ arrive_fileAt hk
    rw [arrive_setFile] at hret
    obtain ⟨w₂, he, hs, hlow, hfds, hback⟩ :=
      h₁.registered epollFd serfd (w₁.fds.pick w₁.low c.1) q f'
    rw [he] at hret
    exact .inl ⟨(k', true), k', w₂, hpass, hret, ⟨rfl, _, hs⟩, hlow, hfds 0 (ne_of_lt hpos), hback⟩

/-- The world in which the accept loop of `event_accept_https` begins. -/
def httpsStart (type : LisType) (w : World) : World :=
  (w.newSsl ⟨none, false⟩).newReq ⟨0, 0, type, none, some w.ssls.bound, none⟩

theorem eventAcceptHttps_iff {type : LisType} {u : Unit} :
    Returns (eventAcceptHttps type serfd epollFd) w u w' ↔
      Returns (loop (fun k => acceptTurn serfd (registerHttps epollFd w.reqs.bound k)) 0)
        (httpsStart type w) u w' := by
  rw [eventAcceptHttps, sslNew, returns_call_bind]
  exact returns_call_bind

theorem httpsStart_session (type : LisType) (w : World) :
    Session (httpsStart type w) w.reqs.bound w.ssls.bound
      ⟨0, 0, type, none, some w.ssls.bound, none⟩ false :=
  ⟨Table.get_push_self, rfl, ⟨_, Table.get_push_self⟩⟩

theorem eventAcceptHttps_drains_iff (type : LisType) (serfd epollFd : Fd) (w : World) :
    ∃ w', Returns (eventAcceptHttps type serfd epollFd) w () w' ∧
      (Drained serfd w w' ↔ Passable w passHttps (0, false) (w.backlog serfd)) := by
  obtain ⟨w', hret, hiff⟩ := acceptHttpsLoop_drains_iff serfd epollFd
    (httpsStart_session type w) 0
  refine ⟨w', eventAcceptHttps_iff.mpr hret, ⟨fun hd => hiff.mp ⟨hd.last, hd.rest⟩, fun hp => ?_⟩⟩
  have hd := hiff.mpr hp
  exact ⟨hd.last, hd.rest⟩

/-- A session that has shaken hands lets everybody in. -/
theorem foldlM_passHttps_finished (conns : List (Fd × Answers)) (k : Nat) :
    conns.foldlM passHttps (k, true) = some (k, true) := by
  induction conns with
  | nil => rfl
  | cons c conns ih => exact ih

/-- The first handshake is done, within the retries. -/
theorem passable_https_iff : Passable w passHttps (0, false) q ↔
    ∃ conns : List (Fd × Answers), atEdge q = conns.map .ok ∧ (∀ c ∈ conns, w.Admits c) ∧
      ∀ c ∈ conns.head?, ∃ n, waits c.2.handshake = some n ∧ n ≤ 100 := by
  refine exists_congr fun conns => and_congr_right fun _ => and_congr_right fun _ => ?_
  rcases conns with - | ⟨c, conns⟩
  · exact iff_of_true rfl nofun
  · rw [List.foldlM_cons]
    constructor
    · rintro hs c' ⟨rfl⟩
      obtain ⟨g, hg⟩ := Option.isSome_iff_exists.mp hs
      obtain ⟨g₁, hg₁, -⟩ := Option.bind_eq_some_iff.mp hg
      obtain ⟨k, hk, -⟩ := Option.map_eq_some_iff.mp hg₁
      obtain ⟨n, hn, rfl, hle⟩ := (shakes_eq_some (Nat.zero_le 100)).mp hk
      exact ⟨n, hn, by omega⟩
    · intro hfirst
      obtain ⟨n, hn, hle⟩ := hfirst c rfl
      have hk : shakes 0 c.2.handshake = some n :=
        (shakes_eq_some (Nat.zero_le 100)).mpr ⟨n, hn, Nat.zero_add n, hle⟩
      have hpass : passHttps (0, false) c = some (n, true) :=
        Option.map_eq_some_iff.mpr ⟨n, hk, rfl⟩
      show (passHttps (0, false) c >>= _).isSome
      rw [hpass]
      exact Option.isSome_iff_exists.mpr ⟨_, foldlM_passHttps_finished conns n⟩

/-! ### `handle_accept` -/

/-- **When the backlog is drained.**  When `handle_accept` returns, it has
accepted what was pending at the edge until `accept` reported `EAGAIN`,
exactly when all that was pending were connections, each one could be made
non-blocking, and, on a listener for TLS, the first handshake was done and
wanted to read no more than a hundred times. -/
theorem handleAccept_drains_iff (lisInf : LisInf) (hl : lisInf.type ≠ .tcpProxy) (epollFd : Fd)
    (w : World) :
    ∃ w', Returns (handleAccept lisInf epollFd (some ())) w () w' ∧
      (Drained lisInf.fd w w' ↔ ∃ conns : List (Fd × Answers),
        atEdge (w.backlog lisInf.fd) = conns.map .ok ∧ (∀ c ∈ conns, w.Admits c) ∧
        (lisInf.type = .https ∨ lisInf.type = .httpsProxy → ∀ c ∈ conns.head?,
          ∃ n, waits c.2.handshake = some n ∧ n ≤ 100)) := by
  obtain ⟨serfd, type⟩ := lisInf
  rcases type with - | - | - | - | -
  · obtain ⟨w', hret, hiff⟩ := eventAcceptHttp_drains_iff .http serfd epollFd w
    refine ⟨w', hret, hiff.trans (passable_http_iff.trans (exists_congr fun conns => ?_))⟩
    refine and_congr_right fun _ => (and_iff_left ?_).symm
    rintro (h | h) <;> cases h
  · obtain ⟨w', hret, hiff⟩ := eventAcceptHttps_drains_iff .https serfd epollFd w
    refine ⟨w', hret, hiff.trans (passable_https_iff.trans (exists_congr fun conns => ?_))⟩
    exact and_congr_right fun _ => and_congr_right fun _ => (imp_iff_right (.inl rfl)).symm
  · obtain ⟨w', hret, hiff⟩ := eventAcceptHttp_drains_iff .httpProxy serfd epollFd w
    refine ⟨w', hret, hiff.trans (passable_http_iff.trans (exists_congr fun conns => ?_))⟩
    refine and_congr_right fun _ => (and_iff_left ?_).symm
    rintro (h | h) <;> cases h
  · obtain ⟨w', hret, hiff⟩ := eventAcceptHttps_drains_iff .httpsProxy serfd epollFd w
    refine ⟨w', hret, hiff.trans (passable_https_iff.trans (exists_congr fun conns => ?_))⟩
    exact and_congr_right fun _ => and_congr_right fun _ => (imp_iff_right (.inr rfl)).symm
  · exact absurd rfl hl

/-- The second client says nothing. -/
theorem handleAccept_drains_two :
    ∃ w', Returns (handleAccept ⟨4, .https⟩ 3 (some ())) (listening
        [.ok (6, tlsClient [.wantRead, .done]), .ok (7, tlsClient [])]) () w' ∧
      Drained 4 (listening
        [.ok (6, tlsClient [.wantRead, .done]), .ok (7, tlsClient [])]) w' := by
  obtain ⟨w', hret, hiff⟩ := handleAccept_drains_iff ⟨4, .https⟩ (by decide) 3 (listening
    [.ok (6, tlsClient [.wantRead, .done]), .ok (7, tlsClient [])])
  refine ⟨w', hret, hiff.mpr
    ⟨[(6, tlsClient [.wantRead, .done]), (7, tlsClient [])], rfl, by decide, fun _ => ?_⟩⟩
  rintro c ⟨rfl⟩
  exact ⟨1, rfl, by decide⟩

/-- One connection that was aborted leaves the one behind it in the
backlog. -/
theorem handleAccept_strands :
    ∃ w', Returns (handleAccept ⟨4, .http⟩ 3 (some ())) (listening
        [.error .econnaborted, .ok (6, .io [] [])]) () w' ∧
      w'.backlog 4 = [.ok (6, .io [] [])] ∧
      ¬ Drained 4 (listening [.error .econnaborted, .ok (6, .io [] [])]) w' := by
  refine ⟨_, Returns.loop_exit (acceptTurn_error (.inr rfl)), rfl, ?_⟩
  rw [drained_popBacklog]
  rintro ⟨he, -⟩
  cases he

end DmfServer
