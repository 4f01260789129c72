/-
DmfServer/SslRuns.lean

`epoll_ssl_server` over whole runs.

Every event epoll can report is handled without a fault, and the list of the
sessions stays in order (`Mapped.event`), as long as no event is for a client
whose descriptor is the number that `malloc` left in the head of the list.
That client is the only one that is not found (`found_iff`).
-/
import DmfServer.SslLookup

namespace DmfServer

open Imperative Imperative.Prog Strings World SslServer Relation

variable {s s₀ s₁ s' : SslServer} {w w₀ : World} {nodes : Table FdSslMap} {junk : FdSslMap}
variable {fsmHead : Addr} {hint serfd efd fd : Fd} {ev : EpollEvent}
variable {l : List Entry} {e : Entry}

/-! ### Every event keeps the map -/

theorem Attached.read (h : Attached serfd l w) (he : e ∈ l) (size : Nat) :
    Ends (sslReadInto (some e.ssl) size) w fun _ w' => Attached serfd l w' := by
  obtain ⟨finished, hssl⟩ :=
    sslFd_eq_some.mp ((h.sessions e.ssl e.fd).mpr ⟨e, he, rfl, rfl⟩)
  rw [sslReadInto, ends_bind_iff (returns_sslAt hssl)]
  show Ends (call (World.sslRead e.fd size) >>= _) _ _
  rw [ends_call_bind]
  have hw : Attached serfd l (World.sslRead e.fd size w).2 := h.onFile
  generalize World.sslRead e.fd size w = r at hw ⊢
  obtain ⟨r, w'⟩ := r
  rcases r with c | piece
  · exact ends_pure.mpr hw
  · exact ends_pure.mpr hw

theorem Attached.write (h : Attached serfd l w) (he : e ∈ l) (buf : Bytes) (len : Int) :
    Ends (sslWriteFrom (some e.ssl) buf len) w fun _ w' => Attached serfd l w' := by
  obtain ⟨finished, hssl⟩ :=
    sslFd_eq_some.mp ((h.sessions e.ssl e.fd).mpr ⟨e, he, rfl, rfl⟩)
  rw [sslWriteFrom, ends_bind_iff (returns_sslAt hssl)]
  exact (returns_call.mpr rfl : Returns (call (World.sslWrite e.fd buf len)) w _ _).ends h.onFile

theorem Mapped.echo (h : Mapped serfd fsmHead junk l s) (he : e ∈ l) :
    Ends (sslEcho e.node) s fun _ s' => Mapped serfd fsmHead junk l s' := by
  obtain ⟨n, hn⟩ := h.listed.entry e he
  have hsys : ∀ {α : Type} {p : Prog World α} {s : SslServer},
      Mapped serfd fsmHead junk l s → Ends p s.world (fun _ w' => Attached serfd l w') →
      Ends (sys p) s fun _ s' => Mapped serfd fsmHead junk l s' := fun h hp =>
    Ends.zoom (hp.mono fun _ _ hw => h.setWorld hw)
  rw [sslEcho, ends_bind_iff (returns_fsmAt hn)]
  refine Ends.bind ((hsys h (h.attached.read he 512)).mono ?_)
  rintro ⟨readSize, buf⟩ s₁ h₁
  by_cases hread : readSize ≤ 0
  · show Ends (if readSize ≤ 0 then _ else _) _ _
    rw [if_pos hread]
    exact ends_pure.mpr h₁
  · show Ends (if readSize ≤ 0 then _ else _) _ _
    rw [if_neg hread]
    refine Ends.bind ((hsys h₁ (h₁.attached.write he _ _)).mono fun _ s₂ h₂ => ?_)
    refine Ends.bind ((hsys h₂ (h₂.attached.write he _ _)).mono fun _ s₃ h₃ => ?_)
    exact ends_pure.mpr h₃

/-- The search for a client whose descriptor is not the junk. -/
theorem Mapped.search (h : Mapped serfd fsmHead junk l s) (hfd : fd ∈ l.map Entry.fd)
    (hjunk : junk.fd ≠ fd) : ∃ l₁ l₂ e b, l = l₁ ++ e :: l₂ ∧ e.fd = fd ∧
      (fsmHead :: l₁.map Entry.node).getLast? = some b ∧
      Returns (lookup fsmHead fd) s (some b, e.node) s := by
  obtain ⟨e, he, rfl⟩ := List.mem_map.mp hfd
  obtain ⟨l₁, l₂, rfl⟩ := List.append_of_mem he
  obtain ⟨b, -, hb, -, -⟩ := h.listed.pred
  exact ⟨l₁, l₂, e, b, rfl, rfl, hb, h.listed.lookup h.attached.nodup hjunk hb⟩

/-- **A turn.**  It ends, and keeps the map. -/
theorem Mapped.event {reg : EpollEvent} (h : Mapped serfd fsmHead junk l s) (efd : Fd)
    (hreg : s.world.interest.get fd = some reg) (hptr : ev.ptr = reg.ptr)
    (hjunk : fd ≠ serfd → junk.fd ≠ fd) :
    Ends (sslServerEvent serfd efd fsmHead ev) s fun _ s' =>
      ∃ l', Mapped serfd fsmHead junk l' s' := by
  obtain ⟨hdata, hfd⟩ := h.attached.registered fd reg hreg
  rw [hdata] at hptr
  rw [sslServerEvent, hptr]
  by_cases hserfd : fd = serfd
  · rw [if_pos hserfd]
    exact h.acceptClient efd
  · rw [if_neg hserfd]
    obtain ⟨l₁, l₂, e, b, rfl, rfl, hb, hlookup⟩ :=
      h.search (hfd.resolve_left hserfd) (hjunk hserfd)
    rw [ends_bind_iff hlookup]
    show Ends (if ev.events.epollhup then _ else _) s _
    by_cases hhup : ev.events.epollhup
    · rw [if_pos hhup]
      exact (h.hangUp efd hb).mono fun _ _ h' => ⟨_, h'.1⟩
    · rw [if_neg hhup]
      by_cases hin : ev.events.epollin
      · rw [if_pos hin]
        exact (h.echo (by simp)).mono fun _ _ h' => ⟨_, h'⟩
      · rw [if_neg hin]
        exact ends_pure.mpr ⟨_, h⟩

/-- With a new epoll set, nothing is registered. -/
theorem Attached.start (hserfd : ∃ i, w.fds.get serfd = some i)
    (hssl : ∀ ssl, w.ssls.get ssl = none) :
    Attached serfd [] (World.epollCreate hint w).2 where
  nodup := List.nodup_nil
  listener := by
    obtain ⟨i, hi⟩ := hserfd
    have hne : serfd ≠ w.fds.pick w.low hint := by
      intro heq
      have hfree : w.fds.get (w.fds.pick w.low hint) = none := Table.get_pick
      rw [← heq, hi] at hfree
      cases hfree
    exact ⟨⟨i, (Table.get_set_of_ne hne).trans hi⟩, List.not_mem_nil⟩
  opened e he := absurd he List.not_mem_nil
  sessions ssl fd := by
    constructor
    · intro h
      obtain ⟨finished, h⟩ := sslFd_eq_some.mp h
      exact absurd ((hssl ssl).symm.trans h) nofun
    · rintro ⟨e, he, -⟩
      exact absurd he List.not_mem_nil
  registered fd ev hev := by cases hev

theorem Listed.start (nodes : Table FdSslMap) :
    Listed nodes.bound junk [] (nodes.push { junk with next := none }) where
  chain := ⟨rfl, fsmNext_eq Table.get_push_self⟩
  head := ⟨none, Table.get_push_self⟩
  entry _ he := absurd he List.not_mem_nil

/-- Before the loop the list is empty. -/
theorem Mapped.setup (hserfd : ∃ i, s₀.world.fds.get serfd = some i)
    (hssl : ∀ ssl, s₀.world.ssls.get ssl = none)
    (hset : Returns (sslServerSetup junk hint serfd) s₀ (efd, fsmHead) s₁) :
    Mapped serfd fsmHead junk [] s₁ := by
  rw [sslServerSetup, returns_sys_call_bind, returns_sys_call_bind, newFsm,
    returns_call_bind] at hset
  obtain ⟨hans, rfl⟩ := returns_pure.mp hset
  obtain ⟨-, rfl⟩ := Prod.mk.inj hans
  refine ⟨Listed.start _, (Attached.start hserfd hssl).epollCtl _ ?_⟩
  rintro ev (hop | hop)
  · cases hop
    exact ⟨rfl, .inl rfl⟩
  · cases hop

/-! ### Runs -/

/-- The search finds the node that holds the session of `fd`, and there is no
other session of `fd`; `pre` is the node before. -/
def Found (fsmHead : Addr) (fd : Fd) (s : SslServer) : Prop :=
  ∃ pre it ssl, Returns (lookup fsmHead fd) s (some pre, it) s ∧
    fsmNext s.nodes pre = some it ∧ fsmHeld s.nodes it = some ((fd : Int), some ssl) ∧
    ∀ ssl', s.world.sslFd ssl' = some fd ↔ ssl' = ssl

/-- From the head, the list is the one of `s` without `it`, and no node holds
anything else. -/
def Removed (fsmHead it : Addr) (s s' : SslServer) : Prop :=
  (∃ l₁ l₂, Chain (fsmNext s.nodes) (some fsmHead) (l₁ ++ it :: l₂) ∧
    Chain (fsmNext s'.nodes) (some fsmHead) (l₁ ++ l₂)) ∧
  fsmHeld s'.nodes = fsmHeld s.nodes

/-- A client that is registered. -/
def Client (serfd fd : Fd) (s : SslServer) : Prop :=
  fd ≠ serfd ∧ ∃ reg, s.world.interest.get fd = some reg

/-- A turn, for an event of a registered descriptor.  A client's descriptor is
not the junk. -/
inductive SslTurn (serfd efd : Fd) (fsmHead : Addr) (junk : FdSslMap) :
    SslServer → SslServer → Prop
  | event {s s' : SslServer} {reg : EpollEvent} (fd : Fd) (ev : EpollEvent)
      (hreg : s.world.interest.get fd = some reg) (hptr : ev.ptr = reg.ptr)
      (hjunk : fd ≠ serfd → junk.fd ≠ fd)
      (h : Returns (sslServerEvent serfd efd fsmHead ev) s () s') :
      SslTurn serfd efd fsmHead junk s s'

theorem Mapped.run (h : Mapped serfd fsmHead junk l s₁)
    (hrun : ReflTransGen (SslTurn serfd efd fsmHead junk) s₁ s) :
    ∃ l', Mapped serfd fsmHead junk l' s := by
  induction hrun with
  | refl => exact ⟨l, h⟩
  | tail _ hturn ih =>
      obtain ⟨l', h'⟩ := ih
      cases hturn with
      | event fd ev hreg hptr hjunk hret => exact (h'.event efd hreg hptr hjunk).of_returns hret

theorem Mapped.client (h : Mapped serfd fsmHead junk l s) (hfd : Client serfd fd s) :
    fd ∈ l.map Entry.fd := by
  obtain ⟨hne, reg, hreg⟩ := hfd
  exact (h.attached.registered fd reg hreg).2.resolve_left hne

theorem Mapped.found (h : Mapped serfd fsmHead junk l s) (hfd : fd ∈ l.map Entry.fd)
    (hjunk : junk.fd ≠ fd) : Found fsmHead fd s := by
  obtain ⟨l₁, l₂, e, b, rfl, rfl, hb, hlookup⟩ := h.search hfd hjunk
  obtain ⟨b', node, hb', hnode, hnext⟩ := h.listed.pred
  obtain rfl := Option.some.inj (hb.symm.trans hb')
  obtain ⟨n, hn⟩ := h.listed.entry e (by simp)
  refine ⟨b, e.node, e.ssl, hlookup, (fsmNext_eq hnode).trans hnext, ?_, fun ssl' => ?_⟩
  · rw [fsmHeld, hn, Option.map_some]
  · rw [h.attached.sessions]
    constructor
    · rintro ⟨e', he', hfd, rfl⟩
      exact congrArg Entry.ssl (List.inj_on_of_nodup_map h.attached.nodup he' (by simp) hfd)
    · rintro rfl
      exact ⟨e, by simp, rfl, rfl⟩

/-- The junk is in the way of one client only. -/
theorem Mapped.found_iff (h : Mapped serfd fsmHead junk l s) (hfd : fd ∈ l.map Entry.fd) :
    Found fsmHead fd s ↔ junk.fd ≠ fd := by
  constructor
  · rintro ⟨pre, it, ssl, hlookup, -⟩ hjunk
    obtain ⟨hans, -⟩ := hlookup.unique (h.listed.lookup_junk hjunk)
    cases hans
  · exact h.found hfd

/-- A client hangs up. -/
theorem Mapped.quit {evs : EpollEvents} (h : Mapped serfd fsmHead junk l s) (efd : Fd)
    (hfd : Client serfd fd s) (hjunk : junk.fd ≠ fd) (hhup : evs.epollhup = true) :
    Ends (sslServerEvent serfd efd fsmHead ⟨evs, fd⟩) s fun _ s' =>
      (∃ pre it, Returns (lookup fsmHead fd) s (pre, it) s ∧ Removed fsmHead it s s') ∧
      ∀ fd', Client serfd fd' s → fd' ≠ fd → junk.fd ≠ fd' → Found fsmHead fd' s' := by
  obtain ⟨l₁, l₂, e, b, rfl, rfl, hb, hlookup⟩ := h.search (h.client hfd) hjunk
  rw [sslServerEvent, if_neg hfd.1, ends_bind_iff hlookup]
  show Ends (if evs.epollhup then _ else _) s _
  rw [if_pos hhup]
  refine (h.hangUp efd hb).mono ?_
  rintro - s' ⟨h', hheld⟩
  refine ⟨⟨some b, e.node, hlookup, ⟨fsmHead :: l₁.map Entry.node, l₂.map Entry.node, ?_, ?_⟩,
    hheld⟩, fun fd' hfd' hne hjunk' => h'.found ?_ hjunk'⟩
  · have hchain := h.listed.chain
    rwa [List.map_append, List.map_cons, ← List.cons_append] at hchain
  · have hchain := h'.listed.chain
    rwa [List.map_append, ← List.cons_append] at hchain
  · obtain ⟨e', he', rfl⟩ := List.mem_map.mp (h.client hfd')
    refine List.mem_map_of_mem ?_
    rcases List.mem_append.mp he' with he' | he'
    · exact List.mem_append_left _ he'
    · rcases List.mem_cons.mp he' with rfl | he'
      · exact absurd rfl hne
      · exact List.mem_append_right _ he'

/-- **The map.**  In every state the server gets to, the search finds the
session of a client just when the client's descriptor is not the junk; then it
can hang up, and that removes its node, and leaves all others to be found. -/
theorem sslServer_found_iff (hserfd : ∃ i, s₀.world.fds.get serfd = some i)
    (hssl : ∀ ssl, s₀.world.ssls.get ssl = none)
    (hset : Returns (sslServerSetup junk hint serfd) s₀ (efd, fsmHead) s₁)
    (hrun : ReflTransGen (SslTurn serfd efd fsmHead junk) s₁ s) (hfd : Client serfd fd s) :
    (Found fsmHead fd s ↔ junk.fd ≠ fd) ∧
    (junk.fd ≠ fd → ∀ evs : EpollEvents, evs.epollhup = true →
      Ends (sslServerEvent serfd efd fsmHead ⟨evs, fd⟩) s fun _ s' =>
        (∃ pre it, Returns (lookup fsmHead fd) s (pre, it) s ∧ Removed fsmHead it s s') ∧
        ∀ fd', Client serfd fd' s → fd' ≠ fd → junk.fd ≠ fd' → Found fsmHead fd' s') := by
  obtain ⟨l, h⟩ := (Mapped.setup hserfd hssl hset).run hrun
  exact ⟨h.found_iff (h.client hfd), fun hjunk _ hhup => h.quit efd hfd hjunk hhup⟩

/-- A server with three clients to come; the last gets the descriptor of the
first if that has gone. -/
def sslAsking : SslServer where
  world := listening [.ok (6, tlsClient [.done]), .ok (7, tlsClient [.done]),
    .ok (6, tlsClient [.done])]
  nodes := Table.empty

/-- `EPOLLHUP`. -/
def hup : EpollEvents := ⟨false, false, false, true, false⟩

/-- The first client hangs up before the last one comes. -/
theorem sslServer_found_reused : ∃ s₁ s,
    Returns (sslServerSetup ⟨9, none, none⟩ 5 4) sslAsking (5, 0) s₁ ∧
    ReflTransGen (SslTurn 4 5 0 ⟨9, none, none⟩) s₁ s ∧ Found 0 6 s := by
  have hruns : ∃ s₁ s, Returns (sslServerSetup ⟨9, none, none⟩ 5 4) sslAsking (5, 0) s₁ ∧
      ReflTransGen (SslTurn 4 5 0 ⟨9, none, none⟩) s₁ s ∧ Client 4 6 s := by
    refine ⟨_, _, .of_run 0 fun _ => rfl, .tail (.tail (.tail (.single
      (.event 4 ⟨inEdge, 4⟩ rfl rfl (by decide) (.of_run 2 fun _ => rfl)))
      (.event 4 ⟨inEdge, 4⟩ rfl rfl (by decide) (.of_run 2 fun _ => rfl)))
      (.event 6 ⟨hup, 6⟩ rfl rfl (by decide) (.of_run 4 fun _ => rfl)))
      (.event 4 ⟨inEdge, 4⟩ rfl rfl (by decide) (.of_run 2 fun _ => rfl)), by decide, ?_⟩
    exact ⟨_, rfl⟩
  obtain ⟨s₁, s, hset, hrun, hfd⟩ := hruns
  have hfound := sslServer_found_iff ⟨0, rfl⟩ (fun _ => rfl) hset hrun hfd
  exact ⟨s₁, s, hset, hrun, hfound.1.mpr (by decide)⟩

/-- The head of the list holds the descriptor of the first client.  The client
is not found, and when it hangs up the server crashes. -/
theorem hangUp_junk_faults : ∃ s₁ s,
    Returns (sslServerSetup ⟨6, none, none⟩ 5 4) sslAsking (5, 0) s₁ ∧
    Returns (sslServerEvent 4 5 0 ⟨inEdge, 4⟩) s₁ () s ∧ Client 4 6 s ∧
    ¬ Found 0 6 s ∧ ∀ n, sslServerEvent 4 5 0 ⟨hup, 6⟩ s (n + 1) = .fault := by
  refine ⟨_, _, .of_run 0 fun _ => rfl, .of_run 2 fun _ => rfl, ⟨by decide, _, rfl⟩, ?_,
    fun _ => rfl⟩
  rintro ⟨pre, it, ssl, hlookup, -⟩
  -- it stops at the head
  cases (hlookup.unique (.of_run 1 fun _ => rfl)).1

end DmfServer
