/-
DmfServer/SslShutdown.lean

What `epoll_ssl_server` does when `epoll_wait` fails.

It leaves its loop and goes through the list once more, to close the
descriptors and free the sessions.  But that loop does not advance `it`: it
tests `next` of the head, and closes and frees what the head holds, which is
what `malloc` left there.  So it ends at once if the list is empty, and never
otherwise (`sslServerExit_cleans_iff`).
-/
import DmfServer.SslRuns

namespace DmfServer

open Imperative Imperative.Prog Strings World SslServer Relation

/-! ### The program -/

/-- The process, and whether the TLS context is allocated. -/
structure SslProcess where
  server : SslServer
  ctx : Bool

@[simps] def SslProcess.setServer (s : SslServer) (p : SslProcess) : SslProcess :=
  { p with server := s }

@[simps] def SslProcess.freeCtx (p : SslProcess) : SslProcess := { p with ctx := false }

/-- `close` of an `int`, which need not be a descriptor. -/
def closeInt (fd : Int) (w : World) : Except Errno Unit × World :=
  if 0 ≤ fd then close fd.toNat w
  else (.error .ebadf, { w with closes := w.closes ++ [none] })

/-- `SSL_free`: of a null pointer it does nothing. -/
def sslFreePtr : Option Addr → Prog World Unit
  | none => pure ()
  | some ssl => sslFree (some ssl)

/-- A turn of the loop that cleans up, at `it`. -/
def cleanupTurn (it : Addr) : Prog SslServer (Addr ⊕ Unit) := do
  let (_, node) ← fsmAt (some it)
  match node.next with
  | none => pure (Sum.inr ())
  | some _ => do
      let _ ← sys (call (closeInt node.fd))
      sys (sslFreePtr node.ssl)
      pure (Sum.inl it)

/-- What `epoll_ssl_server` does behind its loop. -/
def sslServerExit (serfd efd : Fd) (fsmHead : Addr) : Prog SslProcess Int := do
  zoom SslProcess.server SslProcess.setServer (loop cleanupTurn fsmHead)
  -- `SSL_CTX_free`
  store SslProcess.freeCtx
  let _ ← zoom SslProcess.server SslProcess.setServer (sys (call (close serfd)))
  let _ ← zoom SslProcess.server SslProcess.setServer (sys (call (close efd)))
  pure 0

/-! ### What it does -/

variable {s s' : SslServer} {p p' : SslProcess} {junk : FdSslMap} {fsmHead : Addr}
variable {serfd efd : Fd} {l : List Entry}

/-- The clients of `l` are closed, each once, and their sessions freed, the
context is freed, and the two descriptors of the server are closed; all else
is as it was. -/
structure CleanedUp (serfd efd : Fd) (l : List Entry) (p p' : SslProcess) : Prop where
  context : p'.ctx = false
  closes : ∃ closed, closed.Perm (l.map fun e => p.server.world.fds.get e.fd) ∧
    p'.server.world.closes = p.server.world.closes ++ closed ++
      [p.server.world.fds.get serfd, (p.server.world.fds.erase serfd).get efd]
  opened : ∀ fd, p'.server.world.fds.get fd =
    if fd ∈ l.map Entry.fd ∨ fd = serfd ∨ fd = efd then none else p.server.world.fds.get fd
  sessions : ∀ ssl, p'.server.world.ssls.get ssl =
    if ssl ∈ l.map Entry.ssl then none else p.server.world.ssls.get ssl

/-- With nobody in the list, the loop ends at once. -/
theorem cleanup_nil (h : Listed fsmHead junk [] s.nodes) :
    Returns (loop cleanupTurn fsmHead) s () s := by
  obtain ⟨n, hn⟩ := h.head
  have hnext : n = none := (fsmNext_eq hn).symm.trans (chain_cons.mp h.chain).2
  refine Returns.loop_exit ?_
  rw [cleanupTurn, returns_fsmAt_bind hn]
  simp only [hnext]
  exact returns_pure.mpr ⟨rfl, rfl⟩

theorem sslServerExit_nil (h : Listed fsmHead junk [] p.server.nodes) (serfd efd : Fd) :
    ∃ p', Returns (sslServerExit serfd efd fsmHead) p 0 p' ∧ CleanedUp serfd efd [] p p' := by
  have hclose : ∀ (p : SslProcess) fd, Returns
      (zoom SslProcess.server SslProcess.setServer (sys (call (close fd)))) p
      (close fd p.server.world).1
      (p.setServer (p.server.setWorld (p.server.world.closeFd fd))) := by
    intro p fd
    rw [← close_snd]
    have hcall : Returns (call (close fd)) p.server.world (close fd p.server.world).1
        (close fd p.server.world).2 := returns_call.mpr rfl
    exact (returns_sys hcall).zoom
  refine ⟨_, (cleanup_nil h).zoom.bind (returns_store_bind.mpr
    ((hclose _ serfd).bind ((hclose _ efd).bind (returns_pure.mpr ⟨rfl, rfl⟩)))), rfl,
    ⟨[], .nil, ?_⟩, fun fd => ?_, fun ssl => rfl⟩
  · show (_ ++ [_]) ++ [_] = _ ++ [] ++ [_, _]
    rw [List.append_nil, List.append_assoc]
    rfl
  · show ((p.server.world.fds.erase serfd).erase efd).get fd = _
    rw [List.map_nil]
    by_cases hfd : fd = efd
    · rw [hfd, Table.get_erase_self, if_pos (.inr (.inr rfl))]
    rw [Table.get_erase_of_ne hfd]
    by_cases hfd' : fd = serfd
    · rw [hfd', Table.get_erase_self, if_pos (.inr (.inl rfl))]
    rw [Table.get_erase_of_ne hfd', if_neg]
    rintro (hm | heq | heq)
    · cases hm
    · exact hfd' heq
    · exact hfd heq

theorem fsmAt_bind_run {α : Type} {it : Addr} {node : FdSslMap}
    {k : Addr × FdSslMap → Prog SslServer α} (h : s.nodes.get it = some node) :
    (fsmAt (some it) >>= k) s = k (it, node) s := by
  funext n
  have hr : fsmAt (some it) s n = .ok ((it, node), s) := by
    show (load SslServer.nodes >>= fun nodes => deref (nodes.get it) >>= fun node =>
      pure (it, node)) s n = _
    rw [bind_run]
    simp only [load, h]
    rfl
  rw [bind_run, hr]

/-- What is done to the system leaves the nodes. -/
instance {α : Type} {q : Prog World α} {a : Addr} {node : FdSslMap} :
    Preserves (fun s => s.nodes.get a = some node) (sys q) := .zoom fun _ _ h => h

/-- The loop stays at the head. -/
theorem cleanup_cons {e : Entry} (h : Listed fsmHead junk (e :: l) s.nodes) :
    Partially (loop cleanupTurn fsmHead) s fun _ _ => False := by
  obtain ⟨n, hn⟩ := h.head
  obtain rfl : n = some e.node := (fsmNext_eq hn).symm.trans (chain_cons.mp h.chain).2.1
  let Stays : SslServer → Prop := fun s =>
    s.nodes.get fsmHead = some ⟨junk.fd, junk.ssl, some e.node⟩
  refine Partially.loop (fun it s => it = fsmHead ∧ Stays s) ?_ ⟨rfl, hn⟩
  rintro it s ⟨rfl, hs⟩
  rw [cleanupTurn, partially_congr (fsmAt_bind_run hs)]
  refine Preserves.partially_bind Stays hs fun _ s₁ h₁ => ?_
  refine Preserves.partially_bind Stays h₁ fun _ s₂ h₂ => ?_
  exact partially_pure.mpr ⟨rfl, h₂⟩

/-- With somebody in the list, the function never returns. -/
theorem sslServerExit_cons {e : Entry} (h : Listed fsmHead junk (e :: l) p.server.nodes)
    (serfd efd : Fd) (a : Int) (p' : SslProcess) :
    ¬ Returns (sslServerExit serfd efd fsmHead) p a p' := by
  have hnever : Partially (sslServerExit serfd efd fsmHead) p fun _ _ => False := by
    refine Partially.bind ((cleanup_cons h).zoom.mono ?_)
    rintro - p' ⟨s', hno, -⟩
    exact hno.elim
  exact hnever.of_returns

/-- **Shutdown.**  With the clients of `l` in the list, `epoll_ssl_server`
cleans up and returns 0 exactly if there are none; otherwise it does not
return. -/
theorem sslServerExit_cleans_iff (h : Listed fsmHead junk l p.server.nodes) (serfd efd : Fd) :
    ((∃ p', Returns (sslServerExit serfd efd fsmHead) p 0 p' ∧ CleanedUp serfd efd l p p') ↔
      l = []) ∧
    (l ≠ [] → ∀ a p', ¬ Returns (sslServerExit serfd efd fsmHead) p a p') := by
  cases l with
  | nil => exact ⟨iff_of_true (sslServerExit_nil h serfd efd) rfl, fun hne => absurd rfl hne⟩
  | cons e l =>
      have hnever := sslServerExit_cons h serfd efd
      refine ⟨iff_of_false ?_ (List.cons_ne_nil e l), fun _ => hnever⟩
      rintro ⟨p', hret, -⟩
      exact hnever 0 p' hret

/-- The first call of `epoll_wait` fails. -/
theorem sslServerExit_cleans_none :
    ∃ s₁ p', Returns (sslServerSetup ⟨9, none, none⟩ 5 4) sslAsking (5, 0) s₁ ∧
      Returns (sslServerExit 4 5 0) ⟨s₁, true⟩ 0 p' ∧ CleanedUp 4 5 [] ⟨s₁, true⟩ p' := by
  have hset : ∃ s₁, Returns (sslServerSetup ⟨9, none, none⟩ 5 4) sslAsking (5, 0) s₁ :=
    ⟨_, .of_run 0 fun _ => rfl⟩
  obtain ⟨s₁, hset⟩ := hset
  have hmapped := Mapped.setup ⟨0, rfl⟩ (fun _ => rfl) hset
  obtain ⟨p', hret, hclean⟩ :=
    (sslServerExit_cleans_iff (p := ⟨s₁, true⟩) hmapped.listed 4 5).1.mpr rfl
  exact ⟨s₁, p', hset, hret, hclean⟩

/-- One client has been accepted when `epoll_wait` fails: the function does not
return. -/
theorem sslServerExit_hangs :
    ∃ s₁ s, Returns (sslServerSetup ⟨9, none, none⟩ 5 4) sslAsking (5, 0) s₁ ∧
      Returns (sslServerEvent 4 5 0 ⟨inEdge, 4⟩) s₁ () s ∧
      ∀ a p', ¬ Returns (sslServerExit 4 5 0) ⟨s, true⟩ a p' := by
  have hruns : ∃ s₁ s, Returns (sslServerSetup ⟨9, none, none⟩ 5 4) sslAsking (5, 0) s₁ ∧
      SslTurn 4 5 0 ⟨9, none, none⟩ s₁ s ∧ Returns (sslServerEvent 4 5 0 ⟨inEdge, 4⟩) s₁ () s ∧
      Client 4 6 s :=
    ⟨_, _, .of_run 0 fun _ => rfl, .event 4 ⟨inEdge, 4⟩ rfl rfl (by decide)
      (.of_run 2 fun _ => rfl), .of_run 2 fun _ => rfl, by decide, _, rfl⟩
  obtain ⟨s₁, s, hset, hturn, hret, hfd⟩ := hruns
  obtain ⟨l, hmapped⟩ := (Mapped.setup ⟨0, rfl⟩ (fun _ => rfl) hset).run (.single hturn)
  refine ⟨s₁, s, hset, hret, fun a p' => ?_⟩
  cases l with
  | nil => cases hmapped.client hfd
  | cons e l => exact sslServerExit_cons hmapped.listed 4 5 a p'

end DmfServer
