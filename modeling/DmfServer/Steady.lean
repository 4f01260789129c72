/-
DmfServer/Steady.lean

What the handlers of a worker do not touch.

An invariant about the objects of the clients, the epoll set and the
descriptors in use cares for little of what a handler does: it is kept by
calls on files, by new descriptors, by the TLS sessions, the timers and the
counters (`Steady`).  The instances below say so for all parts of the
handlers that do only this, so that a proof about such an invariant is one
about the few calls that are left: `close`, `epoll_ctl`, and the allocation,
the assignment and the release of a `req_t`.
-/
import DmfServer.Lifecycle

namespace DmfServer

open Imperative Imperative.Prog Strings World

variable {fd serfd : Fd} {p : Addr} {sd : Option Unit}

/-- Only the objects, the epoll set and the open descriptors matter for `I`,
and new descriptors do no harm. -/
class Steady (I : World → Prop) : Prop where
  grow : ∀ w w', w'.reqs = w.reqs → w'.interest = w.interest →
    (∀ a i, w.fds.get a = some i → w'.fds.get a = some i) → I w → I w'

variable {I : World → Prop} [Steady I]

/-- What is neither an object, nor registered, nor a descriptor changes. -/
theorem Steady.same (w w' : World) (hr : w'.reqs = w.reqs) (hi : w'.interest = w.interest)
    (hf : w'.fds = w.fds) (h : I w) : I w' :=
  Steady.grow w w' hr hi (fun _ _ ha => hf ▸ ha) h

/-- A new descriptor is one that was free. -/
theorem get_openFile {w : World} {a i : Nat} (f : File) (hfree : w.fds.get fd = none)
    (ha : w.fds.get a = some i) : (w.openFile fd f).fds.get a = some i := by
  have hne : a ≠ fd := by
    rintro rfl
    rw [hfree] at ha
    cases ha
  exact (Table.get_set_of_ne hne).trans ha

theorem preserves_onFile {α : Type} {bad : α} {call : File → α × File} :
    Preserves I (Prog.call (onFile bad call fd)) :=
  .call fun w h => Steady.same w _ onFile_reqs onFile_interest onFile_fds h

instance {count : Nat} : Preserves I (call (World.read fd count)) := preserves_onFile

instance {count : Nat} : Preserves I (call (World.recv fd count)) := preserves_onFile

instance {buf : Bytes} {len : Int} : Preserves I (call (World.write fd buf len)) :=
  preserves_onFile

instance {buf : Bytes} {len : Int} : Preserves I (call (World.send fd buf len)) :=
  preserves_onFile

instance : Preserves I (call (World.fcntl fd)) := preserves_onFile

instance : Preserves I (call (World.connect fd)) := preserves_onFile

instance : Preserves I (call (World.shake fd)) := preserves_onFile

instance {count : Nat} : Preserves I (call (World.sslRead fd count)) := preserves_onFile

instance {buf : Bytes} {len : Int} : Preserves I (call (World.sslWrite fd buf len)) :=
  preserves_onFile

instance : Preserves I (call (World.accept serfd)) where
  keep w h := by
    apply (Preserves.call (I := I) ?_).keep w h
    intro w h
    rcases accept_cases serfd w with ⟨e, q, -, he⟩ | ⟨hint, ans, q, -, he⟩
    · rw [he]
      exact Steady.same w _ rfl rfl rfl h
    · rw [he]
      refine Steady.grow w _ rfl rfl (fun _ _ ha => ?_) h
      exact get_openFile (ans.file (some serfd)) Table.get_pick ha

instance : Preserves I (call World.socket) := by
  refine .call fun w h => ?_
  rcases socket_cases w with ⟨e, q, he⟩ | ⟨hint, ans, q, he⟩
  · rw [he]
    exact Steady.same w _ rfl rfl rfl h
  · rw [he]
    refine Steady.grow w _ rfl rfl (fun _ _ ha => ?_) h
    exact get_openFile (ans.file none) Table.get_pick ha

instance {f : ShmData → ShmData} : Preserves I (count sd f) := by
  have hstore : Preserves I (store fun w : World => w.setShm (f w.shm)) :=
    .store fun w h => Steady.same w _ rfl rfl rfl h
  unfold count
  infer_instance

instance : Preserves I (reqAt p) := by
  unfold reqAt
  infer_instance

instance {ssl : Option Addr} : Preserves I (sslAt ssl) := by
  unfold sslAt
  infer_instance

instance {ssl : Addr} {s : Ssl} : Preserves I (store (setSsl ssl s)) :=
  .store fun w h => Steady.same w _ rfl rfl rfl h

instance {ssl : Addr} : Preserves I (store (freeSsl ssl)) :=
  .store fun w h => Steady.same w _ rfl rfl rfl h

instance {t : Prog (Timers Addr Unit) Unit} : Preserves I (zoom timers setTimers t) :=
  .zoom fun _ w h => Steady.same w _ rfl rfl rfl h

instance {ssl : Option Addr} : Preserves I (sslSetFd ssl fd) := by
  unfold sslSetFd
  infer_instance

instance {ssl : Option Addr} : Preserves I (sslFree ssl) := by
  unfold sslFree
  infer_instance

instance {ssl : Option Addr} : Preserves I (closeSsl ssl) := by
  cases ssl <;> unfold closeSsl <;> infer_instance

instance {data : Option Addr} : Preserves I (freeData data) := by
  cases data <;> unfold freeData <;> infer_instance

instance : Preserves I (setNonBlocking fd) := by
  unfold setNonBlocking
  infer_instance

instance : Preserves I clientSocket := by
  unfold clientSocket
  refine .seq inferInstance fun r => ?_
  cases r <;> infer_instance

instance {size : Nat} {buf : Bytes} : Preserves I (readTurn fd size buf) := by
  unfold readTurn
  refine .seq inferInstance fun r => ?_
  rcases r with e | _ | ⟨c, piece⟩ <;> infer_instance

instance {buf : Bytes} {size n : Int} : Preserves I (writeTurn fd buf size n) := by
  unfold writeTurn
  refine @Preserves.ite _ _ _ _ _ _ _ ?_ inferInstance
  refine .seq inferInstance fun r => ?_
  cases r <;> infer_instance

instance {ssl : Option Addr} : Preserves I (sslAccept ssl) := by
  unfold sslAccept
  apply Preserves.seq inferInstance
  rintro ⟨ssl, s⟩
  refine @Preserves.ite _ _ _ _ _ _ _ inferInstance ?_
  cases s.fd <;> infer_instance

instance {ssl : Option Addr} {retryTimes : Nat} : Preserves I (sslAcceptTurn ssl retryTimes) := by
  unfold sslAcceptTurn
  infer_instance

instance {ssl : Option Addr} {size : Nat} : Preserves I (sslReadInto ssl size) := by
  unfold sslReadInto
  apply Preserves.seq inferInstance
  rintro ⟨ssl, s⟩
  dsimp only
  cases s.fd
  · infer_instance
  · refine .seq inferInstance fun r => ?_
    cases r <;> infer_instance

instance {ssl : Option Addr} {buf : Bytes} {len : Int} :
    Preserves I (sslWriteFrom ssl buf len) := by
  unfold sslWriteFrom
  apply Preserves.seq inferInstance
  rintro ⟨ssl, s⟩
  dsimp only
  cases s.fd <;> infer_instance

/-- What the part about a TLS client keeps: all else is about the session, so it
is what `close` and the registration keep. -/
theorem preserves_registerHttps_of {epollFd : Fd} {retryTimes : Nat}
    (hclose : Preserves I (call (World.close fd)))
    (hset : ∀ k, Preserves I (do
      let r ← reqAt p
      store (setReq p { r with fd := fd })
      let _ ← call (epollCtl epollFd (.add ⟨inEdge, p⟩) fd)
      pure (Sum.inl k : Nat ⊕ Unit))) :
    Preserves I (registerHttps epollFd p retryTimes fd) := by
  unfold registerHttps
  refine .seq inferInstance fun r => .seq inferInstance fun _ => .seq inferInstance fun r' => ?_
  apply Preserves.seq inferInstance
  rintro ⟨code, k⟩
  exact @Preserves.ite _ _ _ _ _ _ _ inferInstance (hset k)

/-- The accept loops keep what their part about a client keeps. -/
theorem preserves_acceptTurn {β : Type} {register : Fd → Prog World (β ⊕ Unit)}
    (h : ∀ clifd, Preserves I (register clifd)) : Preserves I (acceptTurn serfd register) := by
  unfold acceptTurn
  refine .seq inferInstance fun r => ?_
  cases r <;> infer_instance

end DmfServer
