/-
DmfServer/Handlers.lean

Every handler of a worker keeps the invariant of `DmfServer.Wiring`, and none
of them faults.

What a handler does to the rest of the worker is a frame condition.  A
handler for the client `p` leaves the registrations of all other objects as
they were (`Frame p`); the part of it that only talks to the network keeps
all registrations and objects (`Kept`); the accept loops only add
registrations (`Grown`).  `serverEvent_safe` puts them together: an event on
any registered descriptor is handled without a fault, the invariant holds
again, and the registrations of the other objects are still there.
-/
import DmfServer.Wiring

namespace DmfServer

open Imperative Imperative.Prog Strings World

variable {lisInfs : List LisInf} {epollFd : Fd} {busy : Option Fd} {w w' w'' : World}
variable {fd : Fd} {i : FileId} {f f' : File} {r : ReqT} {p : Addr}

/-! ### What a handler leaves alone -/

/-- The registrations of other objects than `p` are as they were. -/
def Frame (p : Addr) (w w' : World) : Prop :=
  ∀ fd ev, w.interest.get fd = some ev → ev.ptr ≠ p → w'.interest.get fd = some ev

/-- The registrations, the objects and the open descriptors are as they
were, and the files keep their listeners. -/
structure Kept (w w' : World) : Prop where
  low : w'.low = w.low
  reqs : w'.reqs = w.reqs
  interest : ∀ fd, w'.interest.get fd = w.interest.get fd
  fds : ∀ fd i, w.fds.get fd = some i → w'.fds.get fd = some i
  files : ∀ i f, w.files.get i = some f → ∃ f', w'.files.get i = some f' ∧ f'.via = f.via

theorem Kept.refl (w : World) : Kept w w :=
  ⟨rfl, rfl, fun _ => rfl, fun _ _ h => h, fun _ f h => ⟨f, h, rfl⟩⟩

theorem Kept.trans (h : Kept w w') (h' : Kept w' w'') : Kept w w'' where
  low := h'.low.trans h.low
  reqs := h'.reqs.trans h.reqs
  interest fd := (h'.interest fd).trans (h.interest fd)
  fds fd i hi := h'.fds fd i (h.fds fd i hi)
  files i f hf := by
    obtain ⟨f', hf', hv⟩ := h.files i f hf
    obtain ⟨f'', hf'', hv'⟩ := h'.files i f' hf'
    exact ⟨f'', hf'', hv'.trans hv⟩

theorem Kept.frame (h : Kept w w') : Frame p w w' := fun fd _ hev _ => (h.interest fd).trans hev

theorem Kept.setFile (hf : w.files.get i = some f) (hvia : f'.via = f.via) :
    Kept w (w.setFile i f') := by
  refine ⟨rfl, rfl, fun _ => rfl, fun _ _ h => h, fun j g hg => ?_⟩
  rcases eq_or_ne j i with rfl | hne
  · obtain rfl : f = g := Option.some.inj (hf.symm.trans hg)
    exact ⟨_, Table.get_set_self, hvia⟩
  · exact ⟨g, (Table.get_set_of_ne hne).trans hg, rfl⟩

theorem Kept.onFile {α : Type} {bad : α} {call : File → α × File}
    (hc : ∀ f, (call f).2.via = f.via) : Kept w (World.onFile bad call fd w).2 := by
  rcases onFile_cases bad call fd w with he | ⟨i, f, -, hf, he⟩
  · rw [he]
    exact Kept.refl w
  · rw [he]
    exact Kept.setFile hf (hc f)

theorem Kept.setShm {sd : ShmData} : Kept w (w.setShm sd) :=
  ⟨rfl, rfl, fun _ => rfl, fun _ _ h => h, fun _ f h => ⟨f, h, rfl⟩⟩

/-- `p` is registered for the descriptor `fd` and is the object `r` of a
client. -/
structure Conn (lisInfs : List LisInf) (epollFd : Fd) (w : World) (fd : Fd) (p : Addr)
    (r : ReqT) : Prop where
  reg : ∃ ev, w.interest.get fd = some ev ∧ ev.ptr = p
  req : w.reqs.get p = some r
  client : IsClient lisInfs epollFd w fd r

theorem Conn.kept (h : Conn lisInfs epollFd w fd p r) (hk : Kept w w') :
    Conn lisInfs epollFd w' fd p r where
  reg := by
    obtain ⟨ev, hev, hp⟩ := h.reg
    exact ⟨ev, (hk.interest fd).trans hev, hp⟩
  req := hk.reqs ▸ h.req
  client := h.client.mono hk.low fun i f hi hf => ⟨hk.fds fd i hi, hk.files i f hf⟩

/-! ### `handle_close` -/

/-- The note a file takes of a call of `epoll_ctl`. -/
theorem ctlCall_kept : Kept w (ctlCall fd w).2 := Kept.onFile fun _ => rfl

theorem Inv.ctlCall (h : Inv lisInfs epollFd busy w) :
    Inv lisInfs epollFd busy (World.ctlCall fd w).2 := h.onFile fun _ => ⟨rfl, rfl, rfl⟩

/-- Whether or not `EPOLL_CTL_DEL` succeeds, only `fd` can be affected. -/
theorem Inv.epollDel (h : Inv lisInfs epollFd busy w) (efd fd : Fd) :
    Inv lisInfs epollFd busy (epollCtl efd .del fd w).2 ∧
      (epollCtl efd .del fd w).2.low = w.low ∧
      (epollCtl efd .del fd w).2.fds = w.fds ∧
      ∀ a ev, a ≠ fd → ((epollCtl efd .del fd w).2.interest.get a = some ev ↔
        w.interest.get a = some ev) := by
  have hk : Kept w (World.ctlCall fd w).2 := ctlCall_kept
  have hfds : (World.ctlCall fd w).2.fds = w.fds := onFile_fds
  rcases epollCtl_cases efd .del fd w with ⟨e, he⟩ | ⟨ev, hop, -⟩ | ⟨-, he⟩
  · rw [he]
    exact ⟨h.ctlCall, hk.low, hfds, fun a ev _ => by rw [hk.interest]⟩
  · rcases hop with ⟨hop, -⟩ | ⟨hop, -⟩ <;> cases hop
  · rw [he]
    refine ⟨h.ctlCall.unregister, hk.low, hfds, fun a ev ha => ?_⟩
    rw [unregister_interest, Table.get_erase_of_ne ha, hk.interest]

/-- `handle_close` on a client, which may just have been written to. -/
theorem handleClose_safe (h : Inv lisInfs epollFd busy w) (hb : busy = none ∨ busy = some fd)
    (hc : Conn lisInfs epollFd w fd p r) :
    Safe (handleClose p) w fun _ w' => Inv lisInfs epollFd none w' ∧ Frame p w w' := by
  obtain ⟨ev, hev, hptr⟩ := hc.reg
  have hcl := hc.client
  rw [handleClose, safe_reqAt_bind hc.req, hcl.fd_eq, hcl.sd, hcl.data, hcl.ssl, safe_call_bind,
    safe_call_bind, close_snd, safe_count_bind]
  obtain ⟨h₁, hlow, hfds, hint⟩ := h.epollDel r.efd fd
  obtain ⟨i, f, hi, -⟩ := hcl.file
  have h₂ := h₁.closeFd hb (hlow ▸ hcl.low) (hfds ▸ hi)
  refine (safe_deleteTimer_bind h₂.setShm.heap).mpr ?_
  rw [freeData_none, closeSsl_none, safe_pure_bind, safe_pure_bind, safe_store]
  -- no other descriptor is registered with the object
  have hreg : ∀ a ev', ((epollCtl r.efd .del fd w).2.closeFd fd).interest.get a = some ev' →
      a ≠ fd ∧ w.interest.get a = some ev' := by
    intro a ev' ha
    obtain ⟨hne, ha⟩ := Table.get_erase_eq_some.mp ha
    exact ⟨hne, (hint a ev' hne).mp ha⟩
  refine ⟨h₂.setShm.freeReq fun a ev' ha he => ?_, fun a ev' ha hne => ?_⟩
  · obtain ⟨hne, ha⟩ := hreg a ev' ha
    exact hne (h.registered_once ha hev (he.trans hptr.symm))
  · have hafd : a ≠ fd := by
      rintro rfl
      rw [hev] at ha
      exact hne (Option.some.inj ha ▸ hptr)
    exact (Table.get_erase_of_ne hafd).trans ((hint a ev' hafd).mpr ha)

/-! ### The handlers of clients -/

/-- What every call of `read` keeps, the loop keeps. -/
theorem readLoop_rule (I : World → Prop) (size : Nat) (h : I w)
    (hread : ∀ n w', I w' → I (World.read fd n w').2) :
    Safe (loop (readTurn fd size) []) w fun _ w' => I w' := by
  refine Safe.loop (fun _ w' => I w') ?_ h
  intro buf w₁ h₁
  rw [readTurn, safe_call_bind]
  have h₂ := hread (size - buf.length) w₁ h₁
  rcases (World.read fd (size - buf.length) w₁).1 with e | _ | ⟨c, piece⟩
  · show Safe (if e = .eagain ∨ e = .ewouldblock then _ else _) _ _
    split <;> exact safe_pure.mpr h₂
  · exact safe_pure.mpr h₂
  · exact safe_pure.mpr h₂

/-- What every call of `write` keeps, the loop keeps. -/
theorem writeLoop_rule (I : World → Prop) (buf : Bytes) (size n : Int) (h : I w)
    (hwrite : ∀ buf n w', I w' → I (World.write fd buf n w').2) :
    Safe (loop (writeTurn fd buf size) n) w fun _ w' => I w' := by
  refine Safe.loop (fun _ w' => I w') ?_ h
  intro n w₁ h₁
  rw [writeTurn]
  split
  · rw [safe_call_bind]
    have h₂ := hwrite (buf.drop (size - n).toNat) n w₁ h₁
    rcases (World.write fd (buf.drop (size - n).toNat) n w₁).1 with e | nwrite
    · show Safe (if e ≠ .eagain then _ else _) _ _
      split <;> exact safe_pure.mpr h₂
    · show Safe (if (nwrite : Int) < n then _ else _) _ _
      split <;> exact safe_pure.mpr h₂
  · exact safe_pure.mpr h₁

/-- Reading keeps everything. -/
theorem readLoop_safe (h : Inv lisInfs epollFd busy w) (size : Nat) :
    Safe (loop (readTurn fd size) []) w fun _ w' => Inv lisInfs epollFd busy w' ∧ Kept w w' := by
  apply readLoop_rule (fun w' => Inv lisInfs epollFd busy w' ∧ Kept w w') size ⟨h, Kept.refl w⟩
  rintro n w₁ ⟨h₁, hk₁⟩
  exact ⟨h₁.onFile fun f => File.receive_quiet _ _ f,
    hk₁.trans (Kept.onFile fun f => (File.receive_quiet _ _ f).1)⟩

/-- `EPOLL_CTL_MOD` on a client. -/
theorem Inv.epollMod (h : Inv lisInfs epollFd busy w) (hc : Conn lisInfs epollFd w fd p r)
    (efd : Fd) (events : EpollEvents) :
    Inv lisInfs epollFd busy (epollCtl efd (.mod ⟨events, p⟩) fd w).2 ∧
      Frame p w (epollCtl efd (.mod ⟨events, p⟩) fd w).2 := by
  have hk : Kept w (World.ctlCall fd w).2 := ctlCall_kept
  rcases epollCtl_cases efd (.mod ⟨events, p⟩) fd w with ⟨e, he⟩ | ⟨ev, hop, he⟩ | ⟨hop, -⟩
  · rw [he]
    exact ⟨h.ctlCall, hk.frame⟩
  · rcases hop with ⟨hop, -⟩ | ⟨hop, -⟩
    · cases hop
    · cases hop
      rw [he]
      have hc' := hc.kept hk
      obtain ⟨i, f, hi, -⟩ := hc'.client.file
      refine ⟨h.ctlCall.register hi hc'.req (.inr hc'.client), fun a ev ha hne => ?_⟩
      obtain ⟨reg, hreg, hptr⟩ := hc.reg
      have hafd : a ≠ fd := by
        rintro rfl
        rw [hreg] at ha
        exact hne (Option.some.inj ha ▸ hptr)
      rw [register_interest, Table.get_set_of_ne hafd, hk.interest]
      exact ha
  · cases hop

/-- A handler may begin with what keeps everything. -/
theorem Frame.of_kept (hk : Kept w w') (hf : Frame p w' w'') : Frame p w w'' :=
  fun a ev ha hne => hf a ev ((hk.interest a).trans ha) hne

theorem eventHttpRead_safe (h : Inv lisInfs epollFd none w)
    (hc : Conn lisInfs epollFd w fd p r) :
    Safe (eventHttpRead p fd epollFd) w fun _ w' =>
      Inv lisInfs epollFd none w' ∧ Frame p w w' := by
  rw [eventHttpRead]
  refine Safe.bind ((readLoop_safe h 1024).mono ?_)
  rintro ⟨outcome, buf⟩ w₁ ⟨h₁, hk₁⟩
  have hc₁ := hc.kept hk₁
  have hclose : ∀ w₂, Inv lisInfs epollFd none w₂ → Kept w w₂ →
      Safe (handleClose p) w₂ fun _ w' => Inv lisInfs epollFd none w' ∧ Frame p w w' :=
    fun w₂ h₂ hk₂ => (handleClose_safe h₂ (.inl rfl) (hc.kept hk₂)).mono
      fun _ _ hw' => ⟨hw'.1, hw'.2.of_kept hk₂⟩
  rcases outcome with - | - | e
  · show Safe (reqAt p >>= _) w₁ _
    rw [safe_reqAt_bind hc₁.req, hc₁.client.sd, safe_count_bind, safe_call_bind, safe_pure]
    have hk₂ : Kept w (w₁.setShm { w₁.shm with readNum := w₁.shm.readNum + 1 }) :=
      hk₁.trans Kept.setShm
    obtain ⟨h₃, hf₃⟩ := h₁.setShm.epollMod (hc.kept hk₂) epollFd outEdge
    exact ⟨h₃, hf₃.of_kept hk₂⟩
  · exact hclose w₁ h₁ hk₁
  · show Safe (if e = .econnreset then _ else _) w₁ _
    split
    · rw [safe_reqAt_bind hc₁.req, hc₁.client.sd, safe_count_bind]
      exact hclose _ h₁.setShm (hk₁.trans Kept.setShm)
    · exact safe_pure.mpr ⟨h₁, hk₁.frame⟩

/-- A response can be begun. -/
theorem Inv.begin (h : Inv lisInfs epollFd none w) : Inv lisInfs epollFd busy w :=
  { h with
    registered := h.registered
    answered := fun i f hf hhttp => by
      obtain ⟨hsent, hnil, hopen⟩ := h.answered i f hf hhttp
      exact ⟨hsent, hnil, fun a ha hw => by cases hopen a ha hw⟩ }

/-- While `n` bytes of the response are left, the client has the others. -/
structure Writing (lisInfs : List LisInf) (epollFd fd : Fd) (w : World) (n : Int) (w' : World) :
    Prop where
  inv : Inv lisInfs epollFd (some fd) w'
  kept : Kept w w'
  low : w'.low ≤ fd
  nonneg : 0 ≤ n
  le : n ≤ sendBuf.length
  sent : ∀ i f, w'.fds.get fd = some i → w'.files.get i = some f → IsHttp lisInfs f →
    f.sent = sendBuf.take ((sendBuf.length : Int) - n).toNat

/-- One call of `write` by `event_http_write`. -/
theorem Writing.write {n : Int} (h : Writing lisInfs epollFd fd w n w')
    {x : Except Errno Nat} {w₂ : World}
    (he : World.write fd (sendBuf.drop ((sendBuf.length : Int) - n).toNat) n w' = (x, w₂)) :
    Inv lisInfs epollFd (some fd) w₂ ∧ Kept w w₂ ∧
      ∀ nwrite, x = .ok nwrite → Writing lisInfs epollFd fd w (n - nwrite) w₂ := by
  rcases onFile_cases (.error .ebadf)
      (File.transmit (sendBuf.drop ((sendBuf.length : Int) - n).toNat) n (.error .eagain)) fd w'
    with hno | ⟨i, f, hi, hf, hfile⟩
  · -- the descriptor is not open
    obtain ⟨rfl, rfl⟩ := Prod.mk.inj (he.symm.trans hno)
    exact ⟨h.inv, h.kept, fun _ hx => by cases hx⟩
  obtain ⟨hvia, hwrites, hsent⟩ := File.transmit_cases
    (sendBuf.drop ((sendBuf.length : Int) - n).toNat) n (.error .eagain) f
  rcases hres : f.transmit (sendBuf.drop ((sendBuf.length : Int) - n).toNat) n
    (.error .eagain) with ⟨y, f'⟩
  rw [hres] at hfile hvia hwrites hsent
  obtain ⟨rfl, rfl⟩ := Prod.mk.inj (he.symm.trans hfile)
  have hlen : n.toNat ≤ sendBuf.length := Int.toNat_le.mpr h.le
  have hnn := h.nonneg
  have hle : ∀ nwrite, x = .ok nwrite → (nwrite : Int) ≤ n := by
    rintro nwrite rfl
    rcases hsent with ⟨e, hx, -⟩ | ⟨m, hx, hm, -⟩
    · cases hx
    · cases hx
      exact hm
  -- what is written now is the next part of the response
  have hnext : IsHttp lisInfs f → ∃ k, f'.sent = sendBuf.take k ∧
      ∀ nwrite, x = .ok nwrite → k = ((sendBuf.length : Int) - (n - nwrite)).toNat := by
    intro hhttp
    have hs := h.sent i f hi hf hhttp
    rcases hsent with ⟨e, rfl, hs'⟩ | ⟨m, rfl, hm, hs'⟩
    · exact ⟨_, hs'.trans hs, fun _ hx => by cases hx⟩
    · refine ⟨((sendBuf.length : Int) - n).toNat + m, ?_, ?_⟩
      · rw [hs', hs, List.take_add]
      · rintro nwrite hx
        cases hx
        omega
  have hinv : Inv lisInfs epollFd (some fd) (w'.setFile i f') := by
    refine h.inv.setFile (.inr rfl) hf hvia fun hhttp => ?_
    obtain ⟨k, hk, -⟩ := hnext hhttp
    refine ⟨hk ▸ List.take_prefix _ _, fun hw => ?_, fun a ha _ => ?_⟩
    · rw [hwrites] at hw
      cases hw
    · rw [h.inv.fds_inj fd a i h.low hi ha]
  have hkept : Kept w (w'.setFile i f') := h.kept.trans (Kept.setFile hf hvia)
  refine ⟨hinv, hkept, fun nwrite hx => ⟨hinv, hkept, h.low, ?_, ?_, ?_⟩⟩
  · have := hle nwrite hx
    omega
  · have := h.le
    omega
  · intro j g hj hg hhttp
    obtain rfl : i = j := Option.some.inj (hi.symm.trans hj)
    obtain rfl : f' = g := Option.some.inj (Table.get_set_self.symm.trans hg)
    obtain ⟨serfd, hv, hl⟩ := hhttp
    obtain ⟨k, hk, hkn⟩ := hnext ⟨serfd, hvia ▸ hv, hl⟩
    rw [hk, hkn nwrite hx]

theorem eventHttpWrite_safe (h : Inv lisInfs epollFd none w)
    (hc : Conn lisInfs epollFd w fd p r) :
    Safe (eventHttpWrite p fd) w fun _ w' => Inv lisInfs epollFd (some fd) w' ∧ Kept w w' := by
  rw [eventHttpWrite, safe_reqAt_bind hc.req, hc.client.sd]
  have hstart : Writing lisInfs epollFd fd w sendBuf.length w := by
    refine ⟨h.begin, Kept.refl w, hc.client.low, Int.natCast_nonneg _, le_rfl, ?_⟩
    intro i f hi hf hhttp
    obtain ⟨-, hnil, hopen⟩ := h.answered i f hf hhttp
    have hw : f.writes = 0 := by
      by_contra hne
      cases hopen fd hi hne
    rw [hnil hw, Int.sub_self]
    rfl
  refine Safe.bind (Safe.mono (Q := fun _ w' => Inv lisInfs epollFd (some fd) w' ∧ Kept w w') ?_ ?_)
  · refine Safe.loop (Writing lisInfs epollFd fd w) ?_ hstart
    intro n w₁ h₁
    rw [writeTurn]
    split
    · rw [safe_call_bind]
      rcases hx : World.write fd (sendBuf.drop ((sendBuf.length : Int) - n).toNat) n w₁
        with ⟨e | nwrite, w₂⟩
      · obtain ⟨h₂, hk₂, -⟩ := h₁.write hx
        show Safe (if e ≠ .eagain then _ else _) w₂ _
        split <;> exact safe_pure.mpr ⟨h₂, hk₂⟩
      · obtain ⟨h₂, hk₂, hnext⟩ := h₁.write hx
        show Safe (if (nwrite : Int) < n then _ else _) w₂ _
        split
        · exact safe_pure.mpr ⟨h₂, hk₂⟩
        · exact safe_pure.mpr (hnext nwrite rfl)
    · exact safe_pure.mpr ⟨h₁.inv, h₁.kept⟩
  · rintro (- | e) w₁ ⟨h₁, hk₁⟩
    · exact safe_count.mpr ⟨h₁.setShm, hk₁.trans Kept.setShm⟩
    · exact safe_pure.mpr ⟨h₁, hk₁⟩

/-! ### The proxy -/

theorem Kept.openFile (hfree : w.fds.get fd = none) : Kept w (w.openFile fd f) where
  low := rfl
  reqs := rfl
  interest _ := rfl
  fds a i ha := by
    have hne : a ≠ fd := by
      rintro rfl
      rw [hfree] at ha
      cases ha
    exact (Table.get_set_of_ne hne).trans ha
  files i g hg := ⟨g, (Table.get_push_of_ne (ne_of_lt (Table.lt_bound hg))).trans hg, rfl⟩

/-- `client_socket` opens a descriptor of its own, or none. -/
theorem clientSocket_safe (h : Inv lisInfs epollFd none w) :
    Safe clientSocket w fun sock w' => Inv lisInfs epollFd none w' ∧ Kept w w' ∧
      ∀ s, sock = some s → w.fds.get s = none ∧ w.low ≤ s ∧
        ∃ i f, w'.fds.get s = some i ∧ w'.files.get i = some f ∧ f.via = none := by
  rw [clientSocket, safe_call_bind]
  rcases socket_cases w with ⟨e, q, he⟩ | ⟨hint, ans, q, he⟩
  · rw [he]
    refine safe_pure.mpr ⟨h.setSockets, ?_, fun s hs => by cases hs⟩
    exact ⟨rfl, rfl, fun _ => rfl, fun _ _ h => h, fun _ f h => ⟨f, h, rfl⟩⟩
  · rw [he]
    have hfree : w.fds.get (w.fds.pick w.low hint) = none := Table.get_pick
    set s := w.fds.pick w.low hint with hs
    set w₁ := (w.openFile s (ans.file none)).setSockets q with hw₁
    have h₁ : Inv lisInfs epollFd none w₁ := (h.openFile hfree rfl rfl).setSockets
    have hk₁ : Kept w w₁ := by
      have hk : Kept w (w.openFile s (ans.file none)) := Kept.openFile hfree
      exact ⟨hk.low, hk.reqs, hk.interest, hk.fds, hk.files⟩
    show Safe (call (World.connect s) >>= fun ok => if ok then _ else _) w₁ _
    rw [safe_call_bind]
    have h₂ : Inv lisInfs epollFd none (World.connect s w₁).2 := h₁.onFile fun _ => ⟨rfl, rfl, rfl⟩
    have hk₂ : Kept w₁ (World.connect s w₁).2 := Kept.onFile fun _ => rfl
    split
    · refine safe_pure.mpr ⟨h₂, hk₁.trans hk₂, ?_⟩
      rintro s' hs'
      obtain rfl := Option.some.inj hs'
      have hi : w₁.fds.get s = some w.files.bound := Table.get_set_self
      have hf : w₁.files.get w.files.bound = some (ans.file none) := Table.get_push_self
      obtain ⟨f', hf', hv⟩ := hk₂.files _ _ hf
      exact ⟨hfree, Table.le_pick, _, f', hk₂.fds _ _ hi, hf', hv⟩
    · exact safe_pure.mpr ⟨h₂, hk₁.trans hk₂, fun s hs => by cases hs⟩

/-- The file of a client of a proxy listener is none of an HTTP listener. -/
theorem Conn.not_http (hc : Conn lisInfs epollFd w fd p r) (ht : r.type ≠ .http) :
    ∀ i f, w.fds.get fd = some i → w.files.get i = some f → ¬ IsHttp lisInfs f := by
  rintro i f hi hf ⟨serfd, hv, hall⟩
  obtain ⟨j, g, hj, hg, l, hl, hvia, htype, -⟩ := hc.client.file
  obtain rfl : i = j := Option.some.inj (hi.symm.trans hj)
  obtain rfl : f = g := Option.some.inj (hf.symm.trans hg)
  rw [hvia] at hv
  exact ht (htype.symm.trans (hall l hl (Option.some.inj hv)))

/-- The loop that writes to a client of a proxy listener. -/
theorem writeLoop_safe (h : Inv lisInfs epollFd none w) (hc : Conn lisInfs epollFd w fd p r)
    (ht : r.type ≠ .http) (buf : Bytes) (size n : Int) :
    Safe (loop (writeTurn fd buf size) n) w fun _ w' =>
      Inv lisInfs epollFd none w' ∧ Kept w w' := by
  apply writeLoop_rule (fun w' => Inv lisInfs epollFd none w' ∧ Kept w w') buf size n
    ⟨h, Kept.refl w⟩
  rintro buf n w₁ ⟨h₁, hk₁⟩
  exact ⟨h₁.onFile_other (fun f => (File.transmit_cases _ _ _ f).1) ((hc.kept hk₁).not_http ht),
    hk₁.trans (Kept.onFile fun f => (File.transmit_cases _ _ _ f).1)⟩

/-- The upstream's descriptor is closed again. -/
theorem Kept.closeFd (hk : Kept w w') (h : Inv lisInfs epollFd none w)
    (hfree : w.fds.get fd = none) : Kept w (w'.closeFd fd) where
  low := hk.low
  reqs := hk.reqs
  interest a := by
    rcases eq_or_ne a fd with rfl | hne
    · exact Table.get_erase_self.trans (h.not_registered hfree).symm
    · exact (Table.get_erase_of_ne hne).trans (hk.interest a)
  fds a i ha := by
    have hne : a ≠ fd := by
      rintro rfl
      rw [hfree] at ha
      cases ha
    exact (Table.get_erase_of_ne hne).trans (hk.fds a i ha)
  files := hk.files

/-- The exchange over a descriptor that was opened for it. -/
theorem exchange_safe {s : Fd} (h₀ : Inv lisInfs epollFd none w) (hfree : w.fds.get s = none)
    (hlow : w.low ≤ s) (h : Inv lisInfs epollFd none w') (hk : Kept w w')
    (hi : w'.fds.get s = some i) (hf : w'.files.get i = some f) (hvia : f.via = none)
    (buf : Bytes) (len : Int) :
    Safe (exchange s buf len) w' fun _ w'' => Inv lisInfs epollFd none w'' ∧ Kept w w'' := by
  have hno : ∀ j g, w'.fds.get s = some j → w'.files.get j = some g → ¬ IsHttp lisInfs g := by
    rintro j g hj hg ⟨serfd, hv, -⟩
    obtain rfl : i = j := Option.some.inj (hi.symm.trans hj)
    obtain rfl : f = g := Option.some.inj (hf.symm.trans hg)
    rw [hvia] at hv
    cases hv
  rw [exchange, safe_call_bind]
  have h₁ : Inv lisInfs epollFd none (World.send s buf len w').2 :=
    h.onFile_other (fun g => (File.transmit_cases _ _ _ g).1) hno
  have hk₁ : Kept w (World.send s buf len w').2 :=
    hk.trans (Kept.onFile fun g => (File.transmit_cases _ _ _ g).1)
  have hi₁ : (World.send s buf len w').2.fds.get s = some i := by
    rw [World.send, onFile_fds]
    exact hi
  generalize (World.send s buf len w').2 = w₁ at h₁ hk₁ hi₁ ⊢
  rw [safe_call_bind]
  have h₂ : Inv lisInfs epollFd none (World.recv s 4096 w₁).2 :=
    h₁.onFile fun g => File.receive_quiet _ _ g
  have hk₂ : Kept w (World.recv s 4096 w₁).2 :=
    hk₁.trans (Kept.onFile fun g => (File.receive_quiet _ _ g).1)
  have hi₂ : (World.recv s 4096 w₁).2.fds.get s = some i := by
    rw [World.recv, onFile_fds]
    exact hi₁
  generalize World.recv s 4096 w₁ = res at h₂ hk₂ hi₂ ⊢
  rw [safe_call_bind, close_snd, safe_pure]
  exact ⟨h₂.closeFd (.inl rfl) (hk₂.low ▸ hlow) hi₂, hk₂.closeFd h₀ hfree⟩

theorem eventHttpReverse_safe (h : Inv lisInfs epollFd none w)
    (hc : Conn lisInfs epollFd w fd p r) (ht : r.type ≠ .http) :
    Safe (eventHttpReverse p fd) w fun _ w' =>
      Inv lisInfs epollFd none w' ∧ Frame p w w' := by
  rw [eventHttpReverse]
  refine Safe.bind ((readLoop_safe h 4096).mono ?_)
  rintro ⟨outcome, buf⟩ w₁ ⟨h₁, hk₁⟩
  have hclose : ∀ w₂, Inv lisInfs epollFd none w₂ → Kept w w₂ →
      Safe (handleClose p) w₂ fun _ w' => Inv lisInfs epollFd none w' ∧ Frame p w w' :=
    fun w₂ h₂ hk₂ => (handleClose_safe h₂ (.inl rfl) (hc.kept hk₂)).mono
      fun _ _ hw' => ⟨hw'.1, hw'.2.of_kept hk₂⟩
  rcases outcome with - | - | e
  · refine Safe.bind ((clientSocket_safe h₁).mono ?_)
    rintro (- | s) w₂ ⟨h₂, hk₂, hs⟩
    · exact safe_pure.mpr ⟨h₂, (hk₁.trans hk₂).frame⟩
    · obtain ⟨hfree, hlow, i, f, hi, hf, hvia⟩ := hs s rfl
      refine Safe.bind ((exchange_safe h₁ hfree hlow h₂ hk₂ hi hf hvia _ _).mono ?_)
      rintro ⟨recvLen, answer⟩ w₃ ⟨h₃, hk₃⟩
      have hk₃' := hk₁.trans hk₃
      refine Safe.bind ((writeLoop_safe h₃ (hc.kept hk₃') ht _ _ _).mono ?_)
      rintro (- | e) w₄ ⟨h₄, hk₄⟩
      · exact hclose w₄ h₄ (hk₃'.trans hk₄)
      · exact safe_pure.mpr ⟨h₄, (hk₃'.trans hk₄).frame⟩
  · exact hclose w₁ h₁ hk₁
  · exact safe_pure.mpr ⟨h₁, hk₁.frame⟩

/-! ### Accepting -/

/-- Nothing is taken out of the epoll set. -/
def Grown (w w' : World) : Prop :=
  ∀ fd ev, w.interest.get fd = some ev → w'.interest.get fd = some ev

theorem Grown.refl (w : World) : Grown w w := fun _ _ h => h

theorem Grown.trans (h : Grown w w') (h' : Grown w' w'') : Grown w w'' :=
  fun fd ev he => h' fd ev (h fd ev he)

theorem Kept.grown (h : Kept w w') : Grown w w' := fun fd _ he => (h.interest fd).trans he

/-- `EPOLL_CTL_ADD` of an open descriptor. -/
theorem Inv.epollAdd {ev : EpollEvent} (h : Inv lisInfs epollFd busy w)
    (hi : w.fds.get fd = some i) (hr : w.reqs.get ev.ptr = some r)
    (hs : IsListener lisInfs fd r ∨ IsClient lisInfs epollFd w fd r) (efd : Fd) :
    Inv lisInfs epollFd busy (epollCtl efd (.add ev) fd w).2 ∧
      Grown w (epollCtl efd (.add ev) fd w).2 ∧
      (epollCtl efd (.add ev) fd w).2.low = w.low ∧
      (epollCtl efd (.add ev) fd w).2.fds = w.fds := by
  have hk : Kept w (World.ctlCall fd w).2 := ctlCall_kept
  have hfds : (World.ctlCall fd w).2.fds = w.fds := onFile_fds
  rcases epollCtl_cases efd (.add ev) fd w with ⟨e, he⟩ | ⟨ev', hop, he⟩ | ⟨hop, -⟩
  · rw [he]
    exact ⟨h.ctlCall, hk.grown, hk.low, hfds⟩
  · rcases hop with ⟨hop, hnone⟩ | ⟨hop, -⟩
    · cases hop
      rw [he]
      have hs' := hs.imp_right fun hc => hc.mono hk.low fun j f hj hf =>
        ⟨hk.fds fd j hj, hk.files j f hf⟩
      refine ⟨h.ctlCall.register (hk.fds fd i hi) (hk.reqs ▸ hr) hs', fun a ev' ha => ?_, hk.low,
        hfds⟩
      have hafd : a ≠ fd := by
        rintro rfl
        rw [hnone] at ha
        cases ha
      rw [register_interest, Table.get_set_of_ne hafd, hk.interest]
      exact ha
    · cases hop
  · cases hop

theorem setNonBlocking_safe (h : Inv lisInfs epollFd busy w) :
    Safe (setNonBlocking fd) w fun _ w' => Inv lisInfs epollFd busy w' ∧ Kept w w' := by
  have h₁ : Inv lisInfs epollFd busy (World.fcntl fd w).2 := h.onFile fun _ => ⟨rfl, rfl, rfl⟩
  have hk₁ : Kept w (World.fcntl fd w).2 := Kept.onFile fun _ => rfl
  rw [setNonBlocking, safe_call_bind]
  split
  · exact safe_call.mpr ⟨h₁.onFile fun _ => ⟨rfl, rfl, rfl⟩, hk₁.trans (Kept.onFile fun _ => rfl)⟩
  · exact safe_pure.mpr ⟨h₁, hk₁⟩

theorem Grown.popBacklog {serfd : Fd} {x : Except Errno Fd}
    {q : List (Except Errno (Fd × Answers))} : Grown w (w.popBacklog serfd x q) :=
  fun _ _ h => h

/-- An accepted descriptor is registered, or closed again. -/
theorem registerHttp_safe {l : LisInf} (h : Inv lisInfs epollFd none w) (hl : l ∈ lisInfs)
    (ht : l.type = .http ∨ l.type = .httpProxy) (hlow : w.low ≤ fd)
    (hi : w.fds.get fd = some i) (hf : w.files.get i = some f) (hvia : f.via = some l.fd)
    (hnew : w.interest.get fd = none) :
    Safe (registerHttp l.type epollFd (some ()) fd) w fun _ w' =>
      Inv lisInfs epollFd none w' ∧ Grown w w' := by
  rw [registerHttp, newReqT, safe_call_bind, safe_count_bind, safe_call_bind]
  set r : ReqT := ⟨fd, epollFd, l.type, none, none, some ()⟩ with hr
  set w₁ := (w.newReq r).setShm { (w.newReq r).shm with
    acceptNum := (w.newReq r).shm.acceptNum + 1 } with hw₁
  have h₁ : Inv lisInfs epollFd none w₁ := h.newReq.setShm
  have hclient : IsClient lisInfs epollFd w₁ fd r :=
    ⟨rfl, hlow, rfl, rfl, rfl, rfl, i, f, hi, hf, l, hl, hvia, rfl, ht⟩
  have hreq : w₁.reqs.get w.reqs.bound = some r := Table.get_push_self
  have hadd : ∀ e : EpollEvent, e.ptr = w.reqs.bound → w₁.reqs.get e.ptr = some r :=
    fun e he => he ▸ hreq
  obtain ⟨h₂, hg₂, hlow₂, hfds₂⟩ :=
    h₁.epollAdd hi (hadd ⟨inEdge, w.reqs.bound⟩ rfl) (.inr hclient) epollFd
  generalize epollCtl epollFd (.add ⟨inEdge, w.reqs.bound⟩) fd w₁ = res at h₂ hg₂ hlow₂ hfds₂ ⊢
  obtain ⟨e | u, w₂⟩ := res
  · show Safe (call (close fd) >>= _) w₂ _
    rw [safe_call_bind, close_snd, safe_pure]
    have hi₂ : w₂.fds.get fd = some i := (congrArg (fun t => t.get fd) hfds₂).trans hi
    refine ⟨h₂.closeFd (.inl rfl) (le_of_eq_of_le hlow₂ hlow) hi₂, fun a ev ha => ?_⟩
    · have hafd : a ≠ fd := by
        rintro rfl
        rw [hnew] at ha
        cases ha
      exact (Table.get_erase_of_ne hafd).trans (hg₂ a ev ha)
  · exact safe_pure.mpr ⟨h₂, hg₂⟩

/-- A turn of the accept loop, on a listener for HTTP or its proxy. -/
theorem acceptHttpTurn_safe (h : Inv lisInfs epollFd none w) {l : LisInf} (hl : l ∈ lisInfs)
    (ht : l.type = .http ∨ l.type = .httpProxy) :
    Safe (acceptTurn l.fd (registerHttp l.type epollFd (some ()))) w fun _ w' =>
      Inv lisInfs epollFd none w' ∧ Grown w w' := by
  rw [acceptTurn, safe_call_bind]
  rcases accept_cases l.fd w with ⟨e, q, hq, he⟩ | ⟨hint, ans, q, hq, he⟩
  · rw [he]
    exact safe_pure.mpr ⟨h.popBacklog hq, fun _ _ h => h⟩
  rw [he]
  have hfree : w.fds.get (w.fds.pick w.low hint) = none := Table.get_pick
  have hlow : w.low ≤ w.fds.pick w.low hint := Table.le_pick
  generalize w.fds.pick w.low hint = clifd at hfree hlow ⊢
  set w₁ := (w.openFile clifd (ans.file (some l.fd))).popBacklog l.fd (.ok clifd) q with hw₁
  have hi₁ : w₁.fds.get clifd = some w.files.bound := Table.get_set_self
  have hf₁ : w₁.files.get w.files.bound = some (ans.file (some l.fd)) := Table.get_push_self
  have hsuf : q <:+ w.backlog l.fd := by
    rw [hq]
    exact List.suffix_cons _ _
  have h₁ : Inv lisInfs epollFd none w₁ := (h.openFile hfree rfl rfl).popBacklog hsuf
  show Safe (if 0 < clifd then _ else _) w₁ _
  split
  · refine Safe.bind ((setNonBlocking_safe h₁).mono ?_)
    rintro (- | -) w₂ ⟨h₂, hk₂⟩
    · exact safe_pure.mpr ⟨h₂, hk₂.grown⟩
    · obtain ⟨f₂, hf₂, hvia⟩ := hk₂.files _ _ hf₁
      have hnew : w₂.interest.get clifd = none :=
        (hk₂.interest clifd).trans (h.not_registered hfree)
      refine (registerHttp_safe h₂ hl ht (le_of_eq_of_le hk₂.low hlow) (hk₂.fds _ _ hi₁) hf₂ hvia
        hnew).mono ?_
      rintro u w₃ ⟨h₃, hg₃⟩
      exact ⟨h₃, hk₂.grown.trans hg₃⟩
  · exact safe_pure.mpr ⟨h₁, fun _ _ h => h⟩

theorem eventAcceptHttp_safe (h : Inv lisInfs epollFd none w) {l : LisInf} (hl : l ∈ lisInfs)
    (ht : l.type = .http ∨ l.type = .httpProxy) :
    Safe (eventAcceptHttp l.type l.fd epollFd (some ())) w fun _ w' =>
      Inv lisInfs epollFd none w' ∧ Grown w w' := by
  refine Safe.loop (fun _ w' => Inv lisInfs epollFd none w' ∧ Grown w w') ?_ ⟨h, Grown.refl w⟩
  rintro u w₁ ⟨h₁, hg₁⟩
  refine (acceptHttpTurn_safe h₁ hl ht).mono ?_
  rintro (u | u) w₂ ⟨h₂, hg₂⟩ <;> exact ⟨h₂, hg₁.trans hg₂⟩

/-- With no TLS client pending the first `accept` fails. -/
theorem eventAcceptHttps_safe (h : Inv lisInfs epollFd none w) {l : LisInf} (hl : l ∈ lisInfs)
    (ht : l.type = .https ∨ l.type = .httpsProxy) :
    Safe (eventAcceptHttps l.type l.fd epollFd) w fun _ w' =>
      Inv lisInfs epollFd none w' ∧ Grown w w' := by
  rw [eventAcceptHttps, sslNew, safe_call_bind, newReqT, safe_call_bind]
  refine Safe.loop (fun _ w' => Inv lisInfs epollFd none w' ∧ Grown w w') ?_
    ⟨h.newSsl.newReq, fun _ _ h => h⟩
  rintro retryTimes w₁ ⟨h₁, hg₁⟩
  rw [acceptTurn, safe_call_bind]
  rcases accept_cases l.fd w₁ with ⟨e, q, hq, he⟩ | ⟨hint, ans, q, hq, -⟩
  · rw [he]
    exact safe_pure.mpr ⟨h₁.popBacklog hq, hg₁⟩
  · obtain ⟨e, he⟩ := h₁.plain l hl ht (.ok (hint, ans)) (by rw [hq]; exact List.mem_cons_self)
    cases he

theorem handleAccept_safe (h : Inv lisInfs epollFd none w) {l : LisInf} (hl : l ∈ lisInfs) :
    Safe (handleAccept l epollFd (some ())) w fun _ w' =>
      Inv lisInfs epollFd none w' ∧ Grown w w' := by
  rw [handleAccept]
  rcases ht : l.type
  · have ha := eventAcceptHttp_safe h hl (.inl ht)
    rwa [ht] at ha
  · have ha := eventAcceptHttps_safe h hl (.inl ht)
    rwa [ht] at ha
  · have ha := eventAcceptHttp_safe h hl (.inr ht)
    rwa [ht] at ha
  · have ha := eventAcceptHttps_safe h hl (.inr ht)
    rwa [ht] at ha
  · exact safe_pure.mpr ⟨h, Grown.refl w⟩

/-! ### Events -/

theorem handleRead_safe (h : Inv lisInfs epollFd none w) (hc : Conn lisInfs epollFd w fd p r) :
    Safe (handleRead p) w fun _ w' => Inv lisInfs epollFd none w' ∧ Frame p w w' := by
  rw [handleRead, safe_reqAt_bind hc.req, hc.client.fd_eq, hc.client.efd]
  obtain ⟨i, f, -, -, l, -, -, htype, hl⟩ := hc.client.file
  rcases hl with hl | hl
  · rw [← htype, hl]
    exact eventHttpRead_safe h hc
  · have ht : r.type = .httpProxy := htype ▸ hl
    rw [ht]
    exact eventHttpReverse_safe h hc (by rw [ht]; exact LisType.noConfusion)

theorem handleWrite_safe (h : Inv lisInfs epollFd none w) (hc : Conn lisInfs epollFd w fd p r) :
    Safe (handleWrite p) w fun _ w' => Inv lisInfs epollFd none w' ∧ Frame p w w' := by
  rw [handleWrite, safe_reqAt_bind hc.req, hc.client.fd_eq]
  obtain ⟨i, f, -, -, l, -, -, htype, hl⟩ := hc.client.file
  rcases hl with hl | hl
  · rw [← htype, hl]
    refine Safe.bind ((eventHttpWrite_safe h hc).mono ?_)
    rintro u w₁ ⟨h₁, hk₁⟩
    refine (handleClose_safe h₁ (.inr rfl) (hc.kept hk₁)).mono ?_
    rintro v w₂ ⟨h₂, hf₂⟩
    exact ⟨h₂, hf₂.of_kept hk₁⟩
  · rw [← htype, hl]
    exact safe_pure.mpr ⟨h, (Kept.refl w).frame⟩

/-- An event on a registered descriptor. -/
theorem serverEvent_safe {ev reg : EpollEvent} (h : Inv lisInfs epollFd none w)
    (hreg : w.interest.get fd = some reg) (hptr : reg.ptr = ev.ptr) :
    Safe (serverEvent lisInfs epollFd (some ()) ev) w fun _ w' =>
      Inv lisInfs epollFd none w' ∧ Frame ev.ptr w w' := by
  obtain ⟨-, r, hr, hs⟩ := h.registered fd reg hreg
  rw [hptr] at hr
  rw [serverEvent, safe_reqAt_bind hr]
  rcases hs with hs | hc
  · -- the index of a listener
    obtain ⟨l, hl, rfl⟩ := hs
    have hlt := (List.getElem?_eq_some_iff.mp hl).1
    rw [if_pos (Nat.le_of_lt hlt), hl, safe_deref_bind]
    refine (handleAccept_safe h (List.mem_of_getElem? hl)).mono ?_
    rintro u w₁ ⟨h₁, hg₁⟩
    exact ⟨h₁, fun a e ha _ => hg₁ a e ha⟩
  · have hconn : Conn lisInfs epollFd w fd ev.ptr r := ⟨⟨reg, hreg, hptr⟩, hr, hc⟩
    rw [if_neg (Nat.not_le_of_lt (h.lt_fd hc))]
    split
    · exact handleRead_safe h hconn
    split
    · exact handleWrite_safe h hconn
    split
    · exact handleClose_safe h (.inl rfl) hconn
    · exact safe_pure.mpr ⟨h, (Kept.refl w).frame⟩

end DmfServer
