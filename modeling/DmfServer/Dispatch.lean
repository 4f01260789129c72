/-
DmfServer/Dispatch.lean

How `server_make` tells listeners from clients.

The `req_t` of a listener holds its index in `lis_infs`, that of a client its
descriptor, in one field `fd`, and the event loop takes what is not above
`lis_num` for an index.  So no client may ever get a descriptor up to
`lis_num`.

None does when the kernel gives out the lowest free descriptor.  The standard
streams, the listeners and the epoll set then fill the descriptors below some
`lim`, which is above `lis_num` (`Creates.full`), and no handler ever closes one
of these: what is accepted or opened later was free, hence not below `lim`,
and only such descriptors are closed (`Fence`).  On the way it is shown that an
object that is registered is there, and is that of a listener exactly for a
listener's descriptor.
-/
import DmfServer.Steady

namespace DmfServer

open Imperative Imperative.Prog Strings World

variable {lisInfs : List LisInf} {epollFd fd lim : Fd} {w w' w₀ : World} {p : Addr} {r : ReqT}
variable {sd : Option Unit}

/-! ### Descriptors -/

/-- Every descriptor below `lim` is open. -/
def Full (lim : Fd) (w : World) : Prop := ∀ a < lim, ∃ i, w.fds.get a = some i

/-- `fd` is the lowest free descriptor. -/
structure LowestFree (w : World) (fd : Fd) : Prop where
  free : w.fds.get fd = none
  full : Full fd w

theorem Full.le_of_free (h : Full lim w) (hfree : w.fds.get fd = none) : lim ≤ fd := by
  by_contra hlt
  obtain ⟨i, hi⟩ := h fd (Nat.lt_of_not_le hlt)
  rw [hfree] at hi
  cases hi

theorem Full.le_pick (h : Full lim w) {hint : Fd} : lim ≤ w.fds.pick w.low hint :=
  h.le_of_free Table.get_pick

/-! ### The listeners -/

/-- `create_socket`; `none` is -1.  What `bind`, `listen` and `setsockopt` answer
is only printed. -/
def createSocket : Prog World (Option Fd) := do
  match ← call socket with
  | .error _ => pure none
  | .ok serfd => do
      let _ ← setNonBlocking serfd
      pure (some serfd)

/-- `main`, for an array of any length: a socket is created for every entry,
and the kernel gives out the lowest free descriptor each time. -/
inductive Creates : World → List LisInf → World → Prop
  | nil {w : World} : Creates w [] w
  | cons {w w' w'' : World} {fd : Fd} {type : LisType} {lisInfs : List LisInf}
      (hs : Returns createSocket w (some fd) w') (hlow : LowestFree w fd)
      (hr : Creates w' lisInfs w'') : Creates w (⟨fd, type⟩ :: lisInfs) w''

/-- What was open stays open. -/
def Grows (w w' : World) : Prop := ∀ a i, w.fds.get a = some i → w'.fds.get a = some i

instance : Steady (Grows w) where
  grow _ _ _ _ hf h := fun a i ha => hf a i (h a i ha)

theorem Full.grows (h : Full lim w) (hg : Grows w w') : Full lim w' := by
  intro a ha
  obtain ⟨i, hi⟩ := h a ha
  exact ⟨i, hg a i hi⟩

theorem Grows.refl (w : World) : Grows w w := fun _ _ ha => ha

theorem createSocket_partially : Partially createSocket w fun s w' => Grows w w' ∧
    ∀ serfd, s = some serfd → ∃ i, w'.fds.get serfd = some i := by
  rw [createSocket, partially_call_bind]
  rcases socket_cases w with ⟨e, q, he⟩ | ⟨hint, ans, q, he⟩
  · rw [he]
    exact partially_pure.mpr ⟨fun _ _ ha => ha, nofun⟩
  · rw [he]
    set w₁ := (w.openFile (w.fds.pick w.low hint) (ans.file none)).setSockets q with hw₁
    have hgrow : Grows w w₁ := fun _ _ ha => get_openFile (ans.file none) Table.get_pick ha
    refine Preserves.partially_bind (Grows w₁) (Grows.refl w₁) fun ok w₂ h₂ => ?_
    refine partially_pure.mpr ⟨fun a i ha => h₂ a i (hgrow a i ha), ?_⟩
    intro serfd hs
    obtain rfl := Option.some.inj hs
    exact ⟨_, h₂ _ _ Table.get_set_self⟩

/-- The lowest free descriptor lies above the ones in use, and with it one
more is. -/
theorem Full.createSocket (h : Full lim w) (hlow : LowestFree w fd)
    (hs : Returns createSocket w (some fd) w') : lim < fd + 1 ∧ Full (fd + 1) w' := by
  obtain ⟨hgrow, hopen⟩ := createSocket_partially.of_returns hs
  refine ⟨Nat.lt_succ_of_le (h.le_of_free hlow.free), fun a ha => ?_⟩
  rcases Nat.lt_succ_iff_lt_or_eq.mp ha with hlt | rfl
  · exact hlow.full.grows hgrow a hlt
  · exact hopen a rfl

/-- Every listener fills a descriptor. -/
theorem Creates.full (h : Creates w lisInfs w') (hfull : Full lim w) :
    ∃ lim', lim + lisInfs.length ≤ lim' ∧ Full lim' w' ∧ ∀ l ∈ lisInfs, l.fd < lim' := by
  induction h generalizing lim with
  | nil => exact ⟨lim, Nat.le_refl _, hfull, by simp⟩
  | @cons _ _ _ fd type lisInfs hs hlow hr ih =>
      obtain ⟨hlt, hfull₁⟩ := hfull.createSocket hlow hs
      obtain ⟨lim', hle, hfull', hall⟩ := ih hfull₁
      have hle' : fd + 1 ≤ lim' := le_trans (Nat.le_add_right _ _) hle
      refine ⟨lim', le_trans ?_ hle, hfull', List.forall_mem_cons.mpr ⟨hle', hall⟩⟩
      rw [List.length_cons, ← Nat.add_assoc, Nat.add_right_comm]
      exact Nat.add_le_add_right hlt _

/-! ### The fence -/

/-- What is behind a registration of `fd`: the index of a listener on `fd`, or
the object of a client, which is that of no other descriptor if it can be
released. -/
def Behind (lisInfs : List LisInf) (lim : Fd) (fd : Fd) (r : ReqT) : Prop :=
  IsListener lisInfs fd r ∨ lim ≤ fd ∧ lim ≤ r.fd ∧ (r.sd ≠ none → r.fd = fd)

/-- The descriptors below `lim` are open, and what is registered has its
object. -/
structure Fence (lisInfs : List LisInf) (lim : Fd) (w : World) : Prop where
  full : Full lim w
  registered : ∀ fd ev, w.interest.get fd = some ev →
    ∃ r, w.reqs.get ev.ptr = some r ∧ Behind lisInfs lim fd r

/-- The objects of `w₀` are still there. -/
def Objects (w₀ w : World) : Prop := ∀ q r, w₀.reqs.get q = some r → w.reqs.get q = some r

/-- Both. -/
def Fenced (lisInfs : List LisInf) (lim : Fd) (w₀ w : World) : Prop :=
  Fence lisInfs lim w ∧ Objects w₀ w

theorem Objects.refl (w : World) : Objects w w := fun _ _ h => h

instance : Steady (Fenced lisInfs lim w₀) where
  grow w w' hr hi hf h := by
    obtain ⟨⟨hfull, hreg⟩, hobj⟩ := h
    refine ⟨⟨hfull.grows hf, ?_⟩, ?_⟩
    · rw [hi, hr]
      exact hreg
    · rw [Objects, hr]
      exact hobj

section updates

variable {ev : EpollEvent} {events : EpollEvents}

theorem Fenced.closeFd (h : Fenced lisInfs lim w₀ w) (hfd : lim ≤ fd) :
    Fenced lisInfs lim w₀ (w.closeFd fd) := by
  obtain ⟨⟨hfull, hreg⟩, hobj⟩ := h
  refine ⟨⟨fun a ha => ?_, fun a ev hev => ?_⟩, hobj⟩
  · obtain ⟨i, hi⟩ := hfull a ha
    have hne : a ≠ fd := ne_of_lt (lt_of_lt_of_le ha hfd)
    exact ⟨i, (Table.get_erase_of_ne hne).trans hi⟩
  · exact hreg a ev (Table.get_erase_eq_some.mp hev).2

theorem preserves_close (hfd : lim ≤ fd) :
    Preserves (Fenced lisInfs lim w₀) (call (World.close fd)) := by
  refine .call fun w h => ?_
  rw [close_snd]
  exact h.closeFd hfd

/-- `epoll_ctl`: what is registered must have its object. -/
theorem Fenced.epollCtl (h : Fenced lisInfs lim w₀ w) (efd : Fd) {op : EpollOp}
    (hop : ∀ ev, op = .add ev ∨ op = .mod ev →
      ∃ r, w.reqs.get ev.ptr = some r ∧ Behind lisInfs lim fd r) :
    Fenced lisInfs lim w₀ (World.epollCtl efd op fd w).2 := by
  have hr : (ctlCall fd w).2.reqs = w.reqs := onFile_reqs
  have h₁ : Fenced lisInfs lim w₀ (ctlCall fd w).2 :=
    Steady.same w _ onFile_reqs onFile_interest onFile_fds h
  obtain ⟨⟨hfull, hreg⟩, hobj⟩ := h₁
  rcases epollCtl_cases efd op fd w with ⟨e, he⟩ | ⟨ev, hev, he⟩ | ⟨-, he⟩
  · rw [he]
    exact ⟨⟨hfull, hreg⟩, hobj⟩
  · rw [he]
    refine ⟨⟨hfull, fun a ev' ha => ?_⟩, hobj⟩
    rcases Table.get_set_eq_some.mp ha with ⟨rfl, rfl⟩ | ⟨-, ha⟩
    · rw [register_reqs, hr]
      exact hop ev (hev.imp And.left And.left)
    · exact hreg a ev' ha
  · rw [he]
    exact ⟨⟨hfull, fun a ev' ha => hreg a ev' (Table.get_erase_eq_some.mp ha).2⟩, hobj⟩

theorem Objects.newReq (h : Objects w₀ w) (r : ReqT) : Objects w₀ (w.newReq r) := fun q r' hq =>
  (Table.get_push_of_ne (ne_of_lt (Table.lt_bound (h q r' hq)))).trans (h q r' hq)

theorem Fenced.newReq (h : Fenced lisInfs lim w₀ w) (r : ReqT) :
    Fenced lisInfs lim w₀ (w.newReq r) := by
  obtain ⟨⟨hfull, hreg⟩, hobj⟩ := h
  refine ⟨⟨hfull, fun a ev hev => ?_⟩, hobj.newReq r⟩
  obtain ⟨r', hr', hb⟩ := hreg a ev hev
  exact ⟨r', (Table.get_push_of_ne (ne_of_lt (Table.lt_bound hr'))).trans hr', hb⟩

end updates

/-! ### Closing -/

/-- Nothing is registered with the object `p`. -/
def Closing (lisInfs : List LisInf) (lim : Fd) (p : Addr) (w₀ w : World) : Prop :=
  Fenced lisInfs lim w₀ w ∧ ∀ fd ev, w.interest.get fd = some ev → ev.ptr ≠ p

instance : Steady (Closing lisInfs lim p w₀) where
  grow w w' hr hi hf h := by
    refine ⟨Steady.grow w w' hr hi hf h.1, ?_⟩
    rw [hi]
    exact h.2

/-- Its object can be released. -/
theorem Closing.freeReq (h : Closing lisInfs lim p w₀ w) :
    Fenced lisInfs lim (w₀.freeReq p) (w.freeReq p) := by
  obtain ⟨⟨⟨hfull, hreg⟩, hobj⟩, hno⟩ := h
  refine ⟨⟨hfull, fun fd ev hev => ?_⟩, fun q r hq => ?_⟩
  · obtain ⟨r, hr, hb⟩ := hreg fd ev hev
    exact ⟨r, (Table.get_erase_of_ne (hno fd ev hev)).trans hr, hb⟩
  · obtain ⟨hne, hq⟩ := Table.get_erase_eq_some.mp hq
    exact (Table.get_erase_of_ne hne).trans (hobj q r hq)

/-- After the handler for the client `p` has returned, its object may be gone,
if it was one that counts. -/
def Handled (lisInfs : List LisInf) (lim : Fd) (p : Addr) (r : ReqT) (w₀ w : World) : Prop :=
  Fenced lisInfs lim w₀ w ∨ r.sd ≠ none ∧ Fenced lisInfs lim (w₀.freeReq p) w

/-- `handle_close` of a client: if it returns, the client counts, and its object
is registered for nothing else. -/
theorem Fenced.handleClose (h : Fenced lisInfs lim w₀ w) (hp : w₀.reqs.get p = some r)
    (hr : lim ≤ r.fd) (hn : lisInfs.length < lim) :
    Partially (handleClose p) w fun _ w' => Handled lisInfs lim p r w₀ w' := by
  have hp' : w.reqs.get p = some r := h.2 p r hp
  rw [DmfServer.handleClose, partially_congr (reqAt_bind_run hp'), partially_call_bind,
    partially_call_bind, close_snd]
  have h₁ : Fenced lisInfs lim w₀ (World.epollCtl r.efd .del r.fd w).2 :=
    h.epollCtl r.efd (by rintro ev (hop | hop) <;> cases hop)
  have hp₁ : (World.epollCtl r.efd .del r.fd w).2.reqs.get p = some r := h₁.2 p r hp
  set w₁ := (World.epollCtl r.efd .del r.fd w).2 with hw₁
  rcases hsd : r.sd with - | u
  · -- no counters: a fault
    refine Partially.bind fun _ _ _ hn => ?_
    cases hn
  have hclosing : Closing lisInfs lim p w₀ (w₁.closeFd r.fd) := by
    refine ⟨h₁.closeFd hr, fun fd ev hev hptr => ?_⟩
    obtain ⟨hne, hev⟩ := Table.get_erase_eq_some.mp hev
    obtain ⟨r', hr', hb⟩ := h₁.1.registered fd ev hev
    rw [hptr, hp₁] at hr'
    obtain rfl := Option.some.inj hr'
    rcases hb with hb | ⟨-, -, hfd⟩
    · exact absurd hb.lt (Nat.not_lt_of_le (le_trans (Nat.le_of_lt hn) hr))
    · exact hne (hfd (by rw [hsd]; exact Option.some_ne_none u)).symm
  refine Preserves.partially_bind (Closing lisInfs lim p w₀) hclosing fun _ w₂ h₂ => ?_
  refine Preserves.partially_bind (Closing lisInfs lim p w₀) h₂ fun _ w₃ h₃ => ?_
  refine Preserves.partially_bind (Closing lisInfs lim p w₀) h₃ fun _ w₄ h₄ => ?_
  refine Preserves.partially_bind (Closing lisInfs lim p w₀) h₄ fun _ w₅ h₅ => ?_
  exact partially_store.mpr (.inr ⟨by rw [hsd]; exact Option.some_ne_none u, h₅.freeReq⟩)

/-! ### The handlers of clients -/

section clients

variable (hp : w₀.reqs.get p = some r) (hr : lim ≤ r.fd) (hn : lisInfs.length < lim)

include hp hr hn

theorem Fenced.eventHttpRead (h : Fenced lisInfs lim w₀ w) :
    Partially (eventHttpRead p r.fd epollFd) w fun _ w' => Handled lisInfs lim p r w₀ w' := by
  rw [DmfServer.eventHttpRead]
  refine Preserves.partially_bind (Fenced lisInfs lim w₀) h ?_
  rintro ⟨outcome, buf⟩ w₁ h₁
  rcases outcome with - | - | e
  · show Partially (reqAt p >>= _) w₁ _
    rw [partially_congr (reqAt_bind_run (h₁.2 p r hp))]
    refine Preserves.partially_bind (Fenced lisInfs lim w₀) h₁ fun _ w₂ h₂ => ?_
    rw [partially_call_bind]
    refine partially_pure.mpr (.inl (h₂.epollCtl epollFd ?_))
    rintro ev (hop | hop)
    · cases hop
    · cases hop
      exact ⟨r, h₂.2 p r hp, .inr ⟨hr, hr, fun _ => rfl⟩⟩
  · exact h₁.handleClose hp hr hn
  · show Partially (if e = .econnreset then _ else _) w₁ _
    split
    · rw [partially_congr (reqAt_bind_run (h₁.2 p r hp))]
      refine Preserves.partially_bind (Fenced lisInfs lim w₀) h₁ fun _ w₂ h₂ => ?_
      exact h₂.handleClose hp hr hn
    · exact partially_pure.mpr (.inl h₁)

theorem Fenced.handleWrite (h : Fenced lisInfs lim w₀ w) :
    Partially (handleWrite p) w fun _ w' => Handled lisInfs lim p r w₀ w' := by
  rw [DmfServer.handleWrite, partially_congr (reqAt_bind_run (h.2 p r hp))]
  have hwrite : Preserves (Fenced lisInfs lim w₀) (eventHttpWrite p r.fd) := by
    unfold eventHttpWrite
    refine .seq inferInstance fun req => .seq inferInstance fun res => ?_
    cases res <;> infer_instance
  rcases r.type
  · refine Preserves.partially_bind (Fenced lisInfs lim w₀) h fun _ w₁ h₁ => ?_
    exact h₁.handleClose hp hr hn
  all_goals exact partially_pure.mpr (.inl h)

omit hp hr hn in
/-- The descriptor of the upstream was free. -/
theorem Fenced.clientSocket (h : Fenced lisInfs lim w₀ w) : Partially clientSocket w fun sock w' =>
    Fenced lisInfs lim w₀ w' ∧ ∀ s, sock = some s → lim ≤ s := by
  have hkeep : Fenced lisInfs lim w₀ (World.socket w).2 := by
    refine partially_call.mp (Preserves.keep (p := call World.socket) w h)
  rw [DmfServer.clientSocket, partially_call_bind]
  rcases socket_cases w with ⟨e, q, he⟩ | ⟨hint, ans, q, he⟩
  · rw [he] at hkeep ⊢
    refine partially_pure.mpr ⟨hkeep, ?_⟩
    intro s hs
    cases hs
  · rw [he] at hkeep ⊢
    refine Preserves.partially_bind (Fenced lisInfs lim w₀) hkeep fun ok w₁ h₁ => ?_
    split
    · refine partially_pure.mpr ⟨h₁, ?_⟩
      intro s hs
      rw [← Option.some.inj hs]
      exact h.1.full.le_pick
    · refine partially_pure.mpr ⟨h₁, ?_⟩
      intro s hs
      cases hs

omit hp hr hn in
theorem preserves_exchange (hfd : lim ≤ fd) (buffer : Bytes) (len : Int) :
    Preserves (Fenced lisInfs lim w₀) (exchange fd buffer len) := by
  have hclose : Preserves (Fenced lisInfs lim w₀) (call (World.close fd)) := preserves_close hfd
  unfold exchange
  infer_instance

theorem Fenced.eventHttpReverse (h : Fenced lisInfs lim w₀ w) :
    Partially (eventHttpReverse p r.fd) w fun _ w' => Handled lisInfs lim p r w₀ w' := by
  rw [DmfServer.eventHttpReverse]
  refine Preserves.partially_bind (Fenced lisInfs lim w₀) h ?_
  rintro ⟨outcome, buf⟩ w₁ h₁
  rcases outcome with - | - | e
  · refine Partially.bind (h₁.clientSocket.mono ?_)
    rintro (- | s) w₂ ⟨h₂, hs⟩
    · exact partially_pure.mpr (.inl h₂)
    · have hexchange : ∀ buffer len, Preserves (Fenced lisInfs lim w₀) (exchange s buffer len) :=
        preserves_exchange (hs s rfl)
      refine Preserves.partially_bind (Fenced lisInfs lim w₀) h₂ ?_
      rintro ⟨recvLen, answer⟩ w₃ h₃
      refine Preserves.partially_bind (Fenced lisInfs lim w₀) h₃ ?_
      rintro (- | e) w₄ h₄
      · exact h₄.handleClose hp hr hn
      · exact partially_pure.mpr (.inl h₄)
  · exact h₁.handleClose hp hr hn
  · exact partially_pure.mpr (.inl h₁)

omit hr hn in
theorem Fenced.eventHttpsReverse (h : Fenced lisInfs lim w₀ w) :
    Partially (eventHttpsReverse p) w fun _ w' => Fenced lisInfs lim w₀ w' := by
  rw [DmfServer.eventHttpsReverse, partially_congr (reqAt_bind_run (h.2 p r hp))]
  refine Preserves.partially_bind (Fenced lisInfs lim w₀) h ?_
  rintro ⟨totalRead, buffer⟩ w₁ h₁
  refine Partially.bind (h₁.clientSocket.mono ?_)
  rintro (- | s) w₂ ⟨h₂, hs⟩
  · exact partially_pure.mpr h₂
  · have hexchange : ∀ buffer len, Preserves (Fenced lisInfs lim w₀) (exchange s buffer len) :=
      preserves_exchange (hs s rfl)
    refine Preserves.partially_bind (Fenced lisInfs lim w₀) h₂ ?_
    rintro ⟨recvLen, answer⟩ w₃ h₃
    refine Preserves.partially_bind (Fenced lisInfs lim w₀) h₃ fun _ w₄ h₄ => ?_
    exact partially_pure.mpr h₄

theorem Fenced.handleRead (h : Fenced lisInfs lim w₀ w) :
    Partially (handleRead p) w fun _ w' => Handled lisInfs lim p r w₀ w' := by
  rw [DmfServer.handleRead, partially_congr (reqAt_bind_run (h.2 p r hp))]
  have htls : Preserves (Fenced lisInfs lim w₀) (handleHttpsReadWrite p) := by
    unfold handleHttpsReadWrite
    infer_instance
  rcases r.type
  · exact h.eventHttpRead hp hr hn
  · exact (htls.keep w h).mono fun _ _ h' => .inl h'
  · exact h.eventHttpReverse hp hr hn
  · exact (h.eventHttpsReverse hp).mono fun _ _ h' => .inl h'
  · exact partially_pure.mpr (.inl h)

end clients

/-! ### Accepting -/

/-- What is accepted was free. -/
theorem acceptTurn_partially {β : Type} {register : Fd → Prog World (β ⊕ Unit)}
    {I : World → Prop} [Steady I] {serfd : Fd} (hfull : ∀ w, I w → Full lim w)
    (hreg : ∀ clifd, lim ≤ clifd → Preserves I (register clifd)) :
    Preserves I (acceptTurn serfd register) where
  keep w h := by
    have hkeep : I (World.accept serfd w).2 :=
      partially_call.mp (Preserves.keep (p := call (World.accept serfd)) w h)
    rw [acceptTurn, partially_call_bind]
    rcases accept_cases serfd w with ⟨e, q, -, he⟩ | ⟨hint, ans, q, -, he⟩
    · rw [he] at hkeep ⊢
      exact partially_pure.mpr hkeep
    · rw [he] at hkeep ⊢
      have hpick : lim ≤ w.fds.pick w.low hint := (hfull w h).le_pick
      have hregister := hreg _ hpick
      have hrest : Preserves I (if 0 < w.fds.pick w.low hint then do
            if ← setNonBlocking (w.fds.pick w.low hint) then register (w.fds.pick w.low hint)
            else pure (Sum.inr ())
          else pure (Sum.inr ())) := inferInstance
      exact hrest.keep _ hkeep

theorem Objects.trans {w'' : World} (h : Objects w w') (h' : Objects w' w'') : Objects w w'' :=
  fun q r hq => h' q r (h q r hq)

theorem preserves_registerHttp (type : LisType) (hfd : lim ≤ fd) :
    Preserves (Fenced lisInfs lim w₀) (registerHttp type epollFd sd fd) where
  keep w h := by
    rw [registerHttp, newReqT, partially_call_bind]
    set r : ReqT := ⟨fd, epollFd, type, none, none, sd⟩ with hr
    have h₁ := h.newReq r
    set w₁ := w.newReq r with hw₁
    have hreq : w₁.reqs.get w.reqs.bound = some r := Table.get_push_self
    refine Preserves.partially_bind (Fenced lisInfs lim w₁) ⟨h₁.1, Objects.refl w₁⟩ ?_
    intro u w₂ h₂
    have h₃ : Fenced lisInfs lim w₁
        (World.epollCtl epollFd (.add ⟨inEdge, w.reqs.bound⟩) fd w₂).2 := by
      apply h₂.epollCtl
      rintro ev (hop | hop)
      · cases hop
        exact ⟨r, h₂.2 _ r hreq, .inr ⟨hfd, hfd, fun _ => rfl⟩⟩
      · cases hop
    rw [partially_call_bind]
    generalize World.epollCtl epollFd (.add ⟨inEdge, w.reqs.bound⟩) fd w₂ = res at h₃ ⊢
    obtain ⟨e | u, w₃⟩ := res
    · show Partially (call (close fd) >>= _) w₃ _
      rw [partially_call_bind, close_snd]
      have h₄ := h₃.closeFd hfd
      exact partially_pure.mpr ⟨h₄.1, h₁.2.trans h₄.2⟩
    · exact partially_pure.mpr ⟨h₃.1, h₁.2.trans h₃.2⟩

/-- `event_accept_https` works with the object `a`, which is of its own and is
registered for clients only. -/
structure Lending (lisInfs : List LisInf) (lim : Fd) (a : Addr) (w₀ w : World) : Prop where
  fenced : Fenced lisInfs lim w₀ w
  fresh : w₀.reqs.get a = none
  req : ∃ r, w.reqs.get a = some r ∧ r.sd = none
  clients : ∀ fd ev, w.interest.get fd = some ev → ev.ptr = a → lim ≤ fd

instance {a : Addr} : Steady (Lending lisInfs lim a w₀) where
  grow w w' hr hi hf h := by
    refine ⟨Steady.grow w w' hr hi hf h.fenced, h.fresh, ?_, ?_⟩
    · rw [hr]
      exact h.req
    · rw [hi]
      exact h.clients

theorem Fenced.newSsl (h : Fenced lisInfs lim w₀ w) (ssl : Ssl) :
    Fenced lisInfs lim w₀ (w.newSsl ssl) := Steady.same w _ rfl rfl rfl h

/-- A new object is registered for nobody. -/
theorem Fenced.lending (h : Fenced lisInfs lim w₀ w) (r : ReqT) (hsd : r.sd = none) :
    Lending lisInfs lim w.reqs.bound w₀ (w.newReq r) := by
  refine ⟨h.newReq r, ?_, ⟨r, Table.get_push_self, hsd⟩, fun fd ev hev hptr => ?_⟩
  · rcases hq : w₀.reqs.get w.reqs.bound with - | r'
    · rfl
    · have hbound := h.2 _ r' hq
      rw [Table.get_bound] at hbound
      cases hbound
  · obtain ⟨r', hr', -⟩ := h.1.registered fd ev hev
    rw [hptr, Table.get_bound] at hr'
    cases hr'

/-- The object is handed to the next client. -/
theorem Lending.setReq {a : Addr} (h : Lending lisInfs lim a w₀ w) (hfd : lim ≤ fd)
    (hr : w.reqs.get a = some r) : Lending lisInfs lim a w₀ (w.setReq a { r with fd := fd }) := by
  obtain ⟨⟨⟨hfull, hreg⟩, hobj⟩, hfresh, ⟨r', hr', hsd⟩, hclients⟩ := h
  obtain rfl : r = r' := Option.some.inj (hr.symm.trans hr')
  refine ⟨⟨⟨hfull, fun a' ev hev => ?_⟩, fun q r' hq => ?_⟩, hfresh,
    ⟨_, Table.get_set_self, hsd⟩, hclients⟩
  · rcases eq_or_ne ev.ptr a with hptr | hptr
    · refine ⟨{ r with fd := fd }, by rw [hptr]; exact Table.get_set_self, .inr ?_⟩
      exact ⟨hclients a' ev hev hptr, hfd, fun hno => absurd hsd hno⟩
    · obtain ⟨r', hr', hb⟩ := hreg a' ev hev
      exact ⟨r', (Table.get_set_of_ne hptr).trans hr', hb⟩
  · have hne : q ≠ a := by
      rintro rfl
      rw [hfresh] at hq
      cases hq
    exact (Table.get_set_of_ne hne).trans (hobj q r' hq)

theorem Lending.closeFd {a : Addr} (h : Lending lisInfs lim a w₀ w) (hfd : lim ≤ fd) :
    Lending lisInfs lim a w₀ (w.closeFd fd) :=
  ⟨h.fenced.closeFd hfd, h.fresh, h.req, fun a' ev hev =>
    h.clients a' ev (Table.get_erase_eq_some.mp hev).2⟩

theorem Lending.epollAdd {a : Addr} (h : Lending lisInfs lim a w₀ w) (hfd : lim ≤ fd)
    (hr : w.reqs.get a = some r) (hrfd : lim ≤ r.fd) :
    Lending lisInfs lim a w₀ (World.epollCtl epollFd (.add ⟨inEdge, a⟩) fd w).2 := by
  have hsd : r.sd = none := by
    obtain ⟨r', hr', hsd⟩ := h.req
    rw [Option.some.inj (hr.symm.trans hr')]
    exact hsd
  have hfenced : Fenced lisInfs lim w₀ (World.epollCtl epollFd (.add ⟨inEdge, a⟩) fd w).2 := by
    refine h.fenced.epollCtl epollFd ?_
    rintro ev (hop | hop)
    · cases hop
      exact ⟨r, hr, .inr ⟨hfd, hrfd, fun hno => absurd hsd hno⟩⟩
    · cases hop
  have hreqs : (ctlCall fd w).2.reqs = w.reqs := onFile_reqs
  have hint : (ctlCall fd w).2.interest = w.interest := onFile_interest
  rcases epollCtl_cases epollFd (.add ⟨inEdge, a⟩) fd w with ⟨e, he⟩ | ⟨ev, hev, he⟩ | ⟨hop, -⟩
  · rw [he] at hfenced ⊢
    refine ⟨hfenced, h.fresh, ?_, ?_⟩
    · rw [hreqs]
      exact h.req
    · rw [hint]
      exact h.clients
  · rw [he] at hfenced ⊢
    refine ⟨hfenced, h.fresh, ?_, ?_⟩
    · rw [register_reqs, hreqs]
      exact h.req
    · intro a' ev' ha hptr
      rcases Table.get_set_eq_some.mp ha with ⟨rfl, -⟩ | ⟨-, ha⟩
      · exact hfd
      · rw [hint] at ha
        exact h.clients a' ev' ha hptr
  · cases hop

theorem preserves_registerHttps {a : Addr} (retryTimes : Nat) (hfd : lim ≤ fd) :
    Preserves (Lending lisInfs lim a w₀) (registerHttps epollFd a retryTimes fd) := by
  have hclose : Preserves (Lending lisInfs lim a w₀) (call (World.close fd)) := by
    refine .call fun w h => ?_
    rw [close_snd]
    exact h.closeFd hfd
  refine preserves_registerHttps_of hclose fun k => ⟨fun w h => ?_⟩
  obtain ⟨r, hr, -⟩ := h.req
  rw [partially_congr (reqAt_bind_run hr), partially_store_bind, partially_call_bind]
  exact partially_pure.mpr ((h.setReq hfd hr).epollAdd hfd Table.get_set_self hfd)

theorem Fenced.handleAccept (lisInf : LisInf) (h : Fenced lisInfs lim w₀ w) :
    Partially (handleAccept lisInf epollFd sd) w fun _ w' => Fenced lisInfs lim w₀ w' := by
  have hhttp : ∀ type, Partially (eventAcceptHttp type lisInf.fd epollFd sd) w
      fun _ w' => Fenced lisInfs lim w₀ w' := by
    intro type
    have hturn : Preserves (Fenced lisInfs lim w₀)
        (acceptTurn lisInf.fd (registerHttp type epollFd sd)) :=
      acceptTurn_partially (fun _ h => h.1.full) fun _ hfd => preserves_registerHttp type hfd
    exact Preserves.keep (p := loop _ ()) w h
  have hhttps : ∀ type, Partially (eventAcceptHttps type lisInf.fd epollFd) w
      fun _ w' => Fenced lisInfs lim w₀ w' := by
    intro type
    rw [eventAcceptHttps, sslNew, partially_call_bind, newReqT, partially_call_bind]
    have hturn : ∀ retryTimes, Preserves (Lending lisInfs lim w.reqs.bound w₀)
        (acceptTurn lisInf.fd (registerHttps epollFd w.reqs.bound retryTimes)) :=
      fun retryTimes => acceptTurn_partially (fun _ h => h.fenced.1.full)
        fun _ hfd => preserves_registerHttps retryTimes hfd
    have hlend := (h.newSsl ⟨none, false⟩).lending ⟨0, 0, type, none, some w.ssls.bound, none⟩ rfl
    have hloop : Preserves (Lending lisInfs lim w.reqs.bound w₀) (loop (fun retryTimes =>
        acceptTurn lisInf.fd (registerHttps epollFd w.reqs.bound retryTimes)) 0) := inferInstance
    exact Partially.mono (hloop.keep _ hlend) fun _ _ h' => h'.fenced
  rw [DmfServer.handleAccept]
  rcases lisInf.type
  · exact hhttp _
  · exact hhttps _
  · exact hhttp _
  · exact hhttps _
  · exact partially_pure.mpr h

/-! ### The event loop -/

/-- An event for a listener or for a client. -/
theorem serverEvent_partially (hn : lisInfs.length < lim) {ev : EpollEvent}
    (h : Fence lisInfs lim w) (hr : w.reqs.get ev.ptr = some r) (hb : Behind lisInfs lim fd r) :
    Partially (serverEvent lisInfs epollFd sd ev) w fun _ w' =>
      Fenced lisInfs lim w w' ∨
        r.sd ≠ none ∧ lim ≤ r.fd ∧ Fenced lisInfs lim (w.freeReq ev.ptr) w' := by
  have hself : Fenced lisInfs lim w w := ⟨h, Objects.refl w⟩
  rw [serverEvent, partially_congr (reqAt_bind_run hr)]
  rcases hb with hl | ⟨-, hlim, -⟩
  · have hlt := hl.lt
    obtain ⟨l, hl, -⟩ := hl
    rw [if_pos (Nat.le_of_lt hlt), hl]
    exact (hself.handleAccept l).mono fun _ _ h' => .inl h'
  · have hserved : ∀ w', Handled lisInfs lim ev.ptr r w w' → Fenced lisInfs lim w w' ∨
        r.sd ≠ none ∧ lim ≤ r.fd ∧ Fenced lisInfs lim (w.freeReq ev.ptr) w' :=
      fun w' h' => h'.imp_right fun hw' => ⟨hw'.1, hlim, hw'.2⟩
    rw [if_neg (Nat.not_le_of_lt (lt_of_lt_of_le hn hlim))]
    split
    · exact (hself.handleRead hr hlim hn).mono fun _ w' => hserved w'
    split
    · exact (hself.handleWrite hr hlim hn).mono fun _ w' => hserved w'
    split
    · exact (hself.handleClose hr hlim hn).mono fun _ w' => hserved w'
    · exact partially_pure.mpr (.inl hself)

/-- The states of the event loop of `server_make`, as in `Worker`: each event
that is still to be handled is kept with the descriptor it was reported for. -/
inductive Polling (lisInfs : List LisInf) (epollFd : Fd) (w₀ : World) :
    World → List (Fd × EpollEvent) → Prop
  | start : Polling lisInfs epollFd w₀ w₀ []
  | wait {w : World} (h : Polling lisInfs epollFd w₀ w []) (evs : List (Fd × EpollEvent))
      (hn : (evs.map Prod.fst).Nodup)
      (hr : ∀ e ∈ evs, ∃ reg, w.interest.get e.1 = some reg ∧ e.2.ptr = reg.ptr) :
      Polling lisInfs epollFd w₀ w evs
  | event {w w' : World} {e : Fd × EpollEvent} {evs : List (Fd × EpollEvent)}
      (h : Polling lisInfs epollFd w₀ w (e :: evs))
      (he : Returns (serverEvent lisInfs epollFd (some ()) e.2) w () w') :
      Polling lisInfs epollFd w₀ w' evs
  | timers {w w' : World} (h : Polling lisInfs epollFd w₀ w []) (now : Int)
      (ht : Returns (zoom timers setTimers (executeTimers idle now)) w () w') :
      Polling lisInfs epollFd w₀ w' []

/-- It is the event loop of a worker. -/
theorem Worker.polling {junk : Nat → ReqT} {hint : Fd} {evs : List EpollEvent}
    (h : Worker junk hint lisInfs w₀ epollFd w evs) :
    ∃ w₁ pending, Returns (serverSetup junk hint lisInfs) w₀ epollFd w₁ ∧
      pending.map Prod.snd = evs ∧ Polling lisInfs epollFd w₁ w pending := by
  induction h with
  | @start w h => exact ⟨w, [], h, rfl, .start⟩
  | wait h fds hn evs hr ih =>
      obtain ⟨w₁, pending, hsetup, hp, hpoll⟩ := ih
      obtain rfl := List.map_eq_nil_iff.mp hp
      refine ⟨w₁, fds.zip evs, hsetup, List.map_snd_zip (Nat.le_of_eq hr.length_eq.symm), ?_⟩
      refine hpoll.wait (fds.zip evs) ?_ ?_
      · rwa [List.map_fst_zip (Nat.le_of_eq hr.length_eq)]
      · rintro ⟨fd, ev⟩ he
        exact List.forall₂_iff_zip.mp hr |>.2 he
  | event h he ih =>
      obtain ⟨w₁, pending, hsetup, hp, hpoll⟩ := ih
      obtain ⟨e, pending, rfl, rfl, rfl⟩ := List.map_eq_cons_iff.mp hp
      exact ⟨w₁, pending, hsetup, rfl, hpoll.event he⟩
  | timers h now ht ih =>
      obtain ⟨w₁, pending, hsetup, hp, hpoll⟩ := ih
      obtain rfl := List.map_eq_nil_iff.mp hp
      exact ⟨w₁, [], hsetup, rfl, hpoll.timers now ht⟩

/-- The events that are still to be handled are of different descriptors, and
have their objects. -/
def Due (lisInfs : List LisInf) (lim : Fd) (w : World) (evs : List (Fd × EpollEvent)) : Prop :=
  (evs.map Prod.fst).Nodup ∧
    ∀ e ∈ evs, ∃ r, w.reqs.get e.2.ptr = some r ∧ Behind lisInfs lim e.1 r

/-- The objects of the other events are still there. -/
theorem Due.next {e : Fd × EpollEvent} {evs : List (Fd × EpollEvent)}
    (hn : lisInfs.length < lim) (h : Due lisInfs lim w (e :: evs))
    (hr : w.reqs.get e.2.ptr = some r) (hb : Behind lisInfs lim e.1 r)
    (hw : Fenced lisInfs lim w w' ∨
      r.sd ≠ none ∧ lim ≤ r.fd ∧ Fenced lisInfs lim (w.freeReq e.2.ptr) w') :
    Fence lisInfs lim w' ∧ Due lisInfs lim w' evs := by
  obtain ⟨hnodup, hall⟩ := h
  rw [List.map_cons, List.nodup_cons] at hnodup
  rcases hw with hw | ⟨hsd, hlim, hw⟩
  · refine ⟨hw.1, hnodup.2, fun e' he' => ?_⟩
    obtain ⟨r', hr', hb'⟩ := hall e' (List.mem_cons_of_mem _ he')
    exact ⟨r', hw.2 _ r' hr', hb'⟩
  · refine ⟨hw.1, hnodup.2, fun e' he' => ?_⟩
    obtain ⟨r', hr', hb'⟩ := hall e' (List.mem_cons_of_mem _ he')
    refine ⟨r', hw.2 _ r' (Table.get_erase_eq_some.mpr ⟨fun hptr => ?_, hr'⟩), hb'⟩
    -- a client that can be released is on one descriptor
    rw [hptr, hr] at hr'
    obtain rfl := Option.some.inj hr'
    have hclient : ∀ {a}, Behind lisInfs lim a r → r.fd = a := by
      rintro a (hl | ⟨-, -, hfd⟩)
      · exact absurd hl.lt (Nat.not_lt_of_le (le_trans (Nat.le_of_lt hn) hlim))
      · exact hfd hsd
    refine hnodup.1 (List.mem_map.mpr ⟨e', he', ?_⟩)
    rw [← hclient hb', hclient hb]

theorem Polling.due {evs : List (Fd × EpollEvent)} (hn : lisInfs.length < lim)
    (h₀ : Fence lisInfs lim w₀) (h : Polling lisInfs epollFd w₀ w evs) :
    Fence lisInfs lim w ∧ Due lisInfs lim w evs := by
  induction h with
  | start => exact ⟨h₀, List.nodup_nil, by simp⟩
  | wait h evs hnodup hr ih =>
      refine ⟨ih.1, hnodup, fun e he => ?_⟩
      obtain ⟨reg, hreg, hptr⟩ := hr e he
      rw [hptr]
      exact ih.1.registered e.1 reg hreg
  | @event w w' e evs h he ih =>
      obtain ⟨hfence, hdue⟩ := ih
      obtain ⟨r, hr, hb⟩ := hdue.2 e List.mem_cons_self
      exact hdue.next hn hr hb ((serverEvent_partially hn hfence hr hb).of_returns he)
  | @timers w w' h now ht ih =>
      have hkeep : Fenced lisInfs lim w w' :=
        (Preserves.keep w ⟨ih.1, Objects.refl w⟩).of_returns ht
      exact ⟨hkeep.1, List.nodup_nil, by simp⟩

/-! ### The start -/

theorem serverListen_partially (junk : Nat → ReqT) (k : Nat) (rest : List LisInf)
    (hrest : lisInfs.drop k = rest) (h : Fence lisInfs lim w) :
    Partially (serverListen junk epollFd k rest) w fun _ w' => Fence lisInfs lim w' := by
  induction rest generalizing k w with
  | nil => exact partially_pure.mpr h
  | cons l rest ih =>
      rw [serverListen, newReqT, partially_call_bind, partially_call_bind]
      have hl : lisInfs[k]? = some l := by
        rw [← List.head?_drop, hrest]
        rfl
      have hdrop : lisInfs.drop (k + 1) = rest := by
        rw [← List.drop_drop, hrest]
        rfl
      refine ih (k + 1) hdrop ?_
      set r : ReqT := { junk k with fd := k, data := none } with hr
      have h₁ : Fenced lisInfs lim w (w.newReq r) := Fenced.newReq ⟨h, Objects.refl w⟩ r
      have hreq : (w.newReq r).reqs.get w.reqs.bound = some r := Table.get_push_self
      refine (h₁.epollCtl epollFd ?_).1
      rintro ev (hop | hop)
      · cases hop
        exact ⟨r, hreq, .inl ⟨l, hl, rfl⟩⟩
      · cases hop

/-- With the epoll set all descriptors up to `lis_num` are in use. -/
theorem serverSetup_fence {junk : Nat → ReqT} {hint : Fd} (h : Full lim w)
    (hlow : LowestFree w epollFd) (hs : Returns (serverSetup junk hint lisInfs) w epollFd w') :
    lim < epollFd + 1 ∧ Fence lisInfs (epollFd + 1) w' := by
  refine ⟨Nat.lt_succ_of_le (h.le_of_free hlow.free), ?_⟩
  have hsafe : Partially (serverSetup junk hint lisInfs) w fun fd w' =>
      LowestFree w fd → Fence lisInfs (fd + 1) w' := by
    rw [serverSetup, partially_call_bind]
    by_cases hfd : LowestFree w (epollCreate hint w).1
    · have hfence : Fence lisInfs ((epollCreate hint w).1 + 1) (epollCreate hint w).2 := by
        refine ⟨fun a ha => ?_, fun _ _ he => ?_⟩
        · rcases Nat.lt_succ_iff_lt_or_eq.mp ha with hlt | rfl
          · obtain ⟨i, hi⟩ := hfd.full a hlt
            exact ⟨i, (Table.get_set_of_ne (ne_of_lt hlt)).trans hi⟩
          · exact ⟨_, Table.get_set_self⟩
        · cases he
      refine Partially.bind ((serverListen_partially junk 0 lisInfs List.drop_zero hfence).mono ?_)
      exact fun _ _ hw => partially_pure.mpr fun _ => hw
    · exact Partially.bind fun _ _ _ _ => partially_pure.mpr fun hno => absurd hno hfd
  exact hsafe.of_returns hs hlow

/-- The test `tempfd <= lis_num` holds for an event exactly if it was reported
for a listener, and then its object holds the index of that listener. -/
def Told (lisInfs : List LisInf) (w : World) (e : Fd × EpollEvent) : Prop :=
  ∃ r, w.reqs.get e.2.ptr = some r ∧
    (r.fd ≤ lisInfs.length ↔ ∃ l ∈ lisInfs, l.fd = e.1) ∧
    (r.fd ≤ lisInfs.length → ∃ l, lisInfs[r.fd]? = some l ∧ l.fd = e.1)

/-- **The dispatch.**  The descriptors 0, 1 and 2 are open, `main` creates the
listeners, `server_make` the epoll set, and each time the kernel gives out
the lowest free descriptor.  Then, in every state of the event loop, the test
tells the events of listeners from those of clients. -/
theorem dispatch_told (junk : Nat → ReqT) (hint : Fd) {w₁ w₂ : World}
    (hstd : ∀ fd < 3, ∃ i, w₀.fds.get fd = some i) (hlis : Creates w₀ lisInfs w₁)
    (hsetup : Returns (serverSetup junk hint lisInfs) w₁ epollFd w₂)
    (hlow : LowestFree w₁ epollFd) {evs : List (Fd × EpollEvent)}
    (hrun : Polling lisInfs epollFd w₂ w evs) : ∀ e ∈ evs, Told lisInfs w e := by
  obtain ⟨lim, hle, hfull, hlisfd⟩ := hlis.full hstd
  obtain ⟨hlt, hfence⟩ := serverSetup_fence hfull hlow hsetup
  have hn : lisInfs.length < epollFd + 1 :=
    lt_of_le_of_lt (le_trans (Nat.le_add_left _ _) hle) hlt
  obtain ⟨-, -, hall⟩ := hrun.due hn hfence
  intro e he
  obtain ⟨r, hr, hb⟩ := hall e he
  refine ⟨r, hr, ?_⟩
  rcases hb with hl | ⟨hfd, hrfd, -⟩
  · obtain ⟨l, hget, hfd⟩ := id hl
    exact ⟨iff_of_true (Nat.le_of_lt hl.lt) ⟨l, List.mem_of_getElem? hget, hfd⟩, fun _ => hl⟩
  · have hgt : ¬ r.fd ≤ lisInfs.length := Nat.not_le_of_lt (lt_of_lt_of_le hn hrfd)
    refine ⟨iff_of_false hgt ?_, fun hle => absurd hle hgt⟩
    rintro ⟨l, hl, heq⟩
    rw [← heq] at hfd
    exact absurd (lt_trans (hlisfd l hl) hlt) (Nat.not_lt_of_le hfd)

/-- A process with its standard streams, where the first socket will be asked
for by the descriptor 3 and one client by 5. -/
def standard : World :=
  { listening [] with
    fds := ((Table.empty.push 0).push 1).push 2
    files := ((Table.empty.push ((Answers.io [] []).file none)).push
      ((Answers.io [] []).file none)).push ((Answers.io [] []).file none)
    low := 0
    interest := Table.empty
    reqs := Table.empty
    backlog := Function.update (fun _ => []) 3 [.ok (5, .io [] [])]
    sockets := [.ok (3, .io [] [])] }

/-- An event for the listener and one for its client. -/
theorem dispatch_told_standard : ∃ w, ∀ e ∈ [((3 : Fd), (⟨inEdge, 0⟩ : EpollEvent)),
    (5, ⟨inEdge, 1⟩)], Told [⟨3, .http⟩] w e := by
  have hopen : ∀ fd < 3, ∃ i, standard.fds.get fd = some i := by
    rintro (_ | _ | _ | fd) hfd
    · exact ⟨0, rfl⟩
    · exact ⟨1, rfl⟩
    · exact ⟨2, rfl⟩
    · exact absurd hfd (by omega)
  have hlis : Creates standard [⟨3, .http⟩] _ :=
    .cons (.of_run 0 fun _ => rfl) ⟨rfl, hopen⟩ .nil
  refine ⟨_, dispatch_told (fun _ => ⟨0, 0, .http, none, none, none⟩) 4 hopen hlis
    (.of_run 0 fun _ => rfl) ⟨rfl, ?_⟩ (.wait (.event (.wait .start [(3, ⟨inEdge, 0⟩)]
      (by decide) ?_) (.of_run 2 fun _ => rfl)) _ (by decide) ?_)⟩
  · rintro (_ | _ | _ | _ | fd) hfd
    · exact ⟨0, rfl⟩
    · exact ⟨1, rfl⟩
    · exact ⟨2, rfl⟩
    · exact ⟨3, rfl⟩
    · have hlt : (fd : Nat) + 4 < 4 := hfd
      omega
  · intro e he
    obtain rfl := List.mem_singleton.mp he
    exact ⟨⟨inEdge, 0⟩, rfl, rfl⟩
  · intro e he
    rcases List.mem_pair.mp he with rfl | rfl
    · exact ⟨⟨inEdge, 0⟩, rfl, rfl⟩
    · exact ⟨⟨inEdge, 1⟩, rfl, rfl⟩

end DmfServer
