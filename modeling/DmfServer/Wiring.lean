/-
DmfServer/Wiring.lean

The invariant of a worker that serves HTTP and HTTP proxy clients.

The pointer to a client's `req_t` lives in the epoll set, so the invariant
ties the epoll set, the heap and the descriptor table together (`Inv`): a
registered descriptor is open, and its pointer leads to an object in memory
that is a listener's (its `fd` is an index below `lis_num`) or a client's
(its `fd` is the descriptor itself, `lis_num` or more above).  So a pointer
belongs to one descriptor (`Inv.registered_once`), and when an object is
released together with its descriptor no other registration is left dangling.

For the other two properties it says that what `close` has closed is not
open any more, and that on the connections of an HTTP listener nothing has
been written, unless the descriptor is closed or being written to.

The second part shows for each update of the world under what condition it
keeps the invariant.
-/
import DmfServer.Events

namespace DmfServer

open Imperative Imperative.Prog Strings World

/-! ### The invariant -/

section invariant

variable (lisInfs : List LisInf) (epollFd : Fd)

/-- A file accepted on a listener for HTTP. -/
def IsHttp (f : File) : Prop :=
  ∃ serfd, f.via = some serfd ∧ ∀ l ∈ lisInfs, l.fd = serfd → l.type = .http

/-- `r` is what `server_make` registers for the listening descriptor `fd`. -/
def IsListener (fd : Fd) (r : ReqT) : Prop := ∃ l, lisInfs[r.fd]? = some l ∧ l.fd = fd

/-- `r` is the object of a client on the open descriptor `fd`. -/
structure IsClient (w : World) (fd : Fd) (r : ReqT) : Prop where
  fd_eq : r.fd = fd
  low : w.low ≤ fd
  efd : r.efd = epollFd
  sd : r.sd = some ()
  ssl : r.ssl = none
  data : r.data = none
  file : ∃ i f, w.fds.get fd = some i ∧ w.files.get i = some f ∧
    ∃ l ∈ lisInfs, f.via = some l.fd ∧ l.type = r.type ∧ (l.type = .http ∨ l.type = .httpProxy)

/-- What links the epoll set, the heap and the descriptors.  `busy` is the
descriptor a response is being written to. -/
structure Inv (busy : Option Fd) (w : World) : Prop where
  epfd : w.epfd = epollFd
  low : lisInfs.length < w.low
  heap : w.timers.heap = none
  fds_inj : ∀ a b i, w.low ≤ a → w.fds.get a = some i → w.fds.get b = some i → a = b
  fds_file : ∀ a i, w.fds.get a = some i → ∃ f, w.files.get i = some f
  closes_nodup : w.closes.Nodup
  closes_open : none ∉ w.closes
  closed : ∀ i, some i ∈ w.closes → i < w.files.bound ∧ ∀ a, w.fds.get a ≠ some i
  registered : ∀ fd ev, w.interest.get fd = some ev →
    (∃ i, w.fds.get fd = some i) ∧ ∃ r, w.reqs.get ev.ptr = some r ∧
      (IsListener lisInfs fd r ∨ IsClient lisInfs epollFd w fd r)
  plain : ∀ l ∈ lisInfs, l.type = .https ∨ l.type = .httpsProxy →
    ∀ x ∈ w.backlog l.fd, ∃ e, x = .error e
  answered : ∀ i f, w.files.get i = some f → IsHttp lisInfs f →
    f.sent <+: sendBuf ∧ (f.writes = 0 → f.sent = []) ∧
      ∀ fd, w.fds.get fd = some i → f.writes ≠ 0 → busy = some fd

end invariant

variable {lisInfs : List LisInf} {epollFd : Fd} {busy : Option Fd} {w w' : World}
variable {fd : Fd} {i : FileId} {f f' : File} {r : ReqT} {p : Addr}

theorem IsListener.lt (h : IsListener lisInfs fd r) : r.fd < lisInfs.length := by
  obtain ⟨l, hl, -⟩ := h
  exact (List.getElem?_eq_some_iff.mp hl).1

theorem Inv.lt_fd (h : Inv lisInfs epollFd busy w) (hc : IsClient lisInfs epollFd w fd r) :
    lisInfs.length < r.fd := by
  rw [hc.fd_eq]
  exact lt_of_lt_of_le h.low hc.low

/-- An object is registered for one descriptor. -/
theorem Inv.registered_once (h : Inv lisInfs epollFd busy w) {a b : Fd} {ev ev' : EpollEvent}
    (ha : w.interest.get a = some ev) (hb : w.interest.get b = some ev')
    (he : ev.ptr = ev'.ptr) : a = b := by
  obtain ⟨-, r, hr, ha⟩ := h.registered a ev ha
  obtain ⟨-, r', hr', hb⟩ := h.registered b ev' hb
  rw [he] at hr
  obtain rfl : r = r' := Option.some.inj (hr.symm.trans hr')
  rcases ha with ha | ha <;> rcases hb with hb | hb
  · obtain ⟨l, hl, rfl⟩ := ha
    obtain ⟨l', hl', rfl⟩ := hb
    rw [hl] at hl'
    cases hl'
    rfl
  · exact absurd (h.lt_fd hb) (Nat.lt_asymm ha.lt)
  · exact absurd (h.lt_fd ha) (Nat.lt_asymm hb.lt)
  · exact ha.fd_eq.symm.trans hb.fd_eq

/-- A descriptor that is not open is not registered. -/
theorem Inv.not_registered (h : Inv lisInfs epollFd busy w) (hf : w.fds.get fd = none) :
    w.interest.get fd = none := by
  rcases he : w.interest.get fd with - | ev
  · rfl
  · obtain ⟨⟨i, hi⟩, -⟩ := h.registered fd ev he
    rw [hf] at hi
    cases hi

/-- The files of the registered clients stay behind their descriptors, and
keep the listener they came from. -/
theorem IsClient.mono (h : IsClient lisInfs epollFd w fd r) (hlow : w'.low = w.low)
    (hw : ∀ i f, w.fds.get fd = some i → w.files.get i = some f →
      w'.fds.get fd = some i ∧ ∃ f', w'.files.get i = some f' ∧ f'.via = f.via) :
    IsClient lisInfs epollFd w' fd r := by
  obtain ⟨i, f, hi, hf, l, hl, hvia, hrest⟩ := h.file
  obtain ⟨hi', f', hf', hvia'⟩ := hw i f hi hf
  exact { h with
    low := hlow ▸ h.low
    file := ⟨i, f', hi', hf', l, hl, hvia'.trans hvia, hrest⟩ }

/-! ### The updates keep the invariant -/

section updates

variable {busy' : Option Fd} {ev : EpollEvent}

/-- A file is replaced by one of the same listener.  If it is an HTTP client,
what was written to it must be in order; a response can be begun when none
was. -/
theorem Inv.setFile (h : Inv lisInfs epollFd busy w) (hb : busy = none ∨ busy = busy')
    (hf : w.files.get i = some f) (hvia : f'.via = f.via)
    (hans : IsHttp lisInfs f → f'.sent <+: sendBuf ∧ (f'.writes = 0 → f'.sent = []) ∧
      ∀ fd, w.fds.get fd = some i → f'.writes ≠ 0 → busy' = some fd) :
    Inv lisInfs epollFd busy' (w.setFile i f') where
  epfd := h.epfd
  low := h.low
  heap := h.heap
  fds_inj := h.fds_inj
  fds_file a j hj := by
    obtain ⟨g, hg⟩ := h.fds_file a j hj
    rcases eq_or_ne j i with rfl | hne
    · exact ⟨f', Table.get_set_self⟩
    · exact ⟨g, (Table.get_set_of_ne hne).trans hg⟩
  closes_nodup := h.closes_nodup
  closes_open := h.closes_open
  closed j hj := ⟨lt_of_lt_of_le (h.closed j hj).1 (Nat.le_max_left _ _), (h.closed j hj).2⟩
  registered a ev ha := by
    obtain ⟨ho, r, hr, hs⟩ := h.registered a ev ha
    refine ⟨ho, r, hr, hs.imp_right fun hc => hc.mono rfl fun j g hj hg => ⟨hj, ?_⟩⟩
    rcases eq_or_ne j i with rfl | hne
    · obtain rfl : f = g := Option.some.inj (hf.symm.trans hg)
      exact ⟨f', Table.get_set_self, hvia⟩
    · exact ⟨g, (Table.get_set_of_ne hne).trans hg, rfl⟩
  plain := h.plain
  answered j g hg hhttp := by
    rcases Table.get_set_eq_some.mp hg with ⟨rfl, rfl⟩ | ⟨-, hg⟩
    · obtain ⟨serfd, hv, hl⟩ := hhttp
      exact hans ⟨serfd, hvia ▸ hv, hl⟩
    · obtain ⟨hsent, hnil, hopen⟩ := h.answered j g hg hhttp
      refine ⟨hsent, hnil, fun a ha hw => ?_⟩
      have hbusy := hopen a ha hw
      rcases hb with hb | hb
      · rw [hb] at hbusy
        cases hbusy
      · rw [← hb]
        exact hbusy

/-- A call that writes nothing. -/
theorem Inv.onFile {α : Type} {bad : α} {call : File → α × File}
    (h : Inv lisInfs epollFd busy w)
    (hc : ∀ f, (call f).2.via = f.via ∧ (call f).2.sent = f.sent ∧ (call f).2.writes = f.writes) :
    Inv lisInfs epollFd busy (World.onFile bad call fd w).2 := by
  rcases onFile_cases bad call fd w with he | ⟨i, f, -, hf, he⟩
  · rw [he]
    exact h
  · rw [he]
    obtain ⟨hvia, hsent, hwrites⟩ := hc f
    refine h.setFile (.inr rfl) hf hvia fun hhttp => ?_
    rw [hsent, hwrites]
    exact h.answered i f hf hhttp

/-- A call that may write, on a file that is no HTTP client. -/
theorem Inv.onFile_other {α : Type} {bad : α} {call : File → α × File}
    (h : Inv lisInfs epollFd busy w) (hc : ∀ f, (call f).2.via = f.via)
    (hno : ∀ i f, w.fds.get fd = some i → w.files.get i = some f → ¬ IsHttp lisInfs f) :
    Inv lisInfs epollFd busy (World.onFile bad call fd w).2 := by
  rcases onFile_cases bad call fd w with he | ⟨i, f, hi, hf, he⟩
  · rw [he]
    exact h
  · rw [he]
    exact h.setFile (.inr rfl) hf (hc f) fun hhttp => absurd hhttp (hno i f hi hf)

theorem Inv.openFile (h : Inv lisInfs epollFd busy w) (hfree : w.fds.get fd = none)
    (hsent : f.sent = []) (hwrites : f.writes = 0) :
    Inv lisInfs epollFd busy (w.openFile fd f) where
  epfd := h.epfd
  low := h.low
  heap := h.heap
  fds_inj a b j hlow ha hb := by
    have hlt : ∀ c k, w.fds.get c = some k → k ≠ w.files.bound := by
      intro c k hk
      obtain ⟨g, hg⟩ := h.fds_file c k hk
      exact ne_of_lt (Table.lt_bound hg)
    rcases Table.get_set_eq_some.mp ha with ⟨rfl, rfl⟩ | ⟨-, ha'⟩ <;>
      rcases Table.get_set_eq_some.mp hb with ⟨rfl, hj⟩ | ⟨-, hb'⟩
    · rfl
    · exact absurd rfl (hlt b _ hb')
    · exact absurd hj.symm (hlt a j ha')
    · exact h.fds_inj a b j hlow ha' hb'
  fds_file a j hj := by
    rcases Table.get_set_eq_some.mp hj with ⟨rfl, rfl⟩ | ⟨-, hj⟩
    · exact ⟨f, Table.get_push_self⟩
    · obtain ⟨g, hg⟩ := h.fds_file a j hj
      exact ⟨g, (Table.get_push_of_ne (ne_of_lt (Table.lt_bound hg))).trans hg⟩
  closes_nodup := h.closes_nodup
  closes_open := h.closes_open
  closed j hj := by
    obtain ⟨hlt, hno⟩ := h.closed j hj
    refine ⟨lt_of_lt_of_le hlt (Nat.le_max_left _ _), fun a ha => ?_⟩
    rcases Table.get_set_eq_some.mp ha with ⟨-, rfl⟩ | ⟨-, ha⟩
    · exact absurd hlt (Nat.lt_irrefl _)
    · exact hno a ha
  registered a ev ha := by
    obtain ⟨⟨j, hj⟩, r, hr, hs⟩ := h.registered a ev ha
    have hne : a ≠ fd := by
      rintro rfl
      rw [hfree] at hj
      cases hj
    refine ⟨⟨j, (Table.get_set_of_ne hne).trans hj⟩, r, hr,
      hs.imp_right fun hc => hc.mono rfl fun k g hk hg =>
        ⟨(Table.get_set_of_ne hne).trans hk, g, ?_, rfl⟩⟩
    exact (Table.get_push_of_ne (ne_of_lt (Table.lt_bound hg))).trans hg
  plain := h.plain
  answered j g hg hhttp := by
    rcases Table.get_set_eq_some.mp hg with ⟨rfl, rfl⟩ | ⟨hne, hg⟩
    · rw [hsent]
      exact ⟨List.nil_prefix, fun _ => rfl, fun _ _ hw => absurd hwrites hw⟩
    · obtain ⟨hs, hnil, hopen⟩ := h.answered j g hg hhttp
      refine ⟨hs, hnil, fun a ha hw => ?_⟩
      rcases Table.get_set_eq_some.mp ha with ⟨-, rfl⟩ | ⟨-, ha⟩
      · exact absurd rfl hne
      · exact hopen a ha hw

/-- An open descriptor is closed; a response it was written is complete. -/
theorem Inv.closeFd (h : Inv lisInfs epollFd busy w) (hb : busy = none ∨ busy = some fd)
    (hlow : w.low ≤ fd) (hi : w.fds.get fd = some i) : Inv lisInfs epollFd none (w.closeFd fd) where
  epfd := h.epfd
  low := h.low
  heap := h.heap
  fds_inj a b j hl ha hb :=
    h.fds_inj a b j hl (Table.get_erase_eq_some.mp ha).2 (Table.get_erase_eq_some.mp hb).2
  fds_file a j hj := h.fds_file a j (Table.get_erase_eq_some.mp hj).2
  closes_nodup := by
    rw [closeFd_closes, hi, List.nodup_append]
    refine ⟨h.closes_nodup, List.nodup_singleton _, fun x hx y hy hxy => ?_⟩
    rw [hxy, List.mem_singleton.mp hy] at hx
    exact (h.closed i hx).2 fd hi
  closes_open := by
    rw [closeFd_closes, hi, List.mem_append, List.mem_singleton]
    rintro (hn | hn)
    · exact h.closes_open hn
    · cases hn
  closed j hj := by
    rw [closeFd_closes, hi, List.mem_append, List.mem_singleton] at hj
    rcases hj with hj | hj
    · exact ⟨(h.closed j hj).1, fun a ha =>
        (h.closed j hj).2 a (Table.get_erase_eq_some.mp ha).2⟩
    · obtain rfl : j = i := Option.some.inj hj
      obtain ⟨g, hg⟩ := h.fds_file fd j hi
      refine ⟨Table.lt_bound hg, fun a ha => ?_⟩
      obtain ⟨hne, ha⟩ := Table.get_erase_eq_some.mp ha
      exact hne (h.fds_inj fd a j hlow hi ha).symm
  registered a ev ha := by
    obtain ⟨hne, ha⟩ := Table.get_erase_eq_some.mp ha
    obtain ⟨⟨j, hj⟩, r, hr, hs⟩ := h.registered a ev ha
    exact ⟨⟨j, (Table.get_erase_of_ne hne).trans hj⟩, r, hr,
      hs.imp_right fun hc => hc.mono rfl fun k g hk hg =>
        ⟨(Table.get_erase_of_ne hne).trans hk, g, hg, rfl⟩⟩
  plain := h.plain
  answered j g hg hhttp := by
    obtain ⟨hs, hnil, hopen⟩ := h.answered j g hg hhttp
    refine ⟨hs, hnil, fun a ha hw => ?_⟩
    obtain ⟨hne, ha⟩ := Table.get_erase_eq_some.mp ha
    have hbusy := hopen a ha hw
    rcases hb with rfl | rfl
    · exact hbusy
    · exact absurd (Option.some.inj hbusy).symm hne

/-- The epoll set, the heap of the `req_t` and what the invariant does not
mention change. -/
theorem Inv.rewire (h : Inv lisInfs epollFd busy w) (I : Table EpollEvent) (R : Table ReqT)
    (S : Table Ssl) (sd : ShmData) (q : List (Except Errno (Fd × Answers)))
    (hreg : ∀ fd ev, I.get fd = some ev → (∃ i, w.fds.get fd = some i) ∧
      ∃ r, R.get ev.ptr = some r ∧ (IsListener lisInfs fd r ∨ IsClient lisInfs epollFd w fd r)) :
    Inv lisInfs epollFd busy { w with interest := I, reqs := R, ssls := S, shm := sd, sockets := q }
    where
  epfd := h.epfd
  low := h.low
  heap := h.heap
  fds_inj := h.fds_inj
  fds_file := h.fds_file
  closes_nodup := h.closes_nodup
  closes_open := h.closes_open
  closed := h.closed
  registered a ev ha := by
    obtain ⟨ho, r, hr, hs⟩ := hreg a ev ha
    exact ⟨ho, r, hr, hs.imp_right fun hc => hc.mono rfl fun _ g hi hg => ⟨hi, g, hg, rfl⟩⟩
  plain := h.plain
  answered := h.answered

theorem Inv.newReq (h : Inv lisInfs epollFd busy w) : Inv lisInfs epollFd busy (w.newReq r) := by
  refine h.rewire w.interest (w.reqs.push r) w.ssls w.shm w.sockets fun a ev ha => ?_
  obtain ⟨ho, r', hr, hs⟩ := h.registered a ev ha
  exact ⟨ho, r', (Table.get_push_of_ne (ne_of_lt (Table.lt_bound hr))).trans hr, hs⟩

/-- An object that is not registered is released. -/
theorem Inv.freeReq (h : Inv lisInfs epollFd busy w)
    (hp : ∀ fd ev, w.interest.get fd = some ev → ev.ptr ≠ p) :
    Inv lisInfs epollFd busy (w.freeReq p) := by
  refine h.rewire w.interest (w.reqs.erase p) w.ssls w.shm w.sockets fun a ev ha => ?_
  obtain ⟨ho, r, hr, hs⟩ := h.registered a ev ha
  exact ⟨ho, r, (Table.get_erase_of_ne (hp a ev ha)).trans hr, hs⟩

/-- An open descriptor is registered, or registered anew. -/
theorem Inv.register (h : Inv lisInfs epollFd busy w) (hi : w.fds.get fd = some i)
    (hr : w.reqs.get ev.ptr = some r)
    (hs : IsListener lisInfs fd r ∨ IsClient lisInfs epollFd w fd r) :
    Inv lisInfs epollFd busy (w.register fd ev) := by
  refine h.rewire (w.interest.set fd ev) w.reqs w.ssls w.shm w.sockets fun a ev' ha => ?_
  rcases Table.get_set_eq_some.mp ha with ⟨rfl, rfl⟩ | ⟨-, ha⟩
  · exact ⟨⟨i, hi⟩, r, hr, hs⟩
  · exact h.registered a ev' ha

theorem Inv.unregister (h : Inv lisInfs epollFd busy w) :
    Inv lisInfs epollFd busy (w.unregister fd) :=
  h.rewire (w.interest.erase fd) w.reqs w.ssls w.shm w.sockets fun a ev ha =>
    h.registered a ev (Table.get_erase_eq_some.mp ha).2

theorem Inv.setShm {sd : ShmData} (h : Inv lisInfs epollFd busy w) :
    Inv lisInfs epollFd busy (w.setShm sd) :=
  h.rewire w.interest w.reqs w.ssls sd w.sockets h.registered

theorem Inv.newSsl {ssl : Ssl} (h : Inv lisInfs epollFd busy w) :
    Inv lisInfs epollFd busy (w.newSsl ssl) :=
  h.rewire w.interest w.reqs (w.ssls.push ssl) w.shm w.sockets h.registered

theorem Inv.setSockets {q : List (Except Errno (Fd × Answers))}
    (h : Inv lisInfs epollFd busy w) : Inv lisInfs epollFd busy (w.setSockets q) :=
  h.rewire w.interest w.reqs w.ssls w.shm q h.registered

/-- What is left of a backlog is part of it. -/
theorem Inv.popBacklog {serfd : Fd} {x : Except Errno Fd}
    {q : List (Except Errno (Fd × Answers))} (h : Inv lisInfs epollFd busy w)
    (hq : q <:+ w.backlog serfd) : Inv lisInfs epollFd busy (w.popBacklog serfd x q) :=
  { h with
    registered := fun a ev ha => by
      obtain ⟨ho, r, hr, hs⟩ := h.registered a ev ha
      exact ⟨ho, r, hr, hs.imp_right fun hc => hc.mono rfl fun _ g hi hg => ⟨hi, g, hg, rfl⟩⟩
    plain := fun l hl ht y hy => by
      refine h.plain l hl ht y ?_
      rw [popBacklog_backlog] at hy
      rcases eq_or_ne l.fd serfd with he | hne
      · rw [he, Function.update_self] at hy
        rw [he]
        exact hq.subset hy
      · rwa [Function.update_of_ne hne] at hy }

end updates

end DmfServer
