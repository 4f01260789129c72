/-
DmfServer/Lifecycle.lean

The life of a connection in a worker.

A run of the worker is a sequence of batches of events (`Worker`).  The
invariant holds before the first one (`Booted.inv`, `serverSetup_safe`), and
a batch leads to objects that are registered and different from one another
(`Inv.pending`); handling one of its events leaves the registrations of the
others alone (`Pending.next`).  By induction over the run this gives
`worker_lifecycle`: no object is used after `handle_close` has released it,
every call of `close` closes an open descriptor, each file once, and on a
connection of an HTTP listener at most one response is written, after which
it is closed before the handler returns.
-/
import DmfServer.Handlers

namespace DmfServer

open Imperative Imperative.Prog Strings World

/-! ### The run of a worker -/

/-- The states of the event loop of `server_make`, with the events that
`epoll_wait` has returned and that are still to be handled.

`epoll_wait` reports some of the registered descriptors, each once, with any
event bits; the events of a batch are handled one after the other, and the
timers run between two batches. -/
inductive Worker (junk : Nat → ReqT) (hint : Fd) (lisInfs : List LisInf) (w₀ : World)
    (epollFd : Fd) : World → List EpollEvent → Prop
  | start {w} (h : Returns (serverSetup junk hint lisInfs) w₀ epollFd w) :
      Worker junk hint lisInfs w₀ epollFd w []
  | wait {w} (h : Worker junk hint lisInfs w₀ epollFd w []) (fds : List Fd) (hn : fds.Nodup)
      (evs : List EpollEvent)
      (hr : List.Forall₂ (fun fd ev => ∃ reg, w.interest.get fd = some reg ∧ ev.ptr = reg.ptr)
        fds evs) :
      Worker junk hint lisInfs w₀ epollFd w evs
  | event {w w' ev evs} (h : Worker junk hint lisInfs w₀ epollFd w (ev :: evs))
      (he : Returns (serverEvent lisInfs epollFd (some ()) ev) w () w') :
      Worker junk hint lisInfs w₀ epollFd w' evs
  | timers {w w'} (h : Worker junk hint lisInfs w₀ epollFd w []) (now : Int)
      (ht : Returns (zoom timers setTimers (executeTimers idle now)) w () w') :
      Worker junk hint lisInfs w₀ epollFd w' []

variable {lisInfs : List LisInf} {epollFd : Fd} {busy : Option Fd} {w w' : World}

/-! ### The start -/

/-- The world `server_make` is called in: none of the descriptors that
clients can get is duplicated, nothing has been accepted or closed, no timer
is set, the descriptors of clients lie above `lis_num`, and no TLS client is
pending. -/
structure Booted (lisInfs : List LisInf) (w : World) : Prop where
  low : lisInfs.length < w.low
  heap : w.timers.heap = none
  fds_inj : ∀ a b i, w.low ≤ a → w.fds.get a = some i → w.fds.get b = some i → a = b
  fds_file : ∀ a i, w.fds.get a = some i → ∃ f, w.files.get i = some f
  closes : w.closes = []
  via : ∀ i f, w.files.get i = some f → f.via = none
  plain : ∀ l ∈ lisInfs, l.type = .https ∨ l.type = .httpsProxy →
    ∀ x ∈ w.backlog l.fd, ∃ e, x = .error e

theorem Booted.inv (h : Booted lisInfs w) {hint : Fd} :
    Inv lisInfs (epollCreate hint w).1 none (epollCreate hint w).2 := by
  have hfree : w.fds.get (w.fds.pick w.low hint) = none := Table.get_pick
  have h₀ : Inv lisInfs w.epfd none { w with interest := Table.empty } :=
    { epfd := rfl
      low := h.low
      heap := h.heap
      fds_inj := h.fds_inj
      fds_file := h.fds_file
      closes_nodup := by rw [h.closes]; exact List.nodup_nil
      closes_open := by rw [h.closes]; exact List.not_mem_nil
      closed := fun i hi => by rw [h.closes] at hi; cases hi
      registered := fun _ _ hev => by cases hev
      plain := h.plain
      answered := fun i f hf hhttp => by
        obtain ⟨serfd, hv, -⟩ := hhttp
        rw [h.via i f hf] at hv
        cases hv }
  have h₁ := h₀.openFile (f := Answers.file ⟨[], [], [], [], [], [], [], []⟩ none) hfree rfl rfl
  exact { h₁ with
    epfd := rfl
    registered := fun _ _ hev => by cases hev }

theorem serverListen_safe (h : Inv lisInfs epollFd none w) (junk : Nat → ReqT) (k : Nat)
    (rest : List LisInf) (hrest : lisInfs.drop k = rest) :
    Safe (serverListen junk epollFd k rest) w fun _ w' => Inv lisInfs epollFd none w' := by
  induction rest generalizing k w with
  | nil => exact safe_pure.mpr h
  | cons l rest ih =>
      rw [serverListen, newReqT, safe_call_bind, safe_call_bind]
      have hl : lisInfs[k]? = some l := by
        rw [← List.head?_drop, hrest]
        rfl
      have hdrop : lisInfs.drop (k + 1) = rest := by
        rw [← List.drop_drop, hrest]
        rfl
      refine ih ?_ (k + 1) hdrop
      set r : ReqT := { junk k with fd := k, data := none } with hr
      have h₁ : Inv lisInfs epollFd none (w.newReq r) := h.newReq
      have hreq : ∀ e : EpollEvent, e.ptr = w.reqs.bound → (w.newReq r).reqs.get e.ptr = some r :=
        fun e he => he ▸ Table.get_push_self
      rcases hi : w.fds.get l.fd with - | i
      · -- the listening descriptor is not open: `EBADF`
        have hbad : ctlCall l.fd (w.newReq r) = (none, w.newReq r) := by
          rw [ctlCall, onFile, fileAt, newReq_fds, hi]
          rfl
        rw [epollCtl, hbad]
        exact h₁
      · exact (h₁.epollAdd hi (hreq ⟨inEdge, w.reqs.bound⟩ rfl) (.inl ⟨l, hl, rfl⟩) epollFd).1

theorem serverSetup_safe (h : Booted lisInfs w) (junk : Nat → ReqT) (hint : Fd) :
    Safe (serverSetup junk hint lisInfs) w fun epollFd w' => Inv lisInfs epollFd none w' := by
  rw [serverSetup, safe_call_bind]
  refine Safe.bind ((serverListen_safe h.inv junk 0 lisInfs List.drop_zero).mono ?_)
  intro u w₁ h₁
  exact safe_pure.mpr h₁

/-- The timers of a worker: the list is empty. -/
theorem executeTimers_safe (h : Inv lisInfs epollFd none w) (now : Int) :
    Safe (zoom timers setTimers (executeTimers idle now)) w fun _ w' => w' = w := by
  have he : Safe (executeTimers (idle : Unit → Prog (Timers Addr Unit) Unit) now) w.timers
      fun _ t => t = w.timers := by
    refine Safe.loop (fun _ t => t = w.timers) ?_ rfl
    rintro u t rfl
    rw [executeTimersBody, safe_load_bind, h.heap, safe_pure]
    rfl
  refine he.zoom.mono ?_
  rintro u w' ⟨t, rfl, rfl⟩
  rfl

/-! ### The run -/

/-- The events that are still to be handled are of different objects, which
are registered. -/
def Pending (w : World) (evs : List EpollEvent) : Prop :=
  (evs.map EpollEvent.ptr).Nodup ∧
    ∀ ev ∈ evs, ∃ fd reg, w.interest.get fd = some reg ∧ reg.ptr = ev.ptr

theorem Pending.next {ev : EpollEvent} {evs : List EpollEvent} (h : Pending w (ev :: evs))
    (hf : Frame ev.ptr w w') : Pending w' evs := by
  obtain ⟨hn, hreg⟩ := h
  rw [List.map_cons, List.nodup_cons] at hn
  refine ⟨hn.2, fun e he => ?_⟩
  obtain ⟨fd, reg, hr, hp⟩ := hreg e (List.mem_cons_of_mem _ he)
  have hne : reg.ptr ≠ ev.ptr := fun heq =>
    hn.1 (heq ▸ hp ▸ List.mem_map_of_mem he)
  exact ⟨fd, reg, hf fd reg hr hne, hp⟩

/-- What `epoll_wait` returns can be handled. -/
theorem Inv.pending (h : Inv lisInfs epollFd busy w) {fds : List Fd} (hn : fds.Nodup)
    {evs : List EpollEvent}
    (hr : List.Forall₂ (fun fd ev => ∃ reg, w.interest.get fd = some reg ∧ ev.ptr = reg.ptr)
      fds evs) : Pending w evs := by
  induction hr with
  | nil => exact ⟨List.nodup_nil, by simp⟩
  | @cons fd ev fds evs hev hrest ih =>
      obtain ⟨hnot, hn⟩ := List.nodup_cons.mp hn
      obtain ⟨hnd, hall⟩ := ih hn
      obtain ⟨reg, hreg, hptr⟩ := hev
      refine ⟨?_, List.forall_mem_cons.mpr ⟨⟨fd, reg, hreg, hptr.symm⟩, hall⟩⟩
      rw [List.map_cons, List.nodup_cons]
      refine ⟨fun hmem => ?_, hnd⟩
      -- the same object behind another descriptor of the batch
      obtain ⟨e, he, hp⟩ := List.mem_map.mp hmem
      obtain ⟨k, hk, rfl⟩ := List.getElem_of_mem he
      have hk' : k < fds.length := hrest.length_eq ▸ hk
      obtain ⟨reg', hreg', hptr'⟩ := List.forall₂_iff_get.mp hrest |>.2 k hk' hk
      have heq := h.registered_once hreg hreg' (by rw [← hptr, ← hptr', ← hp]; rfl)
      exact hnot (heq ▸ List.getElem_mem hk')

theorem Worker.inv {junk : Nat → ReqT} {hint : Fd} {w₀ : World} {evs : List EpollEvent}
    (h₀ : Booted lisInfs w₀) (h : Worker junk hint lisInfs w₀ epollFd w evs) :
    Inv lisInfs epollFd none w ∧ Pending w evs := by
  induction h with
  | start h => exact ⟨(serverSetup_safe h₀ junk hint).of_returns h, List.nodup_nil, by simp⟩
  | wait h fds hn evs hr ih => exact ⟨ih.1, ih.1.pending hn hr⟩
  | event h he ih =>
      obtain ⟨hinv, hpend⟩ := ih
      obtain ⟨fd, reg, hreg, hptr⟩ := hpend.2 _ List.mem_cons_self
      obtain ⟨hinv', hframe⟩ := (serverEvent_safe hinv hreg hptr).of_returns he
      exact ⟨hinv', hpend.next hframe⟩
  | timers h now ht ih =>
      rw [(executeTimers_safe ih.1 now).of_returns ht]
      exact ih

/-- **The life of a connection.**  In every state of a worker that serves
HTTP and HTTP proxy clients

* no event that is to be handled, nor the timers, uses an object that was
  released, or any other invalid pointer;
* every call of `close` closed an open descriptor, and each file once;
* on a connection of an HTTP listener a part of the response has been written
  from its beginning, and nothing if the connection is still open: whatever
  wrote to it has closed it. -/
theorem worker_lifecycle {junk : Nat → ReqT} {hint : Fd} {w₀ : World} {evs : List EpollEvent}
    (h₀ : Booted lisInfs w₀) (h : Worker junk hint lisInfs w₀ epollFd w evs) :
    (∀ ev ∈ evs.head?, ∀ n, serverEvent lisInfs epollFd (some ()) ev w n ≠ .fault) ∧
    (∀ now n, zoom timers setTimers (executeTimers idle now) w n ≠ .fault) ∧
    w.closes.Nodup ∧ none ∉ w.closes ∧
    ∀ i f, w.files.get i = some f → IsHttp lisInfs f →
      f.sent <+: sendBuf ∧ ((∃ fd, w.fds.get fd = some i) → f.writes = 0 ∧ f.sent = []) := by
  obtain ⟨hinv, hpend⟩ := h.inv h₀
  refine ⟨fun ev hev n => ?_, fun now n => (executeTimers_safe hinv now).no_fault n,
    hinv.closes_nodup, hinv.closes_open, fun i f hf hhttp => ?_⟩
  · obtain ⟨fd, reg, hreg, hptr⟩ := hpend.2 ev (List.mem_of_mem_head? hev)
    exact (serverEvent_safe hinv hreg hptr).no_fault n
  · obtain ⟨hsent, hnil, hopen⟩ := hinv.answered i f hf hhttp
    refine ⟨hsent, ?_⟩
    rintro ⟨fd, hfd⟩
    have hw : f.writes = 0 := by
      by_contra hne
      cases hopen fd hfd hne
    exact ⟨hw, hnil hw⟩

theorem listening_booted (q : List (Except Errno (Fd × Answers))) :
    Booted [⟨4, .http⟩] (listening q) where
  low := show 1 < 5 by omega
  heap := rfl
  fds_inj a b i hlow ha hb := by
    rcases Table.get_set_eq_some.mp ha with ⟨rfl, -⟩ | ⟨-, ha⟩
    · exact absurd hlow (show ¬ (5 : Nat) ≤ 4 by decide)
    · cases ha
  fds_file a i ha := by
    rcases Table.get_set_eq_some.mp ha with ⟨-, rfl⟩ | ⟨-, ha⟩
    · exact ⟨_, Table.get_push_self⟩
    · cases ha
  closes := rfl
  via i f hf := by
    rcases Table.get_set_eq_some.mp hf with ⟨-, rfl⟩ | ⟨-, hf⟩
    · rfl
    · cases hf
  plain l hl ht := by
    rw [List.mem_singleton.mp hl] at ht
    rcases ht with ht | ht <;> cases ht

-- the run is evaluated event by event
set_option maxRecDepth 8000 in
/-- A client is accepted, sends its request, and is answered and closed. -/
theorem worker_lifecycle_listener : ∃ w₁ w₂ : World,
    Worker (fun _ => ⟨0, 0, .http, none, none, none⟩) 7 [⟨4, .http⟩]
      (listening [.ok (6, .io [.ok (bytes "GET /")] [.ok 9])]) 7 w₁ [⟨outEdge, 2⟩] ∧
    (∀ n, serverEvent [⟨4, .http⟩] 7 (some ()) ⟨outEdge, 2⟩ w₁ n ≠ .fault) ∧
    Worker (fun _ => ⟨0, 0, .http, none, none, none⟩) 7 [⟨4, .http⟩]
      (listening [.ok (6, .io [.ok (bytes "GET /")] [.ok 9])]) 7 w₂ [] ∧
    w₂.closes = [some 2] ∧ w₂.closes.Nodup ∧
    ∃ f, w₂.files.get 2 = some f ∧ f.sent = sendBuf.take 9 ∧ f.sent <+: sendBuf := by
  have hsetup : Returns (serverSetup (fun _ => ⟨0, 0, .http, none, none, none⟩) 7 [⟨4, .http⟩])
      (listening [.ok (6, .io [.ok (bytes "GET /")] [.ok 9])]) 7
      (epollCtl 7 (.add ⟨inEdge, 1⟩) 4
        ((epollCreate 7 (listening [.ok (6, .io [.ok (bytes "GET /")] [.ok 9])])).2.newReq
          ⟨0, 0, .http, none, none, none⟩)).2 := ⟨0, fun _ _ => rfl⟩
  have hwait := Worker.wait (Worker.start hsetup) [4] (by decide) [⟨inEdge, 1⟩]
    (.cons ⟨⟨inEdge, 1⟩, rfl, rfl⟩ .nil)
  have haccept := hwait.event (.of_run 3 fun _ => rfl)
  have hin := haccept.wait [6] (by decide) [⟨inEdge, 2⟩] (.cons ⟨⟨inEdge, 2⟩, rfl, rfl⟩ .nil)
  have hread := hin.event (.of_run 3 fun _ => rfl)
  have hout := hread.wait [6] (by decide) [⟨outEdge, 2⟩] (.cons ⟨⟨outEdge, 2⟩, rfl, rfl⟩ .nil)
  have hwrite := hout.event (.of_run 3 fun _ => rfl)
  have hhttp : ∀ l ∈ [(⟨4, .http⟩ : LisInf)], l.fd = 4 → l.type = .http := fun l hl _ => by
    rw [List.mem_singleton.mp hl]
  obtain ⟨hev, -⟩ := worker_lifecycle (listening_booted _) hout
  obtain ⟨-, -, hnodup, -, hsent⟩ := worker_lifecycle (listening_booted _) hwrite
  exact ⟨_, _, hout, fun n => hev _ rfl n, hwrite, rfl, hnodup, _, rfl, rfl,
    (hsent 2 _ rfl ⟨4, rfl, hhttp⟩).1⟩

end DmfServer
