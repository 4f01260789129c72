/-
DmfServer/Statistics.lean

The statistics of all workers together.

The workers run side by side and share the counters.  Each goes round the
event loop of `server_make` (`Site.Step`): it waits for events, takes the
steps of a handler one by one, and runs the timers; between any two steps
the others can count.  Since a worker only counts, it can be looked at alone
(`System.alone`), and there a handler that has come to its end is the program
of `DmfServer.Events` (`Site.Progress`).  So the books of each worker are kept
by its events, and the shared counters are the sum of them.

This gives the order of the counters in every run (`statistics_ordered`).
Their balance fails when a client is lost on its way in: when a call of
`fcntl` for it fails it is neither counted nor closed, and when `epoll_ctl`
fails it is closed and not counted as closed (`statistics_lose_client`).  In a
run in which these calls succeed the balance holds (`statistics_conserved`).
-/
import DmfServer.Lifecycle
import DmfServer.Posting
import Mathlib.Data.Int.ModEq
import Mathlib.Tactic.Ring

namespace DmfServer

open Imperative Imperative.Prog Strings World Relation

/-! ### The workers -/

/-- What a worker does next. -/
inductive Move where
  /-- `epoll_wait` reports `evs` for the descriptors `fds`. -/
  | wait (fds : List Fd) (evs : List EpollEvent)
  /-- The handler of the next event is called. -/
  | event
  /-- The handler takes a step. -/
  | go
  /-- The timers run. -/
  | timers (now : Int)

/-- A worker between two steps: its world, the events that are still to be
handled, and what is left of the handler in progress. -/
structure Site where
  world : World
  evs : List EpollEvent
  code : Code World Unit

/-- No handler is in progress. -/
def Site.Idle (s : Site) : Prop := s.code = .ret ()

instance : Shared ShmData Site where
  get s := s.world.shm
  put sd s := { s with world := s.world.setShm sd }
  get_put _ _ := rfl
  put_get _ := rfl
  put_put _ _ _ := rfl

/-- The event loop of `server_make`. -/
inductive Site.Step (lisInfs : List LisInf) (epollFd : Fd) : Site → Move → Site → Prop
  | wait {w fds evs} (hn : fds.Nodup)
      (hr : List.Forall₂ (fun fd ev => ∃ reg, w.interest.get fd = some reg ∧ ev.ptr = reg.ptr)
        fds evs) : Step lisInfs epollFd ⟨w, [], .ret ()⟩ (.wait fds evs) ⟨w, evs, .ret ()⟩
  | event {w ev evs} : Step lisInfs epollFd ⟨w, ev :: evs, .ret ()⟩ .event
      ⟨w, evs, Stepwise.serverEvent lisInfs epollFd (some ()) ev⟩
  | go {w w' evs c c'} (h : Code.Step c w c' w') :
      Step lisInfs epollFd ⟨w, evs, c⟩ .go ⟨w', evs, c'⟩
  | timers {w w' now} (h : Returns (zoom timers setTimers (executeTimers idle now)) w () w') :
      Step lisInfs epollFd ⟨w, [], .ret ()⟩ (.timers now) ⟨w', [], .ret ()⟩

/-- The steps that meet a condition. -/
def Site.Under (C : Site → Move → Prop) (lisInfs : List LisInf) (epollFd : Fd) (s t : Site) :
    Prop := ∃ m, C s m ∧ Site.Step lisInfs epollFd s m t

variable {lisInfs : List LisInf} {epollFd : Fd} {w w' : World} {s t : Site} {m : Move}
variable {C : Site → Move → Prop} {clean asked : Prop} {ev : EpollEvent} {evs : List EpollEvent}

/-- A worker does not depend on what the others count. -/
theorem Site.under_clear (hC : ∀ d s m, C (shift d s) m → C s m) :
    Clear (Site.Under C lisInfs epollFd) := by
  rintro d ⟨w, evs, c⟩ t ⟨m, hm, hstep⟩
  have hm' : C ⟨w, evs, c⟩ m := hC d _ m hm
  generalize hs : shift d (⟨w, evs, c⟩ : Site) = s at hstep
  have hs' : (⟨shift d w, evs, c⟩ : Site) = s := hs
  cases hstep with
  | wait hn hr =>
      cases hs'
      exact ⟨_, rfl, _, hm', .wait hn hr⟩
  | event =>
      cases hs'
      exact ⟨_, rfl, _, hm', .event⟩
  | go h =>
      cases hs'
      obtain ⟨w', rfl, h'⟩ := h.clear
      exact ⟨⟨w', _, _⟩, rfl, _, hm', .go h'⟩
  | timers h =>
      cases hs'
      have hz : ∀ now, Transparent (zoom timers setTimers (executeTimers idle now)) :=
        fun _ => .zoom (fun _ _ => rfl) fun _ _ _ => rfl
      obtain ⟨w', rfl, h'⟩ := (hz _).returns h
      exact ⟨⟨w', _, _⟩, rfl, _, hm', .timers h'⟩

/-! ### A worker alone -/

/-- What the moves of a worker keep, at the turns of its event loop. -/
structure Site.Keeps (C : Site → Move → Prop) (lisInfs : List LisInf) (epollFd : Fd)
    (P : World → List EpollEvent → Prop) : Prop where
  wait : ∀ {w : World} {fds : List Fd} {evs : List EpollEvent}, P w [] → fds.Nodup →
    List.Forall₂ (fun fd ev => ∃ reg, w.interest.get fd = some reg ∧ ev.ptr = reg.ptr) fds evs →
    C ⟨w, [], .ret ()⟩ (.wait fds evs) → P w evs
  event : ∀ {w w' : World} {ev : EpollEvent} {evs : List EpollEvent}, P w (ev :: evs) →
    C ⟨w, ev :: evs, .ret ()⟩ .event →
    Returns (serverEvent lisInfs epollFd (some ()) ev) w () w' → P w' evs
  timers : ∀ {w w' : World} {now : Int}, P w [] →
    Returns (zoom timers setTimers (executeTimers idle now)) w () w' → P w' []

/-- Where a worker is: between two events, or in the handler of one, which
answers what the rest of its code answers. -/
inductive Site.Progress (C : Site → Move → Prop) (lisInfs : List LisInf) (epollFd : Fd)
    (P : World → List EpollEvent → Prop) : Site → Prop
  | idle {w : World} {evs : List EpollEvent} (h : P w evs) :
      Progress C lisInfs epollFd P ⟨w, evs, .ret ()⟩
  | busy {w₀ w : World} {ev : EpollEvent} {evs : List EpollEvent} {c : Code World Unit}
      (h : P w₀ (ev :: evs)) (hC : C ⟨w₀, ev :: evs, .ret ()⟩ .event)
      (hc : ∀ w', Code.Eval c w () w' →
        Returns (serverEvent lisInfs epollFd (some ()) ev) w₀ () w') :
      Progress C lisInfs epollFd P ⟨w, evs, c⟩

variable {P : World → List EpollEvent → Prop}

/-- When the handler is done its event has been handled. -/
theorem Site.Progress.done (h : Site.Progress C lisInfs epollFd P s)
    (hP : Site.Keeps C lisInfs epollFd P) (hs : s.Idle) : P s.world s.evs := by
  cases h with
  | idle h => exact h
  | busy h hC hc =>
      have hret : _ = Code.ret () := hs
      subst hret
      exact hP.event h hC (hc _ .ret)

theorem Site.Progress.step (h : Site.Progress C lisInfs epollFd P s)
    (hP : Site.Keeps C lisInfs epollFd P) (hm : C s m) (hst : Site.Step lisInfs epollFd s m t) :
    Site.Progress C lisInfs epollFd P t := by
  cases hst with
  | wait hn hr => exact .idle (hP.wait (h.done hP rfl) hn hr hm)
  | @event w ev evs =>
      -- the whole handler is ahead
      refine .busy (h.done hP rfl) hm fun w' he => ?_
      rw [← Stepwise.serverEvent_denote]
      exact he.returns
  | go hstep =>
      cases h with
      -- nothing is left to do
      | idle => cases hstep
      | busy h hC hc => exact .busy h hC fun w' he => hc w' (he.of_step hstep)
  | timers ht => exact .idle (hP.timers (h.done hP rfl) ht)

/-- **Runs of a worker.** -/
theorem Site.Keeps.run (hP : Site.Keeps C lisInfs epollFd P)
    (h : ReflTransGen (Site.Under C lisInfs epollFd) s t) (hs : s.Idle) (h₀ : P s.world s.evs)
    (ht : t.Idle) : P t.world t.evs := by
  have hprog : Site.Progress C lisInfs epollFd P t := by
    clear ht
    induction h with
    | refl =>
        obtain ⟨w, evs, c⟩ := s
        obtain rfl : c = .ret () := hs
        exact .idle h₀
    | tail _ hst ih =>
        obtain ⟨m, hm, hst⟩ := hst
        exact ih.step hP hm hst
  exact hprog.done hP ht

/-! ### The books of a worker -/

/-- The calls that are made for a new client will succeed, in the handler
that is called next. -/
def Site.Grants (lisInfs : List LisInf) (s : Site) : Move → Prop
  | .event => ∀ ev ∈ s.evs.head?, ∀ r l, s.world.reqs.get ev.ptr = some r →
      lisInfs[r.fd]? = some l → Granting (s.world.backlog l.fd)
  | _ => True

/-- `epoll_wait` reports `EPOLLOUT` only for descriptors that are registered
for it. -/
def Site.Honest (s : Site) : Move → Prop
  | .wait fds evs => List.Forall₂ (fun fd ev => ∀ reg, s.world.interest.get fd = some reg →
      ev.events.epollout → reg.events.epollout) fds evs
  | _ => True

/-- What is known of the events that are still to be handled. -/
def Reported (asked : Prop) (w : World) (evs : List EpollEvent) : Prop :=
  Pending w evs ∧ ∀ ev ∈ evs, ∃ fd reg, w.interest.get fd = some reg ∧ reg.ptr = ev.ptr ∧
    (asked → ev.events.epollout → reg.events.epollout)

theorem Reported.next (h : Reported asked w (ev :: evs)) (hf : Frame ev.ptr w w') :
    Reported asked w' evs := by
  obtain ⟨hpend, hrep⟩ := h
  refine ⟨hpend.next hf, fun e he => ?_⟩
  obtain ⟨fd, reg, hreg, hptr, hask⟩ := hrep e (List.mem_cons_of_mem _ he)
  have hnodup := hpend.1
  rw [List.map_cons, List.nodup_cons] at hnodup
  have hne : reg.ptr ≠ ev.ptr := fun heq => hnodup.1 (heq ▸ hptr ▸ List.mem_map_of_mem he)
  exact ⟨fd, reg, hf fd reg hreg hne, hptr, hask⟩

/-- The events of a worker are steps of its books. -/
theorem books_keeps (b : Books) (hclean : clean → ∀ s m, C s m → s.Grants lisInfs m)
    (hasked : asked → ∀ s m, C s m → s.Honest m) :
    Site.Keeps C lisInfs epollFd fun w evs => Inv lisInfs epollFd none w ∧ Reported asked w evs ∧
      Books.Steps clean asked b w.books where
  wait := by
    rintro w fds evs ⟨hinv, -, hb⟩ hn hr hC
    refine ⟨hinv, ⟨hinv.pending hn hr, fun ev hev => ?_⟩, hb⟩
    obtain ⟨k, hk, rfl⟩ := List.getElem_of_mem hev
    have hk' : k < fds.length := hr.length_eq ▸ hk
    obtain ⟨reg, hreg, hptr⟩ := (List.forall₂_iff_get.mp hr).2 k hk' hk
    refine ⟨_, reg, hreg, hptr.symm, fun ha hout => ?_⟩
    have hhonest : List.Forall₂ _ fds evs := hasked ha _ _ hC
    exact (List.forall₂_iff_get.mp hhonest).2 k hk' hk reg hreg hout
  event := by
    rintro w w' ev evs ⟨hinv, hrep, hb⟩ hC hret
    obtain ⟨fd, reg, hreg, hptr, hask⟩ := hrep.2 ev List.mem_cons_self
    obtain ⟨hinv', hframe⟩ := (serverEvent_safe hinv hreg hptr).of_returns hret
    have hgrant : clean → ∀ r l, w.reqs.get ev.ptr = some r → lisInfs[r.fd]? = some l →
        Granting (w.backlog l.fd) := fun hc => hclean hc _ _ hC ev rfl
    exact ⟨hinv', hrep.next hframe,
      hb.trans ((serverEvent_posts hinv hreg hptr hgrant hask).of_returns hret)⟩
  timers := by
    rintro w w' now ⟨hinv, hrep, hb⟩ ht
    rw [(executeTimers_safe hinv now).of_returns ht]
    exact ⟨hinv, hrep, hb⟩

/-! ### The start -/

theorem accepted_epollCtl (efd : Fd) (op : EpollOp) (fd : Fd) (w : World) :
    (epollCtl efd op fd w).2.clients = w.clients := by
  have hcall : (ctlCall fd w).2.clients = w.clients := congrArg Books.clients books_ctlCall
  rcases epollCtl_cases efd op fd w with ⟨e, he⟩ | ⟨ev, -, he⟩ | ⟨-, he⟩
  · rw [he]
    exact hcall
  · rw [he]
    exact hcall
  · rw [he]
    exact hcall

/-- Nobody has been accepted. -/
theorem Booted.clients (h : Booted lisInfs w) : w.clients = ∅ := by
  apply Finset.eq_empty_of_forall_notMem
  intro fd hmem
  obtain ⟨i, f, -, hf, hvia⟩ := accepted_iff.mp (mem_clients.mp hmem)
  rw [h.via i f hf] at hvia
  cases hvia

/-- Listening accepts nobody. -/
theorem serverSetup_clients (h : Booted lisInfs w) (junk : Nat → ReqT) (hint : Fd) :
    Safe (serverSetup junk hint lisInfs) w fun _ w' => w'.clients = ∅ := by
  have hlisten : ∀ (epollFd : Fd) (rest : List LisInf) (k : Nat) (w : World), w.clients = ∅ →
      Safe (serverListen junk epollFd k rest) w fun _ w' => w'.clients = ∅ := by
    intro epollFd rest
    induction rest with
    | nil => exact fun _ _ h => safe_pure.mpr h
    | cons l rest ih =>
        intro k w h
        rw [serverListen, newReqT, safe_call_bind, safe_call_bind]
        apply ih
        rw [accepted_epollCtl]
        exact h
  have hcreate : (epollCreate hint w).2.clients = ∅ := by
    have hopen : (w.openFile (w.fds.pick w.low hint)
        (Answers.file ⟨[], [], [], [], [], [], [], []⟩ none)).books = w.books :=
      books_openFile_upstream h.fds_file Table.get_pick rfl
    exact (congrArg Books.clients hopen).trans h.clients
  rw [serverSetup, safe_call_bind]
  apply Safe.bind
  apply (hlisten _ lisInfs 0 _ hcreate).mono
  intro _ w' hw'
  exact safe_pure.mpr hw'

/-- A worker whose `server_make` has come to its loop. -/
structure Site.Started (lisInfs : List LisInf) (epollFd : Fd) (s : Site) : Prop where
  setup : ∃ junk hint w₀, Booted lisInfs w₀ ∧
    Returns (serverSetup junk hint lisInfs) w₀ epollFd s.world
  evs : s.evs = []
  idle : s.Idle

/-- What is known of a worker from its start on. -/
theorem Site.Started.run (hs : s.Started lisInfs epollFd)
    (hclean : clean → ∀ s m, C s m → s.Grants lisInfs m)
    (hasked : asked → ∀ s m, C s m → s.Honest m)
    (h : ReflTransGen (Site.Under C lisInfs epollFd) (Shared.put 0 s) t) (ht : t.Idle) :
    ∃ b : Books, b.shm = 0 ∧ b.clients = ∅ ∧ Books.Steps clean asked b t.world.books := by
  obtain ⟨junk, hint, w₀, hboot, hret⟩ := hs.setup
  have hinv := (serverSetup_safe hboot junk hint).of_returns hret
  have hcl : s.world.clients = ∅ := (serverSetup_clients hboot junk hint).of_returns hret
  refine ⟨(s.world.setShm 0).books, rfl, hcl, ?_⟩
  -- alone, the worker begins with counters of its own that are 0
  have hkeep := (books_keeps (s.world.setShm 0).books hclean hasked).run h hs.idle
  have hpend : Reported asked (s.world.setShm 0) s.evs := by
    rw [hs.evs]
    exact ⟨⟨List.nodup_nil, by simp⟩, by simp⟩
  exact (hkeep ⟨hinv.setShm, hpend, .refl⟩ ht).2.2

/-! ### All workers -/

/-- The workers, and the segment they share. -/
abbrev Workers (n : Nat) : Type 1 := System (Fin n) ShmData Site

section workers

variable {n : Nat} {epollFds : Fin n → Fd} {x₀ x : Workers n}

/-- Steps of any of the workers, in any order, that meet a condition. -/
def Workers.Runs (C : Site → Move → Prop) (lisInfs : List LisInf) (epollFds : Fin n → Fd) :
    Workers n → Workers n → Prop :=
  ReflTransGen (System.Step fun i => Site.Under C lisInfs (epollFds i))

/-- A weaker condition. -/
theorem Workers.Runs.under {C' : Site → Move → Prop} (h : Workers.Runs C lisInfs epollFds x₀ x)
    (hC : ∀ s m, C s m → C' s m) : Workers.Runs C' lisInfs epollFds x₀ x := by
  refine ReflTransGen.lift id ?_ _ _ h
  rintro x y ⟨i, t, ⟨m, hm, hstep⟩, rfl⟩
  exact ⟨i, t, ⟨m, hC _ _ hm, hstep⟩, rfl⟩

/-- One of the workers goes on while the others wait. -/
theorem Workers.turn {i : Fin n}
    (h : TransGen (Site.Under C lisInfs (epollFds i)) (Shared.put x.shared (x.sites i)) t) :
    Workers.Runs C lisInfs epollFds x ⟨t.world.shm, Function.update x.sites i t⟩ :=
  System.of_alone h

/-- Every worker has been started. -/
def Workers.Started (lisInfs : List LisInf) (epollFds : Fin n → Fd) (x : Workers n) : Prop :=
  ∀ i, (x.sites i).Started lisInfs (epollFds i)

/-- No worker has a handler in progress. -/
def Workers.Idle (x : Workers n) : Prop := ∀ i, (x.sites i).Idle

/-- The client descriptors of all workers that were accepted and not closed
yet. -/
def Workers.clients (x : Workers n) : Nat := ∑ i, (x.sites i).world.clients.card

/-- `accept_num - close_num` is their number, in 32 bits. -/
def Workers.Conserved (x : Workers n) : Prop :=
  (x.shared.acceptNum : Int) - x.shared.closeNum ≡ x.clients [ZMOD 2 ^ 32]

/-! ### A worker with one client -/

/-- A handler that is run to its end, with no step of another worker in
between. -/
theorem Site.handle (hev : C ⟨w, ev :: evs, .ret ()⟩ .event) (hgo : ∀ s, C s .go)
    (he : Code.Eval (Stepwise.serverEvent lisInfs epollFd (some ()) ev) w () w') :
    ReflTransGen (Site.Under C lisInfs epollFd) ⟨w, ev :: evs, .ret ()⟩ ⟨w', evs, .ret ()⟩ := by
  refine .head ⟨.event, hev, .event⟩ ?_
  refine ReflTransGen.lift (fun x : Code World Unit × World => (⟨x.2, evs, x.1⟩ : Site)) ?_ _ _
    he.steps
  intro x y hstep
  exact ⟨.go, hgo _, .go hstep⟩

/-- A worker waits, and handles the one event that is reported. -/
theorem Site.round (fd : Fd) {reg : EpollEvent} (hreg : w.interest.get fd = some reg)
    (hptr : ev.ptr = reg.ptr) (hwait : C ⟨w, [], .ret ()⟩ (.wait [fd] [ev]))
    (hev : C ⟨w, [ev], .ret ()⟩ .event) (hgo : ∀ s, C s .go)
    (he : Code.Eval (Stepwise.serverEvent lisInfs epollFd (some ()) ev) w () w') :
    TransGen (Site.Under C lisInfs epollFd) ⟨w, [], .ret ()⟩ ⟨w', [], .ret ()⟩ := by
  have hstep : Site.Step lisInfs epollFd ⟨w, [], .ret ()⟩ (.wait [fd] [ev])
      ⟨w, [ev], .ret ()⟩ := .wait (List.nodup_singleton fd) (.cons ⟨reg, hreg, hptr⟩ .nil)
  exact .head' ⟨_, hwait, hstep⟩ (Site.handle hev hgo he)

/-- A worker that listens on the descriptor 4. -/
def listener (q : List (Except Errno (Fd × Answers))) : World :=
  (epollCtl 7 (.add ⟨inEdge, 1⟩) 4
    ((epollCreate 7 (listening q)).2.newReq ⟨0, 0, .http, none, none, none⟩)).2

theorem listener_started (q : List (Except Errno (Fd × Answers))) :
    Site.Started [⟨4, .http⟩] 7 ⟨listener q, [], .ret ()⟩ where
  setup := ⟨fun _ => ⟨0, 0, .http, none, none, none⟩, 7, listening q, listening_booted q,
    ⟨0, fun _ _ => rfl⟩⟩
  evs := rfl
  idle := rfl

/-- Such workers, on each of which something is pending. -/
def listeners (q : Fin n → List (Except Errno (Fd × Answers))) : Workers n :=
  ⟨0, fun i => ⟨listener (q i), [], .ret ()⟩⟩

theorem listeners_started (q : Fin n → List (Except Errno (Fd × Answers))) :
    (listeners q).Started [⟨4, .http⟩] fun _ => 7 := fun i => listener_started (q i)

/-- A client that sends a request, and takes a part of the response. -/
def asker : List (Except Errno (Fd × Answers)) := [.ok (6, .io [.ok (bytes "GET /")] [.ok 9])]

-- the handlers are evaluated step by step
set_option maxRecDepth 8000 in
/-- It is accepted while the counters are `sd`, and answered and closed while
they are `sd'`. -/
theorem eval_asker (sd sd' : ShmData) : ∃ w₁ w₂ w₃ : World,
    Code.Eval (Stepwise.serverEvent [⟨4, .http⟩] 7 (some ()) ⟨inEdge, 1⟩)
      ((listener asker).setShm sd) () w₁ ∧
    Code.Eval (Stepwise.serverEvent [⟨4, .http⟩] 7 (some ()) ⟨inEdge, 2⟩) (w₁.setShm sd') () w₂ ∧
    Code.Eval (Stepwise.serverEvent [⟨4, .http⟩] 7 (some ()) ⟨outEdge, 2⟩) w₂ () w₃ ∧
    (w₁.interest.get 6 = some ⟨inEdge, 2⟩ ∧ w₂.interest.get 6 = some ⟨outEdge, 2⟩) ∧
    (w₁.reqs.get 2 = some ⟨6, 7, .http, none, none, some ()⟩ ∧ w₂.reqs.get 2 = w₁.reqs.get 2) ∧
    w₁.shm = sd + ⟨1, 0, 0, 0⟩ ∧ w₃.shm = sd' + ⟨0, 1, 1, 1⟩ := by
  constructor
  constructor
  constructor
  refine ⟨?_, ?_, ?_, ?_⟩
  · apply Code.Eval.act ⟨0, fun _ _ => rfl⟩
    apply Code.Eval.act ⟨0, fun _ _ => rfl⟩
    apply Code.Eval.next
    · apply Code.Eval.act ⟨0, fun _ _ => rfl⟩
      apply Code.Eval.act ⟨0, fun _ _ => rfl⟩
      apply Code.Eval.act ⟨0, fun _ _ => rfl⟩
      apply Code.Eval.act ⟨0, fun _ _ => rfl⟩
      apply Code.Eval.act ⟨0, fun _ _ => rfl⟩
      exact .ret
    · apply Code.Eval.exit
      · apply Code.Eval.act ⟨0, fun _ _ => rfl⟩
        exact .ret
      · exact .ret
    · exact .ret
  · apply Code.Eval.act ⟨0, fun _ _ => rfl⟩
    apply Code.Eval.act ⟨0, fun _ _ => rfl⟩
    -- the loop of `read` takes two turns
    apply Code.Eval.act (.of_run 3 fun _ => rfl)
    apply Code.Eval.act ⟨0, fun _ _ => rfl⟩
    apply Code.Eval.act ⟨0, fun _ _ => rfl⟩
    apply Code.Eval.act ⟨0, fun _ _ => rfl⟩
    exact .ret
  · apply Code.Eval.act ⟨0, fun _ _ => rfl⟩
    apply Code.Eval.act ⟨0, fun _ _ => rfl⟩
    apply Code.Eval.act ⟨0, fun _ _ => rfl⟩
    apply Code.Eval.act (.of_run 3 fun _ => rfl)
    apply Code.Eval.act ⟨0, fun _ _ => rfl⟩
    -- the rest is `handle_close`
    apply Code.Eval.act ⟨0, fun _ _ => rfl⟩
    apply Code.Eval.act ⟨0, fun _ _ => rfl⟩
    apply Code.Eval.act ⟨0, fun _ _ => rfl⟩
    apply Code.Eval.act ⟨0, fun _ _ => rfl⟩
    apply Code.Eval.act (.of_run 3 fun _ => rfl)
    apply Code.Eval.act ⟨0, fun _ _ => rfl⟩
    apply Code.Eval.act ⟨0, fun _ _ => rfl⟩
    apply Code.Eval.act ⟨0, fun _ _ => rfl⟩
    exact .ret
  · exact ⟨⟨rfl, rfl⟩, ⟨rfl, rfl⟩, rfl, rfl⟩

/-- Its requests are not about a listener. -/
theorem Site.Grants.of_conn {r : ReqT} (hr : w.reqs.get ev.ptr = some r) (hfd : 1 ≤ r.fd) :
    Site.Grants [⟨4, .http⟩] ⟨w, [ev], .ret ()⟩ .event := by
  intro ev' hev r' l hr' hl
  obtain rfl : ev = ev' := Option.some.inj hev
  obtain rfl : r = r' := Option.some.inj (hr.symm.trans hr')
  rw [List.getElem?_eq_none hfd] at hl
  cases hl

/-- Both conditions. -/
def Site.Fair (lisInfs : List LisInf) (s : Site) (m : Move) : Prop :=
  s.Honest m ∧ s.Grants lisInfs m

/-- The client is accepted in a step of the loop. -/
theorem asker_accepted {sd : ShmData}
    (he : Code.Eval (Stepwise.serverEvent [⟨4, .http⟩] 7 (some ()) ⟨inEdge, 1⟩)
      ((listener asker).setShm sd) () w') :
    TransGen (Site.Under (Site.Fair [⟨4, .http⟩]) [⟨4, .http⟩] 7)
      (Shared.put sd ⟨listener asker, [], .ret ()⟩) ⟨w', [], .ret ()⟩ := by
  refine Site.round 4 rfl rfl ⟨.cons (fun reg hreg hout => by cases hout) .nil, trivial⟩
    ⟨trivial, ?_⟩ (fun _ => ⟨trivial, trivial⟩) he
  intro ev hev r l hr hl
  obtain rfl : ⟨inEdge, 1⟩ = ev := Option.some.inj hev
  cases hr
  cases hl
  exact ⟨⟨rfl, rfl, rfl⟩, trivial⟩

/-- **Two workers with a client each.**  Both accept, and the first reads,
writes and closes while the other one keeps its client. -/
theorem askers_run : ∃ x : Workers 2, Workers.Runs (Site.Fair [⟨4, .http⟩]) [⟨4, .http⟩]
    (fun _ => 7) (listeners fun _ => asker) x ∧ x.Idle ∧ x.shared = ⟨2, 1, 1, 1⟩ := by
  obtain ⟨w₁, w₂, w₃, hacc, hread, hwrite, ⟨hin, hout⟩, ⟨hreq, hreq'⟩, hshm, hdone⟩ :=
    eval_asker 0 ⟨2, 0, 0, 0⟩
  obtain ⟨v₁, -, -, hacc', -, -, -, -, hshm', -⟩ := eval_asker ⟨1, 0, 0, 0⟩ 0
  have hbefore : TransGen (Site.Under (Site.Fair [⟨4, .http⟩]) [⟨4, .http⟩] 7)
      (Shared.put ⟨2, 0, 0, 0⟩ ⟨w₁, [], .ret ()⟩) ⟨w₂, [], .ret ()⟩ :=
    Site.round 6 hin rfl ⟨.cons (fun reg hreg hout => by cases hout) .nil, trivial⟩
      ⟨trivial, .of_conn hreq (by decide)⟩ (fun _ => ⟨trivial, trivial⟩) hread
  have hafter : TransGen (Site.Under (Site.Fair [⟨4, .http⟩]) [⟨4, .http⟩] 7)
      ⟨w₂, [], .ret ()⟩ ⟨w₃, [], .ret ()⟩ := by
    refine Site.round 6 hout rfl ⟨.cons (fun reg hreg _ => ?_) .nil, trivial⟩
      ⟨trivial, .of_conn (hreq'.trans hreq) (by decide)⟩ (fun _ => ⟨trivial, trivial⟩) hwrite
    obtain rfl : ⟨outEdge, 2⟩ = reg := Option.some.inj (hout.symm.trans hreg)
    rfl
  -- the first accepts, the second accepts, the first answers
  have hsecond : TransGen (Site.Under (Site.Fair [⟨4, .http⟩]) [⟨4, .http⟩] 7)
      (Shared.put w₁.shm ⟨listener asker, [], .ret ()⟩) ⟨v₁, [], .ret ()⟩ := by
    rw [hshm]
    exact asker_accepted hacc'
  have hthird : TransGen (Site.Under (Site.Fair [⟨4, .http⟩]) [⟨4, .http⟩] 7)
      (Shared.put v₁.shm ⟨w₁, [], .ret ()⟩) ⟨w₃, [], .ret ()⟩ := by
    rw [hshm']
    exact hbefore.trans hafter
  have hrun : Workers.Runs (Site.Fair [⟨4, .http⟩]) [⟨4, .http⟩] (fun _ => 7)
      (listeners fun _ : Fin 2 => asker) _ := Workers.turn (i := 0) (asker_accepted hacc)
  refine ⟨_, hrun.trans ((Workers.turn (i := 1) hsecond).trans (Workers.turn (i := 0) hthird)),
    ?_, hdone⟩
  intro i
  fin_cases i <;> rfl

/-! ### The statistics -/

/-- A counter of the sum is the sum of the counter. -/
theorem sum_counter (f : ShmData → Nat) (hzero : f 0 = 0) (hadd : ∀ a b, f (a + b) = f a + f b)
    (own : Fin n → ShmData) : f (∑ i, own i) = ∑ i, f (own i) :=
  map_sum (⟨⟨f, hzero⟩, hadd⟩ : ShmData →+ Nat) own Finset.univ

/-- **The shares of the workers.**  What is in the segment is what was there
at the start and what the books of the workers say. -/
theorem Workers.shares (clean asked : Prop) (h₀ : x₀.Started lisInfs epollFds)
    (hC : ∀ d s m, C (shift d s) m → C s m) (hclean : clean → ∀ s m, C s m → s.Grants lisInfs m)
    (hasked : asked → ∀ s m, C s m → s.Honest m) (h : Workers.Runs C lisInfs epollFds x₀ x)
    (hidle : x.Idle) :
    ∃ books : Fin n → Books, x.shared = x₀.shared + ∑ i, (books i).shm ∧
      ∀ i, (books i).clients = (x.sites i).world.clients ∧
        ∃ b : Books, b.shm = 0 ∧ b.clients = ∅ ∧ Books.Steps clean asked b (books i) := by
  obtain ⟨own, hsum, hruns⟩ := System.alone (fun i => Site.under_clear hC) h
  refine ⟨fun i => ((x.sites i).world.setShm (own i)).books, hsum, fun i => ⟨rfl, ?_⟩⟩
  exact (h₀ i).run hclean hasked (hruns i) (hidle i)

/-- **The counters keep their order.**  In every state of every run of any
number of workers in which no handler is in progress, at most as many
responses were written as requests were read and as connections were closed,
and at most as many connections were closed as were accepted. -/
theorem statistics_ordered (h₀ : x₀.Started lisInfs epollFds) (hzero : x₀.shared = 0)
    (h : Workers.Runs Site.Honest lisInfs epollFds x₀ x) (hidle : x.Idle) :
    x.shared.writeNum ≤ x.shared.readNum ∧ x.shared.writeNum ≤ x.shared.closeNum ∧
      x.shared.closeNum ≤ x.shared.acceptNum := by
  have hclear : ∀ d s m, Site.Honest (shift d s) m → Site.Honest s m := by
    intro d s m hm
    cases m <;> exact hm
  obtain ⟨books, hsum, hbooks⟩ := Workers.shares False True h₀ hclear False.elim
    (fun _ _ _ hm => hm) h hidle
  have hord : ∀ i, (books i).Ordered := by
    intro i
    obtain ⟨-, b, hshm, hcl, hsteps⟩ := hbooks i
    exact (Books.ordered_of_empty hshm hcl).steps hsteps
  -- each inequality is one of sums over the workers
  rw [hsum, hzero, zero_add,
    sum_counter _ ShmData.zero_writeNum fun _ _ => ShmData.add_writeNum,
    sum_counter _ ShmData.zero_readNum fun _ _ => ShmData.add_readNum,
    sum_counter _ ShmData.zero_closeNum fun _ _ => ShmData.add_closeNum,
    sum_counter _ ShmData.zero_acceptNum fun _ _ => ShmData.add_acceptNum]
  refine ⟨Finset.sum_le_sum fun i _ => ?_, Finset.sum_le_sum fun i _ => (hord i).write,
    Finset.sum_le_sum fun i _ => ?_⟩
  · exact (Nat.le_add_right _ _).trans (hord i).read
  · exact (Nat.le_add_right _ _).trans (hord i).close

theorem statistics_ordered_two : ∃ x : Workers 2, Workers.Runs Site.Honest [⟨4, .http⟩]
    (fun _ => 7) (listeners fun _ => asker) x ∧ x.Idle ∧ x.shared = ⟨2, 1, 1, 1⟩ ∧
      x.shared.writeNum ≤ x.shared.readNum ∧ x.shared.writeNum ≤ x.shared.closeNum ∧
        x.shared.closeNum ≤ x.shared.acceptNum := by
  obtain ⟨x, hrun, hidle, hshm⟩ := askers_run
  have hhonest := hrun.under fun _ _ h => h.1
  exact ⟨x, hhonest, hidle, hshm, statistics_ordered (listeners_started _) rfl hhonest hidle⟩

/-- **The balance, where no client is lost.**  In a run in which the calls of
`fcntl` and `epoll_ctl` for new clients succeed, and that starts in balance,
`accept_num - close_num` is the number of clients whenever no handler is in
progress. -/
theorem statistics_conserved (h₀ : x₀.Started lisInfs epollFds)
    (hbal : (x₀.shared.acceptNum : Int) ≡ x₀.shared.closeNum [ZMOD 2 ^ 32])
    (h : Workers.Runs (Site.Grants lisInfs) lisInfs epollFds x₀ x) (hidle : x.Idle) :
    x.Conserved := by
  have hclear : ∀ d s m, Site.Grants lisInfs (shift d s) m → Site.Grants lisInfs s m := by
    intro d s m hm
    cases m <;> exact hm
  obtain ⟨books, hsum, hbooks⟩ := Workers.shares True False h₀ hclear (fun _ _ _ hm => hm)
    False.elim h hidle
  have hown : ∀ i, (books i).shm.acceptNum =
      (books i).shm.closeNum + (x.sites i).world.clients.card := by
    intro i
    obtain ⟨hcl', b, hshm, hcl, hsteps⟩ := hbooks i
    rw [← hcl']
    exact (Books.balanced_of_empty hshm hcl).steps hsteps
  have hacc : x.shared.acceptNum = x₀.shared.acceptNum + ∑ i, (books i).shm.acceptNum := by
    rw [hsum, ShmData.add_acceptNum,
      sum_counter _ ShmData.zero_acceptNum fun _ _ => ShmData.add_acceptNum]
  have hclose : x.shared.closeNum = x₀.shared.closeNum + ∑ i, (books i).shm.closeNum := by
    rw [hsum, ShmData.add_closeNum,
      sum_counter _ ShmData.zero_closeNum fun _ _ => ShmData.add_closeNum]
  have hall : ∑ i, (books i).shm.acceptNum = ∑ i, (books i).shm.closeNum + x.clients := by
    rw [Workers.clients, ← Finset.sum_add_distrib]
    exact Finset.sum_congr rfl fun i _ => hown i
  have hdiff : (x.shared.acceptNum : Int) - x.shared.closeNum =
      (x₀.shared.acceptNum : Int) - x₀.shared.closeNum + x.clients := by
    rw [hacc, hclose, hall]
    push_cast
    ring
  have hstart : (x₀.shared.acceptNum : Int) - x₀.shared.closeNum ≡ 0 [ZMOD 2 ^ 32] := by
    have hsub := hbal.sub_right (x₀.shared.closeNum : Int)
    rwa [sub_self] at hsub
  rw [Workers.Conserved, hdiff]
  have hadd := hstart.add_right (x.clients : Int)
  rwa [zero_add] at hadd

theorem statistics_conserved_two : ∃ x : Workers 2, Workers.Runs (Site.Grants [⟨4, .http⟩])
    [⟨4, .http⟩] (fun _ => 7) (listeners fun _ => asker) x ∧ x.Idle ∧ x.shared = ⟨2, 1, 1, 1⟩ ∧
      x.Conserved := by
  obtain ⟨x, hrun, hidle, hshm⟩ := askers_run
  have hgrants := hrun.under fun _ _ h => h.2
  exact ⟨x, hgrants, hidle, hshm,
    statistics_conserved (listeners_started _) (Int.ModEq.refl _) hgrants hidle⟩

/-- A lone worker handles the event of its listener. -/
theorem lone_run {q : List (Except Errno (Fd × Answers))}
    (he : Code.Eval (Stepwise.serverEvent [⟨4, .http⟩] 7 (some ()) ⟨inEdge, 1⟩) (listener q) ()
      w') :
    Workers.Runs (fun _ _ => True) [⟨4, .http⟩] (fun _ => 7) (listeners fun _ : Fin 1 => q)
      ⟨w'.shm, fun _ => ⟨w', [], .ret ()⟩⟩ := by
  have hround : TransGen (Site.Under (fun _ _ => True) [⟨4, .http⟩] 7)
      (Shared.put 0 ⟨listener q, [], .ret ()⟩) ⟨w', [], .ret ()⟩ :=
    Site.round 4 rfl rfl trivial trivial (fun _ => trivial) he
  have hrun : Workers.Runs (fun _ _ => True) [⟨4, .http⟩] (fun _ => 7)
      (listeners fun _ : Fin 1 => q) _ := Workers.turn (i := 0) hround
  have hsites : Function.update (listeners fun _ : Fin 1 => q).sites 0 ⟨w', [], .ret ()⟩ =
      fun _ => ⟨w', [], .ret ()⟩ := by
    funext i
    rw [Subsingleton.elim i 0, Function.update_self]
  rwa [hsites] at hrun

/-- There, the balance is its own. -/
theorem not_conserved {q : List (Except Errno (Fd × Answers))}
    (he : Code.Eval (Stepwise.serverEvent [⟨4, .http⟩] 7 (some ()) ⟨inEdge, 1⟩) (listener q) () w')
    (hne : ¬ (w'.shm.acceptNum : Int) - w'.shm.closeNum ≡ w'.clients.card [ZMOD 2 ^ 32]) :
    ∃ x : Workers 1, Workers.Runs (fun _ _ => True) [⟨4, .http⟩] (fun _ => 7)
      (listeners fun _ => q) x ∧ x.Idle ∧ ¬ x.Conserved := by
  refine ⟨_, lone_run he, fun _ => rfl, ?_⟩
  rw [Workers.Conserved, Workers.clients, Fin.sum_univ_one]
  exact hne

/-- A client that cannot be registered is counted, and closed without being
counted. -/
theorem eval_refused : ∃ w', Code.Eval (Stepwise.serverEvent [⟨4, .http⟩] 7 (some ()) ⟨inEdge, 1⟩)
    (listener [.ok (6, { Answers.io [] [] with ctl := [false] })]) () w' ∧
      w'.shm = ⟨1, 0, 0, 0⟩ ∧ w'.clients.card = 0 := by
  constructor
  constructor
  · apply Code.Eval.act ⟨0, fun _ _ => rfl⟩
    apply Code.Eval.act ⟨0, fun _ _ => rfl⟩
    apply Code.Eval.next
    · apply Code.Eval.act ⟨0, fun _ _ => rfl⟩
      apply Code.Eval.act ⟨0, fun _ _ => rfl⟩
      apply Code.Eval.act ⟨0, fun _ _ => rfl⟩
      apply Code.Eval.act ⟨0, fun _ _ => rfl⟩
      apply Code.Eval.act ⟨0, fun _ _ => rfl⟩
      apply Code.Eval.act ⟨0, fun _ _ => rfl⟩
      exact .ret
    · apply Code.Eval.exit
      · apply Code.Eval.act ⟨0, fun _ _ => rfl⟩
        exact .ret
      · exact .ret
    · exact .ret
  · exact ⟨rfl, by decide⟩

/-- One that cannot be made non-blocking stays open, and is not counted. -/
theorem eval_stranded : ∃ w', Code.Eval (Stepwise.serverEvent [⟨4, .http⟩] 7 (some ()) ⟨inEdge, 1⟩)
    (listener [.ok (6, { Answers.io [] [] with fcntl := [false] })]) () w' ∧
      w'.shm = ⟨0, 0, 0, 0⟩ ∧ w'.clients.card = 1 := by
  constructor
  constructor
  · apply Code.Eval.act ⟨0, fun _ _ => rfl⟩
    apply Code.Eval.act ⟨0, fun _ _ => rfl⟩
    apply Code.Eval.exit
    · apply Code.Eval.act ⟨0, fun _ _ => rfl⟩
      apply Code.Eval.act ⟨0, fun _ _ => rfl⟩
      exact .ret
    · exact .ret
  · exact ⟨rfl, by decide⟩

/-- Either of these calls fails, and the balance is lost. -/
theorem statistics_lose_client :
    (∀ q : Fin 1 → _, (listeners q).Started [⟨4, .http⟩] (fun _ => 7) ∧
      (listeners q).shared = 0) ∧
    (∃ x : Workers 1, Workers.Runs (fun _ _ => True) [⟨4, .http⟩] (fun _ => 7)
      (listeners fun _ => [.ok (6, { Answers.io [] [] with ctl := [false] })]) x ∧
        x.Idle ∧ ¬ x.Conserved) ∧
    ∃ x : Workers 1, Workers.Runs (fun _ _ => True) [⟨4, .http⟩] (fun _ => 7)
      (listeners fun _ => [.ok (6, { Answers.io [] [] with fcntl := [false] })]) x ∧
        x.Idle ∧ ¬ x.Conserved := by
  refine ⟨fun q => ⟨listeners_started q, rfl⟩, ?_, ?_⟩
  · obtain ⟨w', he, hshm, hcl⟩ := eval_refused
    refine not_conserved he ?_
    rw [hshm, hcl]
    decide
  · obtain ⟨w', he, hshm, hcl⟩ := eval_stranded
    refine not_conserved he ?_
    rw [hshm, hcl]
    decide

end workers

end DmfServer
