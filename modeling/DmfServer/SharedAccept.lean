/-
DmfServer/SharedAccept.lean

All workers at one listener.

`main` opens the listeners before the master forks, so the workers share them.
Each has the listener in an epoll set of its own, edge triggered: a connection
that arrives is an edge for all of them, and whoever calls `accept` first gets
it.  A worker that was woken stays in its accept loop until nothing is
pending; if it ends the loop early, it hears of the listener again when the
next connection arrives.

A step of the system (`step`) is a turn of an accept loop, run by the program
of `DmfServer.Events` over the world of one worker, to which the common queue
is lent (`Crew.lend`).  Between its accept loops a worker does with its world
what it likes; it can be killed at any time, and started again.

Each connection goes to one worker, in the order of their arrival
(`crew_delivers`).  A connection that is pending is on the way to every worker
that has not ended its accept loop early since the last arrival, and such a
worker by itself empties the queue or ends its loop early (`crew_pending`).  So
a connection is left behind only where every worker met something it could
not accept: with `n` workers it takes `n` of these, and `n` are enough
(`crew_strands_iff`).
-/
import DmfServer.Drain
import DmfServer.Threads
import Mathlib.Data.List.Nodup
import Mathlib.Data.List.Count

namespace DmfServer.SharedAccept

open Imperative Imperative.Prog Strings World

/-! ### The accept loops by their parts -/

/-- What `accept` answers for: a connection, or one that was aborted. -/
abbrev Pending : Type := Except Errno (Fd × Answers)

/-- An accept loop: what is made before it, and its turn. -/
structure Acceptor where
  /-- what the loop works with -/
  ρ : Type
  /-- the loop variable -/
  β : Type
  enter : Prog World ρ
  start : β
  turn : Fd → ρ → β → Prog World (β ⊕ Unit)

def Acceptor.run (a : Acceptor) (epollFd : Fd) : Prog World Unit := do
  let r ← a.enter
  loop (a.turn epollFd r) a.start

/-- The loop of `event_accept_http`. -/
def httpAcceptor (type : LisType) (serfd : Fd) : Acceptor where
  ρ := Unit
  β := Unit
  enter := pure ()
  start := ()
  turn epollFd _ _ := acceptTurn serfd (registerHttp type epollFd (some ()))

/-- The loop of `event_accept_https`. -/
def httpsAcceptor (type : LisType) (serfd : Fd) : Acceptor where
  ρ := Addr
  β := Nat
  enter := do
    let ssl ← sslNew
    newReqT ⟨0, 0, type, none, some ssl, none⟩
  start := 0
  turn epollFd req retryTimes := acceptTurn serfd (registerHttps epollFd req retryTimes)

/-- The loop `handle_accept` enters; for `TCP_PROXY` there is none. -/
def acceptor (l : LisInf) : Acceptor :=
  match l.type with
  | .http => httpAcceptor .http l.fd
  | .https => httpsAcceptor .https l.fd
  | .httpProxy => httpAcceptor .httpProxy l.fd
  | .httpsProxy => httpsAcceptor .httpsProxy l.fd
  | .tcpProxy => ⟨Unit, Unit, pure (), (), fun _ _ _ => pure (Sum.inr ())⟩

theorem httpsAcceptor_run (type : LisType) (serfd epollFd : Fd) :
    (httpsAcceptor type serfd).run epollFd = eventAcceptHttps type serfd epollFd :=
  Prog.bind_assoc sslNew (fun ssl => newReqT ⟨0, 0, type, none, some ssl, none⟩) _

/-- The parts make up the handler. -/
theorem handleAccept_eq {l : LisInf} (hl : l.type ≠ .tcpProxy) (epollFd : Fd) :
    handleAccept l epollFd (some ()) = (acceptor l).run epollFd := by
  obtain ⟨serfd, type⟩ := l
  rcases type with - | - | - | - | -
  · rfl
  · exact (httpsAcceptor_run .https serfd epollFd).symm
  · rfl
  · exact (httpsAcceptor_run .httpsProxy serfd epollFd).symm
  · exact absurd rfl hl

/-! ### What a turn does to the queue -/

/-- The worker's world while it works on the queue `q`. -/
def offer (serfd : Fd) (q : List Pending) (w : World) : World :=
  { w with backlog := Function.update w.backlog serfd q }

/-- A connection every worker can take: it can be made non-blocking, and the
client has its part of the handshake ready. -/
def welcome (type : LisType) : Pending → Bool
  | .ok c => c.2.fcntl.headD true && c.2.fcntl.tail.headD true &&
      (decide (type ≠ .https ∧ type ≠ .httpsProxy) || decide (c.2.handshake.head? = some .done))
  | .error _ => false

/-- What the workers rely on: a turn takes the first connection of the queue,
and if it ends the loop there the connection was not welcome.  `I` is what
holds between two turns. -/
structure Acceptor.Takes (a : Acceptor) (serfd : Fd) (good : Pending → Bool)
    (I : a.ρ → a.β → World → Prop) : Prop where
  enter : ∀ w : World, ∃ r w', Returns a.enter w r w' ∧ I r a.start w' ∧ w'.low = w.low ∧
    w'.backlog = w.backlog
  offered : ∀ r b w q, I r b w → I r b (offer serfd q w)
  nothing : ∀ epollFd r b w, w.backlog serfd = [] → ∃ w',
    Returns (a.turn epollFd r b) w (Sum.inr ()) w' ∧ w'.low = w.low ∧ w'.backlog serfd = []
  first : ∀ epollFd r b w x q, I r b w → 0 < w.low → w.backlog serfd = x :: q → ∃ y w',
    Returns (a.turn epollFd r b) w y w' ∧ w'.low = w.low ∧ w'.backlog serfd = q ∧
      (∀ b', y = Sum.inl b' → I r b' w') ∧ (y = Sum.inr () → good x = false) ∧
      (∀ e, x = .error e → y = Sum.inr ())

section takes

variable {w : World} {serfd : Fd} {x : Pending} {q : List Pending} {β : Type}
variable {register : Fd → Prog World (β ⊕ Unit)}

theorem acceptTurn_nothing (h : w.backlog serfd = []) : ∃ w',
    Returns (acceptTurn serfd register) w (Sum.inr ()) w' ∧ w'.low = w.low ∧
      w'.backlog serfd = [] :=
  ⟨_, acceptTurn_error (.inl ⟨h, rfl, rfl⟩), rfl, Function.update_self ..⟩

/-- The turn, where `register` is known for what is admitted. -/
theorem acceptTurn_first {type : LisType} {I : β → World → Prop} (hlow : 0 < w.low)
    (h : w.backlog serfd = x :: q)
    (hreg : ∀ c f, x = .ok c → f.handshake = c.2.handshake → ∃ y w',
      Returns (register (w.fds.pick w.low c.1)) (w.arrive serfd (w.fds.pick w.low c.1) q f) y w' ∧
        w'.low = w.low ∧ w'.backlog serfd = q ∧ (∀ b', y = Sum.inl b' → I b' w') ∧
        (y = Sum.inr () → welcome type x = false)) :
    ∃ y w', Returns (acceptTurn serfd register) w y w' ∧ w'.low = w.low ∧ w'.backlog serfd = q ∧
      (∀ b', y = Sum.inl b' → I b' w') ∧ (y = Sum.inr () → welcome type x = false) ∧
      (∀ e, x = .error e → y = Sum.inr ()) := by
  rcases x with e | c
  · refine ⟨_, _, acceptTurn_error (.inr h), rfl, Function.update_self .., ?_, fun _ => rfl,
      fun _ _ => rfl⟩
    rintro b' ⟨⟩
  · by_cases hadm : w.Admits c
    · obtain ⟨f, -, hshake, hturn⟩ := acceptTurn_admitted register h hadm
      obtain ⟨y, w', hret, hlow', hq, hinl, hinr⟩ := hreg c f rfl hshake
      exact ⟨y, w', hturn hret, hlow', hq, hinl, hinr, nofun⟩
    · obtain ⟨f, hret⟩ :=
        show ∃ f, Returns (acceptTurn serfd register) w (Sum.inr ())
          (w.arrive serfd (w.fds.pick w.low c.1) q f) from acceptTurn_rejected h hadm
      refine ⟨_, _, hret, rfl, Function.update_self .., ?_, fun _ => ?_, nofun⟩
      · rintro b' ⟨⟩
      · -- the descriptor is not the reason
        have hpos : 0 < w.fds.pick w.low c.1 := Table.pick_pos_iff.mpr fun hz =>
          absurd hz.1 (Nat.pos_iff_ne_zero.mp hlow)
        by_contra hw
        rw [Bool.not_eq_false, welcome, Bool.and_eq_true, Bool.and_eq_true] at hw
        exact hadm ⟨hpos, hw.1.1, hw.1.2⟩

end takes

theorem httpAcceptor_takes (type : LisType) (serfd : Fd) :
    (httpAcceptor type serfd).Takes serfd (welcome type) fun _ _ _ => True where
  enter w := ⟨(), w, returns_pure.mpr ⟨rfl, rfl⟩, trivial, rfl, rfl⟩
  offered _ _ _ _ _ := trivial
  nothing _ _ _ _ h := acceptTurn_nothing h
  first epollFd _ _ w x q _ hlow h := by
    refine acceptTurn_first (I := fun _ _ => True) hlow h fun c f _ _ => ?_
    obtain ⟨w', hret, hl, -, hback, -⟩ := registerHttp_returns type epollFd
      (w.fds.pick w.low c.1) (w.arrive serfd (w.fds.pick w.low c.1) q f)
    refine ⟨_, w', hret, hl, ?_, fun _ _ => trivial, fun hy => by cases hy⟩
    rw [hback]
    exact Function.update_self ..

/-- The object and its session are there. -/
def InSession (req : Addr) (_ : Nat) (w : World) : Prop :=
  ∃ s r finished, Session w req s r finished

theorem httpsAcceptor_takes {type : LisType} (htype : type = .https ∨ type = .httpsProxy)
    (serfd : Fd) : (httpsAcceptor type serfd).Takes serfd (welcome type) InSession where
  enter w := by
    refine ⟨_, httpsStart type w, returns_call_bind.mpr (returns_call.mpr rfl), ?_, rfl, rfl⟩
    exact ⟨_, _, _, httpsStart_session type w⟩
  offered _ _ _ _ := by
    rintro ⟨s, r, finished, h⟩
    exact ⟨s, r, finished, h.req, h.ssl, h.live⟩
  nothing _ _ _ _ h := acceptTurn_nothing h
  first epollFd req k w x q := by
    rintro ⟨s, r, finished, hs⟩ hlow h
    refine acceptTurn_first (I := InSession req) hlow h ?_
    rintro c f rfl hshake
    have hs' : Session (w.arrive serfd (w.fds.pick w.low c.1) q f) req s r finished :=
      ⟨hs.req, hs.ssl, hs.live⟩
    rcases hk : joins finished k f.handshake with - | k'
    · obtain ⟨f', hret⟩ := registerHttps_failed epollFd hs' arrive_fileAt hk
      refine ⟨_, _, hret, rfl, Function.update_self .., fun _ hy => (by cases hy), fun _ => ?_⟩
      -- a handshake that is done at once succeeds
      rw [hshake] at hk
      have hno : c.2.handshake.head? ≠ some .done := by
        intro hdone
        obtain ⟨rest, hrest⟩ := List.head?_eq_some_iff.mp hdone
        have hsome : joins finished k c.2.handshake = some k := by
          rw [hrest]
          cases finished <;> rfl
        rw [hk] at hsome
        cases hsome
      rw [welcome, decide_eq_false hno, decide_eq_false (fun hn => htype.elim hn.1 hn.2)]
      exact Bool.and_false _
    · obtain ⟨f', -, hret⟩ := registerHttps_done epollFd hs' arrive_fileAt hk
      rw [arrive_setFile] at hret
      obtain ⟨w₂, he, hs₂, hl, -, hback⟩ := hs.registered epollFd serfd (w.fds.pick w.low c.1) q f'
      rw [he] at hret
      refine ⟨_, w₂, hret, hl, hback, ?_, fun hy => by cases hy⟩
      rintro k₂ ⟨⟩
      exact ⟨s, _, true, hs₂⟩

/-- What holds between two turns of the loop at `l`. -/
def Between (l : LisInf) : (acceptor l).ρ → (acceptor l).β → World → Prop :=
  match l with
  | ⟨_, .http⟩ => fun _ _ _ => True
  | ⟨_, .https⟩ => InSession
  | ⟨_, .httpProxy⟩ => fun _ _ _ => True
  | ⟨_, .httpsProxy⟩ => InSession
  | ⟨_, .tcpProxy⟩ => fun _ _ _ => True

theorem acceptor_takes {l : LisInf} (hl : l.type ≠ .tcpProxy) :
    (acceptor l).Takes l.fd (welcome l.type) (Between l) := by
  obtain ⟨serfd, type⟩ := l
  rcases type with - | - | - | - | -
  · exact httpAcceptor_takes .http serfd
  · exact httpsAcceptor_takes (.inl rfl) serfd
  · exact httpAcceptor_takes .httpProxy serfd
  · exact httpsAcceptor_takes (.inr rfl) serfd
  · exact absurd rfl hl

/-! ### The workers and the queue -/

/-- Where a worker is. -/
inductive Stage (l : LisInf) where
  | down
  /-- outside of the accept loop -/
  | waiting
  /-- before a turn of the accept loop -/
  | accepting (r : (acceptor l).ρ) (b : (acceptor l).β)

structure Member (l : LisInf) where
  world : World
  epollFd : Fd
  /-- the listener is in the epoll set -/
  watching : Bool
  /-- `epoll_wait` has the listener to report -/
  ready : Bool
  stage : Stage l

/-- What happened to connections. -/
inductive Note where
  | arrived (x : Pending)
  /-- a worker's `accept` answered for it, and the loop went on or not -/
  | took (p : Nat) (x : Pending) (stays : Bool)
  /-- a worker's `accept` failed by itself -/
  | failed (p : Nat) (e : Errno)

structure Crew (l : LisInf) where
  /-- what is pending -/
  queue : List Pending
  members : Nat → Member l
  log : List Note

variable {l : LisInf}

def Stage.isDown : Stage l → Bool
  | .down => true
  | _ => false

def Stage.isWaiting : Stage l → Bool
  | .waiting => true
  | _ => false

/-- No worker runs. -/
def Crew.init (worlds : Nat → World) : Crew l :=
  ⟨[], fun p => ⟨worlds p, 0, false, false, .down⟩, []⟩

def Crew.set (p : Nat) (m : Member l) (s : Crew l) : Crew l :=
  { s with members := Function.update s.members p m }

@[simp] theorem set_members_self (p : Nat) (m : Member l) (s : Crew l) :
    (s.set p m).members p = m := Function.update_self ..

@[simp] theorem set_set (p : Nat) (m m' : Member l) (s : Crew l) :
    (s.set p m).set p m' = s.set p m' := by
  simp [Crew.set, Function.update_idem]

@[simp] theorem set_queue (p : Nat) (m : Member l) (s : Crew l) : (s.set p m).queue = s.queue := rfl

/-- The queue is lent to the world of a worker, behind what `accept` answers
before it. -/
def Crew.lend (p : Nat) (early : List Pending) (s : Crew l) : World :=
  offer l.fd (early ++ s.queue) (s.members p).world

/-- The worker is done with the queue. -/
def Crew.giveBack (p : Nat) (w : World) (s : Crew l) : Crew l :=
  { s with
    queue := w.backlog l.fd
    members := Function.update s.members p { s.members p with world := w } }

theorem giveBack_eq {p : Nat} {w : World} {s : Crew l} (h : w.backlog l.fd = s.queue) :
    s.giveBack p w = s.set p { s.members p with world := w } := by
  rw [Crew.giveBack, h]
  rfl

/-- An edge for everybody. -/
def Crew.arrive (x : Pending) (s : Crew l) : Crew l :=
  { queue := s.queue ++ [x]
    members := fun p => { s.members p with ready := (s.members p).watching }
    log := s.log ++ [.arrived x] }

/-- A new epoll set reports a listener at which something is pending. -/
def Crew.join (p : Nat) (epollFd : Fd) (s : Crew l) : Crew l :=
  let watching := ((s.members p).world.interest.get l.fd).isSome
  s.set p { s.members p with
    epollFd, watching, ready := watching && !s.queue.isEmpty, stage := .waiting }

def Crew.wake (p : Nat) (r : (acceptor l).ρ) (s : Crew l) : Crew l :=
  s.set p { s.members p with ready := false, stage := .accepting r (acceptor l).start }

/-- A turn is over. -/
def Crew.turned (p : Nat) (notes : List Note) (stage : Stage l) (s : Crew l) : Crew l :=
  { s with
    members := Function.update s.members p { s.members p with stage }
    log := s.log ++ notes }

/-- What happens next. -/
inductive Act where
  | arrive (x : Pending)
  /-- The worker is forked with the world `w`, and runs `server_make`. -/
  | start (p : Nat) (w : World) (junk : Nat → ReqT) (hint : Fd)
  | wake (p : Nat)
  | accept (p : Nat)
  /-- `accept` fails, and not for what is pending. -/
  | fail (p : Nat) (e : Errno)
  /-- The worker handles other events, which leave the world `w`. -/
  | serve (p : Nat) (w : World)
  | kill (p : Nat)

/-- The turn of a worker that is in its accept loop. -/
def takeTurn (p : Nat) (early : List Pending) (notes : List Pending → Bool → List Note) :
    Prog (Crew l) Unit := do
  match ← load fun s => (s.members p).stage with
  | .accepting r b => do
      let q ← load Crew.queue
      let epollFd ← load fun s => (s.members p).epollFd
      match ← zoom (Crew.lend p early) (Crew.giveBack p) ((acceptor l).turn epollFd r b) with
      | .inl b' => store (Crew.turned p (notes q true) (.accepting r b'))
      | .inr _ => store (Crew.turned p (notes q false) .waiting)
  | _ => do
      await fun _ => false
      pure ()

def failNotes (p : Nat) (e : Errno) (_ : List Pending) (_ : Bool) : List Note := [.failed p e]

/-- Something that was pending has been taken. -/
def acceptNotes (p : Nat) (q : List Pending) (stays : Bool) : List Note :=
  (q.head?.map fun x => .took p x stays).toList

/-- One step of the workers at the listener `l` of the table `lisInfs`. -/
def step (l : LisInf) (lisInfs : List LisInf) : Act → Prog (Crew l) Unit
  | .arrive x => store (Crew.arrive x)
  | .start p w junk hint => do
      await fun s => (s.members p).stage.isDown && decide (0 < w.low)
      store fun s => s.set p { s.members p with world := w }
      let epollFd ← zoom (Crew.lend p []) (Crew.giveBack p) (serverSetup junk hint lisInfs)
      store (Crew.join p epollFd)
  | .wake p => do
      await fun s => (s.members p).stage.isWaiting && (s.members p).ready
      let r ← zoom (Crew.lend p []) (Crew.giveBack p) (acceptor l).enter
      store (Crew.wake p r)
  | .accept p => takeTurn p [] (acceptNotes p)
  | .fail p e => takeTurn p [.error e] (failNotes p e)
  | .serve p w => do
      await fun s => (s.members p).stage.isWaiting && decide (0 < w.low)
      store fun s => s.set p { s.members p with world := w }
  | .kill p => store fun s =>
      s.set p { s.members p with watching := false, ready := false, stage := .down }

/-! ### The invariant -/

variable {lisInfs : List LisInf} {s s' : Crew l} {p p' : Nat} {log log' notes : List Note}
variable {x : Pending} {q q' : List Pending} {m : Member l} {w w' : World}

def Note.arrival? : Note → Option Pending
  | .arrived x => some x
  | _ => none

def Note.taken? : Note → Option Pending
  | .took _ x _ => some x
  | _ => none

/-- The worker that ended its accept loop although something was pending. -/
def Note.leaver? : Note → Option Nat
  | .took p _ false => some p
  | .failed p _ => some p
  | _ => none

/-- The worker has ended its accept loop early, and nothing has arrived
since. -/
def GaveUp (log : List Note) (p : Nat) : Prop :=
  ∃ l₁ n l₂, log = l₁ ++ n :: l₂ ∧ n.leaver? = some p ∧ ∀ n' ∈ l₂, n'.arrival? = none

theorem GaveUp.append (h : GaveUp log p) (hnotes : ∀ n ∈ notes, n.arrival? = none) :
    GaveUp (log ++ notes) p := by
  obtain ⟨l₁, n, l₂, rfl, hn, hl₂⟩ := h
  refine ⟨l₁, n, l₂ ++ notes, List.append_assoc l₁ (n :: l₂) notes, hn, fun n' hn' => ?_⟩
  exact (List.mem_append.mp hn').elim (hl₂ n') (hnotes n')

theorem GaveUp.now {n : Note} (hn : n.leaver? = some p) : GaveUp (log ++ [n]) p :=
  ⟨log, n, [], rfl, hn, fun _ h => absurd h List.not_mem_nil⟩

def Stage.Accepting (g : Stage l) : Prop := ∃ r b, g = .accepting r b

/-- A worker, where `q` is pending. -/
structure Member.Sound (q : List Pending) (log : List Note) (p : Nat) (m : Member l) : Prop where
  down : m.stage = .down → m.watching = false
  low : m.stage ≠ .down → 0 < m.world.low
  between : ∀ r b, m.stage = .accepting r b → Between l r b m.world
  pending : m.watching → q ≠ [] → m.ready ∨ m.stage.Accepting ∨ GaveUp log p

structure Crew.Sound (s : Crew l) : Prop where
  queue : s.log.filterMap Note.taken? ++ s.queue = s.log.filterMap Note.arrival?
  cause : ∀ p x, Note.took p x false ∈ s.log → welcome l.type x = false
  member : ∀ p, (s.members p).Sound s.queue s.log p

/-- What the others see of a step: the queue does not grow, and nothing
arrives. -/
theorem Member.Sound.others (h : m.Sound q log p) (hq : q' ≠ [] → q ≠ [])
    (hnotes : ∀ n ∈ notes, n.arrival? = none) : m.Sound q' (log ++ notes) p where
  down := h.down
  low := h.low
  between := h.between
  pending hw hne := (h.pending hw (hq hne)).imp_right fun h => h.imp_right fun h => h.append hnotes

theorem init_sound (worlds : Nat → World) : (Crew.init worlds : Crew l).Sound where
  queue := rfl
  cause _ _ h := absurd h List.not_mem_nil
  member _ := ⟨fun _ => rfl, fun h => absurd rfl h, fun _ _ h => (by cases h),
    fun h => (by cases h)⟩

/-- A step of one worker. -/
theorem Crew.Sound.move (h : s.Sound) (hmembers : s'.members = Function.update s.members p m)
    (hlog : s'.log = s.log ++ notes) (hnotes : ∀ n ∈ notes, n.arrival? = none)
    (hqueue : s.queue = notes.filterMap Note.taken? ++ s'.queue)
    (hcause : ∀ p x, Note.took p x false ∈ notes → welcome l.type x = false)
    (hm : m.Sound s'.queue s'.log p) : s'.Sound where
  queue := by
    have hnone : notes.filterMap Note.arrival? = [] :=
      List.filterMap_eq_nil_iff.mpr fun n hn => hnotes n hn
    rw [hlog, List.filterMap_append, List.filterMap_append, hnone, List.append_nil, ← h.queue,
      hqueue, List.append_assoc]
  cause p' x hx := by
    rw [hlog] at hx
    exact (List.mem_append.mp hx).elim (h.cause p' x) (hcause p' x)
  member p' := by
    rw [hmembers]
    rcases eq_or_ne p' p with rfl | hne
    · rw [Function.update_self]
      exact hm
    · rw [Function.update_of_ne hne, hlog]
      refine (h.member p').others (fun hne' hnil => hne' ?_) hnotes
      rw [hqueue] at hnil
      exact (List.append_eq_nil_iff.mp hnil).2

/-- A step by which nothing is taken. -/
theorem Crew.Sound.set (h : s.Sound) (hm : m.Sound s.queue s.log p) : (s.set p m).Sound :=
  h.move rfl (List.append_nil s.log).symm nofun rfl nofun hm

/-! ### The steps -/

theorem serverListen_rest (junk : Nat → ReqT) (epollFd : Fd) (k : Nat) (lisInfs : List LisInf)
    (w : World) : ∃ w', Returns (serverListen junk epollFd k lisInfs) w () w' ∧
      w'.low = w.low ∧ w'.backlog = w.backlog := by
  induction lisInfs generalizing k w with
  | nil => exact ⟨w, returns_pure.mpr ⟨rfl, rfl⟩, rfl, rfl⟩
  | cons l lisInfs ih =>
      obtain ⟨I, F, hrest⟩ := epollCtl_rest epollFd (.add ⟨inEdge, w.reqs.bound⟩) l.fd
        (w.newReq { junk k with fd := k, data := none })
      obtain ⟨w', hret, hlow, hback⟩ := ih (k + 1)
        { w.newReq { junk k with fd := k, data := none } with interest := I, files := F }
      refine ⟨w', ?_, hlow, hback⟩
      rw [serverListen, newReqT, returns_call_bind, returns_call_bind, hrest]
      exact hret

theorem serverSetup_rest (junk : Nat → ReqT) (hint : Fd) (lisInfs : List LisInf) (w : World) :
    ∃ epollFd w', Returns (serverSetup junk hint lisInfs) w epollFd w' ∧ w'.low = w.low ∧
      w'.backlog = w.backlog := by
  obtain ⟨w', hret, hlow, hback⟩ := serverListen_rest junk (epollCreate hint w).1 0 lisInfs
    (epollCreate hint w).2
  refine ⟨(epollCreate hint w).1, w', ?_, hlow, hback⟩
  rw [serverSetup, returns_call_bind]
  exact hret.bind (returns_pure.mpr ⟨rfl, rfl⟩)

/-- What a turn leaves of a worker. -/
structure Turned (l : LisInf) (q : List Pending) (w w' : World) (g : Stage l) (stays : Bool) :
    Prop where
  low : w'.low = w.low
  rest : w'.backlog l.fd = q.tail
  on : stays = true → ∃ r b, g = .accepting r b ∧ Between l r b w'
  off : stays = false → g = .waiting ∧ ∀ x ∈ q.head?, welcome l.type x = false
  error : ∀ e, q.head? = some (.error e) → stays = false

/-- The turn of a worker that is in its accept loop. -/
theorem takeTurn_ends (hl : l.type ≠ .tcpProxy) (h : (s.members p).Sound s.queue s.log p)
    {r : (acceptor l).ρ} {b : (acceptor l).β} (hst : (s.members p).stage = .accepting r b)
    (early : List Pending) (notes : List Pending → Bool → List Note) :
    Ends (takeTurn p early notes) s fun _ s' => ∃ w g stays,
      Turned l (early ++ s.queue) (s.members p).world w g stays ∧
      s' = (s.giveBack p w).turned p (notes s.queue stays) g := by
  have hbetween := (acceptor_takes hl).offered r b _ (early ++ s.queue) (h.between r b hst)
  have hlow : 0 < (s.members p).world.low := h.low (by rw [hst]; exact nofun)
  have hback : (s.lend p early).backlog l.fd = early ++ s.queue := Function.update_self ..
  rw [takeTurn, ends_bind_iff (returns_load.mpr ⟨rfl, rfl⟩), hst]
  rw [ends_bind_iff (returns_load.mpr ⟨rfl, rfl⟩), ends_bind_iff (returns_load.mpr ⟨rfl, rfl⟩)]
  rcases hq : early ++ s.queue with - | ⟨x, q⟩
  · rw [hq] at hback
    obtain ⟨w', hret, hlow', hq'⟩ := (acceptor_takes hl).nothing (s.members p).epollFd r b
      (s.lend p early) hback
    rw [ends_bind_iff hret.zoom]
    refine ends_store.mpr ⟨w', .waiting, false, ⟨hlow', hq', nofun, fun _ => ?_, nofun⟩, rfl⟩
    exact ⟨rfl, by simp⟩
  · rw [hq] at hback
    obtain ⟨y, w', hret, hlow', hq', hinl, hinr, herror⟩ :=
      (acceptor_takes hl).first (s.members p).epollFd r b (s.lend p early) x q
        hbetween hlow hback
    rw [ends_bind_iff hret.zoom]
    rcases y with b' | ⟨⟩
    · refine ends_store.mpr
        ⟨w', .accepting r b', true, ⟨hlow', hq', fun _ => ?_, nofun, fun e he => ?_⟩, rfl⟩
      · exact ⟨r, b', rfl, hinl b' rfl⟩
      · cases herror e (Option.some.inj he)
    · refine ends_store.mpr
        ⟨w', .waiting, false, ⟨hlow', hq', nofun, fun _ => ?_, fun _ _ => rfl⟩, rfl⟩
      refine ⟨rfl, fun x' hx' => ?_⟩
      obtain rfl : x = x' := Option.some.inj hx'
      exact hinr rfl

/-- What the notes of a turn say. -/
structure Tells (p : Nat) (early q : List Pending) (stays : Bool) (notes : List Note) : Prop where
  arrival : ∀ n ∈ notes, n.arrival? = none
  taken : q = notes.filterMap Note.taken? ++ (early ++ q).tail
  cause : ∀ p' x, Note.took p' x false ∈ notes → stays = false ∧ x ∈ (early ++ q).head?
  leaver : stays = false → (early ++ q).tail ≠ [] → ∃ n, notes = [n] ∧ n.leaver? = some p

theorem tells_accept (p : Nat) (q : List Pending) (stays : Bool) :
    Tells p [] q stays (acceptNotes p q stays) := by
  rcases q with - | ⟨x, q⟩
  · exact ⟨nofun, rfl, nofun, fun _ h => absurd rfl h⟩
  · refine ⟨?_, rfl, ?_, ?_⟩
    · intro n hn
      obtain rfl := List.mem_singleton.mp hn
      rfl
    · intro p' x' hx'
      cases List.mem_singleton.mp hx'
      exact ⟨rfl, rfl⟩
    · rintro rfl -
      exact ⟨_, rfl, rfl⟩

theorem tells_fail (p : Nat) (e : Errno) (q : List Pending) (stays : Bool) :
    Tells p [.error e] q stays (failNotes p e q stays) where
  arrival n hn := by
    obtain rfl := List.mem_singleton.mp hn
    rfl
  taken := rfl
  cause p' x hx := by cases List.mem_singleton.mp hx
  leaver _ _ := ⟨_, rfl, rfl⟩

theorem takeTurn_sound (hl : l.type ≠ .tcpProxy) (h : s.Sound) {early : List Pending}
    {notes : List Pending → Bool → List Note}
    (htells : ∀ stays, Tells p early s.queue stays (notes s.queue stays))
    (hret : Returns (takeTurn p early notes) s () s') : s'.Sound := by
  rcases hst : (s.members p).stage with - | - | ⟨r, b⟩
  · rw [takeTurn, returns_load_bind, hst] at hret
    cases (returns_await_bind.mp hret).1
  · rw [takeTurn, returns_load_bind, hst] at hret
    cases (returns_await_bind.mp hret).1
  · obtain ⟨w, g, stays, ht, rfl⟩ :=
      (takeTurn_ends hl (h.member p) hst early notes).of_returns hret
    have hn := htells stays
    have hlow : 0 < (s.members p).world.low := (h.member p).low (by rw [hst]; exact nofun)
    refine h.move (p := p)
      (m := { s.members p with world := w, stage := g }) ?_ rfl hn.arrival ?_ ?_ ?_
    · show Function.update (Function.update s.members p _) p _ = _
      rw [Function.update_idem]
      show Function.update s.members p
        { (Function.update s.members p { s.members p with world := w } p) with stage := g } = _
      rw [Function.update_self]
    · show s.queue = _ ++ w.backlog l.fd
      rw [ht.rest]
      exact hn.taken
    · intro p' x hx
      obtain ⟨hoff, hhead⟩ := hn.cause p' x hx
      exact (ht.off hoff).2 x hhead
    · refine ⟨?_, fun _ => ht.low ▸ hlow, ?_, fun _ hq => ?_⟩
      · rintro rfl
        cases stays with
        | true =>
            obtain ⟨_, _, hf, -⟩ := ht.on rfl
            cases hf
        | false => cases (ht.off rfl).1
      · intro r' b' hg
        replace hg : g = .accepting r' b' := hg
        cases stays with
        | true =>
            obtain ⟨r₁, b₁, rfl, hb⟩ := ht.on rfl
            cases hg
            exact hb
        | false =>
            rw [(ht.off rfl).1] at hg
            cases hg
      · cases stays with
        | true =>
            obtain ⟨r₁, b₁, rfl, -⟩ := ht.on rfl
            exact .inr (.inl ⟨r₁, b₁, rfl⟩)
        | false =>
            replace hq : w.backlog l.fd ≠ [] := hq
            rw [ht.rest] at hq
            obtain ⟨n, hnotes, hleaver⟩ := hn.leaver rfl hq
            refine .inr (.inr ?_)
            show GaveUp (s.log ++ notes s.queue false) p
            rw [hnotes]
            exact .now hleaver

theorem arrive_sound (h : s.Sound) (x : Pending) : (s.arrive x).Sound where
  queue := by
    show (s.log ++ [Note.arrived x]).filterMap Note.taken? ++ (s.queue ++ [x]) = _
    rw [List.filterMap_append, ← List.append_assoc]
    show s.log.filterMap Note.taken? ++ [] ++ s.queue ++ [x] = (s.log ++ [_]).filterMap _
    rw [List.append_nil, h.queue, List.filterMap_append]
    rfl
  cause p' x' hx' := by
    refine (List.mem_append.mp hx').elim (h.cause p' x') fun hf => ?_
    cases List.mem_singleton.mp hf
  member p' := by
    have hm := h.member p'
    exact ⟨hm.down, hm.low, hm.between, fun hw _ => .inl hw⟩

/-- A program of the worker that is not about the queue. -/
theorem zoom_away {α : Type} {r : Prog World α} {a : α} (hret : Returns r (s.lend p []) a w)
    (hback : w.backlog = (s.lend p []).backlog) :
    Returns (zoom (Crew.lend p []) (Crew.giveBack p) r) s a
      (s.set p { s.members p with world := w }) := by
  have hqueue : w.backlog l.fd = s.queue := by
    rw [hback]
    exact Function.update_self ..
  rw [← giveBack_eq hqueue]
  exact hret.zoom

/-- **The invariant.** -/
theorem step_sound (hl : l.type ≠ .tcpProxy) (act : Act) (h : s.Sound)
    (hret : Returns (step l lisInfs act) s () s') : s'.Sound := by
  cases act with
  | arrive x =>
      rw [← returns_store.mp hret]
      exact arrive_sound h x
  | start p w junk hint =>
      obtain ⟨hok, hret⟩ := returns_await_bind.mp hret
      rw [Bool.and_eq_true, decide_eq_true_eq] at hok
      rw [returns_store_bind] at hret
      obtain ⟨epollFd, w', hsetup, hlow, hback⟩ := serverSetup_rest junk hint lisInfs
        ((s.set p { s.members p with world := w }).lend p [])
      rw [returns_bind_iff (zoom_away hsetup hback), returns_store] at hret
      subst hret
      rw [Crew.join, set_set, set_set]
      refine h.set ⟨nofun, fun _ => ?_, nofun, fun hw hq => .inl ?_⟩
      · rw [set_members_self, hlow]
        show 0 < ((s.set p { s.members p with world := w }).members p).world.low
        rw [set_members_self]
        exact hok.2
      · -- what is pending is reported by the new epoll set
        simp only [set_members_self, set_queue] at hw ⊢
        rw [hw, Bool.true_and, Bool.not_eq_true', List.isEmpty_eq_false_iff]
        exact hq
  | wake p =>
      obtain ⟨hok, hret⟩ := returns_await_bind.mp hret
      rw [Bool.and_eq_true] at hok
      obtain ⟨r, w', henter, hstart, hlow, hback⟩ := (acceptor_takes hl).enter (s.lend p [])
      rw [returns_bind_iff (zoom_away henter hback), returns_store] at hret
      subst hret
      rw [Crew.wake, set_set, set_members_self]
      refine h.set ⟨nofun, fun _ => ?_, ?_, fun _ _ => .inr (.inl ⟨_, _, rfl⟩)⟩
      · have hup : (s.members p).stage ≠ .down := by
          intro hdown
          rw [hdown] at hok
          cases hok.1
        exact hlow ▸ (h.member p).low hup
      · rintro r' b' ⟨⟩
        exact hstart
  | accept p => exact takeTurn_sound hl h (tells_accept p s.queue) hret
  | fail p e => exact takeTurn_sound hl h (tells_fail p e s.queue) hret
  | serve p w =>
      obtain ⟨hok, hret⟩ := returns_await_bind.mp hret
      rw [Bool.and_eq_true, decide_eq_true_eq] at hok
      rw [← returns_store.mp hret]
      have hm := h.member p
      refine h.set ⟨hm.down, fun _ => hok.2, fun r b hst => ?_, hm.pending⟩
      replace hst : (s.members p).stage = .accepting r b := hst
      rw [hst] at hok
      cases hok.1
  | kill p =>
      rw [← returns_store.mp hret]
      exact h.set ⟨fun _ => rfl, fun hup => absurd rfl hup, nofun, nofun⟩

theorem sound_of_runs (hl : l.type ≠ .tcpProxy) {worlds : Nat → World} {acts : List Act}
    (hr : Runs (step l lisInfs) (Crew.init worlds) acts s) : s.Sound :=
  hr.induct Crew.Sound (init_sound worlds) fun act _ _ h hret => step_sound hl act h hret

/-! ### A worker alone -/

/-- The turns of one worker: it empties the queue, or ends the loop early. -/
theorem accepting_empties (hl : l.type ≠ .tcpProxy) {worlds : Nat → World} {acts : List Act}
    (hr : Runs (step l lisInfs) (Crew.init worlds) acts s)
    (hp : (s.members p).stage.Accepting) : ∃ acts' s',
      (∀ act ∈ acts', act = .accept p) ∧
      Runs (step l lisInfs) (Crew.init worlds) (acts ++ acts') s' ∧
      (s'.queue = [] ∨ GaveUp s'.log p) := by
  induction hq : s.queue generalizing s acts with
  | nil => exact ⟨[], s, nofun, by rwa [List.append_nil], .inl hq⟩
  | cons x q ih =>
      obtain ⟨r, b, hst⟩ := hp
      obtain ⟨⟨⟩, s₁, hret, w, g, stays, ht, rfl⟩ :=
        takeTurn_ends hl ((sound_of_runs hl hr).member p) hst [] (acceptNotes p)
      have hr₁ := hr.concat (i := Act.accept p) hret
      have hrest : ((s.giveBack p w).turned p (acceptNotes p s.queue stays) g).queue = q := by
        show w.backlog l.fd = q
        rw [ht.rest, List.nil_append, hq, List.tail_cons]
      cases stays with
      | true =>
          obtain ⟨r', b', rfl, -⟩ := ht.on rfl
          obtain ⟨acts', s', hacts, hr', hend⟩ := ih hr₁ ⟨r', b', by simp [Crew.turned]⟩ hrest
          refine ⟨.accept p :: acts', s', List.forall_mem_cons.mpr ⟨rfl, hacts⟩, ?_, hend⟩
          rwa [List.append_cons]
      | false =>
          refine ⟨[.accept p], _, by simp, hr₁, .inr ?_⟩
          rw [hq]
          exact .now rfl

theorem wake_ends (hl : l.type ≠ .tcpProxy) (lisInfs : List LisInf)
    (hst : (s.members p).stage = .waiting)
    (hready : (s.members p).ready = true) : ∃ m,
    Returns (step l lisInfs (.wake p)) s () (s.set p m) ∧
      m.watching = (s.members p).watching ∧ m.ready = false ∧ m.stage.Accepting := by
  obtain ⟨r, w, henter, -, -, hback⟩ := (acceptor_takes hl).enter (s.lend p [])
  refine ⟨{ s.members p with
      world := w, ready := false, stage := .accepting r (acceptor l).start },
    returns_await_bind.mpr ⟨?_, (zoom_away henter hback).bind (returns_store.mpr ?_)⟩,
    rfl, rfl, r, _, rfl⟩
  · rw [hst, hready]
    rfl
  · rw [Crew.wake, set_set, set_members_self]

/-! ### Mishaps -/

/-- A worker that was told everything. -/
structure Member.Idle (m : Member l) : Prop where
  watching : m.watching = true
  told : m.ready = false
  waiting : m.stage = .waiting

def Note.isFailure : Note → Bool
  | .failed _ _ => true
  | _ => false

/-- What arrived and is not welcome, and the failures of `accept`. -/
def mishaps (type : LisType) (log : List Note) : Nat :=
  (log.filterMap Note.arrival?).countP (fun x => !welcome type x) + log.countP Note.isFailure

/-- Loops end early at what is not welcome, and at failures. -/
theorem length_leavers_le {type : LisType}
    (hcause : ∀ p x, Note.took p x false ∈ log → welcome type x = false) :
    (log.filterMap Note.leaver?).length ≤
      (log.filterMap Note.taken?).countP (fun x => !welcome type x) +
        log.countP Note.isFailure := by
  induction log with
  | nil => exact Nat.zero_le _
  | cons n log ih =>
      have hle := ih fun p x hx => hcause p x (List.mem_cons_of_mem n hx)
      rcases n with x | ⟨p, x, - | -⟩ | ⟨p, e⟩
      · exact hle
      · have hbad := hcause p x List.mem_cons_self
        simp only [List.filterMap_cons, Note.leaver?, Note.taken?, List.length_cons,
          List.countP_cons, hbad, Note.isFailure]
        simp only [Bool.not_false, if_true, Bool.false_eq_true, if_false]
        omega
      · simp only [List.filterMap_cons, Note.leaver?, Note.taken?, List.countP_cons,
          Note.isFailure, Bool.false_eq_true, if_false]
        omega
      · simp only [List.filterMap_cons, Note.leaver?, Note.taken?, List.length_cons,
          List.countP_cons, Note.isFailure, if_true]
        omega

/-- Something is left behind by as many workers as had mishaps, at most. -/
theorem idle_le_mishaps (h : s.Sound) {ps : List Nat} (hps : ps.Nodup)
    (hidle : ∀ p ∈ ps, (s.members p).Idle) (hq : s.queue ≠ []) :
    ps.length ≤ mishaps l.type s.log := by
  have hsub : ps.Subperm (s.log.filterMap Note.leaver?) := by
    refine hps.subperm fun p hp => ?_
    have hi := hidle p hp
    rcases (h.member p).pending hi.watching hq with hready | ⟨r, b, hacc⟩ | ⟨l₁, n, l₂, hlog, hn, -⟩
    · rw [hi.told] at hready
      cases hready
    · rw [hi.waiting] at hacc
      cases hacc
    · refine List.mem_filterMap.mpr ⟨n, ?_, hn⟩
      rw [hlog]
      exact List.mem_append_right _ List.mem_cons_self
  refine hsub.length_le.trans ((length_leavers_le h.cause).trans ?_)
  rw [mishaps, ← h.queue, List.countP_append]
  omega

/-! #### A run with so many -/

/-- The listening socket is open, and is never refused by `epoll_ctl`. -/
def Listening (fd : Fd) (w : World) : Prop := ∃ i f, w.fileAt fd = some (i, f) ∧ f.ctl = []

theorem Listening.ctlCall {fd : Fd} (h : Listening fd w) (fd' : Fd) :
    Listening fd (ctlCall fd' w).2 := by
  obtain ⟨i, f, hf, hctl⟩ := h
  obtain ⟨hi, hfile⟩ := fileAt_eq_some.mp hf
  rcases onFile_cases none (fun f => (some (f.ctl.headD true), { f with ctl := f.ctl.tail })) fd' w
    with he | ⟨j, g, -, hg, he⟩
  · exact ⟨i, f, (congrArg (fileAt · fd) (congrArg Prod.snd he)).trans hf, hctl⟩
  · have hsnd : (World.ctlCall fd' w).2 = w.setFile j { g with ctl := g.ctl.tail } :=
      congrArg Prod.snd he
    rw [hsnd]
    rcases eq_or_ne i j with rfl | hne
    · obtain rfl : g = f := Option.some.inj (hg.symm.trans hfile)
      refine ⟨i, _, fileAt_eq_some.mpr ⟨hi, Table.get_set_self⟩, ?_⟩
      show g.ctl.tail = []
      rw [hctl]
      rfl
    · exact ⟨i, f, fileAt_eq_some.mpr ⟨hi, (Table.get_set_of_ne hne).trans hfile⟩, hctl⟩

/-- `epoll_ctl` adds the listener, if it is the one, and removes nothing. -/
theorem Listening.add {fd epollFd : Fd} (h : Listening fd w) (hepfd : w.epfd = epollFd)
    (ev : EpollEvent) (fd' : Fd) :
    Listening fd (epollCtl epollFd (.add ev) fd' w).2 ∧
      (epollCtl epollFd (.add ev) fd' w).2.epfd = epollFd ∧
      ((w.interest.get fd).isSome ∨ fd' = fd →
        ((epollCtl epollFd (.add ev) fd' w).2.interest.get fd).isSome) := by
  have hl := h.ctlCall fd'
  obtain ⟨I, F, hrest⟩ := epollCtl_rest epollFd (.add ev) fd' w
  have hepfd' : (epollCtl epollFd (.add ev) fd' w).2.epfd = epollFd := by
    rw [hrest]
    exact hepfd
  rcases epollCtl_cases epollFd (.add ev) fd' w with ⟨e, he⟩ | ⟨ev', -, he⟩ | ⟨hdel, -⟩
  · rw [he] at hepfd' ⊢
    refine ⟨hl, hepfd', fun hor => ?_⟩
    show ((World.ctlCall fd' w).2.interest.get fd).isSome
    rw [World.ctlCall, onFile_interest]
    refine hor.elim id ?_
    rintro rfl
    -- the call fails because it is there
    rcases hnone : w.interest.get fd' with - | reg
    · obtain ⟨i, f, hf, hctl⟩ := h
      rw [epollCtl_add hf hepfd (by rw [hctl]; rfl) hnone] at he
      cases he
    · rfl
  · rw [he] at hepfd' ⊢
    refine ⟨hl, hepfd', fun hor => ?_⟩
    show ((((World.ctlCall fd' w).2.interest).set fd' ev').get fd).isSome
    rcases eq_or_ne fd fd' with rfl | hne
    · rw [Table.get_set_self]
      rfl
    · rw [Table.get_set_of_ne hne, World.ctlCall, onFile_interest]
      exact hor.resolve_right fun heq => hne heq.symm
  · cases hdel

/-- The listener gets into the epoll set. -/
theorem serverListen_watches {fd epollFd : Fd} (junk : Nat → ReqT) (k : Nat)
    (lisInfs : List LisInf) (h : Listening fd w) (hepfd : w.epfd = epollFd)
    (hmem : (w.interest.get fd).isSome ∨ ∃ l ∈ lisInfs, l.fd = fd)
    (hret : Returns (serverListen junk epollFd k lisInfs) w () w') :
    (w'.interest.get fd).isSome := by
  induction lisInfs generalizing k w with
  | nil =>
      rw [← (returns_pure.mp hret).2]
      exact hmem.resolve_right fun ⟨_, hl, _⟩ => List.not_mem_nil hl
  | cons l lisInfs ih =>
      rw [serverListen, newReqT, returns_call_bind, returns_call_bind] at hret
      have hnew : Listening fd (w.newReq { junk k with fd := k, data := none }) := h
      obtain ⟨h₁, hepfd₁, hadd⟩ := hnew.add hepfd ⟨inEdge, w.reqs.bound⟩ l.fd
      refine ih (k + 1) h₁ hepfd₁ ?_ hret
      rcases hmem with hsome | ⟨l', hl', hfd⟩
      · exact .inl (hadd (.inl hsome))
      · rcases List.mem_cons.mp hl' with rfl | hl'
        · exact .inl (hadd (.inr hfd))
        · exact .inr ⟨l', hl', hfd⟩

theorem serverSetup_watches {fd epollFd : Fd} {junk : Nat → ReqT} {hint : Fd}
    (h : Listening fd w) (hmem : ∃ l ∈ lisInfs, l.fd = fd)
    (hret : Returns (serverSetup junk hint lisInfs) w epollFd w') :
    (w'.interest.get fd).isSome := by
  obtain ⟨i, f, hf, hctl⟩ := h
  obtain ⟨hi, hfile⟩ := fileAt_eq_some.mp hf
  have hfd : fd ≠ w.fds.pick w.low hint := by
    rintro rfl
    rw [Table.get_pick] at hi
    cases hi
  have hopen : Listening fd (epollCreate hint w).2 :=
    ⟨i, f, fileAt_eq_some.mpr ⟨(Table.get_set_of_ne hfd).trans hi,
      (Table.get_push_of_ne (Nat.ne_of_lt (Table.lt_bound hfile))).trans hfile⟩, hctl⟩
  obtain ⟨w₁, hlisten, -, -⟩ := serverListen_rest junk (epollCreate hint w).1 0 lisInfs
    (epollCreate hint w).2
  rw [serverSetup, returns_call_bind, returns_bind_iff hlisten] at hret
  rw [← (returns_pure.mp hret).2]
  exact serverListen_watches junk 0 lisInfs hopen rfl (.inr hmem) hlisten

/-- A worker is started, and its epoll set reports what is pending. -/
theorem start_returns (hmem : l ∈ lisInfs) (hst : (s.members p).stage = .down) (hlow : 0 < w.low)
    (h : Listening l.fd w) (junk : Nat → ReqT) (hint : Fd) : ∃ m,
    Returns (step l lisInfs (.start p w junk hint)) s () (s.set p m) ∧ m.watching = true ∧
      m.ready = !s.queue.isEmpty ∧ m.stage = .waiting := by
  obtain ⟨epollFd, w', hsetup, -, hback⟩ := serverSetup_rest junk hint lisInfs
    ((s.set p { s.members p with world := w }).lend p [])
  have hlend : Listening l.fd ((s.set p { s.members p with world := w }).lend p []) := by
    rw [Crew.lend, set_members_self]
    exact h
  have hwatch := serverSetup_watches hlend ⟨l, hmem, rfl⟩ hsetup
  refine ⟨{ s.members p with
      world := w', epollFd := epollFd, watching := true, ready := !s.queue.isEmpty
      stage := .waiting },
    returns_await_bind.mpr ⟨?_, returns_store_bind.mpr
      ((zoom_away hsetup hback).bind (returns_store.mpr ?_))⟩, rfl, rfl, rfl⟩
  · rw [hst, decide_eq_true hlow]
    rfl
  · rw [Crew.join]
    simp only [set_members_self, set_set, set_queue, hwatch, Bool.true_and]

/-- A world in which `fd` is a listening socket. -/
def inherited (fd : Fd) : World := { listening [] with fds := Table.empty.set fd 0, low := 1 }

/-- A worker is started, and ends its accept loop at the first connection. -/
theorem strand_one (hl : l.type ≠ .tcpProxy) (hmem : l ∈ lisInfs) {worlds : Nat → World}
    {acts : List Act} (hr : Runs (step l lisInfs) (Crew.init worlds) acts s) {e : Errno}
    (hst : (s.members p).stage = .down) (hq : s.queue = .error e :: q) : ∃ acts' m s',
    Runs (step l lisInfs) (Crew.init worlds) acts' s' ∧ m.Idle ∧
      s'.members = Function.update s.members p m ∧ s'.queue = q ∧
      s'.log = s.log ++ [.took p (.error e) false] := by
  have hopen : Listening l.fd (inherited l.fd) :=
    ⟨0, (Answers.io [] []).file none, fileAt_eq_some.mpr ⟨Table.get_set_self, rfl⟩, rfl⟩
  obtain ⟨m₁, hstart, hwatch, hready, hst₁⟩ := start_returns (p := p) hmem hst Nat.one_pos hopen
    (fun _ => ⟨0, 0, .http, none, none, none⟩) 0
  have hr₁ := hr.concat (i := Act.start p _ _ _) hstart
  obtain ⟨m₂, hwake, hwatch₂, htold, r, b, hacc⟩ := wake_ends hl lisInfs
    (s := s.set p m₁) (p := p) (by rw [set_members_self]; exact hst₁)
    (by rw [set_members_self, hready, hq]; rfl)
  have hr₂ := hr₁.concat (i := Act.wake p) hwake
  rw [set_set] at hr₂
  rw [set_members_self, hwatch] at hwatch₂
  have hmember := (sound_of_runs hl hr₂).member p
  obtain ⟨⟨⟩, s', hret, w', g, stays, ht, rfl⟩ := takeTurn_ends hl hmember
    (by rw [set_members_self]; exact hacc) [] (acceptNotes p)
  have hqueue : (s.set p m₂).queue = .error e :: q := hq
  obtain rfl : stays = false := ht.error e (by rw [hqueue]; rfl)
  obtain rfl : g = .waiting := (ht.off rfl).1
  refine ⟨_, { m₂ with world := w', stage := .waiting }, _, hr₂.concat (i := Act.accept p) hret,
    ⟨hwatch₂, htold, rfl⟩, ?_, ?_, ?_⟩
  · simp [Crew.turned, Crew.giveBack, Crew.set]
  · show w'.backlog l.fd = q
    rw [ht.rest, hqueue]
    rfl
  · show s.log ++ acceptNotes p (s.set p m₂).queue false = _
    rw [hqueue]
    rfl

/-- Connections come while no worker runs. -/
theorem runs_arrive (lisInfs : List LisInf) (worlds : Nat → World) (xs : List Pending) :
    Runs (step l lisInfs) (Crew.init worlds) (xs.map .arrive)
      { (Crew.init worlds : Crew l) with queue := xs, log := xs.map .arrived } := by
  induction xs using List.reverseRecOn with
  | nil => exact .nil
  | append_singleton xs x ih =>
      rw [List.map_append, List.map_append]
      exact ih.concat (i := Act.arrive x) (returns_store.mpr rfl)

/-- As many workers as there are aborted connections leave the one behind
them. -/
theorem strand_all (hl : l.type ≠ .tcpProxy) (hmem : l ∈ lisInfs) (worlds : Nat → World)
    (x : Pending) (n : Nat) : ∃ acts s,
    Runs (step l lisInfs) (Crew.init worlds) acts s ∧ (∀ p < n, (s.members p).Idle) ∧
      s.queue = [x] ∧
      s.log.filterMap Note.arrival? = List.replicate n (.error .econnaborted) ++ [x] ∧
      s.log.countP Note.isFailure = 0 := by
  suffices hsuff : ∀ k ≤ n, ∃ acts s,
      Runs (step l lisInfs) (Crew.init worlds) acts s ∧ (∀ p < k, (s.members p).Idle) ∧
        (∀ p, k ≤ p → (s.members p).stage = .down) ∧
        s.queue = List.replicate (n - k) (.error .econnaborted) ++ [x] ∧
        s.log.filterMap Note.arrival? = List.replicate n (.error .econnaborted) ++ [x] ∧
        s.log.countP Note.isFailure = 0 by
    obtain ⟨acts, s, hr, hidle, -, hq, hlog⟩ := hsuff n le_rfl
    rw [Nat.sub_self] at hq
    exact ⟨acts, s, hr, hidle, hq, hlog⟩
  intro k
  induction k with
  | zero =>
      refine fun _ => ⟨_, _, runs_arrive lisInfs worlds _, nofun, fun _ _ => rfl, rfl, ?_, ?_⟩
      · show (List.map Note.arrived _).filterMap _ = _
        rw [List.filterMap_map]
        exact List.filterMap_some
      · show (List.map Note.arrived _).countP _ = 0
        rw [List.countP_map]
        exact List.countP_eq_zero.mpr fun _ _ => nofun
  | succ k ih =>
      intro hk
      obtain ⟨acts, s, hr, hidle, hdown, hq, hlog, hfail⟩ := ih (Nat.le_of_succ_le hk)
      obtain ⟨d, hd⟩ : ∃ d, n - k = d + 1 := ⟨n - k - 1, by omega⟩
      rw [hd, List.replicate_succ, List.cons_append] at hq
      obtain ⟨acts', m, s', hr', hm, hmembers, hq', hlog'⟩ :=
        strand_one hl hmem hr (hdown k le_rfl) hq
      refine ⟨acts', s', hr', fun p hp => ?_, fun p hp => ?_, ?_, ?_, ?_⟩
      · rw [hmembers]
        rcases eq_or_ne p k with rfl | hne
        · rw [Function.update_self]
          exact hm
        · rw [Function.update_of_ne hne]
          exact hidle p (by omega)
      · rw [hmembers, Function.update_of_ne (by omega)]
        exact hdown p (by omega)
      · rw [hq', show n - (k + 1) = d by omega]
      · rw [hlog', List.filterMap_append, hlog]
        exact List.append_nil _
      · rw [hlog', List.countP_append, hfail]
        rfl

/-! ### The results -/

/-- **Every connection goes to one worker.**  In every run, what the workers
took, each thing once, is what arrived, in its order, up to what is pending;
and a worker that ended its accept loop at a connection was not offered one
that all can take. -/
theorem crew_delivers (hl : l.type ≠ .tcpProxy) {worlds : Nat → World} {acts : List Act}
    (hr : Runs (step l lisInfs) (Crew.init worlds) acts s) :
    s.log.filterMap Note.taken? ++ s.queue = s.log.filterMap Note.arrival? ∧
      ∀ p x, Note.took p x false ∈ s.log → welcome l.type x = false :=
  have h := sound_of_runs hl hr
  ⟨h.queue, h.cause⟩

/-- Two workers that took an aborted connection each. -/
theorem crew_delivers_three : ∃ acts s,
    Runs (step ⟨4, .http⟩ [⟨4, .http⟩]) (Crew.init fun _ => inherited 4) acts s ∧
      s.log.filterMap Note.taken? ++ s.queue = [.error .econnaborted, .error .econnaborted,
        .ok (6, .io [] [])] := by
  obtain ⟨acts, s, hr, -, -, harrival, -⟩ := strand_all (l := ⟨4, .http⟩) nofun
    (List.mem_singleton_self _) (fun _ => inherited 4) (.ok (6, .io [] [])) 2
  exact ⟨acts, s, hr, (crew_delivers (l := ⟨4, .http⟩) nofun hr).1.trans harrival⟩

/-- **What is pending is on the way.**  A worker that watches the listener
will be told, or is in its accept loop, or ended it early since the last
arrival; and by itself it can always empty the queue, unless it ends its loop
early. -/
theorem crew_pending (hl : l.type ≠ .tcpProxy) {worlds : Nat → World} {acts : List Act}
    (hr : Runs (step l lisInfs) (Crew.init worlds) acts s) (hw : (s.members p).watching = true) :
    (s.queue ≠ [] →
      (s.members p).ready ∨ (s.members p).stage.Accepting ∨ GaveUp s.log p) ∧
    ∃ acts' s', (∀ act ∈ acts', act = .wake p ∨ act = .accept p) ∧
      Runs (step l lisInfs) (Crew.init worlds) (acts ++ acts') s' ∧
      (s'.queue = [] ∨ GaveUp s'.log p) := by
  have hm := (sound_of_runs hl hr).member p
  refine ⟨hm.pending hw, ?_⟩
  by_cases hq : s.queue = []
  · exact ⟨[], s, nofun, by rwa [List.append_nil], .inl hq⟩
  · have haccepting : (s.members p).stage.Accepting → ∃ acts' s',
        (∀ act ∈ acts', act = .wake p ∨ act = .accept p) ∧
        Runs (step l lisInfs) (Crew.init worlds) (acts ++ acts') s' ∧
        (s'.queue = [] ∨ GaveUp s'.log p) := by
      intro hacc
      obtain ⟨acts', s', hacts, hrest⟩ := accepting_empties hl hr hacc
      exact ⟨acts', s', fun act hact => .inr (hacts act hact), hrest⟩
    rcases hm.pending hw hq with hready | hacc | hgave
    · rcases hst : (s.members p).stage with - | - | ⟨r, b⟩
      · rw [hm.down hst] at hw
        cases hw
      · obtain ⟨m, hwake, -, -, hacc⟩ := wake_ends hl lisInfs hst hready
        obtain ⟨acts', s', hacts, hr', hend⟩ := accepting_empties hl
          (hr.concat (i := Act.wake p) hwake) (by rw [set_members_self]; exact hacc)
        refine ⟨.wake p :: acts', s', List.forall_mem_cons.mpr ⟨.inl rfl, fun act hact =>
          .inr (hacts act hact)⟩, ?_, hend⟩
        rwa [List.append_cons]
      · exact haccepting ⟨r, b, hst⟩
    · exact haccepting hacc
    · exact ⟨[], s, nofun, by rwa [List.append_nil], .inr hgave⟩

/-- Neither will hear of what is left. -/
theorem crew_pending_two : ∃ acts s,
    Runs (step ⟨4, .http⟩ [⟨4, .http⟩]) (Crew.init fun _ => inherited 4) acts s ∧
      s.queue = [.ok (6, .io [] [])] ∧ GaveUp s.log 0 ∧ GaveUp s.log 1 := by
  obtain ⟨acts, s, hr, hidle, hq, -⟩ := strand_all (l := ⟨4, .http⟩) nofun
    (List.mem_singleton_self _) (fun _ => inherited 4) (.ok (6, .io [] [])) 2
  have hgave : ∀ p < 2, GaveUp s.log p := by
    intro p hp
    have hi := hidle p hp
    rcases (crew_pending (l := ⟨4, .http⟩) nofun hr hi.watching).1 (by rw [hq]; exact nofun) with
      hready | ⟨r, b, hacc⟩ | hgave
    · rw [hi.told] at hready
      cases hready
    · rw [hi.waiting] at hacc
      cases hacc
    · exact hgave
  exact ⟨acts, s, hr, hq, hgave 0 Nat.two_pos, hgave 1 Nat.one_lt_two⟩

/-- **How many it takes.**  Whatever the other workers do, `n` workers that
were told everything have left nothing behind, in all runs with no more than
`m` mishaps, iff `m` is below `n`: every worker must have had its own. -/
theorem crew_strands_iff (hl : l.type ≠ .tcpProxy) (hmem : l ∈ lisInfs) (n m : Nat) :
    (∀ (worlds : Nat → World) (acts : List Act) (s : Crew l) (ps : List Nat),
      Runs (step l lisInfs) (Crew.init worlds) acts s → mishaps l.type s.log ≤ m →
      ps.Nodup → ps.length = n → (∀ p ∈ ps, (s.members p).Idle) → s.queue = []) ↔ m < n := by
  constructor
  · intro hall
    by_contra hle
    obtain ⟨acts, s, hr, hidle, hq, harrival, hfail⟩ := strand_all hl hmem (fun _ => inherited l.fd)
      (.ok (0, ⟨[], [], [], [], [], [.done], [], []⟩)) n
    have hmishaps : mishaps l.type s.log = n := by
      rw [mishaps, harrival, hfail, List.countP_append, List.countP_replicate]
      simp [welcome]
    have hempty := hall _ acts s (List.range n) hr (by omega) List.nodup_range List.length_range
      fun p hp => hidle p (List.mem_range.mp hp)
    rw [hq] at hempty
    cases hempty
  · intro hlt worlds acts s ps hr hm hps hlen hidle
    by_contra hq
    have hle := idle_le_mishaps (sound_of_runs hl hr) hps hidle hq
    omega

/-- Two workers, and two connections that were aborted. -/
theorem crew_strands_two : ¬ ∀ (worlds : Nat → World) (acts : List Act)
    (s : Crew ⟨4, .https⟩) (ps : List Nat),
      Runs (step ⟨4, .https⟩ [⟨4, .https⟩]) (Crew.init worlds) acts s → mishaps .https s.log ≤ 2 →
      ps.Nodup → ps.length = 2 → (∀ p ∈ ps, (s.members p).Idle) → s.queue = [] :=
  fun h => Nat.lt_irrefl 2
    ((crew_strands_iff (l := ⟨4, .https⟩) nofun (List.mem_singleton_self _) 2 2).mp h)

end DmfServer.SharedAccept
