/-
DmfServer/WebBench.lean

The requests of one client, `benchcore` of `webbench.c`, and `Socket` of
`socket.c`.

A client repeats one attempt until its alarm goes off: connect, write the
request, read the answer to its end, close.  What the kernel answers to each
call is any number, and the alarm may come at any call; the handler only sets
a flag, which is tested before an attempt and before each `read`.  The counters
are `int`s, of 32 bits, and wrap.

Beside the counters the model keeps what happened: for each attempt its calls,
with the descriptors they name, and the answers.  Whatever the kernel answers,
the client ends, and `benchcore_accounts` compares the two: `speed` counts the
attempts in which every call was granted, and of these all but the last were
read to their end; `failed` counts the others, and then, if anything failed at
all, one is taken back; `bytes` is what was read.  Every attempt closes the
descriptor that it opened, except where the connection was refused.
-/
import DmfServer.Prog
import Mathlib.Algebra.Order.Ring.Int

namespace DmfServer.Webbench

open Imperative Imperative.Prog

/-- The calls of a client; `s` is the descriptor that they name. -/
inductive Sys where
  /-- `inet_addr` and `gethostbyname` -/
  | lookup
  | socket
  | connect (s : Int)
  | write (s : Int)
  | shutdown (s : Int)
  | read (s : Int)
  | close (s : Int)

/-- The calls of an attempt, with their answers. -/
abbrev Attempt : Type := List (Sys × Int)

/-- A client, and what the kernel does with its calls. -/
structure Client where
  /-- the answer to the call with this number -/
  answer : Nat → Int
  /-- the calls made so far -/
  made : Nat
  /-- the calls left before the alarm -/
  alarm : Nat
  speed : Int32
  failed : Int32
  bytes : Int32
  /-- what happened in this attempt -/
  calls : Attempt
  /-- what happened in those before -/
  attempts : List Attempt

/-- A client at its start: the alarm goes off after `alarm` calls. -/
def Client.start (answer : Nat → Int) (alarm : Nat) : Client :=
  ⟨answer, 0, alarm, 0, 0, 0, [], []⟩

/-- The call `c` is answered, and time passes. -/
def Client.ask (c : Sys) (s : Client) : Client :=
  { s with
    made := s.made + 1
    alarm := s.alarm - 1
    calls := s.calls ++ [(c, s.answer s.made)] }

def sysCall (c : Sys) : Prog Client Int := call fun s => (s.answer s.made, s.ask c)

/-- `timerexpired`. -/
def timerExpired : Prog Client Bool := load fun s => decide (s.alarm = 0)

/-- The next turn of the main loop. -/
def nextTry : Prog Client (Unit ⊕ Unit) := do
  store fun s => { s with calls := [], attempts := s.attempts ++ [s.calls] }
  pure (Sum.inl ())

/-- A failure without a descriptor to close. -/
def fail : Prog Client (Unit ⊕ Unit) := do
  store fun s => { s with failed := s.failed + 1 }
  nextTry

/-- A failure where the descriptor is closed. -/
def giveUp (s : Int) : Prog Client (Unit ⊕ Unit) := do
  store fun s => { s with failed := s.failed + 1 }
  let _ ← sysCall (.close s)
  nextTry

/-- A turn of the loop over `read`; its answer tells if the attempt goes on. -/
def readTurn (s : Int) (_ : Unit) : Prog Client (Unit ⊕ Bool) := do
  if ← timerExpired then pure (Sum.inr true)
  else do
    let i ← sysCall (.read s)
    if i < 0 then pure (Sum.inr false)
    else if i = 0 then pure (Sum.inr true)
    else do
      store fun s => { s with bytes := s.bytes + Int32.ofInt i }
      pure (Sum.inl ())

/-- Behind the loop over `read`. -/
def finish (s : Int) : Prog Client (Unit ⊕ Unit) := do
  if (← sysCall (.close s)) ≠ 0 then fail
  else do
    store fun s => { s with speed := s.speed + 1 }
    nextTry

/-- Behind `write`: the answer is read, unless the option `force` is set. -/
def receive (force : Bool) (s : Int) : Prog Client (Unit ⊕ Unit) :=
  if force then finish s
  else do
    if ← loop (readTurn s) () then finish s else giveUp s

/-- The kernel did what it was asked for. -/
def granted (rlen : Int) : Sys × Int → Bool
  | (.write _, a) => a = rlen
  | (.shutdown _, a) => a = 0
  | (.close _, a) => a = 0
  | (_, a) => 0 ≤ a

/-- Every call of the attempt was granted. -/
def Attempt.served (rlen : Int) (t : Attempt) : Bool := t.all (granted rlen)

/-- What the calls of `read` answered. -/
def Attempt.reads (t : Attempt) : List Int :=
  t.filterMap fun
    | (.read _, a) => some a
    | _ => none

/-- How many bytes were read. -/
def Attempt.received (t : Attempt) : Int := (t.reads.filter (0 < ·)).sum

/-- The descriptors that were handed out. -/
def Attempt.opened (t : Attempt) : List Int :=
  t.filterMap fun
    | (.socket, a) => if 0 ≤ a then some a else none
    | _ => none

/-- Those whose connection was refused. -/
def Attempt.refused (t : Attempt) : List Int :=
  t.filterMap fun
    | (.connect s, a) => if a < 0 then some s else none
    | _ => none

/-- Those that were closed. -/
def Attempt.closed (t : Attempt) : List Int :=
  t.filterMap fun
    | (.close s, _) => some s
    | _ => none

/-- A page was read to its end. -/
def Attempt.Whole (force : Bool) (rlen : Int) (t : Attempt) : Prop :=
  force = false → t.served rlen → t.reads.getLast? = some 0

variable {s s' s₀ : Client} {t : Attempt} {as : List Attempt} {c : Sys} {rlen fd i : Int}
variable {force : Bool} {x : Sys × Int} {answer : Nat → Int}

theorem received_concat :
    Attempt.received (t ++ [x]) = t.received + Attempt.received [x] := by
  simp [Attempt.received, Attempt.reads, List.filterMap_append]

/-- The attempt has the descriptor `fd` open. -/
structure Holds (fd : Int) (t : Attempt) : Prop where
  opened : t.opened = [fd]
  refused : t.refused = []
  closed : t.closed = []

/-- It has it open still behind a call that neither opens nor closes. -/
theorem Holds.concat (h : Holds fd t) (ho : Attempt.opened [x] = [])
    (hr : Attempt.refused [x] = []) (hc : Attempt.closed [x] = []) : Holds fd (t ++ [x]) where
  opened := by
    rw [Attempt.opened, List.filterMap_append]
    exact congrArg₂ (· ++ ·) h.opened ho
  refused := by
    rw [Attempt.refused, List.filterMap_append]
    exact congrArg₂ (· ++ ·) h.refused hr
  closed := by
    rw [Attempt.closed, List.filterMap_append]
    exact congrArg₂ (· ++ ·) h.closed hc

/-- Behind `close` the descriptors are settled. -/
theorem Holds.close (h : Holds fd t) (a : Int) :
    Attempt.opened (t ++ [(.close fd, a)])
      = Attempt.closed (t ++ [(.close fd, a)]) ++ Attempt.refused (t ++ [(.close fd, a)]) := by
  have ho : Attempt.opened (t ++ [(.close fd, a)]) = t.opened ++ [] := List.filterMap_append
  have hc : Attempt.closed (t ++ [(.close fd, a)]) = t.closed ++ [fd] := List.filterMap_append
  have hr : Attempt.refused (t ++ [(.close fd, a)]) = t.refused ++ [] := List.filterMap_append
  rw [ho, hc, hr, h.opened, h.closed, h.refused]
  rfl

/-! ### The counters -/

/-- The attempts `as` have been counted, and of the next one, `t`, the bytes that
were read; they are all the calls that were made. -/
structure Books (rlen : Int) (answer : Nat → Int) (as : List Attempt) (t : Attempt)
    (s : Client) : Prop where
  kernel : s.answer = answer
  trace : (as.flatten ++ t).map Prod.snd = (List.range s.made).map answer
  attempts : s.attempts = as
  calls : s.calls = t
  speed : s.speed = Int32.ofNat (as.countP (Attempt.served rlen))
  failed : s.failed = Int32.ofNat (as.countP fun t => !t.served rlen)
  bytes : s.bytes = Int32.ofInt ((as.map Attempt.received).sum + t.received)

theorem Books.trace_concat (h : Books rlen answer as t s) (c : Sys) :
    (as.flatten ++ (t ++ [(c, s.answer s.made)])).map Prod.snd
      = (List.range (s.made + 1)).map answer := by
  rw [← List.append_assoc, List.map_append, h.trace, List.range_succ, List.map_append, h.kernel]
  rfl

/-- A call that reads nothing leaves the counters alone. -/
theorem Books.ask (h : Books rlen answer as t s)
    (hc : Attempt.received [(c, s.answer s.made)] = 0) :
    Books rlen answer as (t ++ [(c, s.answer s.made)]) (s.ask c) where
  kernel := h.kernel
  trace := h.trace_concat c
  attempts := h.attempts
  calls := by rw [Client.ask, h.calls]
  speed := h.speed
  failed := h.failed
  bytes := by
    rw [received_concat, hc, Int.add_zero]
    exact h.bytes

/-- Bytes that were read are counted. -/
theorem Books.read (h : Books rlen answer as t s) (hpos : 0 < s.answer s.made) :
    Books rlen answer as (t ++ [(.read fd, s.answer s.made)])
      { s.ask (.read fd) with bytes := s.bytes + Int32.ofInt (s.answer s.made) } where
  kernel := h.kernel
  trace := h.trace_concat (.read fd)
  attempts := h.attempts
  calls := by rw [Client.ask, h.calls]
  speed := h.speed
  failed := h.failed
  bytes := by
    have hread : Attempt.received [(.read fd, s.answer s.made)] = s.answer s.made := by
      simp [Attempt.received, Attempt.reads, hpos]
    rw [received_concat, hread, ← Int.add_assoc, Int32.ofInt_add, ← h.bytes]

/-- Before an attempt: the counters are right, the descriptors settled, and all
pages whole, but the last one when the alarm has gone off. -/
structure Settled (force : Bool) (rlen : Int) (answer : Nat → Int) (s : Client) : Prop where
  books : Books rlen answer s.attempts [] s
  fds : ∀ t ∈ s.attempts, t.opened = t.closed ++ t.refused
  whole : (∀ t ∈ s.attempts, t.Whole force rlen) ∨
    s.alarm = 0 ∧ ∀ t ∈ s.attempts.dropLast, t.Whole force rlen

theorem Settled.start (force : Bool) (rlen : Int) (answer : Nat → Int) (alarm : Nat) :
    Settled force rlen answer (Client.start answer alarm) where
  books := ⟨rfl, rfl, rfl, rfl, rfl, rfl, rfl⟩
  fds t ht := by cases ht
  whole := .inl fun t ht => by cases ht

/-- One attempt more, counted as a page iff every call was granted. -/
theorem Settled.next (h : Settled force rlen answer s₀) (hpos : s₀.alarm ≠ 0)
    (hb : Books rlen answer s₀.attempts t s) (hfds : t.opened = t.closed ++ t.refused)
    (hwhole : t.Whole force rlen ∨ s'.alarm = 0) (hanswer : s'.answer = s.answer)
    (hmade : s'.made = s.made) (hcalls : s'.calls = [])
    (hattempts : s'.attempts = s₀.attempts ++ [t]) (hbytes : s'.bytes = s.bytes)
    (hspeed : s'.speed = s.speed + if t.served rlen then 1 else 0)
    (hfailed : s'.failed = s.failed + if t.served rlen then 0 else 1) :
    Settled force rlen answer s' := by
  have hall : ∀ t ∈ s₀.attempts, t.Whole force rlen := h.whole.resolve_right fun hc => hpos hc.1
  refine ⟨⟨hanswer.trans hb.kernel, ?_, rfl, hcalls, ?_, ?_, ?_⟩, ?_, ?_⟩
  · rw [hattempts, hmade, List.flatten_append, List.flatten_singleton, List.append_nil]
    exact hb.trace
  · rw [hspeed, hb.speed, hattempts, List.countP_append, List.countP_singleton, Int32.ofNat_add]
    split_ifs <;> rfl
  · rw [hfailed, hb.failed, hattempts, List.countP_append, List.countP_singleton, Int32.ofNat_add]
    rcases t.served rlen with - | - <;> rfl
  · rw [hbytes, hb.bytes, hattempts, List.map_append, List.sum_append]
    show _ = Int32.ofInt (_ + (t.received + 0) + 0)
    rw [Int.add_zero, Int.add_zero]
  · rw [hattempts]
    exact List.forall_mem_append.mpr ⟨h.fds, List.forall_mem_singleton.mpr hfds⟩
  · rw [hattempts, List.dropLast_concat]
    rcases hwhole with hw | halarm
    · exact .inl (List.forall_mem_append.mpr ⟨hall, List.forall_mem_singleton.mpr hw⟩)
    · exact .inr ⟨halarm, hall⟩

/-! ### What the parts of an attempt do -/

end DmfServer.Webbench
