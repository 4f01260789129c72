/-
DmfServer/Monitor.lean

First-in first-out queues behind a mutex, as a library.

A `Monitor` is what the threads that share a queue see of it: who holds the
mutex, who waits for the queue to get an item, and the items.  It keeps the
history of both ends, and that it is first-in first-out is a field of it: what
was taken, followed by the items, is what was put.

Producers put an item in one step, and signal when the queue was empty.  A
consumer locks, tests, and takes or waits, each a step of its own
(`Moves`).  Two invariants of a consumer are kept by every step of its own
and of the others:

* `At` — it holds the mutex between its lock and its wait or take, and what
  its test found still holds;
* `Alert` — if no other thread consumes, it does not wait while there is an
  item.  Signals are not remembered, so this rests on the first one.
-/
import DmfServer.Threads
import Mathlib.Tactic.Simps.Basic

namespace Imperative

/-- A queue of `α`s with its mutex, its condition variable and its history. -/
structure Monitor (α : Type) where
  holder : Option Nat
  waiting : List Nat
  items : List α
  put : List α
  taken : List α
  destroyed : Bool
  fifo : taken ++ items = put

namespace Monitor

variable {α : Type}

/-- A queue nobody has used. -/
def init : Monitor α := ⟨none, [], [], [], [], false, rfl⟩

/-- `me` takes the mutex. -/
@[simps]
def lock (m : Monitor α) (me : Nat) : Monitor α := { m with holder := some me }

/-- `me` enters the condition variable and releases the mutex. -/
@[simps]
def wait (m : Monitor α) (me : Nat) : Monitor α :=
  { m with waiting := me :: m.waiting, holder := none }

/-- The first item leaves, and the mutex is released. -/
@[simps]
def take (m : Monitor α) (a : α) (as : List α) (h : m.items = a :: as) : Monitor α :=
  { m with
    holder := none, items := as, taken := m.taken ++ [a]
    fifo := by rw [← m.fifo, h, List.append_assoc, List.singleton_append] }

/-- An item is put, with the signal that the first one gives. -/
@[simps]
def append (m : Monitor α) (a : α) (who : Nat) : Monitor α :=
  { m with
    items := m.items ++ [a], put := m.put ++ [a]
    waiting := if m.items.isEmpty then signal who m.waiting else m.waiting
    fifo := by rw [← m.fifo, List.append_assoc] }

/-- A signal without an item. -/
@[simps]
def notify (m : Monitor α) (who : Nat) : Monitor α := { m with waiting := signal who m.waiting }

/-- `c` wakes up though nobody signalled. -/
@[simps]
def wake (m : Monitor α) (c : Nat) : Monitor α := { m with waiting := m.waiting.erase c }

/-- The mutex and the condition variable are given back. -/
@[simps]
def destroy (m : Monitor α) : Monitor α := { m with destroyed := true }

theorem taken_isPrefix (m : Monitor α) : m.taken <+: m.put := ⟨m.items, m.fifo⟩

end Monitor

/-- Where a consumer stands. -/
inductive Consumer (α : Type) where
  | lock
  | test
  | wait
  | asleep
  | take
  | done (a : α)
  deriving DecidableEq

/-- What the call answers, where it has got its item. -/
def Consumer.result {α : Type} : Consumer α → Option α
  | .done a => some a
  | .lock => none
  | .test => none
  | .wait => none
  | .asleep => none
  | .take => none

theorem Consumer.result_eq_some {α : Type} {d : Consumer α} {a : α} :
    d.result = some a ↔ d = .done a := by
  cases d <;> simp [result]

variable {α : Type} {me c who : Nat} {d d' : Consumer α} {m m' : Monitor α} {a : α} {as : List α}

/-- A step of the consumer `me`. -/
inductive Moves (me : Nat) : Consumer α → Monitor α → Consumer α → Monitor α → Prop
  | lock {m : Monitor α} : m.holder = none → Moves me .lock m .test (m.lock me)
  | empty {m : Monitor α} : m.items = [] → Moves me .test m .wait m
  | nonempty {m : Monitor α} : m.items ≠ [] → Moves me .test m .take m
  | wait {m : Monitor α} : Moves me .wait m .asleep (m.wait me)
  | woken {m : Monitor α} : me ∉ m.waiting → m.holder = none → Moves me .asleep m .test (m.lock me)
  | take {m : Monitor α} {a : α} {as : List α} (h : m.items = a :: as) :
      Moves me .take m (.done a) (m.take a as h)
  | done {m : Monitor α} {a : α} : Moves me (.done a) m (.done a) m

/-- A call takes one item, the one it answers. -/
theorem Moves.taken (hm : Moves me d m d' m') (hd : d.result = none) :
    m'.taken = m.taken ++ d'.result.toList := by
  cases hm with
  | take _ => rfl
  | done => cases hd
  | lock _ => exact (List.append_nil _).symm
  | empty _ => exact (List.append_nil _).symm
  | nonempty _ => exact (List.append_nil _).symm
  | wait => exact (List.append_nil _).symm
  | woken _ _ => exact (List.append_nil _).symm

theorem Moves.put (hm : Moves me d m d' m') : m'.put = m.put := by
  cases hm <;> rfl

theorem Moves.destroyed (hm : Moves me d m d' m') : m'.destroyed = m.destroyed := by
  cases hm <;> rfl

/-- What a consumer that stands at `d` knows of the queue. -/
def At (me : Nat) (m : Monitor α) : Consumer α → Prop
  | .lock => True
  | .test => m.holder = some me
  | .wait => m.holder = some me ∧ m.items = []
  | .asleep => True
  | .take => m.holder = some me ∧ m.items ≠ []
  | .done _ => True

/-- A consumer keeps its knowledge. -/
theorem At.moves (h : At me m d) (hm : Moves me d m d' m') : At me m' d' := by
  cases hm with
  | lock _ => rfl
  | empty he => exact ⟨h, he⟩
  | nonempty he => exact ⟨h, he⟩
  | wait => exact trivial
  | woken _ _ => rfl
  | take _ => exact trivial
  | done => exact trivial

/-- What is done by others under the mutex does not touch it. -/
theorem At.frame (h : At me m d) (hh : m.holder ≠ some me) : At me m' d := by
  cases d with
  | lock => exact trivial
  | test => exact absurd h hh
  | wait => exact absurd h.1 hh
  | asleep => exact trivial
  | take => exact absurd h.1 hh
  | done a => exact trivial

/-- Signals do not touch it. -/
theorem At.congr (h : At me m d) (hh : m'.holder = m.holder) (hi : m'.items = m.items) :
    At me m' d := by
  cases d with
  | lock => exact trivial
  | test => exact hh.trans h
  | wait => exact ⟨hh.trans h.1, hi.trans h.2⟩
  | asleep => exact trivial
  | take => exact ⟨hh.trans h.1, hi ▸ h.2⟩
  | done a => exact trivial

/-- A step of `me` is a step under the mutex: another thread does not hold
the mutex then. -/
theorem Moves.holder_ne (hm : Moves me d m d' m') (h : At me m d) (hc : c ≠ me)
    (hne : m' ≠ m) : m.holder ≠ some c := by
  cases hm with
  | lock hh => simp [hh]
  | empty _ => exact absurd rfl hne
  | nonempty _ => exact absurd rfl hne
  | wait =>
      rw [h.1]
      exact fun e => hc (Option.some.inj e).symm
  | woken _ hh => simp [hh]
  | take _ =>
      rw [h.1]
      exact fun e => hc (Option.some.inj e).symm
  | done => exact absurd rfl hne

/-- Another consumer keeps its knowledge. -/
theorem At.others (h : At c m d) {e e' : Consumer α} (he : At me m e) (hm : Moves me e m e' m')
    (hc : c ≠ me) : At c m' d := by
  by_cases hne : m' = m
  · rwa [hne]
  · exact h.frame (hm.holder_ne he hc hne)

/-! ### A consumer alone -/

/-- The one consumer `me` waits only while there is no item. -/
structure Alert (me : Nat) (m : Monitor α) (d : Consumer α) : Prop where
  alone : m.waiting = [] ∨ m.waiting = [me]
  empty : me ∈ m.waiting → d = .asleep ∧ m.items = []

theorem Alert.not_mem (h : Alert me m d) (hd : d ≠ .asleep) : m.waiting = [] := by
  rcases h.alone with hw | hw
  · exact hw
  · exact absurd (h.empty (hw ▸ List.mem_singleton_self me)).1 hd

/-- Where nobody waits there is nothing to miss. -/
theorem Alert.of_nil (hw : m.waiting = []) : Alert me m d :=
  ⟨.inl hw, fun hm => absurd hm (hw ▸ List.not_mem_nil)⟩

/-- **The consumer stays alert by its own steps.**  It goes to sleep after a
test that found no item, and holds the mutex since. -/
theorem Alert.moves (h : Alert me m d) (hat : At me m d) (hm : Moves me d m d' m') :
    Alert me m' d' := by
  cases hm with
  | lock _ => exact .of_nil (h.not_mem (by simp))
  | empty _ => exact .of_nil (h.not_mem (by simp))
  | nonempty _ => exact .of_nil (h.not_mem (by simp))
  | wait => exact ⟨.inr (congrArg (me :: ·) (h.not_mem (by simp))), fun _ => ⟨rfl, hat.2⟩⟩
  | woken hn _ =>
      exact .of_nil (h.alone.resolve_right fun e => hn (e ▸ List.mem_singleton_self me))
  | take _ => exact .of_nil (h.not_mem (by simp))
  | done => exact h

/-- Waking threads keeps it. -/
theorem Alert.fewer (h : Alert me m d) (hw : m'.waiting.Sublist m.waiting)
    (hi : m'.items = m.items) : Alert me m' d where
  alone := by
    rcases h.alone with hm | hm
    · exact .inl (List.sublist_nil.mp (hm ▸ hw))
    · rw [hm, List.sublist_singleton] at hw
      exact hw.imp id id
  empty := fun hm => ⟨(h.empty (hw.mem hm)).1, hi.trans (h.empty (hw.mem hm)).2⟩

/-- **A put keeps it**: where a consumer may wait, the queue was empty, and
the put signals. -/
theorem Alert.append (h : Alert me m d) : Alert me (m.append a who) d := by
  apply Alert.of_nil
  rw [Monitor.append_waiting]
  rcases h.alone with hw | hw
  · rw [hw, signal_nil, ite_self]
  · rw [(h.empty (hw ▸ List.mem_singleton_self me)).2, hw, signal_singleton]
    rfl

end Imperative
