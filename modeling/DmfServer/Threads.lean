/-
DmfServer/Threads.lean

Systems of threads that take turns, as a library.

A system has one program `step i` for each label `i`: which thread moves, and
what the environment adds to its move.  A run is a list of labels, each step
started in the state the one before it left:

    Runs step s₀ [i₁, …, iₖ] s

A label whose program is blocked cannot be scheduled, so a run takes only
steps that answer.  `Runs.invariant` packages the induction: what holds at
the start and is kept by every step holds in every state reached.  Where the
steps have no loops, a schedule is run by `exec` and found to be a run
(`Runs.of_exec`).

`signal` is what a condition variable does to the threads that wait for it.
-/
import DmfServer.Prog
import Mathlib.Data.List.Basic

namespace Imperative

open Prog

variable {ι σ : Type}

/-- From `s₀` the labels `is`, scheduled in this order, lead to `s`. -/
inductive Runs (step : ι → Prog σ Unit) (s₀ : σ) : List ι → σ → Prop
  | nil : Runs step s₀ [] s₀
  | concat {is : List ι} {i : ι} {s s' : σ} :
      Runs step s₀ is s → Returns (step i) s () s' → Runs step s₀ (is ++ [i]) s'

variable {step : ι → Prog σ Unit} {s₀ s s' : σ} {is : List ι}

/-- **Invariants of runs.**  What every step keeps, whatever the schedule. -/
theorem Runs.invariant (Inv : σ → Prop) (h₀ : Inv s₀)
    (hstep : ∀ i s, Inv s → Safe (step i) s fun _ s' => Inv s') (h : Runs step s₀ is s) :
    Inv s := by
  induction h with
  | nil => exact h₀
  | concat _ hi ih => exact (hstep _ _ ih).of_returns hi

/-- The same for steps that are only known where they answer. -/
theorem Runs.induct (Inv : σ → Prop) (h₀ : Inv s₀)
    (hstep : ∀ i s s', Inv s → Returns (step i) s () s' → Inv s') (h : Runs step s₀ is s) :
    Inv s := by
  induction h with
  | nil => exact h₀
  | concat _ hi ih => exact hstep _ _ _ ih hi

/-- One run after the other. -/
theorem Runs.append {js : List ι} (h : Runs step s₀ is s) (h' : Runs step s js s') :
    Runs step s₀ (is ++ js) s' := by
  induction h' with
  | nil => rwa [List.append_nil]
  | concat _ hi ih =>
      rw [← List.append_assoc]
      exact ih.concat hi

/-! ### Runs that meet a condition -/

/-- The steps of `step` that meet `C` in the state they are taken in. -/
def Under (C : ι → σ → Bool) (step : ι → Prog σ Unit) (i : ι) : Prog σ Unit := do
  await (C i)
  step i

variable {C : ι → σ → Bool} {i : ι} {Q : Unit → σ → Prop}

theorem safe_under : Safe (Under C step i) s Q ↔ (C i s → Safe (step i) s Q) := safe_await_bind

theorem returns_under : Returns (Under C step i) s () s' ↔ C i s ∧ Returns (step i) s () s' :=
  returns_await_bind

/-- They are runs. -/
theorem Runs.of_under (h : Runs (Under C step) s₀ is s) : Runs step s₀ is s := by
  induction h with
  | nil => exact .nil
  | concat _ hi ih => exact ih.concat (returns_under.mp hi).2

/-! ### Running a schedule -/

/-- Run the labels in order; `none` where a step is blocked or faults. -/
def exec (step : ι → Prog σ Unit) : List ι → σ → Option σ
  | [], s => some s
  | i :: is, s =>
      match step i s 0 with
      | .ok ((), s') => exec step is s'
      | .fault => none
      | .timeout => none

/-- `p` has no loop: it runs alike at every fuel bound. -/
class Loopless (p : Prog σ α) : Prop where
  run_eq : ∀ s n, p s n = p s 0

instance (a : α) : Loopless (pure a : Prog σ α) := ⟨fun _ _ => rfl⟩

instance (f : σ → α) : Loopless (load f) := ⟨fun _ _ => rfl⟩

instance (f : σ → σ) : Loopless (store f) := ⟨fun _ _ => rfl⟩

instance (b : σ → Bool) : Loopless (await b) := ⟨fun _ _ => rfl⟩

instance : Loopless (fault : Prog σ α) := ⟨fun _ _ => rfl⟩

instance (a : Option α) : Loopless (deref a : Prog σ α) :=
  ⟨fun _ _ => by cases a <;> rfl⟩

instance {p : Prog σ α} {k : α → Prog σ β} [Loopless p] [∀ a, Loopless (k a)] :
    Loopless (p >>= k) where
  run_eq s n := by
    rw [bind_run, bind_run, Loopless.run_eq (p := p) s n]
    rcases p s 0 with ⟨a, t⟩ | _ | _
    · exact Loopless.run_eq t n
    · rfl
    · rfl

instance {c : Prop} [Decidable c] {p q : Prog σ α} [hp : Loopless p] [hq : Loopless q] :
    Loopless (if c then p else q) := by
  split_ifs
  · exact hp
  · exact hq

instance {get : ρ → σ} {set : σ → ρ → ρ} {p : Prog σ α} [Loopless p] :
    Loopless (zoom get set p) where
  run_eq r n := by
    rw [zoom, Loopless.run_eq (p := p) (get r) n]
    rfl

instance {C : ι → σ → Bool} {i : ι} [Loopless (step i)] : Loopless (Under C step i) := by
  unfold Under
  infer_instance

theorem Runs.append_exec [∀ i, Loopless (step i)] {js : List ι} (h : Runs step s₀ is s)
    (he : exec step js s = some s') : Runs step s₀ (is ++ js) s' := by
  induction js generalizing is s with
  | nil =>
      rw [exec, Option.some.injEq] at he
      rwa [List.append_nil, ← he]
  | cons j js ih =>
      rw [exec] at he
      rcases e : step j s 0 with ⟨⟨⟩, t⟩ | _ | _
      · rw [e] at he
        rw [List.append_cons]
        exact ih (h.concat ⟨0, fun n _ => (Loopless.run_eq s n).trans e⟩) he
      · rw [e] at he
        cases he
      · rw [e] at he
        cases he

theorem Runs.of_exec [∀ i, Loopless (step i)] (he : exec step is s₀ = some s) : Runs step s₀ is s :=
  Runs.append_exec Runs.nil he

/-! ### Condition variables -/

/-- One of the waiting threads is woken, if there is one: `who`, if it waits. -/
def signal (who : Nat) (waiting : List Nat) : List Nat :=
  if who ∈ waiting then waiting.erase who else waiting.tail

theorem signal_sublist (who : Nat) (waiting : List Nat) :
    (signal who waiting).Sublist waiting := by
  rw [signal]
  split_ifs with h
  · exact List.erase_sublist
  · exact List.tail_sublist waiting

theorem signal_nil (who : Nat) : signal who [] = [] :=
  List.sublist_nil.mp (signal_sublist who [])

/-- A thread that waits alone is the one that is woken. -/
theorem signal_singleton (who me : Nat) : signal who [me] = [] := by
  rw [signal]
  split_ifs with h
  · rw [List.mem_singleton.mp h, List.erase_cons_head]
  · rfl

end Imperative
