/-
DmfServer/Prog.lean

Imperative programs with unbounded loops, as a library.

A program over a state `σ` is run with a fuel bound.  It answers a value and
a state, it faults (a null or dangling pointer is dereferenced, a slice
bound is violated, memory is released twice), or the fuel is used up:

    Prog σ α  =  σ → Nat → Outcome (α × σ)

Only `loop` spends fuel.  A program that awaits a condition which does not hold
(a lock that is taken) answers at no bound: it is blocked there.

Five judgements are developed.

* `Returns p s a s'` — from `s`, with enough fuel, the answer is `a` in
  state `s'`.  This is total: it says the program terminates.  It determines
  the answer (`Returns.unique`), and the answer of a sequence is the answer
  of the second part (`returns_bind_iff`), so code is executed symbolically
  by rewriting; a loop terminates by a variant (`Returns.loop_rule`).
* `Faults p s` — from `s`, with enough fuel, the program faults, so that it does
  not return (`Faults.not_returns`).  The constructs make programs of which the
  outcome lasts when there is more fuel (`Lasting`).
* `Ends p s Q` — from `s`, with enough fuel, there is an answer, and it
  satisfies `Q`: total correctness.
* `Safe p s Q` — from `s`, at no fuel bound does the program fault, and every
  answer it gives satisfies `Q`.  This is the judgement for invariants; the
  loop rule is `Safe.loop`.
* `Partially p s Q` — every answer that `p` gives from `s` satisfies `Q`, but it
  may fault.  An invariant that all answers keep is found by instances
  (`Preserves`).
-/
import Mathlib.Order.Defs.PartialOrder
import Mathlib.Tactic.Common

namespace Imperative

/-- What a run under a fuel bound amounts to. -/
inductive Outcome (α : Type) where
  | ok (a : α)
  | fault
  | timeout
  deriving DecidableEq

/-- A program over the state `σ` with answers in `α`. -/
def Prog (σ α : Type) : Type := σ → Nat → Outcome (α × σ)

variable {σ ρ α β γ : Type}

/-- Apply `f` to the answer. -/
def Outcome.map (f : α → β) : Outcome α → Outcome β
  | .ok a => .ok (f a)
  | .fault => .fault
  | .timeout => .timeout

/-! ### The constructs -/

namespace Prog

/-- Run `p`, then `k` on its answer, in the state `p` leaves. -/
def bind (p : Prog σ α) (k : α → Prog σ β) : Prog σ β := fun s n =>
  match p s n with
  | .ok (a, s') => k a s' n
  | .fault => .fault
  | .timeout => .timeout

instance : Monad (Prog σ) where
  pure a := fun s _ => .ok (a, s)
  bind := bind

/-- Read a component of the state. -/
def load (f : σ → α) : Prog σ α := fun s _ => .ok (f s, s)

/-- Update the state. -/
def store (f : σ → σ) : Prog σ Unit := fun s _ => .ok ((), f s)

/-- A call that answers and updates the state: a system call. -/
def call (f : σ → α × σ) : Prog σ α := fun s _ => .ok (f s)

/-- A memory fault, or a panic. -/
def fault : Prog σ α := fun _ _ => .fault

/-- Follow a pointer: a null or dangling one faults. -/
def deref : Option α → Prog σ α
  | some a => pure a
  | none => fault

/-- Wait for `b`.  Nothing happens while it does not hold: only another thread
can make it hold. -/
def await (b : σ → Bool) : Prog σ Unit := fun s _ => if b s then .ok ((), s) else .timeout

/-- Repeat `body` from `b` for as long as it answers the next value of the
loop variables; its other answer ends the loop.  A turn costs one unit of
fuel. -/
def loop (body : β → Prog σ (β ⊕ α)) (b : β) : Prog σ α := fun s n =>
  match n with
  | 0 => .timeout
  | n + 1 =>
      match body b s n with
      | .ok (Sum.inl b', s') => loop body b' s' n
      | .ok (Sum.inr a, s') => .ok (a, s')
      | .fault => .fault
      | .timeout => .timeout

/-- Run a program over a component of the state. -/
def zoom (get : ρ → σ) (set : σ → ρ → ρ) (p : Prog σ α) : Prog ρ α := fun r n =>
  match p (get r) n with
  | .ok (a, s') => .ok (a, set s' r)
  | .fault => .fault
  | .timeout => .timeout

end Prog

open Prog

theorem pure_run (a : α) (s : σ) (n : Nat) : (pure a : Prog σ α) s n = .ok (a, s) := rfl

theorem bind_run (p : Prog σ α) (k : α → Prog σ β) (s : σ) (n : Nat) :
    (p >>= k) s n = match p s n with
      | .ok (a, s') => k a s' n
      | .fault => .fault
      | .timeout => .timeout := rfl

protected theorem Prog.bind_assoc (p : Prog σ α) (f : α → Prog σ β) (k : β → Prog σ γ) :
    (p >>= f) >>= k = p >>= fun a => f a >>= k := by
  funext s n
  rw [bind_run, bind_run, bind_run]
  rcases p s n with ⟨a, t⟩ | _ | _ <;> rfl

/-! ### Total evaluation -/

/-- From `s` and with enough fuel, `p` answers `a` and leaves `s'`. -/
def Returns (p : Prog σ α) (s : σ) (a : α) (s' : σ) : Prop :=
  ∃ N, ∀ n, N ≤ n → p s n = .ok (a, s')

/-- The answer is determined. -/
theorem Returns.unique {p : Prog σ α} {s s₁ s₂ : σ} {a₁ a₂ : α}
    (h₁ : Returns p s a₁ s₁) (h₂ : Returns p s a₂ s₂) : a₁ = a₂ ∧ s₁ = s₂ := by
  obtain ⟨N₁, h₁⟩ := h₁
  obtain ⟨N₂, h₂⟩ := h₂
  have e := (h₁ (max N₁ N₂) (Nat.le_max_left _ _)).symm.trans
    (h₂ (max N₁ N₂) (Nat.le_max_right _ _))
  simpa only [Outcome.ok.injEq, Prod.mk.injEq] using e

/-- A run with any fuel from `k` on. -/
theorem Returns.of_run {p : Prog σ α} {s s' : σ} {a : α} (k : Nat)
    (h : ∀ m, p s (m + k) = .ok (a, s')) : Returns p s a s' := by
  refine ⟨k, fun n hn => ?_⟩
  obtain ⟨m, rfl⟩ := Nat.exists_eq_add_of_le' hn
  exact h m

@[simp] theorem returns_pure {a b : α} {s s' : σ} :
    Returns (pure a : Prog σ α) s b s' ↔ a = b ∧ s = s' := by
  constructor
  · rintro ⟨N, h⟩
    simpa only [pure_run, Outcome.ok.injEq, Prod.mk.injEq] using h N Nat.le.refl
  · rintro ⟨rfl, rfl⟩
    exact ⟨0, fun _ _ => rfl⟩

@[simp] theorem returns_load {f : σ → α} {b : α} {s s' : σ} :
    Returns (load f) s b s' ↔ f s = b ∧ s = s' := returns_pure (a := f s)

@[simp] theorem returns_store {f : σ → σ} {b : Unit} {s s' : σ} :
    Returns (store f) s b s' ↔ f s = s' := by
  constructor
  · rintro ⟨N, h⟩
    simpa only [store, Outcome.ok.injEq, Prod.mk.injEq, true_and] using h N Nat.le.refl
  · rintro rfl
    exact ⟨0, fun _ _ => rfl⟩

@[simp] theorem returns_call {f : σ → α × σ} {b : α} {s s' : σ} :
    Returns (call f) s b s' ↔ f s = (b, s') := by
  constructor
  · rintro ⟨N, h⟩
    simpa only [call, Outcome.ok.injEq] using h N Nat.le.refl
  · intro h
    exact ⟨0, fun _ _ => congrArg Outcome.ok h⟩

/-- A sequence answers what its second part answers. -/
theorem returns_bind_iff {p : Prog σ α} {k : α → Prog σ β} {s s₁ s' : σ} {a : α} {b : β}
    (h : Returns p s a s₁) : Returns (p >>= k) s b s' ↔ Returns (k a) s₁ b s' := by
  obtain ⟨N, h⟩ := h
  have key : ∀ n, N ≤ n → (p >>= k) s n = k a s₁ n := fun n hn => by
    rw [bind_run, h n hn]
  constructor
  · rintro ⟨M, hk⟩
    refine ⟨max N M, fun n hn => ?_⟩
    rw [← key n (Nat.le_trans (Nat.le_max_left _ _) hn)]
    exact hk n (Nat.le_trans (Nat.le_max_right _ _) hn)
  · rintro ⟨M, hk⟩
    refine ⟨max N M, fun n hn => ?_⟩
    rw [key n (Nat.le_trans (Nat.le_max_left _ _) hn)]
    exact hk n (Nat.le_trans (Nat.le_max_right _ _) hn)

theorem Returns.bind {p : Prog σ α} {k : α → Prog σ β} {s s₁ s' : σ} {a : α} {b : β}
    (h : Returns p s a s₁) (hk : Returns (k a) s₁ b s') : Returns (p >>= k) s b s' :=
  (returns_bind_iff h).mpr hk

@[simp] theorem returns_pure_bind {a : α} {k : α → Prog σ β} {s s' : σ} {b : β} :
    Returns (pure a >>= k) s b s' ↔ Returns (k a) s b s' :=
  returns_bind_iff (returns_pure.mpr ⟨rfl, rfl⟩)

@[simp] theorem returns_load_bind {f : σ → α} {k : α → Prog σ β} {s s' : σ} {b : β} :
    Returns (load f >>= k) s b s' ↔ Returns (k (f s)) s b s' :=
  returns_bind_iff (returns_load.mpr ⟨rfl, rfl⟩)

@[simp] theorem returns_store_bind {f : σ → σ} {k : Unit → Prog σ β} {s s' : σ} {b : β} :
    Returns (store f >>= k) s b s' ↔ Returns (k ()) (f s) b s' :=
  returns_bind_iff (returns_store.mpr rfl)

@[simp] theorem returns_call_bind {f : σ → α × σ} {k : α → Prog σ β} {s s' : σ} {b : β} :
    Returns (call f >>= k) s b s' ↔ Returns (k (f s).1) (f s).2 b s' :=
  returns_bind_iff (returns_call.mpr rfl)

@[simp] theorem returns_deref_bind {a : α} {k : α → Prog σ β} {s s' : σ} {b : β} :
    Returns (deref (some a) >>= k) s b s' ↔ Returns (k a) s b s' :=
  returns_pure_bind

@[simp] theorem returns_await_bind {b : σ → Bool} {k : Unit → Prog σ β} {s s' : σ} {c : β} :
    Returns (await b >>= k) s c s' ↔ b s ∧ Returns (k ()) s c s' := by
  by_cases hb : b s
  · have hrun : (await b >>= k) s = k () s := by
      funext n
      rw [bind_run, await, if_pos hb]
    simp only [hb, true_and, Returns, hrun]
  · have hrun : ∀ n, (await b >>= k) s n = .timeout := by
      intro n
      rw [bind_run, await, if_neg hb]
    refine iff_of_false ?_ fun h => hb h.1
    rintro ⟨N, h⟩
    simpa only [hrun, reduceCtorEq] using h N Nat.le.refl

/-! ### Loops, evaluated turn by turn -/

theorem Returns.loop_exit {body : β → Prog σ (β ⊕ α)} {b : β} {s s' : σ} {a : α}
    (h : Returns (body b) s (Sum.inr a) s') : Returns (loop body b) s a s' := by
  obtain ⟨N, h⟩ := h
  refine ⟨N + 1, fun n hn => ?_⟩
  obtain ⟨m, rfl⟩ : ∃ m, n = m + 1 := ⟨n - 1, by omega⟩
  rw [loop, h m (by omega)]

theorem Returns.loop_next {body : β → Prog σ (β ⊕ α)} {b b' : β} {s s₁ s' : σ} {a : α}
    (h : Returns (body b) s (Sum.inl b') s₁) (hl : Returns (loop body b') s₁ a s') :
    Returns (loop body b) s a s' := by
  obtain ⟨N, h⟩ := h
  obtain ⟨M, hl⟩ := hl
  refine ⟨max N M + 1, fun n hn => ?_⟩
  obtain ⟨m, rfl⟩ : ∃ m, n = m + 1 := ⟨n - 1, by omega⟩
  rw [loop, h m (by omega)]
  exact hl m (by omega)

/-- **The loop rule for termination.**  From an invariant that every turn
keeps while a variant decreases, unless it ends the loop and yields `Q`. -/
theorem Returns.loop_rule {body : β → Prog σ (β ⊕ α)} {Q : α → σ → Prop} (Inv : β → σ → Prop)
    (variant : β → σ → Nat)
    (hbody : ∀ b s, Inv b s →
      (∃ b' s', Returns (body b) s (Sum.inl b') s' ∧ Inv b' s' ∧ variant b' s' < variant b s) ∨
      ∃ a s', Returns (body b) s (Sum.inr a) s' ∧ Q a s')
    {b : β} {s : σ} (hb : Inv b s) : ∃ a s', Returns (loop body b) s a s' ∧ Q a s' := by
  induction h : variant b s using Nat.strongRecOn generalizing b s with
  | ind n ih =>
      rcases hbody b s hb with ⟨b', s₁, hturn, hb', hlt⟩ | ⟨a, s', hturn, hq⟩
      · obtain ⟨a, s', hl, hq⟩ := ih _ (h ▸ hlt) hb' rfl
        exact ⟨a, s', hturn.loop_next hl, hq⟩
      · exact ⟨a, s', hturn.loop_exit, hq⟩

theorem Returns.zoom {get : ρ → σ} {set : σ → ρ → ρ} {p : Prog σ α} {r : ρ} {a : α} {s' : σ}
    (h : Returns p (get r) a s') : Returns (zoom get set p) r a (set s' r) := by
  obtain ⟨N, h⟩ := h
  exact ⟨N, fun n hn => by simp only [Prog.zoom, h n hn]⟩

/-! ### Faults, evaluated -/

/-- From `s` and with enough fuel, `p` ends in a fault. -/
def Faults (p : Prog σ α) (s : σ) : Prop := ∃ N, ∀ n, N ≤ n → p s n = .fault

theorem Faults.not_returns {p : Prog σ α} {s s' : σ} {a : α} (h : Faults p s) :
    ¬ Returns p s a s' := by
  rintro ⟨M, hr⟩
  obtain ⟨N, h⟩ := h
  have e := (h (max N M) (Nat.le_max_left _ _)).symm.trans (hr (max N M) (Nat.le_max_right _ _))
  cases e

theorem faults_fault {s : σ} : Faults (fault : Prog σ α) s := ⟨0, fun _ _ => rfl⟩

theorem Faults.bind {p : Prog σ α} {k : α → Prog σ β} {s : σ} (h : Faults p s) :
    Faults (p >>= k) s := by
  obtain ⟨N, h⟩ := h
  exact ⟨N, fun n hn => by rw [bind_run, h n hn]⟩

theorem Returns.faults_bind {p : Prog σ α} {k : α → Prog σ β} {s s₁ : σ} {a : α}
    (h : Returns p s a s₁) (hk : Faults (k a) s₁) : Faults (p >>= k) s := by
  obtain ⟨N, h⟩ := h
  obtain ⟨M, hk⟩ := hk
  refine ⟨max N M, fun n hn => ?_⟩
  rw [bind_run, h n (by omega)]
  exact hk n (by omega)

@[simp] theorem faults_load_bind {f : σ → α} {k : α → Prog σ β} {s : σ} :
    Faults (load f >>= k) s ↔ Faults (k (f s)) s := Iff.rfl

@[simp] theorem faults_store_bind {f : σ → σ} {k : Unit → Prog σ β} {s : σ} :
    Faults (store f >>= k) s ↔ Faults (k ()) (f s) := Iff.rfl

theorem Faults.loop {body : β → Prog σ (β ⊕ α)} {b : β} {s : σ} (h : Faults (body b) s) :
    Faults (loop body b) s := by
  obtain ⟨N, h⟩ := h
  refine ⟨N + 1, fun n hn => ?_⟩
  obtain ⟨m, rfl⟩ : ∃ m, n = m + 1 := ⟨n - 1, by omega⟩
  rw [Prog.loop, h m (by omega)]

theorem Returns.faults_loop {body : β → Prog σ (β ⊕ α)} {b b' : β} {s s₁ : σ}
    (h : Returns (body b) s (Sum.inl b') s₁) (hl : Faults (Prog.loop body b') s₁) :
    Faults (Prog.loop body b) s := by
  obtain ⟨N, h⟩ := h
  obtain ⟨M, hl⟩ := hl
  refine ⟨max N M + 1, fun n hn => ?_⟩
  obtain ⟨m, rfl⟩ : ∃ m, n = m + 1 := ⟨n - 1, by omega⟩
  rw [Prog.loop, h m (by omega)]
  exact hl m (by omega)

/-! ### Total correctness -/

/-- From `s` there is an answer, and it satisfies `Q`. -/
def Ends (p : Prog σ α) (s : σ) (Q : α → σ → Prop) : Prop := ∃ a s', Returns p s a s' ∧ Q a s'

section ends

variable {p : Prog σ α} {s s' : σ} {a : α} {Q Q' : α → σ → Prop} {R : β → σ → Prop}

theorem Ends.of_returns (h : Ends p s Q) (hr : Returns p s a s') : Q a s' := by
  obtain ⟨b, t, hb, hq⟩ := h
  obtain ⟨rfl, rfl⟩ := hr.unique hb
  exact hq

theorem Ends.mono (h : Ends p s Q) (hQ : ∀ a s', Q a s' → Q' a s') : Ends p s Q' := by
  obtain ⟨a, s', hr, hq⟩ := h
  exact ⟨a, s', hr, hQ a s' hq⟩

theorem Returns.ends (h : Returns p s a s') (hq : Q a s') : Ends p s Q := ⟨a, s', h, hq⟩

@[simp] theorem ends_pure : Ends (pure a : Prog σ α) s Q ↔ Q a s := by
  simp [Ends]

@[simp] theorem ends_store {f : σ → σ} {R : Unit → σ → Prop} :
    Ends (store f) s R ↔ R () (f s) := by
  constructor
  · rintro ⟨u, s', hr, hq⟩
    rw [returns_store.mp hr]
    exact hq
  · intro h
    exact ⟨(), f s, returns_store.mpr rfl, h⟩

/-- Code that begins with a part whose answer is known. -/
theorem ends_bind_iff {k : α → Prog σ β} (h : Returns p s a s') :
    Ends (p >>= k) s R ↔ Ends (k a) s' R := by
  simp only [Ends, returns_bind_iff h]

theorem Ends.bind {k : α → Prog σ β} (h : Ends p s fun a s' => Ends (k a) s' R) :
    Ends (p >>= k) s R := by
  obtain ⟨a, s', hr, hk⟩ := h
  exact (ends_bind_iff hr).mpr hk

@[simp] theorem ends_pure_bind {k : α → Prog σ β} : Ends (pure a >>= k) s R ↔ Ends (k a) s R :=
  ends_bind_iff (returns_pure.mpr ⟨rfl, rfl⟩)

@[simp] theorem ends_load_bind {f : σ → α} {k : α → Prog σ β} :
    Ends (load f >>= k) s R ↔ Ends (k (f s)) s R :=
  ends_bind_iff (returns_load.mpr ⟨rfl, rfl⟩)

@[simp] theorem ends_call_bind {f : σ → α × σ} {k : α → Prog σ β} :
    Ends (call f >>= k) s R ↔ Ends (k (f s).1) (f s).2 R :=
  ends_bind_iff (returns_call.mpr rfl)

@[simp] theorem ends_deref_bind {k : α → Prog σ β} :
    Ends (deref (some a) >>= k) s R ↔ Ends (k a) s R :=
  ends_pure_bind

/-- One turn of a loop. -/
theorem Ends.loop {body : β → Prog σ (β ⊕ α)} {b : β}
    (h : Ends (body b) s fun r s' =>
      r.elim (fun b' => Ends (Prog.loop body b') s' Q) fun a => Q a s') :
    Ends (Prog.loop body b) s Q := by
  obtain ⟨r, s', hr, hq⟩ := h
  cases r with
  | inl b' =>
      obtain ⟨a, t, hl, hq⟩ := hq
      exact ⟨a, t, hr.loop_next hl, hq⟩
  | inr a => exact ⟨a, s', hr.loop_exit, hq⟩

/-- The loop rule, for turns of which only the outcome is known. -/
theorem Ends.loop_rule {body : β → Prog σ (β ⊕ α)} (Inv : β → σ → Prop) (variant : β → σ → Nat)
    (hbody : ∀ b s, Inv b s → Ends (body b) s fun r s' =>
      r.elim (fun b' => Inv b' s' ∧ variant b' s' < variant b s) fun a => Q a s')
    {b : β} (hb : Inv b s) : Ends (Prog.loop body b) s Q := by
  refine Returns.loop_rule Inv variant ?_ hb
  intro b s hb
  obtain ⟨r, s', hturn, hr⟩ := hbody b s hb
  cases r with
  | inl b' => exact .inl ⟨b', s', hturn, hr⟩
  | inr a => exact .inr ⟨a, s', hturn, hr⟩

theorem Ends.zoom {get : ρ → σ} {set : σ → ρ → ρ} {r : ρ} {T : α → ρ → Prop}
    (h : Ends p (get r) fun a s' => T a (set s' r)) : Ends (Prog.zoom get set p) r T := by
  obtain ⟨a, s', hr, hq⟩ := h
  exact ⟨a, set s' r, hr.zoom, hq⟩

end ends

/-! ### Safety -/

/-- The run does not fault, and an answer satisfies `Q`. -/
def Outcome.Post (Q : α → σ → Prop) : Outcome (α × σ) → Prop
  | .ok (a, s) => Q a s
  | .fault => False
  | .timeout => True

/-- At no fuel bound does `p` fault from `s`, and its answers satisfy `Q`. -/
def Safe (p : Prog σ α) (s : σ) (Q : α → σ → Prop) : Prop := ∀ n, (p s n).Post Q

variable {p : Prog σ α} {s s' : σ} {a : α} {Q Q' : α → σ → Prop}

/-- Both judgements are about the run from the state. -/
theorem safe_congr {p' : Prog σ α} (h : p s = p' s') : Safe p s Q ↔ Safe p' s' Q := by
  rw [Safe, Safe, h]

theorem returns_congr {p' : Prog σ α} {t : σ} (h : p s = p' s') :
    Returns p s a t ↔ Returns p' s' a t := by
  rw [Returns, Returns, h]

theorem Safe.of_returns (h : Safe p s Q) (hr : Returns p s a s') : Q a s' := by
  obtain ⟨N, hr⟩ := hr
  have hN := h N
  rw [hr N Nat.le.refl] at hN
  exact hN

theorem Safe.no_fault (h : Safe p s Q) (n : Nat) : p s n ≠ .fault := by
  intro e
  simpa only [e, Outcome.Post] using h n

theorem Safe.mono (h : Safe p s Q) (hQ : ∀ a s', Q a s' → Q' a s') : Safe p s Q' := by
  intro n
  have hn := h n
  rcases e : p s n with ⟨b, t⟩ | _ | _
  · rw [e] at hn
    exact hQ b t hn
  · rw [e] at hn
    exact hn
  · exact trivial

theorem Safe.and (h : Safe p s Q) (h' : Safe p s Q') : Safe p s fun a s' => Q a s' ∧ Q' a s' := by
  intro n
  have hn := h n
  have hn' := h' n
  rcases e : p s n with ⟨b, t⟩ | _ | _
  · rw [e] at hn hn'
    exact ⟨hn, hn'⟩
  · rw [e] at hn
    exact hn
  · exact trivial

@[simp] theorem safe_pure : Safe (pure a : Prog σ α) s Q ↔ Q a s :=
  ⟨fun h => h 0, fun h _ => h⟩

@[simp] theorem safe_load {f : σ → α} : Safe (load f) s Q ↔ Q (f s) s :=
  ⟨fun h => h 0, fun h _ => h⟩

@[simp] theorem safe_store {f : σ → σ} {R : Unit → σ → Prop} :
    Safe (store f) s R ↔ R () (f s) :=
  ⟨fun h => h 0, fun h _ => h⟩

@[simp] theorem safe_call {f : σ → α × σ} : Safe (call f) s Q ↔ Q (f s).1 (f s).2 :=
  ⟨fun h => h 0, fun h _ => h⟩

theorem Safe.bind {k : α → Prog σ β} {R : β → σ → Prop}
    (h : Safe p s fun a s' => Safe (k a) s' R) : Safe (p >>= k) s R := by
  intro n
  have hn := h n
  rw [bind_run]
  rcases e : p s n with ⟨b, t⟩ | _ | _
  · rw [e] at hn
    exact hn n
  · rw [e] at hn
    exact hn
  · exact trivial

@[simp] theorem safe_pure_bind {k : α → Prog σ β} {R : β → σ → Prop} :
    Safe (pure a >>= k) s R ↔ Safe (k a) s R := Iff.rfl

@[simp] theorem safe_load_bind {f : σ → α} {k : α → Prog σ β} {R : β → σ → Prop} :
    Safe (load f >>= k) s R ↔ Safe (k (f s)) s R := Iff.rfl

@[simp] theorem safe_store_bind {f : σ → σ} {k : Unit → Prog σ β} {R : β → σ → Prop} :
    Safe (store f >>= k) s R ↔ Safe (k ()) (f s) R := Iff.rfl

@[simp] theorem safe_call_bind {f : σ → α × σ} {k : α → Prog σ β} {R : β → σ → Prop} :
    Safe (call f >>= k) s R ↔ Safe (k (f s).1) (f s).2 R := Iff.rfl

@[simp] theorem safe_deref_bind {k : α → Prog σ β} {R : β → σ → Prop} :
    Safe (deref (some a) >>= k) s R ↔ Safe (k a) s R := Iff.rfl

@[simp] theorem safe_await {b : σ → Bool} {R : Unit → σ → Prop} :
    Safe (await b) s R ↔ (b s → R () s) := by
  constructor
  · intro h hb
    have hn := h 0
    rwa [await, if_pos hb] at hn
  · intro h n
    rw [await]
    split_ifs with hb
    · exact h hb
    · exact trivial

@[simp] theorem safe_await_bind {b : σ → Bool} {k : Unit → Prog σ β} {R : β → σ → Prop} :
    Safe (await b >>= k) s R ↔ (b s → Safe (k ()) s R) := by
  constructor
  · intro h hb n
    have hn := h n
    rwa [bind_run, await, if_pos hb] at hn
  · intro h n
    rw [bind_run, await]
    split_ifs with hb
    · exact h hb n
    · exact trivial

/-- **The loop rule.**  An invariant of the loop variables and the state that
every turn keeps, and that yields `Q` where the loop ends, makes the loop
safe. -/
theorem Safe.loop {body : β → Prog σ (β ⊕ α)} (Inv : β → σ → Prop)
    (hbody : ∀ b s, Inv b s → Safe (body b) s fun r s' =>
      Sum.elim (fun b' => Inv b' s') (fun a => Q a s') r)
    {b : β} (hb : Inv b s) : Safe (loop body b) s Q := by
  intro n
  induction n generalizing b s with
  | zero => exact trivial
  | succ n ih =>
      have hn := hbody b s hb n
      rw [Prog.loop]
      rcases e : body b s n with ⟨b' | a, t⟩ | _ | _
      · rw [e] at hn
        exact ih hn
      · rw [e] at hn
        exact hn
      · rw [e] at hn
        exact hn
      · exact trivial

theorem Safe.zoom {get : ρ → σ} {set : σ → ρ → ρ} {r : ρ}
    (h : Safe p (get r) Q) :
    Safe (zoom get set p) r fun a r' => ∃ s', Q a s' ∧ r' = set s' r := by
  intro n
  have hn := h n
  rcases e : p (get r) n with ⟨a, t⟩ | _ | _
  · rw [e] at hn
    simp only [Prog.zoom, e]
    exact ⟨t, hn, rfl⟩
  · rw [e] at hn
    exact hn.elim
  · simp only [Prog.zoom, e]
    exact trivial

/-- Code that goes on in the larger state. -/
theorem Safe.zoom_bind {get : ρ → σ} {set : σ → ρ → ρ} {r : ρ} {k : α → Prog ρ β}
    {R : β → ρ → Prop} (h : Safe p (get r) fun a s' => Safe (k a) (set s' r) R) :
    Safe (Prog.zoom get set p >>= k) r R := by
  apply Safe.bind
  apply h.zoom.mono
  rintro a r' ⟨s', hk, rfl⟩
  exact hk

/-! ### Partial correctness -/

/-- The answers of `p` from `s` satisfy `Q`; it may also fault. -/
def Partially (p : Prog σ α) (s : σ) (Q : α → σ → Prop) : Prop :=
  ∀ n a s', p s n = .ok (a, s') → Q a s'

theorem Partially.of_returns (h : Partially p s Q) (hr : Returns p s a s') : Q a s' := by
  obtain ⟨N, hr⟩ := hr
  exact h N a s' (hr N Nat.le.refl)

theorem Partially.bind {k : α → Prog σ β} {R : β → σ → Prop}
    (h : Partially p s fun a s' => Partially (k a) s' R) : Partially (p >>= k) s R := by
  intro n b s₂ hn
  rw [bind_run] at hn
  rcases e : p s n with ⟨a, s₁⟩ | _ | _
  · rw [e] at hn
    exact h n a s₁ e n b s₂ hn
  · rw [e] at hn
    cases hn
  · rw [e] at hn
    cases hn

theorem Partially.mono (h : Partially p s Q) (hQ : ∀ a s', Q a s' → Q' a s') :
    Partially p s Q' := fun n a s' hn => hQ a s' (h n a s' hn)

theorem Partially.zoom {get : ρ → σ} {set : σ → ρ → ρ} {r : ρ} (h : Partially p (get r) Q) :
    Partially (zoom get set p) r fun a r' => ∃ s', Q a s' ∧ r' = set s' r := by
  intro n a r' hn
  rw [Prog.zoom] at hn
  rcases e : p (get r) n with ⟨b, t⟩ | _ | _
  · rw [e] at hn
    obtain ⟨rfl, rfl⟩ := Prod.mk.inj (Outcome.ok.inj hn)
    exact ⟨t, h n b t e, rfl⟩
  · rw [e] at hn
    cases hn
  · rw [e] at hn
    cases hn

/-- The judgement is about the run from the state. -/
theorem partially_congr {p' : Prog σ α} (h : p s = p' s') :
    Partially p s Q ↔ Partially p' s' Q := by
  rw [Partially, Partially, h]

@[simp] theorem partially_pure : Partially (pure a : Prog σ α) s Q ↔ Q a s := by
  constructor
  · intro h
    exact h 0 a s rfl
  · intro h n b s' hn
    cases hn
    exact h

@[simp] theorem partially_load {f : σ → α} : Partially (load f) s Q ↔ Q (f s) s :=
  partially_pure (a := f s)

@[simp] theorem partially_store {f : σ → σ} {R : Unit → σ → Prop} :
    Partially (store f) s R ↔ R () (f s) := by
  constructor
  · intro h
    exact h 0 () (f s) rfl
  · intro h n b s' hn
    cases hn
    exact h

@[simp] theorem partially_call {f : σ → α × σ} : Partially (call f) s Q ↔ Q (f s).1 (f s).2 := by
  constructor
  · intro h
    exact h 0 _ _ rfl
  · intro h n b s' hn
    have he : f s = (b, s') := Outcome.ok.inj hn
    rwa [he] at h

@[simp] theorem partially_fault : Partially (fault : Prog σ α) s Q := fun _ _ _ hn => nomatch hn

@[simp] theorem partially_pure_bind {k : α → Prog σ β} {R : β → σ → Prop} :
    Partially (pure a >>= k) s R ↔ Partially (k a) s R := Iff.rfl

@[simp] theorem partially_load_bind {f : σ → α} {k : α → Prog σ β} {R : β → σ → Prop} :
    Partially (load f >>= k) s R ↔ Partially (k (f s)) s R := Iff.rfl

@[simp] theorem partially_store_bind {f : σ → σ} {k : Unit → Prog σ β} {R : β → σ → Prop} :
    Partially (store f >>= k) s R ↔ Partially (k ()) (f s) R := Iff.rfl

@[simp] theorem partially_call_bind {f : σ → α × σ} {k : α → Prog σ β} {R : β → σ → Prop} :
    Partially (call f >>= k) s R ↔ Partially (k (f s).1) (f s).2 R := Iff.rfl

/-- **The loop rule.** -/
theorem Partially.loop {body : β → Prog σ (β ⊕ α)} (Inv : β → σ → Prop)
    (hbody : ∀ b s, Inv b s → Partially (body b) s fun r s' =>
      Sum.elim (fun b' => Inv b' s') (fun a => Q a s') r)
    {b : β} (hb : Inv b s) : Partially (loop body b) s Q := by
  intro n a s' hn
  induction n generalizing b s with
  | zero => cases hn
  | succ n ih =>
      rw [Prog.loop] at hn
      rcases e : body b s n with ⟨b' | a', t⟩ | _ | _
      · rw [e] at hn
        exact ih (hbody b s hb n _ t e) hn
      · rw [e] at hn
        cases hn
        exact hbody b s hb n _ s' e
      · rw [e] at hn
        cases hn
      · rw [e] at hn
        cases hn

/-- The answers of `p` keep `I`. -/
class Preserves (I : σ → Prop) (p : Prog σ α) : Prop where
  keep : ∀ s, I s → Partially p s fun _ s' => I s'

namespace Preserves

variable {I : σ → Prop}

instance : Preserves I (pure a : Prog σ α) := ⟨fun _ h => partially_pure.mpr h⟩

instance : Preserves I (fault : Prog σ α) := ⟨fun _ _ => partially_fault⟩

instance {f : σ → α} : Preserves I (load f) := ⟨fun _ h => partially_load.mpr h⟩

instance {x : Option α} : Preserves I (deref x : Prog σ α) := by
  cases x
  · exact inferInstanceAs (Preserves I fault)
  · exact inferInstanceAs (Preserves I (pure _))

theorem store {f : σ → σ} (hf : ∀ s, I s → I (f s)) : Preserves I (store f) :=
  ⟨fun s h => partially_store.mpr (hf s h)⟩

theorem call {f : σ → α × σ} (hf : ∀ s, I s → I (f s).2) : Preserves I (call f) :=
  ⟨fun s h => partially_call.mpr (hf s h)⟩

theorem seq {k : α → Prog σ β} (hp : Preserves I p) (hk : ∀ a, Preserves I (k a)) :
    Preserves I (p >>= k) where
  keep s h := Partially.bind fun n a s' hn => (hk a).keep s' (hp.keep s h n a s' hn)

instance bind {k : α → Prog σ β} [hp : Preserves I p] [hk : ∀ a, Preserves I (k a)] :
    Preserves I (p >>= k) := seq hp hk

instance ite {c : Prop} [Decidable c] {q : Prog σ α} [hp : Preserves I p]
    [hq : Preserves I q] : Preserves I (if c then p else q) := by
  split_ifs
  · exact hp
  · exact hq

instance loop {body : β → Prog σ (β ⊕ α)} [hb : ∀ b, Preserves I (body b)] {b : β} :
    Preserves I (loop body b) where
  keep s h := by
    refine Partially.loop (fun _ s' => I s') (fun b s' hs' => ?_) h
    refine Partially.mono ((hb b).keep s' hs') ?_
    rintro (b' | a) t ht <;> exact ht

/-- The rest begins where `I` holds. -/
theorem partially_bind (I : σ → Prop) {k : α → Prog σ β} {R : β → σ → Prop} [hp : Preserves I p]
    (h : I s) (hk : ∀ a s', I s' → Partially (k a) s' R) : Partially (p >>= k) s R :=
  Partially.bind ((hp.keep s h).mono hk)

/-- Code over a component that `I` does not depend on. -/
theorem zoom {get : ρ → σ} {set : σ → ρ → ρ} {J : ρ → Prop} (h : ∀ t r, J r → J (set t r)) :
    Preserves J (zoom get set p) where
  keep r hr := by
    have hp : Partially p (get r) fun _ _ => True := fun _ _ _ _ => trivial
    refine hp.zoom.mono ?_
    rintro a r' ⟨s', -, rfl⟩
    exact h s' r hr

end Preserves

/-! ### More fuel -/

/-- What `p` comes to at a fuel bound, it comes to at every larger one. -/
class Lasting (p : Prog σ α) : Prop where
  run_eq : ∀ s {n m}, n ≤ m → p s n = .timeout ∨ p s m = p s n

namespace Lasting

instance : Lasting (pure a : Prog σ α) := ⟨fun _ _ _ _ => .inr rfl⟩

instance : Lasting (fault : Prog σ α) := ⟨fun _ _ _ _ => .inr rfl⟩

instance {f : σ → α} : Lasting (load f) := ⟨fun _ _ _ _ => .inr rfl⟩

instance {f : σ → σ} : Lasting (store f) := ⟨fun _ _ _ _ => .inr rfl⟩

instance {x : Option α} : Lasting (deref x : Prog σ α) :=
  ⟨fun _ _ _ _ => .inr (by cases x <;> rfl)⟩

theorem seq {k : α → Prog σ β} (hp : Lasting p) (hk : ∀ a, Lasting (k a)) :
    Lasting (p >>= k) where
  run_eq s n m hle := by
    rw [bind_run, bind_run]
    rcases hp.run_eq s hle with e | e
    · rw [e]
      exact .inl rfl
    · rw [e]
      rcases p s n with ⟨a, t⟩ | _ | _
      · exact (hk a).run_eq t hle
      · exact .inr rfl
      · exact .inl rfl

instance bind {k : α → Prog σ β} [hp : Lasting p] [hk : ∀ a, Lasting (k a)] :
    Lasting (p >>= k) := seq hp hk

instance ite {c : Prop} [Decidable c] {q : Prog σ α} [hp : Lasting p] [hq : Lasting q] :
    Lasting (if c then p else q) := by
  split_ifs
  · exact hp
  · exact hq

instance loop {body : β → Prog σ (β ⊕ α)} [hb : ∀ b, Lasting (body b)] {b : β} :
    Lasting (loop body b) where
  run_eq s n m hle := by
    induction n generalizing m b s with
    | zero => exact .inl rfl
    | succ n ih =>
        obtain ⟨m, rfl⟩ : ∃ k, m = k + 1 := ⟨m - 1, by omega⟩
        have hle' : n ≤ m := Nat.le_of_succ_le_succ hle
        rw [Prog.loop, Prog.loop]
        rcases (hb b).run_eq s hle' with e | e
        · rw [e]
          exact .inl rfl
        · rw [e]
          rcases body b s n with ⟨b' | a', t⟩ | _ | _
          · exact ih t m hle'
          · exact .inr rfl
          · exact .inr rfl
          · exact .inl rfl

end Lasting

/-- An answer at some fuel bound is the answer. -/
theorem Returns.partially [hp : Lasting p] (h : Returns p s a s') (hq : Q a s') :
    Partially p s Q := by
  intro n b t hn
  obtain ⟨N, h⟩ := h
  rcases hp.run_eq s (Nat.le_max_right N n) with e | e
  · rw [hn] at e
    cases e
  · rw [h _ (Nat.le_max_left _ _), hn] at e
    cases e
    exact hq

/-- Where it faults there is no answer. -/
theorem Faults.partially [hp : Lasting p] (h : Faults p s) : Partially p s Q := by
  intro n b t hn
  obtain ⟨N, h⟩ := h
  rcases hp.run_eq s (Nat.le_max_right N n) with e | e
  · rw [hn] at e
    cases e
  · rw [h _ (Nat.le_max_left _ _), hn] at e
    cases e

end Imperative
