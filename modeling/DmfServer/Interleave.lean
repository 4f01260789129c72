/-
DmfServer/Interleave.lean

Processes that add to a memory they share, as a library.

`Code` is a program cut into atomic steps: where a `Prog` only has a result,
a `Code` can be stopped between two steps and another process run.  `Step`
is one of its steps, `Eval` a run to the end, and `denote` forgets where the
cuts are; steps that lead to the end are an evaluation (`Eval.of_steps`), and
so an answer of the `Prog` (`Eval.returns`).

The processes share a component of their states (`Shared`).  A step is
transparent when it keeps what the others have put there and does not depend
on it (`Transparent`), as code that only counts.  Every step of a `Code` is
transparent, by definition.

In a system of such processes the interleaving makes no difference:

    System.alone:  a reachable state of the system is one of runs that each
                   process does alone, with a memory of its own that starts
                   empty; the shared memory is the sum of these.
-/
import DmfServer.Prog
import Mathlib.Algebra.BigOperators.Group.Finset.Basic
import Mathlib.Logic.Relation
import Mathlib.Tactic.Abel

namespace Imperative

open Prog Relation

universe u

/-! ### The shared component -/

/-- A component of the state that other processes have access to. -/
class Shared (M : outParam Type) (σ : Type u) where
  get : σ → M
  put : M → σ → σ
  get_put : ∀ m s, get (put m s) = m
  put_get : ∀ s, put (get s) s = s
  put_put : ∀ m m' s, put m (put m' s) = put m s

variable {M : Type} [AddCancelCommMonoid M] {σ : Type} [Shared M σ] {α β γ : Type}

/-- The others add `d`. -/
def shift {σ : Type u} [Shared M σ] (d : M) (s : σ) : σ := Shared.put (Shared.get s + d) s

section shift

variable {σ : Type u} [Shared M σ] {d : M} {s t : σ}

@[simp] theorem get_shift : Shared.get (shift d s) = Shared.get s + d := Shared.get_put _ _

@[simp] theorem put_shift {m : M} : Shared.put m (shift d s) = Shared.put m s :=
  Shared.put_put _ _ _

/-- More is in the shared component than `m`. -/
theorem put_add {m : M} : Shared.put (m + d) s = shift d (Shared.put m s) := by
  rw [shift, Shared.get_put, Shared.put_put]

theorem shift_injective : Function.Injective (shift d : σ → σ) := by
  intro s t h
  have hg : Shared.get s + d = Shared.get t + d := by
    rw [← get_shift, h, get_shift]
  calc s = Shared.put (Shared.get s) (shift d s) := by rw [put_shift, Shared.put_get]
    _ = Shared.put (Shared.get t) (shift d t) := by rw [h, add_right_cancel hg]
    _ = t := by rw [put_shift, Shared.put_get]

end shift

/-! ### Transparent programs -/

/-- `p` keeps what the others have added, and does the same with it and
without. -/
class Transparent (p : Prog σ α) : Prop where
  run_shift : ∀ d s n, p (shift d s) n = (p s n).map (Prod.map id (shift d))

namespace Transparent

instance (a : α) : Transparent (pure a : Prog σ α) := ⟨fun _ _ _ => rfl⟩

instance : Transparent (fault : Prog σ α) := ⟨fun _ _ _ => rfl⟩

instance (a : Option α) : Transparent (deref a : Prog σ α) :=
  ⟨fun _ _ _ => by cases a <;> rfl⟩

theorem load {f : σ → α} (h : ∀ d s, f (shift d s) = f s) : Transparent (load f) :=
  ⟨fun d s _ => congrArg (fun a => Outcome.ok (a, shift d s)) (h d s)⟩

theorem store {f : σ → σ} (h : ∀ d s, f (shift d s) = shift d (f s)) : Transparent (store f) :=
  ⟨fun d s _ => congrArg (fun t => Outcome.ok ((), t)) (h d s)⟩

theorem call {f : σ → α × σ} (h : ∀ d s, f (shift d s) = Prod.map id (shift d) (f s)) :
    Transparent (call f) :=
  ⟨fun d s _ => congrArg Outcome.ok (h d s)⟩

instance bind {p : Prog σ α} {k : α → Prog σ β} [hp : Transparent p]
    [hk : ∀ a, Transparent (k a)] : Transparent (p >>= k) where
  run_shift d s n := by
    rw [bind_run, bind_run, hp.run_shift]
    rcases p s n with ⟨a, t⟩ | _ | _
    · exact (hk a).run_shift d t n
    · rfl
    · rfl

/-- `bind`, for a second part that is taken apart first. -/
theorem seq {p : Prog σ α} {k : α → Prog σ β} (hp : Transparent p) (hk : ∀ a, Transparent (k a)) :
    Transparent (p >>= k) := bind

instance ite {c : Prop} [Decidable c] {p q : Prog σ α} [hp : Transparent p]
    [hq : Transparent q] : Transparent (if c then p else q) := by
  split_ifs
  · exact hp
  · exact hq

instance loop {body : β → Prog σ (β ⊕ α)} [hb : ∀ b, Transparent (body b)] {b : β} :
    Transparent (loop body b) where
  run_shift d s n := by
    induction n generalizing b s with
    | zero => rfl
    | succ n ih =>
        rw [Prog.loop, Prog.loop, (hb b).run_shift]
        rcases body b s n with ⟨b' | a, t⟩ | _ | _
        · exact ih t
        · rfl
        · rfl
        · rfl

/-- Code over a component that is not shared. -/
theorem zoom {τ : Type} {get : σ → τ} {set : τ → σ → σ} {p : Prog τ α}
    (hget : ∀ d s, get (shift d s) = get s)
    (hset : ∀ d t s, set t (shift d s) = shift d (set t s)) :
    Transparent (zoom get set p) where
  run_shift d s n := by
    rw [Prog.zoom, Prog.zoom, hget]
    rcases p (get s) n with ⟨a, t⟩ | _ | _
    · show Outcome.ok (a, set t (shift d s)) = .ok (a, shift d (set t s))
      rw [hset]
    · rfl
    · rfl

/-- What a transparent program answers in the presence of the others, it
answers alone. -/
theorem returns {p : Prog σ α} (hp : Transparent p) {d : M} {s t : σ} {a : α}
    (h : Returns p (shift d s) a t) : ∃ s', t = shift d s' ∧ Returns p s a s' := by
  obtain ⟨N, h⟩ := h
  -- at each fuel bound there is such a state, and `shift` being injective it is the same
  have key : ∀ n, N ≤ n → ∃ s', p s n = .ok (a, s') ∧ shift d s' = t := by
    intro n hn
    have hr := h n hn
    rw [hp.run_shift] at hr
    rcases hs : p s n with ⟨b, s'⟩ | _ | _
    · rw [hs] at hr
      obtain ⟨rfl, ht⟩ := Prod.mk.inj (Outcome.ok.inj hr)
      exact ⟨s', rfl, ht⟩
    · rw [hs] at hr
      cases hr
    · rw [hs] at hr
      cases hr
  obtain ⟨s', -, ht⟩ := key N Nat.le.refl
  refine ⟨s', ht.symm, N, fun n hn => ?_⟩
  obtain ⟨s₁, hs₁, ht₁⟩ := key n hn
  rw [hs₁, shift_injective (ht₁.trans ht.symm)]

end Transparent

/-! ### Programs in atomic steps -/

/-- A program as a sequence of steps that other processes see as one. -/
inductive Code {M : Type} [AddCancelCommMonoid M] (σ : Type) [Shared M σ] : Type → Type 1 where
  | ret {α : Type} (a : α) : Code σ α
  | act {α β : Type} (p : Prog σ α) (hp : Transparent p) (k : α → Code σ β) : Code σ β
  | iter {α β γ : Type} (body : β → Code σ (β ⊕ α)) (b : β) (k : α → Code σ γ) : Code σ γ

namespace Code

protected def bind : Code σ α → (α → Code σ β) → Code σ β
  | .ret a, k => k a
  | .act p hp k', k => .act p hp fun a => (k' a).bind k
  | .iter body b k', k => .iter body b fun a => (k' a).bind k

instance : Monad (Code σ) where
  pure := .ret
  bind := .bind

/-- One atomic step. -/
def atom (p : Prog σ α) [hp : Transparent p] : Code σ α := .act p hp .ret

/-- A loop whose turns are not atomic. -/
def cycle (body : β → Code σ (β ⊕ α)) (b : β) : Code σ α := .iter body b .ret

/-- The program, without the cuts. -/
def denote {α : Type} : Code σ α → Prog σ α
  | .ret a => pure a
  | .act p _ k => p >>= fun a => (k a).denote
  | .iter body b k => loop (fun b => (body b).denote) b >>= fun a => (k a).denote

@[simp] theorem denote_pure (a : α) : (pure a : Code σ α).denote = pure a := rfl

@[simp] theorem denote_atom (p : Prog σ α) [Transparent p] : (atom p).denote = p := by
  funext s n
  show (p >>= pure) s n = p s n
  rw [bind_run]
  rcases p s n with ⟨a, t⟩ | _ | _ <;> rfl

theorem denote_cycle {body : β → Code σ (β ⊕ α)} {b : β} :
    (cycle body b).denote = loop (fun b => (body b).denote) b := by
  funext s n
  show (loop (fun b => (body b).denote) b >>= pure) s n = _
  rw [bind_run]
  rcases loop (fun b => (body b).denote) b s n with ⟨a, t⟩ | _ | _ <;> rfl

@[simp] theorem denote_bind (c : Code σ α) (k : α → Code σ β) :
    (c >>= k).denote = c.denote >>= fun a => (k a).denote := by
  show (Code.bind c k).denote = _
  induction c with
  | ret a => rfl
  | act p hp k' ih =>
      show (p >>= fun x => ((k' x).bind k).denote) = _
      rw [denote, Prog.bind_assoc]
      exact congrArg (p >>= ·) (funext fun x => ih x k)
  | iter body b k' _ ih =>
      show (loop _ b >>= fun x => ((k' x).bind k).denote) = _
      rw [denote, Prog.bind_assoc]
      exact congrArg (loop _ b >>= ·) (funext fun x => ih x k)

/-! ### Steps and evaluation -/

/-- A step of a program.  Going round a loop is one, too. -/
inductive Step : {α : Type} → Code σ α → σ → Code σ α → σ → Prop
  | act {α β : Type} {p : Prog σ β} {hp : Transparent p} {k : β → Code σ α} {s s' : σ} {b : β}
      (h : Returns p s b s') : Step (.act p hp k) s (k b) s'
  | turn {α β γ : Type} {body : β → Code σ (β ⊕ γ)} {b : β} {k : γ → Code σ α} {s : σ} :
      Step (.iter body b k) s ((body b).bind (Sum.elim (fun b' => .iter body b' k) k)) s

/-- What the others have added does not change the steps. -/
theorem Step.clear {c c' : Code σ α} {d : M} {s t : σ} (h : Step c (shift d s) c' t) :
    ∃ s', t = shift d s' ∧ Step c s c' s' := by
  generalize hu : shift d s = u at h
  cases h with
  | act h =>
      subst hu
      obtain ⟨s', rfl, hs'⟩ := Transparent.returns ‹_› h
      exact ⟨s', rfl, .act hs'⟩
  | turn => exact ⟨s, hu.symm, .turn⟩

/-- A run to the end. -/
inductive Eval : {α : Type} → Code σ α → σ → α → σ → Prop
  | ret {α : Type} {a : α} {s : σ} : Eval (.ret a) s a s
  | act {α β : Type} {p : Prog σ β} {hp : Transparent p} {k : β → Code σ α} {s s' t : σ} {b : β}
      {a : α} : Returns p s b s' → Eval (k b) s' a t → Eval (.act p hp k) s a t
  | next {α β γ : Type} {body : β → Code σ (β ⊕ γ)} {b b' : β} {c : γ} {k : γ → Code σ α}
      {s s' s'' t : σ} {a : α} : Eval (body b) s (Sum.inl b') s' →
      Eval (cycle body b') s' c s'' → Eval (k c) s'' a t → Eval (.iter body b k) s a t
  | exit {α β γ : Type} {body : β → Code σ (β ⊕ γ)} {b : β} {c : γ} {k : γ → Code σ α}
      {s s' t : σ} {a : α} : Eval (body b) s (Sum.inr c) s' → Eval (k c) s' a t →
      Eval (.iter body b k) s a t

/-- A run of a sequence is one of the first part, then one of the second. -/
theorem Eval.of_bind {c : Code σ α} {k : α → Code σ β} {s t : σ} {b : β}
    (h : Eval (c.bind k) s b t) : ∃ a s', Eval c s a s' ∧ Eval (k a) s' b t := by
  generalize hd : c.bind k = d at h
  -- along the run; in each case the first part may be over already
  induction h generalizing c with
  | @ret _ b s =>
      cases c with
      | ret a =>
          have hk : k a = .ret b := hd
          exact ⟨a, s, .ret, hk ▸ .ret⟩
      | act => cases hd
      | iter => cases hd
  | act hp hk ih =>
      cases c with
      | ret a =>
          have hka : k a = _ := hd
          exact ⟨a, _, .ret, hka ▸ .act hp hk⟩
      | act =>
        cases hd
        obtain ⟨a, s', ha, hb⟩ := ih rfl
        exact ⟨a, s', .act hp ha, hb⟩
      | iter => cases hd
  | next hb hl hk _ _ ih =>
      cases c with
      | ret a =>
          have hka : k a = _ := hd
          exact ⟨a, _, .ret, hka ▸ .next hb hl hk⟩
      | act => cases hd
      | iter =>
        cases hd
        obtain ⟨a, s', ha, hk'⟩ := ih rfl
        exact ⟨a, s', .next hb hl ha, hk'⟩
  | exit hb hk _ ih =>
      cases c with
      | ret a =>
          have hka : k a = _ := hd
          exact ⟨a, _, .ret, hka ▸ .exit hb hk⟩
      | act => cases hd
      | iter =>
        cases hd
        obtain ⟨a, s', ha, hk'⟩ := ih rfl
        exact ⟨a, s', .exit hb ha, hk'⟩

/-- A step can be put before a run. -/
theorem Eval.of_step {c c' : Code σ α} {s s' t : σ} {a : α} (hs : Step c s c' s')
    (h : Eval c' s' a t) : Eval c s a t := by
  cases hs with
  | act hp => exact .act hp h
  | @turn _ _ body b k =>
      -- the turn is run first, and then the loop or what follows it
      obtain ⟨r, s₁, hb, hr⟩ := h.of_bind
      rcases r with b' | c
      · have hloop : Eval ((cycle body b').bind k) s₁ a t := hr
        obtain ⟨c, s₂, hl, hk⟩ := hloop.of_bind
        exact .next hb hl hk
      · exact .exit hb hr

/-- A run is an answer of the program. -/
theorem Eval.returns {c : Code σ α} {s t : σ} {a : α} (h : Eval c s a t) :
    Returns c.denote s a t := by
  induction h with
  | ret => exact returns_pure.mpr ⟨rfl, rfl⟩
  | act hp _ ih => exact hp.bind ih
  | next _ _ _ ihb ihl ihk =>
      rw [denote_cycle] at ihl
      exact (Returns.loop_next ihb ihl).bind ihk
  | exit _ _ ihb ihk => exact (Returns.loop_exit ihb).bind ihk

protected theorem bind_assoc (c : Code σ α) (f : α → Code σ β) (k : β → Code σ γ) :
    (c.bind f).bind k = c.bind fun a => (f a).bind k := by
  induction c with
  | ret a => rfl
  | act p hp k' ih => exact congrArg (Code.act p hp) (funext fun x => ih x f)
  | iter body b k' _ ih => exact congrArg (Code.iter body b) (funext fun x => ih x f)

/-- A program and the state it is in. -/
abbrev Steps (c : Code σ α) (s : σ) (c' : Code σ α) (s' : σ) : Prop :=
  ReflTransGen (fun x y : Code σ α × σ => Step x.1 x.2 y.1 y.2) (c, s) (c', s')

/-- The first part of a sequence takes its steps in the sequence. -/
theorem Steps.bind {c c' : Code σ α} {s s' : σ} (h : Steps c s c' s') (k : α → Code σ β) :
    Steps (c.bind k) s (c'.bind k) s' := by
  refine ReflTransGen.lift (fun x : Code σ α × σ => (x.1.bind k, x.2)) ?_ _ _ h
  rintro ⟨c, s⟩ ⟨c', s'⟩ hstep
  cases hstep with
  | act hp => exact .act hp
  | @turn _ _ body b k' =>
      -- what follows the turn is the same, however the sequence is bracketed
      have hrest : (fun r => (Sum.elim (fun b' => Code.iter body b' k') k' r).bind k) =
          Sum.elim (fun b' => .iter body b' fun c => (k' c).bind k) fun c => (k' c).bind k := by
        funext r
        cases r <;> rfl
      show Step (.iter body b fun c => (k' c).bind k) s
        (((body b).bind (Sum.elim (fun b' => .iter body b' k') k')).bind k) s
      rw [Code.bind_assoc, hrest]
      exact .turn

/-- Every run can be taken step by step. -/
theorem Eval.steps {c : Code σ α} {s t : σ} {a : α} (h : Eval c s a t) : Steps c s (.ret a) t := by
  induction h with
  | ret => exact .refl
  | act hp _ ih => exact .head (.act hp) ih
  | @next _ _ _ body b b' c k s _ _ _ a _ _ _ ihb ihl ihk =>
      have hturn : Steps (.iter body b k) s _ s := .single .turn
      exact (hturn.trans (ihb.bind _)).trans ((ihl.bind k).trans ihk)
  | @exit _ _ _ body b c k s _ _ _ _ _ ihb ihk =>
      have hturn : Steps (.iter body b k) s _ s := .single .turn
      exact (hturn.trans (ihb.bind _)).trans ihk

end Code

/-! ### Systems -/

section system

variable {ι : Type} {S : Type u} [Shared M S]

/-- The shared memory, and what each process has to itself. -/
structure System (ι M : Type) (S : Type u) where
  shared : M
  sites : ι → S

/-- One of the processes takes a step. -/
def System.Step [DecidableEq ι] (T : ι → S → S → Prop) (x y : System ι M S) : Prop :=
  ∃ i t, T i (Shared.put x.shared (x.sites i)) t ∧
    y = ⟨Shared.get t, Function.update x.sites i t⟩

/-- The steps of a process do not depend on what the others have added, and
keep it. -/
def Clear (T : S → S → Prop) : Prop :=
  ∀ d s t, T (shift d s) t → ∃ s', t = shift d s' ∧ T s s'

/-- **Interleaving makes no difference.**  Each process could have come where
it is alone, and the shared memory is what they have added together. -/
theorem System.alone [Fintype ι] [DecidableEq ι] {T : ι → S → S → Prop} (hT : ∀ i, Clear (T i))
    {x₀ x : System ι M S} (h : ReflTransGen (Step T) x₀ x) :
    ∃ own : ι → M, x.shared = x₀.shared + ∑ i, own i ∧
      ∀ i, ReflTransGen (T i) (Shared.put 0 (x₀.sites i)) (Shared.put (own i) (x.sites i)) := by
  induction h with
  | refl =>
      refine ⟨fun _ => 0, ?_, fun i => .refl⟩
      rw [Finset.sum_const_zero, add_zero]
  | @tail x y _ hstep ih =>
      obtain ⟨own, hsum, hruns⟩ := ih
      obtain ⟨i, t, ht, rfl⟩ := hstep
      -- what the others have added
      set d : M := x₀.shared + ∑ j ∈ Finset.univ.erase i, own j with hd
      have hx : x.shared = own i + d := by
        rw [hsum, hd, ← Finset.add_sum_erase _ own (Finset.mem_univ i)]
        abel
      rw [hx, put_add] at ht
      -- so the step is one that the process takes with its own share alone
      obtain ⟨s', rfl, hs'⟩ := hT i _ _ _ ht
      refine ⟨Function.update own i (Shared.get s'), ?_, fun j => ?_⟩
      · have hrest : ∑ j ∈ Finset.univ.erase i, Function.update own i (Shared.get s') j =
            ∑ j ∈ Finset.univ.erase i, own j :=
          Finset.sum_congr rfl fun j hj =>
            Function.update_of_ne (Finset.ne_of_mem_erase hj) _ _
        show Shared.get (shift d s') = _
        rw [get_shift, hd, ← Finset.add_sum_erase _ _ (Finset.mem_univ i), hrest,
          Function.update_self]
        abel
      · rcases eq_or_ne j i with rfl | hne
        · show ReflTransGen (T j) _ (Shared.put (Function.update own j _ j)
            (Function.update x.sites j _ j))
          rw [Function.update_self, Function.update_self, put_shift, Shared.put_get]
          exact (hruns j).tail hs'
        · show ReflTransGen (T j) _ (Shared.put (Function.update own i _ j)
            (Function.update x.sites i _ j))
          rw [Function.update_of_ne hne, Function.update_of_ne hne]
          exact hruns j

omit [AddCancelCommMonoid M] in
/-- What a process does from the shared memory as it is, it can do while the
others wait. -/
theorem System.of_alone [DecidableEq ι] {T : ι → S → S → Prop} {x : System ι M S} {i : ι} {t : S}
    (h : TransGen (T i) (Shared.put x.shared (x.sites i)) t) :
    ReflTransGen (Step T) x ⟨Shared.get t, Function.update x.sites i t⟩ := by
  induction h with
  | single h => exact .single ⟨i, _, h, rfl⟩
  | @tail s t _ hst ih =>
      refine ih.tail ⟨i, t, ?_, ?_⟩
      · show T i (Shared.put (Shared.get s) (Function.update x.sites i s i)) t
        rw [Function.update_self, Shared.put_get]
        exact hst
      · rw [Function.update_idem]

end system

end Imperative
