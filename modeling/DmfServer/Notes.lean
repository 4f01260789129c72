/-
DmfServer/Notes.lean

Imperative programs with notes, as a library.

To state something about the arguments of the calls that a program makes, the
program is written once more over a state with a list of notes, and takes a
note before each of those calls (`note`); everything else leaves the notes
alone (`quiet`).  `Erases q p` says that `q` without its notes is `p`, and the
rules for it follow the constructs.
-/
import DmfServer.Prog

namespace Imperative

open Prog

variable {σ γ α β : Type}

namespace Prog

/-- Run `p`; it takes no notes. -/
def quiet (p : Prog σ α) : Prog (σ × List γ) α := zoom Prod.fst (fun s t => (s, t.2)) p

/-- Take a note. -/
def note (c : γ) : Prog (σ × List γ) Unit := store fun t => (t.1, t.2 ++ [c])

end Prog

variable {s s' : σ} {l : List γ} {a : α} {b : β} {t : σ × List γ} {c : γ}

theorem Returns.quiet {p : Prog σ α} (h : Returns p s a s') :
    Returns (quiet p) (s, l) a (s', l) := Returns.zoom (r := (s, l)) h

theorem Returns.quiet_bind {p : Prog σ α} {k : α → Prog (σ × List γ) β} (h : Returns p s a s')
    (hk : Returns (k a) (s', l) b t) : Returns (Prog.quiet p >>= k) (s, l) b t :=
  h.quiet.bind hk

@[simp] theorem returns_note {u : Unit} : Returns (note c) (s, l) u t ↔ (s, l ++ [c]) = t :=
  returns_store

@[simp] theorem returns_note_bind {k : Unit → Prog (σ × List γ) β} :
    Returns (note c >>= k) (s, l) b t ↔ Returns (k ()) (s, l ++ [c]) b t := returns_store_bind

/-! ### Forgetting the notes -/

/-- Without the notes, `q` is `p`. -/
def Erases (q : Prog (σ × List γ) α) (p : Prog σ α) : Prop :=
  ∀ t n, (q t n).map (fun x => (x.1, x.2.1)) = p t.1 n

theorem erases_quiet (p : Prog σ α) : Erases (quiet (γ := γ) p) p := by
  intro t n
  rw [quiet, zoom]
  rcases p t.1 n with ⟨a, s'⟩ | _ | _ <;> rfl

theorem erases_pure (a : α) : Erases (pure a : Prog (σ × List γ) α) (pure a) := fun _ _ => rfl

theorem Erases.bind {q : Prog (σ × List γ) α} {p : Prog σ α} {k : α → Prog (σ × List γ) β}
    {k' : α → Prog σ β} (h : Erases q p) (hk : ∀ a, Erases (k a) (k' a)) :
    Erases (q >>= k) (p >>= k') := by
  intro t n
  have ht := h t n
  rw [bind_run, bind_run, ← ht]
  rcases q t n with ⟨a, t'⟩ | _ | _
  · exact hk a t' n
  · rfl
  · rfl

theorem Erases.note_bind {q : Prog (σ × List γ) α} {p : Prog σ α} (h : Erases q p) (c : γ) :
    Erases (note c >>= fun _ => q) p := fun t n => h (t.1, t.2 ++ [c]) n

theorem Erases.loop {body : β → Prog (σ × List γ) (β ⊕ α)} {body' : β → Prog σ (β ⊕ α)}
    (h : ∀ b, Erases (body b) (body' b)) (b : β) : Erases (loop body b) (loop body' b) := by
  intro t n
  induction n generalizing t b with
  | zero => rfl
  | succ n ih =>
      have ht := h b t n
      rw [Prog.loop, Prog.loop, ← ht]
      rcases body b t n with ⟨b' | a, t'⟩ | _ | _
      · exact ih b' t'
      · rfl
      · rfl
      · rfl

end Imperative
