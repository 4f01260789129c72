/-
DmfServer/Chain.lean

Singly linked lists in memory, as a library.

A memory gives every node its successor, `next : α → Option α`, with `none`
the null pointer.  Two predicates relate a pointer to the list of nodes met
from it:

* `Seg next p l q` — following `next` from `p` passes the nodes of `l` and
  then stands at `q`;
* `Chain next p l` — the same with `q` null, so `l` is the whole list.

The rules say what pointer surgery does to them: a segment splits and joins
(`seg_append`), writing the successor of a node outside it does not change
it (`seg_update`), and a chain determines its list (`Chain.unique`).  From
the last one, a null-terminated list is acyclic (`Chain.nodup`); finiteness
is that it is a `List`.
-/
import Mathlib.Data.List.Nodup
import Mathlib.Logic.Function.Basic

namespace Imperative

variable {α : Type}

/-- From `p`, the nodes of `l` are passed in order, and then `q` is reached. -/
def Seg (next : α → Option α) : Option α → List α → Option α → Prop
  | p, [], q => p = q
  | p, a :: l, q => p = some a ∧ Seg next (next a) l q

/-- The null-terminated list from `p` is `l`. -/
def Chain (next : α → Option α) (p : Option α) (l : List α) : Prop := Seg next p l none

variable {next next' : α → Option α} {p q r : Option α} {a b : α} {l l' l₁ l₂ : List α}

/-! ### Segments -/

@[simp] theorem seg_nil : Seg next p [] q ↔ p = q := Iff.rfl

@[simp] theorem seg_cons : Seg next p (a :: l) q ↔ p = some a ∧ Seg next (next a) l q := Iff.rfl

theorem seg_append : Seg next p (l₁ ++ l₂) q ↔ ∃ r, Seg next p l₁ r ∧ Seg next r l₂ q := by
  induction l₁ generalizing p with
  | nil => simp
  | cons a l₁ ih => simp [ih, and_assoc]

/-- A segment up to a node extends over it. -/
theorem seg_concat : Seg next p (l ++ [a]) q ↔ Seg next p l (some a) ∧ next a = q := by
  rw [seg_append]
  constructor
  · rintro ⟨r, hl, rfl, ha⟩
    exact ⟨hl, ha⟩
  · rintro ⟨hl, ha⟩
    exact ⟨some a, hl, rfl, ha⟩

/-- A segment depends on the successors of its own nodes only. -/
theorem Seg.congr (h : Seg next p l q) (hn : ∀ a ∈ l, next' a = next a) : Seg next' p l q := by
  induction l generalizing p with
  | nil => exact h
  | cons a l ih =>
      obtain ⟨rfl, h⟩ := h
      refine ⟨rfl, ?_⟩
      rw [hn a List.mem_cons_self]
      exact ih h fun b hb => hn b (List.mem_cons_of_mem a hb)

/-- Writing the successor of a node outside a segment leaves it as it was. -/
theorem Seg.update [DecidableEq α] (h : Seg next p l q) (ha : a ∉ l) :
    Seg (Function.update next a r) p l q :=
  h.congr fun _ hb => Function.update_of_ne (ne_of_mem_of_not_mem hb ha) _ _

/-! ### Chains -/

@[simp] theorem chain_nil : Chain next p [] ↔ p = none := Iff.rfl

@[simp] theorem chain_cons : Chain next p (a :: l) ↔ p = some a ∧ Chain next (next a) l := Iff.rfl

theorem chain_append : Chain next p (l₁ ++ l₂) ↔ ∃ r, Seg next p l₁ r ∧ Chain next r l₂ :=
  seg_append

theorem Chain.congr (h : Chain next p l) (hn : ∀ a ∈ l, next' a = next a) : Chain next' p l :=
  Seg.congr h hn

theorem Chain.update [DecidableEq α] (h : Chain next p l) (ha : a ∉ l) :
    Chain (Function.update next a r) p l :=
  Seg.update h ha

/-- Unlinking: the predecessor `b` of `a` is made to point past it. -/
theorem Chain.unlink [DecidableEq α] (h : Chain next p (l₁ ++ b :: a :: l₂))
    (hnd : (l₁ ++ b :: a :: l₂).Nodup) :
    Chain (Function.update next b (next a)) p (l₁ ++ b :: l₂) := by
  obtain ⟨r, h₁, rfl, hb, h₂⟩ := chain_append.mp h
  have hnd' := List.nodup_append.mp hnd
  have hb₁ : b ∉ l₁ := fun hm => hnd'.2.2 b hm b (by simp) rfl
  have hb₂ : b ∉ l₂ := fun hm => by simpa [hm] using hnd'.2.1
  refine chain_append.mpr ⟨some b, h₁.update hb₁, rfl, ?_⟩
  rw [Function.update_self]
  exact h₂.update hb₂

/-- Linking: a null-terminated node `a` from outside is hung behind the last
node `b`. -/
theorem Chain.link [DecidableEq α] (h : Chain next p (l ++ [b])) (ha : a ∉ l ++ [b])
    (hnd : (l ++ [b]).Nodup) (hn : next a = none) :
    Chain (Function.update next b (some a)) p (l ++ [b] ++ [a]) := by
  obtain ⟨r, h₁, rfl, -⟩ := chain_append.mp h
  have hb : b ∉ l := fun hm => (List.nodup_append.mp hnd).2.2 b hm b (by simp) rfl
  have hab : a ≠ b := fun e => ha (by simp [e])
  rw [List.append_assoc]
  refine chain_append.mpr ⟨some b, h₁.update hb, rfl, ?_⟩
  rw [Function.update_self]
  exact ⟨rfl, by rw [Function.update_of_ne hab]; exact hn⟩

/-- A pointer starts at most one null-terminated list. -/
theorem Chain.unique (h : Chain next p l) (h' : Chain next p l') : l = l' := by
  induction l generalizing p l' with
  | nil =>
      obtain rfl := h
      cases l' with
      | nil => rfl
      | cons b l' => cases h'.1
  | cons a l ih =>
      obtain ⟨rfl, h⟩ := h
      cases l' with
      | nil => cases h'
      | cons b l' =>
          obtain ⟨e, h'⟩ := h'
          obtain rfl := Option.some.inj e
          rw [ih h h']

/-- A null-terminated list passes no node twice: it is acyclic. -/
theorem Chain.nodup (h : Chain next p l) : l.Nodup := by
  induction l generalizing p with
  | nil => exact List.nodup_nil
  | cons a l ih =>
      obtain ⟨rfl, h⟩ := h
      refine List.nodup_cons.mpr ⟨fun ha => ?_, ih h⟩
      -- met again, `a` would start both the whole list and a proper part of it
      obtain ⟨l₁, l₂, rfl⟩ := List.append_of_mem ha
      obtain ⟨r, -, h₂⟩ := chain_append.mp h
      obtain ⟨rfl, h₂⟩ := h₂
      have e := Chain.unique (chain_cons.mpr ⟨rfl, h₂⟩) (chain_cons.mpr ⟨rfl, h⟩)
      have hlen := congrArg List.length e
      simp at hlen
      omega

end Imperative
