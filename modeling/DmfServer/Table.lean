/-
DmfServer/Table.lean

Finite tables over the natural numbers, as a library: descriptor tables and
heaps.

A table carries a bound from which on it is empty, so a free index always
exists.  There are two ways to get one:

* `push` takes the bound itself and moves it up; since nothing moves it down,
  an index is given out once (`bound_push`, `get_bound`);
* `pick` takes the index it is asked for when that is free, so it can give
  out any free index from a lower limit on, and otherwise one beyond the
  bound (`pick_pos_iff`).
-/
import Mathlib.Logic.Function.Basic
import Mathlib.Tactic.Common

namespace Imperative

/-- A partial map that is empty from `bound` on. -/
structure Table (α : Type) where
  get : Nat → Option α
  bound : Nat
  get_of_le : ∀ i, bound ≤ i → get i = none

namespace Table

variable {α : Type}

/-- The empty table. -/
def empty : Table α := ⟨fun _ => none, 0, fun _ _ => rfl⟩

/-- Enter `a` at `i`. -/
def set (t : Table α) (i : Nat) (a : α) : Table α where
  get := Function.update t.get i (some a)
  bound := max t.bound (i + 1)
  get_of_le j hj := by
    rw [Function.update_of_ne (by omega)]
    exact t.get_of_le j (by omega)

/-- Delete the entry at `i`. -/
def erase (t : Table α) (i : Nat) : Table α where
  get := Function.update t.get i none
  bound := t.bound
  get_of_le j hj := by
    rcases eq_or_ne j i with rfl | h
    · rw [Function.update_self]
    · rw [Function.update_of_ne h]
      exact t.get_of_le j hj

/-- Enter `a` at an index that was never used. -/
def push (t : Table α) (a : α) : Table α := t.set t.bound a

/-- Change every entry. -/
def map (f : α → α) (t : Table α) : Table α where
  get i := (t.get i).map f
  bound := t.bound
  get_of_le i hi := by rw [t.get_of_le i hi, Option.map_none]

/-- Change the entry at `i`, if there is one. -/
def modify (t : Table α) (i : Nat) (f : α → α) : Table α where
  get := Function.update t.get i ((t.get i).map f)
  bound := t.bound
  get_of_le j hj := by
    rcases eq_or_ne j i with rfl | h
    · rw [Function.update_self, t.get_of_le j hj, Option.map_none]
    · rw [Function.update_of_ne h]
      exact t.get_of_le j hj

/-- A free index from `low` on, `hint` if it is one. -/
def pick (t : Table α) (low hint : Nat) : Nat :=
  if low ≤ hint ∧ t.get hint = none then hint else max t.bound low

variable {t : Table α} {i j low hint : Nat} {a : α}

@[simp] theorem get_set_self : (t.set i a).get i = some a := Function.update_self ..

@[simp] theorem get_set_of_ne (h : j ≠ i) : (t.set i a).get j = t.get j :=
  Function.update_of_ne h ..

@[simp] theorem get_erase_self : (t.erase i).get i = none := Function.update_self ..

@[simp] theorem get_erase_of_ne (h : j ≠ i) : (t.erase i).get j = t.get j :=
  Function.update_of_ne h ..

@[simp] theorem bound_erase : (t.erase i).bound = t.bound := rfl

@[simp] theorem get_bound : t.get t.bound = none := t.get_of_le _ (Nat.le_refl _)

@[simp] theorem get_push_self : (t.push a).get t.bound = some a := get_set_self

@[simp] theorem get_push_of_ne (h : j ≠ t.bound) : (t.push a).get j = t.get j := get_set_of_ne h

@[simp] theorem bound_push : (t.push a).bound = t.bound + 1 := Nat.max_eq_right (Nat.le_succ _)

@[simp] theorem get_map {f : α → α} : (t.map f).get i = (t.get i).map f := rfl

@[simp] theorem get_modify_self {f : α → α} : (t.modify i f).get i = (t.get i).map f :=
  Function.update_self ..

@[simp] theorem get_modify_of_ne {f : α → α} (h : j ≠ i) : (t.modify i f).get j = t.get j :=
  Function.update_of_ne h ..

theorem lt_bound (h : t.get i = some a) : i < t.bound := by
  by_contra hle
  rw [t.get_of_le i (by omega)] at h
  cases h

/-- Entering over an entry does not move the bound. -/
theorem bound_set (h : i < t.bound) : (t.set i a).bound = t.bound := Nat.max_eq_left h

theorem get_erase_eq_some {b : α} :
    (t.erase i).get j = some b ↔ j ≠ i ∧ t.get j = some b := by
  rcases eq_or_ne j i with rfl | h
  · simp
  · simp [h]

theorem get_set_eq_some {b : α} :
    (t.set i a).get j = some b ↔ j = i ∧ a = b ∨ j ≠ i ∧ t.get j = some b := by
  rcases eq_or_ne j i with rfl | h
  · simp
  · simp [h]

/-- Of two entries at one index the last one counts. -/
theorem set_set {b : α} : (t.set i a).set i b = t.set i b := by
  simp only [set, Function.update_idem, Nat.max_assoc, Nat.max_self]

/-- Entering what is there changes nothing. -/
theorem set_self (h : t.get i = some a) : t.set i a = t := by
  have hb : max t.bound (i + 1) = t.bound := Nat.max_eq_left (lt_bound h)
  have hg : Function.update t.get i (some a) = t.get := h ▸ Function.update_eq_self i t.get
  obtain ⟨get, bound, hle⟩ := t
  simp only [set]
  congr

/-- What `pick` gives is free. -/
theorem get_pick : t.get (t.pick low hint) = none := by
  rw [pick]
  split
  · next h => exact h.2
  · exact t.get_of_le _ (Nat.le_max_left _ _)

theorem le_pick : low ≤ t.pick low hint := by
  rw [pick]
  split
  · next h => exact h.1
  · exact Nat.le_max_right _ _

/-- Index 0 is given out when it is asked for, and free. -/
theorem pick_pos_iff : 0 < t.pick low hint ↔ ¬ (low = 0 ∧ hint = 0 ∧ t.get 0 = none) := by
  rw [pick]
  split
  · next h =>
    rw [Nat.pos_iff_ne_zero, not_iff_not]
    constructor
    · rintro rfl
      exact ⟨Nat.le_zero.mp h.1, rfl, h.2⟩
    · rintro ⟨-, rfl, -⟩
      rfl
  · next h =>
    refine iff_of_true ?_ ?_
    · by_contra hle
      have hlow : low = 0 := by omega
      have hbound : t.bound = 0 := by omega
      exact h ⟨hlow ▸ Nat.zero_le hint, t.get_of_le hint (hbound ▸ Nat.zero_le hint)⟩
    · rintro ⟨rfl, rfl, hz⟩
      exact h ⟨Nat.le_refl 0, hz⟩

end Table

end Imperative
