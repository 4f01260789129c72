/-
DmfServer/MoveFront.lean

The move-to-front pass, as a library about lists with keys.

One pass walks a list from its second element on.  An element whose key is
smaller than its predecessor's is taken out and put in front of everything
seen so far; otherwise the walk goes on:

    moveFront key front parent rest

is the outcome when `front` has been built, `parent` is the element last
kept in place, and `rest` is still to be walked.

The pass permutes (`pass_perm`) and leaves an ordered list alone
(`pass_eq_self`).  It does not sort, and the last two results say exactly
what it does to an ordered list with one element appended: the element is
put in front iff it is smaller than the last one (`pass_concat`), so the
outcome is ordered iff the new key is at one of the two ends
(`pass_concat_ordered_iff`).
-/
import Mathlib

namespace Imperative

variable {α β : Type} [LinearOrder β] (key : α → β)

/-! ### The pass -/

/-- The pass, with `front` built, `parent` last kept in place and `rest` to
be walked. -/
def moveFront : List α → α → List α → List α
  | front, parent, [] => front ++ [parent]
  | front, parent, current :: rest =>
      if key current < key parent then moveFront (current :: front) parent rest
      else moveFront (front ++ [parent]) current rest

/-- The pass over a whole list. -/
def pass : List α → List α
  | [] => []
  | a :: l => moveFront key [] a l

/-- The keys of a list in non-decreasing order. -/
def Ordered (l : List α) : Prop := l.Pairwise fun a b => key a ≤ key b

variable {key} {a : α} {l front rest : List α} {parent : α}

/-! ### It permutes -/

theorem moveFront_perm : (moveFront key front parent rest).Perm (front ++ parent :: rest) := by
  induction rest generalizing front parent with
  | nil => exact List.Perm.refl _
  | cons current rest ih =>
      rw [moveFront]
      split
      · refine ih.trans ?_
        -- `current` moves from behind `parent` to the very front
        have h : (parent :: current :: rest).Perm (current :: parent :: rest) :=
          List.Perm.swap _ _ _
        exact (List.perm_middle.symm.trans (h.symm.append_left front))
      · refine ih.trans ?_
        rw [List.append_assoc]
        exact List.Perm.refl _

theorem pass_perm : (pass key l).Perm l := by
  cases l with
  | nil => exact List.Perm.refl _
  | cons a l => exact moveFront_perm

@[simp] theorem mem_pass : a ∈ pass key l ↔ a ∈ l := pass_perm.mem_iff

/-! ### On an ordered list -/

/-- Nothing moves as long as the list walked is ordered. -/
theorem moveFront_append (h : Ordered key (parent :: l)) :
    moveFront key front parent (l ++ rest)
      = moveFront key (front ++ (parent :: l).dropLast)
          ((parent :: l).getLast (List.cons_ne_nil _ _)) rest := by
  induction l generalizing front parent with
  | nil => simp
  | cons current l ih =>
      obtain ⟨hp, hl⟩ := List.pairwise_cons.mp h
      have hle : ¬ key current < key parent := not_lt.mpr (hp current (by simp))
      rw [List.cons_append, moveFront, if_neg hle, ih hl]
      simp [List.append_assoc]

theorem pass_eq_self (h : Ordered key l) : pass key l = l := by
  cases l with
  | nil => rfl
  | cons a l =>
      have e : moveFront key [] a (l ++ []) = _ := moveFront_append h
      rw [List.append_nil] at e
      rw [pass, e, moveFront, List.nil_append, List.dropLast_concat_getLast]

/-- One element appended to an ordered list: it is put in front iff it is
smaller than the last one. -/
theorem pass_concat (h : Ordered key (parent :: l)) :
    pass key (parent :: l ++ [a])
      = if key a < key ((parent :: l).getLast (List.cons_ne_nil _ _)) then a :: parent :: l
        else parent :: l ++ [a] := by
  rw [List.cons_append, pass, moveFront_append h, moveFront]
  split
  · rw [moveFront, List.nil_append, List.cons_append, List.dropLast_concat_getLast]
  · rw [moveFront, List.nil_append, List.dropLast_concat_getLast, List.cons_append]

/-- In an ordered list the last key is the largest. -/
theorem Ordered.le_getLast (h : Ordered key l) (hl : l ≠ []) (ha : a ∈ l) :
    key a ≤ key (l.getLast hl) := by
  rw [← List.dropLast_concat_getLast hl] at h ha
  rcases List.mem_append.mp ha with ha | ha
  · exact (List.pairwise_append.mp h).2.2 a ha _ (List.mem_singleton_self _)
  · rw [List.mem_singleton.mp ha]

/-- **What the pass restores.**  After an element is appended to an ordered
list, the pass yields an ordered list exactly when the new key is at one of
the two ends. -/
theorem pass_concat_ordered_iff (h : Ordered key l) :
    Ordered key (pass key (l ++ [a])) ↔
      (∀ b ∈ l, key a ≤ key b) ∨ ∀ b ∈ l, key b ≤ key a := by
  rcases l with - | ⟨parent, l⟩
  · simp [pass, moveFront, Ordered]
  · have hne : parent :: l ≠ [] := List.cons_ne_nil _ _
    rw [pass_concat h]
    split
    · next hlt =>
        -- put in front: it must be a least element
        constructor
        · intro ho
          exact Or.inl (List.pairwise_cons.mp ho).1
        · rintro (hmin | hmax)
          · exact List.pairwise_cons.mpr ⟨hmin, h⟩
          · exact absurd (hmax _ (List.getLast_mem hne)) (not_le.mpr hlt)
    · next hge =>
        -- left at the end: it is a largest element
        have hmax : ∀ b ∈ parent :: l, key b ≤ key a := fun b hb =>
          le_trans (h.le_getLast hne hb) (not_lt.mp hge)
        constructor
        · exact fun _ => Or.inr hmax
        · intro _
          refine List.pairwise_append.mpr ⟨h, List.pairwise_singleton _ _, ?_⟩
          intro b hb c hc
          rw [List.mem_singleton.mp hc]
          exact hmax b hb

end Imperative
