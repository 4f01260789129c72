/-
DmfServer/RbRead.lean

What can be read from a red-black tree in memory: the keys in order
(`returns_inorderTraversal`), a node with a given key (`returns_searchNode`),
and the first node of a subtree (`returns_getMinimumNode`).
-/
import DmfServer.RbHeap
import Mathlib.Data.Int.Order.Basic

namespace DmfServer

open Imperative Imperative.Prog Trees ColorTree RbMem

variable {s : RbMem} {c : Color} {a : Item} {k : Int} {p : Option Ref} {x : Ref}
variable {t l r : ColorTree Item} {ctx : List (Frame Item)}

/-- A traversal needs one unit of fuel more than there are nodes. -/
theorem inorderFrom_run (h : Holds s.nodes p t) :
    ∀ n, t.toList.length < n → ∀ m, inorderFrom n (ptr t) s m = .ok (keys t, s) := by
  have hfield : ∀ {α : Type} {f : Node → α} {x : Ref} {node : Node} {m : Nat},
      s.nodes.get x = some node → field f (some x) s m = .ok (f node, s) := by
    intro α f x node m hx
    simp only [field, deref, load, bind_run, pure_run, hx]
  induction t generalizing p with
  | nil =>
      intro n hn m
      obtain ⟨n, rfl⟩ := Nat.exists_eq_add_one_of_ne_zero (Nat.ne_zero_of_lt hn)
      rfl
  | node c l a r ihl ihr =>
      intro n hn m
      obtain ⟨ha, hl, hr⟩ := h
      obtain ⟨n, rfl⟩ := Nat.exists_eq_add_one_of_ne_zero (Nat.ne_zero_of_lt hn)
      rw [toList, List.length_append, List.length_cons] at hn
      rw [ptr, inorderFrom, bind_run, hfield ha]
      show ((inorderFrom n (ptr l) >>= _) : Prog RbMem (List Int)) s m = _
      rw [bind_run, ihl hl n (by omega) m]
      show ((field Node.key (some a.ref) >>= _) : Prog RbMem (List Int)) s m = _
      rw [bind_run, hfield ha]
      show ((field Node.right (some a.ref) >>= _) : Prog RbMem (List Int)) s m = _
      rw [bind_run, hfield ha]
      show ((inorderFrom n (ptr r) >>= _) : Prog RbMem (List Int)) s m = _
      rw [bind_run, ihr hr n (by omega) m]
      show Outcome.ok (keys l ++ a.key :: keys r, s) = _
      rw [keys, keys, keys, toList, List.map_append, List.map_cons]

/-- `inorderTraversal` prints the keys in order. -/
theorem returns_inorderTraversal (h : Holds s.nodes p t) :
    Returns (inorderTraversal (ptr t)) s (keys t) s :=
  ⟨t.toList.length + 1, fun n hn => inorderFrom_run h n hn n⟩

/-- `searchNode` finds a node with the key, if there is one. -/
theorem returns_searchNode (h : Holds s.nodes p t) (hs : Sorted Item.key t) (k : Int) :
    ∃ v, Returns (searchNode (ptr t) k) s v s ∧
      (v = none ∧ k ∉ keys t ∨
        ∃ ctx c l a r, a.key = k ∧ v = some a.ref ∧ t = plug ctx (node c l a r)) := by
  induction t generalizing p with
  | nil =>
      refine ⟨none, ?_, .inl ⟨rfl, List.not_mem_nil⟩⟩
      exact Returns.loop_exit (returns_pure.mpr ⟨rfl, rfl⟩)
  | node c l a r ihl ihr =>
      obtain ⟨ha, hl, hr⟩ := h
      have hsl : Sorted Item.key l :=
        Sorted.of_plug (show Sorted Item.key (plug [⟨.left, c, a, r⟩] l) from hs)
      have hsr : Sorted Item.key r :=
        Sorted.of_plug (show Sorted Item.key (plug [⟨.right, c, a, l⟩] r) from hs)
      rcases lt_trichotomy k a.key with hk | rfl | hk
      · obtain ⟨v, hv, hcase⟩ := ihl hl hsl
        have hturn : Returns (searchTurn k (some a.ref)) s (Sum.inl (ptr l)) s := by
          rw [searchTurn, returns_field_bind ha, if_neg (ne_of_gt hk), if_pos hk,
            returns_field_bind ha]
          exact returns_pure.mpr ⟨rfl, rfl⟩
        refine ⟨v, hturn.loop_next hv, ?_⟩
        rcases hcase with ⟨hnone, hno⟩ | ⟨ctx, c', b, l', r', hkey, hsome, rfl⟩
        · refine .inl ⟨hnone, fun hmem => hno ?_⟩
          exact List.mem_map.mpr ((hs.mem_left hk).mp (List.mem_map.mp hmem))
        · refine .inr ⟨ctx ++ [⟨.left, c, a, r⟩], c', b, l', r', hkey, hsome, ?_⟩
          rw [plug_append]
          rfl
      · refine ⟨some a.ref, ?_, .inr ⟨[], c, l, a, r, rfl, rfl, rfl⟩⟩
        refine Returns.loop_exit ?_
        rw [ptr, searchTurn, returns_field_bind ha, if_pos rfl]
        exact returns_pure.mpr ⟨rfl, rfl⟩
      · obtain ⟨v, hv, hcase⟩ := ihr hr hsr
        have hturn : Returns (searchTurn k (some a.ref)) s (Sum.inl (ptr r)) s := by
          rw [searchTurn, returns_field_bind ha, if_neg (ne_of_lt hk), if_neg (not_lt_of_gt hk),
            returns_field_bind ha]
          exact returns_pure.mpr ⟨rfl, rfl⟩
        refine ⟨v, hturn.loop_next hv, ?_⟩
        rcases hcase with ⟨hnone, hno⟩ | ⟨ctx, c', b, l', r', hkey, hsome, rfl⟩
        · refine .inl ⟨hnone, fun hmem => hno ?_⟩
          exact List.mem_map.mpr ((hs.mem_right hk).mp (List.mem_map.mp hmem))
        · refine .inr ⟨ctx ++ [⟨.right, c, a, l⟩], c', b, l', r', hkey, hsome, ?_⟩
          rw [plug_append]
          rfl

/-- `getMinimumNode` finds the first node: from it up to the root, all is on the
right. -/
theorem returns_getMinimumNode (h : Holds s.nodes p (node c l a r)) :
    ∃ ctx c' b r', Returns (getMinimumNode (some a.ref)) s (some b.ref) s ∧
      node c l a r = plug ctx (node c' nil b r') ∧ before ctx = [] := by
  induction l generalizing p c a r with
  | nil =>
      refine ⟨[], c, a, r, Returns.loop_exit ?_, rfl, rfl⟩
      rw [minimumTurn, returns_field_bind h.1]
      exact returns_pure.mpr ⟨rfl, rfl⟩
  | node cl ll al rl ihl ihr =>
      obtain ⟨ctx, c', b, r', hmin, heq, hbefore⟩ := ihl h.2.1
      have hturn : Returns (minimumTurn (some a.ref)) s (Sum.inl (some al.ref)) s := by
        rw [minimumTurn, returns_field_bind h.1]
        exact returns_pure.mpr ⟨rfl, rfl⟩
      refine ⟨ctx ++ [⟨.left, c, a, r⟩], c', b, r', hturn.loop_next hmin, ?_, ?_⟩
      · rw [plug_append, ← heq]
        rfl
      · rw [before_append, hbefore]
        rfl

end DmfServer
