/-
DmfServer/RbRuns.lean

The red-black tree as a dictionary.

A run is a list of calls of `insertNode` and `deleteNode` that all return, from
the empty tree.  Its abstract meaning is a multiset of integers, its `bag`:
an insertion adds a key, a deletion takes one away.  After any run the tree
prints the bag in order, and a search says whether a key is in the bag
(`rbTree_dictionary`); a search takes a number of calls that is logarithmic in the size
of the bag, which is what the colours are for.

No node is lost (`rbTree_memory`).  Nothing but `createNode` and `free` changes
which nodes there are, which is shown program by program with `Preserves`; so
after a run the nodes in memory are as many as the keys, and those of the tree
are all of them.
-/
import DmfServer.RbDelete
import DmfServer.Threads
import Mathlib.Data.Multiset.AddSub

namespace DmfServer

open Imperative Imperative.Prog Trees ColorTree RbMem

variable {s s' : RbMem} {t t' : ColorTree Item} {c : Color} {a : Item} {k : Int} {p : Option Ref}
variable {x : Ref} {d : Dir} {A : Ref → Prop}

/-! ### The nodes in memory -/

section allocated

-- the instances of a whole function are found in one go
set_option synthInstance.maxSize 256

/-- The nodes in memory are those in `A`. -/
def Allocated (A : Ref → Prop) (s : RbMem) : Prop := ∀ x, (s.nodes.get x).isSome ↔ A x

theorem Allocated.modify (h : Allocated A s) (x : Ref) (f : Node → Node) :
    Allocated A (s.modify x f) := by
  intro y
  rw [← h y]
  show ((s.nodes.modify x f).get y).isSome ↔ _
  rcases eq_or_ne y x with rfl | hy
  · rw [Table.get_modify_self, Option.isSome_map]
  · rw [Table.get_modify_of_ne hy]

instance {f : Node → Node} {x : Option Ref} : Preserves (Allocated A) (assign f x) := by
  have hstore : ∀ x, Preserves (Allocated A) (store (RbMem.modify x f)) := fun x =>
    .store fun s h => h.modify x f
  unfold assign
  infer_instance

instance {v : Option Ref} : Preserves (Allocated A) (store (setRoot v)) := .store fun _ h => h

instance {α : Type} {f : Node → α} {x : Option Ref} : Preserves (Allocated A) (field f x) := by
  unfold field
  infer_instance

instance {x : Option Ref} : Preserves (Allocated A) (isRed x) := by
  unfold isRed
  infer_instance

instance {v p : Option Ref} : Preserves (Allocated A) (reparent v p) := by
  unfold reparent
  infer_instance

instance {v : Option Ref} : Preserves (Allocated A) (blacken v) := by
  unfold blacken
  infer_instance

instance {p u v : Option Ref} : Preserves (Allocated A) (relink p u v) := by
  unfold relink
  infer_instance

instance {x : Option Ref} : Preserves (Allocated A) (rotate d x) := by
  unfold rotate
  infer_instance

instance {z : Option Ref} : Preserves (Allocated A) (fixInsertRotate d z) := by
  unfold fixInsertRotate
  infer_instance

instance {z : Option Ref} : Preserves (Allocated A) (fixInsertSide d z) := by
  unfold fixInsertSide
  infer_instance

instance {z : Option Ref} : Preserves (Allocated A) (fixInsertTurn z) := by
  unfold fixInsertTurn
  dsimp only
  infer_instance

instance {z : Option Ref} : Preserves (Allocated A) (fixInsert z) := by
  unfold fixInsert
  infer_instance

instance {z : Ref} {yx : Option Ref × Option Ref} : Preserves (Allocated A) (insertTurn z yx) := by
  unfold insertTurn
  split <;> infer_instance

instance {y : Option Ref} {z : Ref} : Preserves (Allocated A) (attach y z) := by
  unfold attach
  infer_instance

instance {key : Int} {x : Option Ref} : Preserves (Allocated A) (searchTurn key x) := by
  unfold searchTurn
  split <;> infer_instance

instance {root : Option Ref} {key : Int} : Preserves (Allocated A) (searchNode root key) := by
  unfold searchNode
  infer_instance

instance {node : Option Ref} : Preserves (Allocated A) (getMinimumNode node) := by
  unfold getMinimumNode minimumTurn
  infer_instance

instance {u v : Option Ref} : Preserves (Allocated A) (transplant u v) := by
  unfold transplant
  infer_instance

instance {x : Option Ref} : Preserves (Allocated A) (siblingOf d x) := by
  unfold siblingOf
  infer_instance

instance {x w : Option Ref} : Preserves (Allocated A) (siblingRotate d x w) := by
  unfold siblingRotate
  infer_instance

instance {x : Option Ref} : Preserves (Allocated A) (fixDeleteSide d x) := by
  unfold fixDeleteSide
  refine .seq inferInstance fun w => .seq inferInstance fun l => .seq inferInstance fun red => ?_
  -- what follows does not depend on where `red` is from
  dsimp only
  split_ifs
  · infer_instance
  · refine .seq inferInstance fun r => .seq inferInstance fun red => ?_
    split_ifs
    · infer_instance
    · infer_instance

instance {x : Option Ref} : Preserves (Allocated A) (fixDelete x) := by
  unfold fixDelete fixDeleteTurn
  dsimp only
  infer_instance

instance {z y x : Option Ref} : Preserves (Allocated A) (detachSuccessor z y x) := by
  unfold detachSuccessor
  infer_instance

instance {z y : Option Ref} : Preserves (Allocated A) (replaceNode z y) := by
  unfold replaceNode
  infer_instance

instance {z : Option Ref} : Preserves (Allocated A) (unlinkNode z) := by
  unfold unlinkNode replaceBySuccessor
  infer_instance

end allocated

/-- `insertNode` adds one node. -/
theorem insertNode_allocated (h : Allocated A s) (k : Int) :
    Partially (insertNode k) s fun _ s' => Allocated (fun x => A x ∨ x = s.nodes.bound) s' := by
  rw [insertNode, createNode, partially_call_bind]
  refine Preserves.keep (I := Allocated fun x => A x ∨ x = s.nodes.bound) _ fun x => ?_
  show ((s.nodes.push _).get x).isSome ↔ _
  rcases eq_or_ne x s.nodes.bound with rfl | hx
  · simp
  · rw [Table.get_push_of_ne hx, h x]
    simp [hx]

theorem free_allocated (h : Allocated A s) (x : Option Ref) :
    Partially (free x) s fun _ s' => ∃ z, A z ∧ Allocated (fun y => A y ∧ y ≠ z) s' := by
  rcases x with - | z
  · exact partially_fault
  · rw [free]
    refine partially_pure_bind.mpr (partially_load_bind.mpr ?_)
    rcases hz : s.nodes.get z with - | node
    · exact partially_fault
    · refine partially_pure_bind.mpr (partially_store.mpr ⟨z, (h z).mp (by rw [hz]; rfl), ?_⟩)
      intro y
      show ((s.nodes.erase z).get y).isSome ↔ _
      rcases eq_or_ne y z with rfl | hy
      · simp
      · rw [Table.get_erase_of_ne hy, h y]
        simp [hy]

/-- `deleteNode` removes one node, if the search finds one. -/
theorem deleteNode_allocated {v : Option Ref} (h : Allocated A s)
    (hv : Returns (searchNode s.root k) s v s) (hd : Returns (deleteNode k) s () s') :
    v = none ∧ s' = s ∨
      v ≠ none ∧ ∃ z, A z ∧ Allocated (fun y => A y ∧ y ≠ z) s' := by
  rw [deleteNode, returns_load_bind, returns_bind_iff hv] at hd
  split_ifs at hd with hnone
  · exact .inl ⟨hnone, (returns_pure.mp hd).2.symm⟩
  · refine .inr ⟨hnone, ?_⟩
    refine Partially.of_returns (Q := fun _ s' => ∃ z, A z ∧ Allocated (fun y => A y ∧ y ≠ z) s')
      ?_ hd
    refine Preserves.partially_bind (Allocated A) h fun cx s₁ h₁ => ?_
    obtain ⟨c, x⟩ := cx
    show Partially (if c = .black then fixDelete x >>= fun _ => free v else free v) s₁ _
    split_ifs
    · refine Preserves.partially_bind (Allocated A) h₁ fun _ s₂ h₂ => ?_
      exact free_allocated h₂ v
    · exact free_allocated h₁ v

/-! ### Searching takes logarithmic time -/

theorem field_run {α : Type} {node : Node} (h : s.nodes.get x = some node) (f : Node → α)
    (n : Nat) :
    field f (some x) s n = .ok (f node, s) := by
  simp only [field, deref, load, bind_run, pure_run, h]

/-- A search makes one call more than the tree is high, at most. -/
theorem searchNode_run (h : Holds s.nodes p t) (k : Int) :
    ∃ v, ∀ n, t.height < n → searchNode (ptr t) k s n = .ok (v, s) := by
  induction t generalizing p with
  | nil =>
      refine ⟨none, fun n hn => ?_⟩
      obtain ⟨n, rfl⟩ := Nat.exists_eq_add_one_of_ne_zero (Nat.ne_zero_of_lt hn)
      rfl
  | node c l a r ihl ihr =>
      obtain ⟨ha, hl, hr⟩ := h
      obtain ⟨vl, hvl⟩ := ihl hl
      obtain ⟨vr, hvr⟩ := ihr hr
      have hturn : ∀ n, searchTurn k (some a.ref) s n = .ok (if a.key = k then
          Sum.inr (some a.ref) else if k < a.key then Sum.inl (ptr l) else Sum.inl (ptr r), s) := by
        intro n
        rw [searchTurn, bind_run, field_run ha]
        show (if a.key = k then pure (Sum.inr (some a.ref)) else if k < a.key then _ else _ :
          Prog RbMem _) s n = _
        split_ifs
        · rfl
        · rw [bind_run, field_run ha]
          rfl
        · rw [bind_run, field_run ha]
          rfl
      refine ⟨if a.key = k then some a.ref else if k < a.key then vl else vr, fun n hn => ?_⟩
      obtain ⟨n, rfl⟩ := Nat.exists_eq_add_one_of_ne_zero (Nat.ne_zero_of_lt hn)
      rw [height] at hn
      show loop (searchTurn k) (some a.ref) s (n + 1) = _
      rw [loop, hturn]
      split_ifs
      · rfl
      · exact hvl n (by omega)
      · exact hvr n (by omega)

/-! ### Runs -/

/-- A call. -/
inductive RbOp where
  | insert (key : Int)
  | delete (key : Int)

def RbOp.run : RbOp → Prog RbMem Unit
  | .insert key => insertNode key
  | .delete key => deleteNode key

/-- What a call means for the keys. -/
def RbOp.apply (m : Multiset Int) : RbOp → Multiset Int
  | .insert key => key ::ₘ m
  | .delete key => m.erase key

/-- The keys that are there after these calls. -/
def bag (ops : List RbOp) : Multiset Int := ops.foldl RbOp.apply 0

/-- The tree between the calls of a run: its keys are `m`, and its nodes are all
there are. -/
structure IsBag (s : RbMem) (t : ColorTree Item) (m : Multiset Int) : Prop where
  tree : IsRb s t
  keys : (keys t : Multiset Int) = m
  nodes : Allocated (· ∈ refs t) s

theorem isBag_nil : IsBag ⟨none, Table.empty⟩ nil 0 where
  tree := isRb_nil _
  keys := rfl
  nodes x := by simp [Table.empty, refs, toList]

theorem Removes.erase (h : Removes k t t') :
    (keys t' : Multiset Int) = (keys t : Multiset Int).erase k := by
  obtain ⟨l₁, a, l₂, ht, rfl, ht'⟩ := h
  have hperm : (keys t).Perm (a.key :: keys t') := by
    rw [DmfServer.keys, ht, DmfServer.keys, ht', List.map_append, List.map_append, List.map_cons]
    exact List.perm_middle
  rw [Multiset.coe_eq_coe.mpr hperm, ← Multiset.cons_coe, Multiset.erase_cons_head]

theorem length_refs (t : ColorTree Item) : (refs t).length = (keys t).length := by
  rw [refs, DmfServer.keys, List.length_map, List.length_map]

/-- If the nodes in memory are no more than those of the tree, they are all in it. -/
theorem IsRb.allocated {xs : List Ref} (h : IsRb s t) (hx : Allocated (· ∈ xs) s)
    (hlen : xs.length ≤ (refs t).length) : Allocated (· ∈ refs t) s := by
  have hsub : refs t ⊆ xs := by
    intro x hmem
    obtain ⟨n, hn⟩ := h.stored.below.get_of_mem hmem
    exact (hx x).mp (by rw [hn]; rfl)
  have hnd : (refs t).Nodup := h.stored.nodup
  have hperm : (refs t).Perm xs := (hnd.subperm hsub).perm_of_length_le hlen
  intro x
  rw [hx x]
  exact hperm.mem_iff.symm

variable {m : Multiset Int}

theorem IsBag.insert (h : IsBag s t m) (hi : Returns (insertNode k) s () s') :
    ∃ t', IsBag s' t' (k ::ₘ m) := by
  obtain ⟨t', ht', hperm⟩ := (h.tree.insertNode k).of_returns hi
  have hkeys : (DmfServer.keys t' : Multiset Int) = k ::ₘ m := by
    rw [← h.keys, Multiset.cons_coe]
    exact Multiset.coe_eq_coe.mpr hperm
  have hnew : Allocated (· ∈ s.nodes.bound :: refs t) s' := by
    intro x
    refine ((insertNode_allocated h.nodes k).of_returns hi x).trans ?_
    show x ∈ refs t ∨ x = s.nodes.bound ↔ x ∈ s.nodes.bound :: refs t
    rw [List.mem_cons, or_comm]
  refine ⟨t', ht', hkeys, ht'.allocated hnew ?_⟩
  rw [length_refs, hperm.length_eq, List.length_cons, List.length_cons, length_refs]

theorem IsBag.delete (h : IsBag s t m) (hd : Returns (deleteNode k) s () s') :
    ∃ t', IsBag s' t' (m.erase k) := by
  obtain ⟨v, hv, hsome, -⟩ := h.tree.searchNode k
  rcases deleteNode_allocated h.nodes hv hd with ⟨rfl, rfl⟩ | ⟨hfound, z, hz, hall⟩
  · -- there is no such key, and nothing has changed
    have hno : k ∉ m := fun hmem => by
      rw [← h.keys] at hmem
      exact absurd (hsome.mpr hmem) Bool.false_ne_true
    rw [Multiset.erase_of_notMem hno]
    exact ⟨t, h⟩
  have hmem : k ∈ DmfServer.keys t := hsome.mp (Option.isSome_iff_ne_none.mpr hfound)
  rcases h.tree.deleteNode k with ⟨-, he⟩ | ⟨-, he⟩
  · obtain ⟨t', ht', ⟨hno, -⟩ | hrem⟩ := he.of_returns hd
    · exact absurd hmem hno
    refine ⟨t', ht', by rw [hrem.erase, h.keys], ?_⟩
    -- one node leaves the tree, and one is freed
    have hnd : (refs t).Nodup := h.tree.stored.nodup
    have hall' : Allocated (· ∈ (refs t).erase z) s' := by
      intro x
      refine (hall x).trans ?_
      show x ∈ refs t ∧ x ≠ z ↔ x ∈ (refs t).erase z
      rw [hnd.mem_erase_iff, and_comm]
    refine ht'.allocated hall' ?_
    obtain ⟨l₁, a, l₂, ht, -, htl⟩ := hrem
    rw [List.length_erase_of_mem hz, refs, refs, ht, htl]
    simp only [List.length_map, List.length_append, List.length_cons]
    omega
  · exact absurd (hd.ends trivial) he

/-- After a run the tree is there, with the keys of the bag. -/
theorem isBag_of_runs {ops : List RbOp} (hr : Runs RbOp.run ⟨none, Table.empty⟩ ops s) :
    ∃ t, IsBag s t (bag ops) := by
  induction hr with
  | nil => exact ⟨nil, isBag_nil⟩
  | @concat ops op s s' _ hop ih =>
      obtain ⟨t, ht⟩ := ih
      have hbag : bag (ops ++ [op]) = RbOp.apply (bag ops) op := List.foldl_concat ..
      rw [hbag]
      rcases op with k | k
      · exact ht.insert hop
      · exact ht.delete hop

/-- **A dictionary.**  After any run of insertions and deletions that return,
`inorderTraversal` prints the keys that were inserted and not deleted since, in order, and
`searchNode` finds just these, with a number of calls that is logarithmic in
how many they are. -/
theorem rbTree_dictionary {ops : List RbOp} (hr : Runs RbOp.run ⟨none, Table.empty⟩ ops s) :
    (∃ out : List Int, Returns (inorderTraversal s.root) s out s ∧ out.Pairwise (· ≤ ·) ∧
      (out : Multiset Int) = bag ops) ∧
    ∀ k n, 2 * Nat.log 2 ((bag ops).card + 1) < n →
      ∃ v, searchNode s.root k s n = .ok (v, s) ∧ (v.isSome ↔ k ∈ bag ops) := by
  obtain ⟨t, ht⟩ := isBag_of_runs hr
  have hroot : s.root = ptr t := ht.tree.stored.above
  refine ⟨⟨keys t, ?_, List.pairwise_map.mpr ht.tree.sorted, ht.keys⟩, fun k n hn => ?_⟩
  · rw [hroot]
    exact returns_inorderTraversal ht.tree.stored.below
  · have hcard : (bag ops).card = t.toList.length := by
      rw [← ht.keys, Multiset.coe_card, DmfServer.keys, List.length_map]
    rw [hcard] at hn
    have hheight := ht.tree.redBlack.height_le
    -- the answer is the one that enough fuel gives
    obtain ⟨v, hrun⟩ := searchNode_run ht.tree.stored.below k
    obtain ⟨v', hv', hiff, -⟩ := ht.tree.searchNode k
    rw [hroot] at hv' ⊢
    obtain rfl : v = v' := (Returns.unique ⟨t.height + 1, hrun⟩ hv').1
    refine ⟨v, hrun n (by omega), hiff.trans ?_⟩
    rw [← ht.keys]
    rfl

/-- Two keys are inserted, one of them twice, and the other is deleted. -/
theorem runs_twice : ∃ s, Runs RbOp.run ⟨none, Table.empty⟩
    [.insert 2, .insert 1, .insert 2, .delete 1] s := by
  have hruns : ∃ s₁ s₂ s₃ s₄, Returns (insertNode 2) ⟨none, Table.empty⟩ () s₁ ∧
      Returns (insertNode 1) s₁ () s₂ ∧ Returns (insertNode 2) s₂ () s₃ ∧
      Returns (deleteNode 1) s₃ () s₄ :=
    ⟨_, _, _, _, .of_run 2 fun _ => rfl, .of_run 3 fun _ => rfl, .of_run 3 fun _ => rfl,
      .of_run 4 fun _ => rfl⟩
  obtain ⟨s₁, s₂, s₃, s₄, h₁, h₂, h₃, h₄⟩ := hruns
  exact ⟨s₄, ((((Runs.nil).concat (i := RbOp.insert 2) h₁).concat (i := RbOp.insert 1) h₂).concat
    (i := RbOp.insert 2) h₃).concat (i := RbOp.delete 1) h₄⟩

theorem bag_twice : bag [.insert 2, .insert 1, .insert 2, .delete 1] = {2, 2} := by decide

theorem rbTree_dictionary_twice : ∃ s, Runs RbOp.run ⟨none, Table.empty⟩
      [.insert 2, .insert 1, .insert 2, .delete 1] s ∧
    ∃ out : List Int, Returns (inorderTraversal s.root) s out s ∧ out.Pairwise (· ≤ ·) ∧
      (out : Multiset Int) = {2, 2} := by
  obtain ⟨s, hr⟩ := runs_twice
  refine ⟨s, hr, ?_⟩
  rw [← bag_twice]
  exact (rbTree_dictionary hr).1

/-- **No node is lost.**  After any such run the tree is a red-black tree in
order, and the nodes in memory are its nodes, one for each key. -/
theorem rbTree_memory {ops : List RbOp} (hr : Runs RbOp.run ⟨none, Table.empty⟩ ops s) :
    ∃ t, RbAt s [] t ∧ RedBlack t ∧ Sorted Item.key t ∧
      (∀ x, (s.nodes.get x).isSome ↔ x ∈ refs t) ∧ (refs t).length = (bag ops).card := by
  obtain ⟨t, ht⟩ := isBag_of_runs hr
  refine ⟨t, ht.tree.stored, ht.tree.redBlack, ht.tree.sorted, ht.nodes, ?_⟩
  rw [length_refs, ← ht.keys, Multiset.coe_card]

/-- Two nodes are left behind the deletion of a third one. -/
theorem rbTree_memory_twice : ∃ s, Runs RbOp.run ⟨none, Table.empty⟩
      [.insert 2, .insert 1, .insert 2, .delete 1] s ∧
    ∃ t, RbAt s [] t ∧ RedBlack t ∧ Sorted Item.key t ∧
      (∀ x, (s.nodes.get x).isSome ↔ x ∈ refs t) ∧ (refs t).length = 2 := by
  obtain ⟨s, hr⟩ := runs_twice
  have hbag : (bag [.insert 2, .insert 1, .insert 2, .delete 1]).card = 2 := by
    rw [bag_twice]
    rfl
  refine ⟨s, hr, ?_⟩
  rw [← hbag]
  exact rbTree_memory hr

end DmfServer
