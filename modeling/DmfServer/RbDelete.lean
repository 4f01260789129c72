/-
DmfServer/RbDelete.lean

Deletion from the red-black tree.

When `deleteNode` has taken a black node out, it calls `fixDelete` for the tree
that moved up.  That tree is missing or a red leaf.  The red leaf is made black,
and that is all.  But `fixDelete` reads `x->parent` of a missing one, too, and
so does `deleteNode` itself where the successor is a child of the node:  the
deletion faults there, and that is just what `Deletable` excludes
(`deleteNode_ends_iff`).  The rotations of `fixDelete` are never reached.
-/
import DmfServer.RbUnlink
import DmfServer.RbInsert

namespace DmfServer

open Imperative Imperative.Prog Trees ColorTree RbMem

variable {s s' : RbMem} {d : Dir} {c cy cz : Color} {a b y z : Item} {k : Int}
variable {t u l r L R X : ColorTree Item} {f : Frame Item} {ctx ctx' : List (Frame Item)}
variable {x : Ref} {n : Nat}

/-! ### `fixDelete` -/

/-- A red node is made black. -/
theorem RbAt.fixDelete_red (h : RbAt s ctx (node .red l a r)) :
    Returns (fixDelete (some a.ref)) s () (s.modify a.ref (Node.setColor .black)) := by
  have hturn : Returns (fixDeleteTurn (some a.ref)) s (Sum.inr (some a.ref)) s := by
    rw [fixDeleteTurn, returns_load_bind]
    by_cases hroot : some a.ref = s.root
    · rw [if_pos hroot]
      exact returns_pure.mpr ⟨rfl, rfl⟩
    · have hred : Returns (isRed (some a.ref)) s true s := returns_isRed h.below
      rw [if_neg hroot, returns_bind_iff hred, if_pos rfl]
      exact returns_pure.mpr ⟨rfl, rfl⟩
  rw [fixDelete, returns_bind_iff hturn.loop_exit, blacken, if_neg nofun]
  exact returns_assign h.below.1

/-- In an empty tree, there is nothing to do. -/
theorem fixDelete_none (h : s.root = none) : Returns (fixDelete none) s () s := by
  have hturn : Returns (fixDeleteTurn none) s (Sum.inr none) s := by
    rw [fixDeleteTurn, returns_load_bind, h, if_pos rfl]
    exact returns_pure.mpr ⟨rfl, rfl⟩
  rw [fixDelete, returns_bind_iff hturn.loop_exit, blacken, if_pos rfl]
  exact returns_pure.mpr ⟨rfl, rfl⟩

/-- Otherwise `x->parent` is read, where `x` is null. -/
theorem fixDelete_none_faults (h : s.root ≠ none) :
    Partially (fixDelete none) s fun _ _ => False := by
  have hturn : ∀ x t, (x = none ∧ t = s) → Partially (fixDeleteTurn x) t fun r s' =>
      Sum.elim (fun b => b = none ∧ s' = s) (fun _ => False) r := by
    rintro x t ⟨rfl, rfl⟩
    intro m r s' hm
    rw [fixDeleteTurn, bind_run] at hm
    simp only [load, if_neg (Ne.symm h)] at hm
    cases hm
  exact Partially.bind ((Partially.loop _ hturn ⟨rfl, rfl⟩).mono fun _ _ hfalse => hfalse.elim)

/-- `free`. -/
theorem RbAt.free (h : RbAt s [] t) (hx : x ∉ refs t) {node : Node}
    (hnode : s.nodes.get x = some node) :
    Returns (free (some x)) s () (s.freeNode x) ∧ RbAt (s.freeNode x) [] t := by
  constructor
  · rw [DmfServer.free, returns_deref_bind, returns_load_bind, hnode, returns_deref_bind]
    exact returns_store.mpr rfl
  · refine ⟨h.above, h.below.congr fun y hy => ?_, h.nodup⟩
    exact Table.get_erase_of_ne (ne_of_mem_of_not_mem hy hx)

/-- **The end of `deleteNode`**, where the tree `X` has moved up to the place of a
node of the colour `c`. -/
theorem RbAt.deleteEnd {xn : Node} (h : RbAt s ctx X) (hf : Fits n ctx)
    (hb : Balanced n (join d c nil b X)) (hx : x ∉ refs (plug ctx X))
    (hnode : s.nodes.get x = some xn) (hok : c = .red ∨ X ≠ nil ∨ ctx = []) :
    Ends (if c = .black then DmfServer.fixDelete (ptr X) >>= fun _ => DmfServer.free (some x)
      else DmfServer.free (some x)) s fun _ s' => ∃ X', X'.toList = X.toList ∧
        RbAt s' [] (plug ctx X') ∧ RedBlack (plug ctx X') := by
  rcases hb.beside_nil with ⟨rfl, rfl, rfl⟩ | ⟨rfl, rfl | ⟨e, rfl⟩, rfl⟩
  · obtain ⟨hfree, h'⟩ := (rbAt_plug.mp h).free hx hnode
    rw [if_neg nofun]
    exact hfree.ends ⟨nil, rfl, h', redBlack_plug.mpr ⟨0, hf, .nil, .inl rfl⟩⟩
  · obtain rfl : ctx = [] := (hok.resolve_left nofun).resolve_left fun hne => hne rfl
    obtain ⟨hfree, h'⟩ := h.free hx hnode
    rw [if_pos rfl, ptr, ends_bind_iff (fixDelete_none h.above)]
    exact hfree.ends ⟨nil, rfl, h', redBlack_iff.mpr ⟨rfl, 0, .nil⟩⟩
  · have h₁ := RbAt.recolor (show RbAt s ctx (join .left .red nil e nil) from h) .black
    have hxe : x ≠ e.ref := by
      rintro rfl
      exact hx (refs_plug_perm.mem_iff.mpr (List.mem_append_left _ (List.mem_singleton.mpr rfl)))
    have hrefs : refs (plug ctx (join .left .black nil e nil)) =
        refs (plug ctx (node .red nil e nil)) := refs_plug_congr rfl
    rw [← hrefs] at hx
    obtain ⟨hfree, h'⟩ := (rbAt_plug.mp h₁).free hx ((get_modify_of_ne hxe).trans hnode)
    rw [if_pos rfl, ptr, ends_bind_iff h.fixDelete_red]
    refine hfree.ends ⟨node .black nil e nil, rfl, h', redBlack_plug.mpr ⟨1, hf, ?_, .inl rfl⟩⟩
    exact .black .nil .nil

/-- Otherwise it faults. -/
theorem RbAt.deleteEnd_faults (h : RbAt s ctx X)
    (hb : Balanced n (join d c nil b X)) (hno : ¬ (c = .red ∨ X ≠ nil ∨ ctx = [])) :
    Partially (if c = .black then DmfServer.fixDelete (ptr X) >>= fun _ => DmfServer.free (some x)
      else DmfServer.free (some x)) s fun _ _ => False := by
  simp only [not_or, not_not] at hno
  obtain ⟨hc, rfl, hctx⟩ := hno
  cases c with
  | red => exact absurd rfl hc
  | black =>
      cases ctx with
      | nil => exact absurd rfl hctx
      | cons f ctx =>
          rw [if_pos rfl]
          exact Partially.bind
            ((fixDelete_none_faults h.above.root_isSome).mono fun _ _ => False.elim)

/-! ### When `deleteNode` succeeds -/

/-- The search finds a node `z` for which one of these holds: it has one child, or
it is a red leaf or the root without children; or it has two, and its successor
has a child on the right, or is red and not the right child of `z`. -/
def Deletable (s : RbMem) (key : Int) : Prop :=
  ∀ z zn, Returns (searchNode s.root key) s (some z) s → s.nodes.get z = some zn →
    if zn.left = none ∨ zn.right = none then
      zn.left ≠ none ∨ zn.right ≠ none ∨ zn.color = .red ∨ zn.parent = none
    else ∀ y yn, Returns (getMinimumNode zn.right) s (some y) s → s.nodes.get y = some yn →
      yn.right ≠ none ∨ yn.color = .red ∧ yn.parent ≠ some z

theorem deletable_one {zn : Node} (hz : Returns (searchNode s.root k) s (some x) s)
    (hn : s.nodes.get x = some zn) (hmiss : zn.left = none ∨ zn.right = none) :
    Deletable s k ↔ zn.left ≠ none ∨ zn.right ≠ none ∨ zn.color = .red ∨ zn.parent = none := by
  constructor
  · intro h
    have hx := h x zn hz hn
    rwa [if_pos hmiss] at hx
  · intro h x' zn' hz' hn'
    obtain rfl := Option.some.inj (hz.unique hz').1
    obtain rfl := Option.some.inj (hn.symm.trans hn')
    rwa [if_pos hmiss]

theorem deletable_two {zn yn : Node} {y : Ref} (hz : Returns (searchNode s.root k) s (some x) s)
    (hn : s.nodes.get x = some zn) (hl : zn.left ≠ none) (hr : zn.right ≠ none)
    (hy : Returns (getMinimumNode zn.right) s (some y) s) (hyn : s.nodes.get y = some yn) :
    Deletable s k ↔ yn.right ≠ none ∨ yn.color = .red ∧ yn.parent ≠ some x := by
  have hno : ¬ (zn.left = none ∨ zn.right = none) := not_or.mpr ⟨hl, hr⟩
  constructor
  · intro h
    have hx := h x zn hz hn
    rw [if_neg hno] at hx
    exact hx y yn hy hyn
  · intro h x' zn' hz' hn'
    obtain rfl := Option.some.inj (hz.unique hz').1
    obtain rfl := Option.some.inj (hn.symm.trans hn')
    rw [if_neg hno]
    intro y' yn' hy' hyn'
    obtain rfl := Option.some.inj (hy.unique hy').1
    obtain rfl := Option.some.inj (hyn.symm.trans hyn')
    exact h

/-! ### `deleteNode` -/

/-- One item with the key is taken out of the tree. -/
def Removes (key : Int) (t t' : ColorTree Item) : Prop :=
  ∃ l₁ a l₂, t.toList = l₁ ++ a :: l₂ ∧ a.key = key ∧ t'.toList = l₁ ++ l₂

/-- Where a child is missing. -/
theorem RbAt.deleteNode_one (h : RbAt s ctx (join d c nil a u))
    (hrb : RedBlack (plug ctx (join d c nil a u)))
    (hz : Returns (searchNode s.root k) s (some a.ref) s) :
    (Deletable s k ∧ Ends (deleteNode k) s fun _ s' => ∃ X', X'.toList = u.toList ∧
      RbAt s' [] (plug ctx X') ∧ RedBlack (plug ctx X')) ∨
    (¬ Deletable s k ∧ ¬ Ends (deleteNode k) s fun _ _ => True) := by
  obtain ⟨n, hf, hb, -⟩ := redBlack_plug.mp hrb
  obtain ⟨res, s₁, hunlink, rfl, h₁, hget⟩ := h.unlinkNode_one
  have hends : ∀ Q, Ends (deleteNode k) s Q ↔
      Ends (if c = .black then DmfServer.fixDelete (ptr u) >>= fun _ => DmfServer.free (some a.ref)
        else DmfServer.free (some a.ref)) s₁ Q := by
    intro Q
    rw [deleteNode, ends_load_bind, ends_bind_iff hz, if_neg nofun, ends_bind_iff hunlink]
  have hx : a.ref ∉ refs (plug ctx u) := by
    have hnd := h.nodup_join
    intro hmem
    have hmem' := refs_plug_perm.mem_iff.mp hmem
    exact (List.nodup_cons.mp hnd).1 (List.mem_append_right _ hmem')
  have hmem : Deletable s k ↔ c = .red ∨ u ≠ nil ∨ ctx = [] := by
    have hmiss : (mkNode d a.key c (ptr nil) (ptr u) (up ctx)).left = none ∨
        (mkNode d a.key c (ptr nil) (ptr u) (up ctx)).right = none := by
      cases d
      · exact .inl rfl
      · exact .inr rfl
    rw [deletable_one hz h.get hmiss, mkNode_color, mkNode_parent]
    cases d <;> simp [mkNode, ptr_eq_none, up_eq_none] <;> tauto
  by_cases hok : c = .red ∨ u ≠ nil ∨ ctx = []
  · refine .inl ⟨hmem.mpr hok, (hends _).mpr ?_⟩
    exact h₁.deleteEnd hf hb hx (hget.trans h.get) hok
  · refine .inr ⟨hmem.not.mpr hok, (hends _).not.mpr ?_⟩
    rintro ⟨_, s', hret, -⟩
    exact (h₁.deleteEnd_faults hb hok).of_returns hret

/-- The successor of a node with two children, of which the right one has no left
child. -/
theorem not_ends_detachSuccessor {yn : Node} {y z : Ref} {α : Type} {K : Unit → Prog RbMem α}
    {Q : α → RbMem → Prop} (hy : s.nodes.get y = some yn) (hp : yn.parent = some z) :
    ¬ Ends (detachSuccessor (some z) (some y) none >>= K) s Q := by
  have hfault : ∀ n, (detachSuccessor (some z) (some y) none >>= K) s n = .fault := by
    intro n
    have hf : detachSuccessor (some z) (some y) none s n = .fault := by
      rw [detachSuccessor, bind_run]
      simp [field, deref, load, bind_run, pure_run, hy, hp, assign, fault]
    rw [bind_run, hf]
  rintro ⟨a, s', ⟨N, hN⟩, -⟩
  have hend := hN N (Nat.le_refl N)
  rw [hfault] at hend
  cases hend

/-- Where there are two children, and `y` is the successor. -/
theorem RbAt.deleteNode_two (h : RbAt s ctx (node cz L z (plug ctx' (node cy nil y X))))
    (hrb : RedBlack (plug ctx (node cz L z (plug ctx' (node cy nil y X))))) (hL : L ≠ nil)
    (hmin : Returns (getMinimumNode (ptr (plug ctx' (node cy nil y X)))) s (some y.ref) s)
    (hz : Returns (searchNode s.root k) s (some z.ref) s) :
    (Deletable s k ∧ Ends (deleteNode k) s fun _ s' => ∃ X', X'.toList = X.toList ∧
      RbAt s' [] (plug (ctx' ++ ⟨.right, cz, y, L⟩ :: ctx) X') ∧
      RedBlack (plug (ctx' ++ ⟨.right, cz, y, L⟩ :: ctx) X')) ∨
    (¬ Deletable s k ∧ ¬ Ends (deleteNode k) s fun _ _ => True) := by
  have hat : RbAt s (ctx' ++ ⟨.right, cz, z, L⟩ :: ctx) (join .left cy nil y X) :=
    rbAt_right.mpr h
  have hzn := h.below.1
  have hplug : plug ctx (node cz L z (plug ctx' (node cy nil y X))) =
      plug (ctx' ++ ⟨.right, cz, z, L⟩ :: ctx) (join .left cy nil y X) := by
    rw [plug_append]
    rfl
  rw [hplug] at hrb
  obtain ⟨n, hf, hb, -⟩ := redBlack_plug.mp hrb
  have hR : plug ctx' (node cy nil y X) ≠ nil := plug_ne_nil nofun
  -- the condition, at the place of the successor
  have hmem : Deletable s k ↔ X ≠ nil ∨ cy = .red ∧ ctx' ≠ [] := by
    rw [deletable_two hz hzn (ptr_eq_none.not.mpr hL) (ptr_eq_none.not.mpr hR) hmin hat.get,
      mkNode_color, mkNode_parent]
    refine or_congr ptr_eq_none.not (and_congr_right' ?_)
    cases ctx' with
    | nil => exact iff_of_false (fun hne => hne rfl) fun hne => hne rfl
    | cons f ctx' => exact iff_of_true h.val_ne nofun
  by_cases hX : ctx' = [] → X ≠ nil
  · obtain ⟨res, s₁, hunlink, rfl, h₁, zn, hz₁⟩ := h.unlinkNode_two hL hX hmin
    have hends : ∀ Q, Ends (deleteNode k) s Q ↔
        Ends (if cy = .black then DmfServer.fixDelete (ptr X) >>= fun _ =>
          DmfServer.free (some z.ref) else DmfServer.free (some z.ref)) s₁ Q := by
      intro Q
      rw [deleteNode, ends_load_bind, ends_bind_iff hz, if_neg nofun, ends_bind_iff hunlink]
    have hx : z.ref ∉ refs (plug (ctx' ++ ⟨.right, cz, y, L⟩ :: ctx) X) := by
      have hno := (List.nodup_cons.mp h.nodup_two).1
      rw [refs_node_nil] at hno
      intro hmem
      rw [plug_append] at hmem
      have hmem' : z.ref ∈ refs (plug ctx (join .left cz L y (plug ctx' X))) := hmem
      rw [refs_plug_perm.mem_iff, List.mem_append, refs_join_perm.mem_iff] at hmem'
      grind
    have hctx : ctx' ++ ⟨.right, cz, y, L⟩ :: ctx ≠ [] := by simp
    by_cases hok : X ≠ nil ∨ cy = .red ∧ ctx' ≠ []
    · refine .inl ⟨hmem.mpr hok, (hends _).mpr ?_⟩
      exact h₁.deleteEnd hf.setVal hb hx hz₁ (by tauto)
    · refine .inr ⟨hmem.not.mpr hok, (hends _).not.mpr ?_⟩
      rintro ⟨_, s', hret, -⟩
      exact (h₁.deleteEnd_faults hb (by tauto)).of_returns hret
  · -- the successor is a child of the node, and a leaf
    obtain ⟨rfl, hXn⟩ := Classical.not_imp.mp hX
    obtain rfl := not_not.mp hXn
    refine .inr ⟨fun hd => ?_, ?_⟩
    · rcases hmem.mp hd with hne | ⟨-, hne⟩
      · exact hne rfl
      · exact hne rfl
    · have hy := hat.get
      rw [deleteNode, ends_load_bind, ends_bind_iff hz, if_neg nofun, unlinkNode,
        Prog.bind_assoc, ends_field_bind hzn, Prog.bind_assoc, ends_field_bind hzn,
        if_neg (ptr_eq_none.not.mpr hL), if_neg (ptr_eq_none.not.mpr hR), replaceBySuccessor,
        Prog.bind_assoc, ends_field_bind hzn, Prog.bind_assoc, ends_bind_iff hmin,
        Prog.bind_assoc, ends_field_bind hy, Prog.bind_assoc, ends_field_bind hy, Prog.bind_assoc]
      exact not_ends_detachSuccessor hy mkNode_parent

theorem Removes.sorted {t' : ColorTree Item} (h : Removes k t t') (hs : Sorted Item.key t) :
    Sorted Item.key t' := by
  obtain ⟨l₁, a, l₂, ht, -, ht'⟩ := h
  rw [Sorted, ht] at hs
  rw [Sorted, ht']
  exact hs.sublist ((List.sublist_cons_self a l₂).append_left l₁)

theorem removes_one (hu : u.toList = X.toList) :
    Removes a.key (plug ctx (join d c nil a X)) (plug ctx u) := by
  rw [Removes, toList_plug, toList_plug, hu]
  cases d with
  | left => exact ⟨before ctx, a, X.toList ++ after ctx, rfl, rfl, rfl⟩
  | right => exact ⟨before ctx ++ X.toList, a, after ctx, by simp [join, toList], rfl, by simp⟩

theorem removes_two (hu : u.toList = X.toList) (hbefore : before ctx' = []) :
    Removes z.key (plug ctx (node cz L z (plug ctx' (node cy nil y X))))
      (plug (ctx' ++ ⟨.right, cz, y, L⟩ :: ctx) u) := by
  refine ⟨before ctx ++ L.toList, z, y :: X.toList ++ after ctx' ++ after ctx, ?_, rfl, ?_⟩
  · simp [toList_plug, toList, hbefore]
  · simp [toList_plug, before_append, after_append, before, after, Frame.before, Frame.after,
      hbefore, hu]

/-- **`deleteNode`.**  It succeeds just when the node can be deleted. -/
theorem IsRb.deleteNode (h : IsRb s t) (k : Int) :
    (Deletable s k ∧ Ends (deleteNode k) s fun _ s' => ∃ t', IsRb s' t' ∧
      (k ∉ keys t ∧ s' = s ∨ Removes k t t')) ∨
    (¬ Deletable s k ∧ ¬ Ends (deleteNode k) s fun _ _ => True) := by
  obtain ⟨v, hv, hcase⟩ := returns_searchNode h.stored.below h.sorted k
  have hroot : s.root = ptr t := h.stored.above
  rw [← hroot] at hv
  rcases hcase with ⟨rfl, hno⟩ | ⟨ctx, c, l, a, r, rfl, rfl, rfl⟩
  · refine .inl ⟨fun z zn hz => ?_, ?_⟩
    · cases (hv.unique hz).1
    · rw [DmfServer.deleteNode, ends_load_bind, ends_bind_iff hv, if_pos rfl]
      exact ends_pure.mpr ⟨t, h, .inl ⟨hno, rfl⟩⟩
  have hat : RbAt s ctx (node c l a r) := rbAt_plug.mpr h.stored
  cases l with
  | nil =>
      have hat' : RbAt s ctx (join .left c nil a r) := hat
      refine (hat'.deleteNode_one h.redBlack hv).imp (And.imp_right fun he => he.mono ?_) id
      rintro - s' ⟨X', hlist, hat', hrb'⟩
      have hrem : Removes a.key (plug ctx (join .left c nil a r)) _ := removes_one hlist
      exact ⟨_, ⟨hat', hrb', hrem.sorted h.sorted⟩, .inr hrem⟩
  | node cl ll al rl =>
      cases r with
      | nil =>
          have hat' : RbAt s ctx (join .right c nil a (node cl ll al rl)) := hat
          refine (hat'.deleteNode_one h.redBlack hv).imp (And.imp_right fun he => he.mono ?_) id
          rintro - s' ⟨X', hlist, hat', hrb'⟩
          have hrem : Removes a.key (plug ctx (join .right c nil a _)) _ := removes_one hlist
          exact ⟨_, ⟨hat', hrb', hrem.sorted h.sorted⟩, .inr hrem⟩
      | node cr lr ar rr =>
          obtain ⟨ctx', cy, y, X, hmin, heq, hbefore⟩ := returns_getMinimumNode hat.below.2.2
          have hptr : ptr (plug ctx' (node cy nil y X)) = some ar.ref := heq ▸ rfl
          rw [← hptr] at hmin
          rw [heq] at hat h ⊢
          refine (hat.deleteNode_two h.redBlack nofun hmin hv).imp
            (And.imp_right fun he => he.mono ?_) id
          rintro - s' ⟨X', hlist, hat', hrb'⟩
          have hrem : Removes a.key
              (plug ctx (node c (node cl ll al rl) a (plug ctx' (node cy nil y X)))) _ :=
            removes_two hlist hbefore
          exact ⟨_, ⟨hat', hrb', hrem.sorted h.sorted⟩, .inr hrem⟩

/-! ### Runs -/

/-- What calls of `insertNode` and `deleteNode` make of an empty tree. -/
inductive RbReached : RbMem → Prop
  | empty (nodes : Table Node) : RbReached ⟨none, nodes⟩
  | insert {s s' : RbMem} (key : Int) (h : RbReached s) (hi : Returns (insertNode key) s () s') :
      RbReached s'
  | delete {s s' : RbMem} (key : Int) (h : RbReached s) (hd : Returns (deleteNode key) s () s') :
      RbReached s'

theorem RbReached.isRb (h : RbReached s) : ∃ t, IsRb s t := by
  induction h with
  | empty nodes => exact ⟨nil, isRb_nil nodes⟩
  | insert key h hi ih =>
      obtain ⟨t, ht⟩ := ih
      obtain ⟨t', ht', -⟩ := (ht.insertNode key).of_returns hi
      exact ⟨t', ht'⟩
  | delete key h hd ih =>
      obtain ⟨t, ht⟩ := ih
      rcases ht.deleteNode key with ⟨-, he⟩ | ⟨-, he⟩
      · obtain ⟨t', ht', -⟩ := he.of_returns hd
        exact ⟨t', ht'⟩
      · exact absurd (hd.ends trivial) he

/-- The tree of `s'` is that of `s` without one node with the key, or the same
where there is none; and it is red-black and in order. -/
def DeletesOne (key : Int) (s s' : RbMem) : Prop :=
  ∃ t t', RbAt s [] t ∧ RbAt s' [] t' ∧ RedBlack t' ∧
    (∃ out, Returns (inorderTraversal s'.root) s' out s' ∧ out.Pairwise (· ≤ ·)) ∧
    (key ∉ keys t ∧ s' = s ∨ Removes key t t')

/-- **Red-black deletion.** -/
theorem deleteNode_ends_iff (h : RbReached s) (key : Int) :
    (Ends (deleteNode key) s fun _ s' => DeletesOne key s s') ↔ Deletable s key := by
  obtain ⟨t, ht⟩ := h.isRb
  rcases ht.deleteNode key with ⟨hd, he⟩ | ⟨hd, he⟩
  · refine iff_of_true (he.mono ?_) hd
    rintro - s' ⟨t', ht', hcase⟩
    refine ⟨t, t', ht.stored, ht'.stored, ht'.redBlack, ⟨keys t', ?_, ?_⟩, hcase⟩
    · rw [show s'.root = ptr t' from ht'.stored.above]
      exact returns_inorderTraversal ht'.stored.below
    · exact List.pairwise_map.mpr ht'.sorted
  · exact iff_of_false (fun hends => he (hends.mono fun _ _ _ => trivial)) hd

/-- The keys 2, 1 and 3 are inserted, and 1 is deleted. -/
theorem deleteNode_ends_leaf : ∃ s, RbReached s ∧
    Ends (deleteNode 1) s fun _ s' => DeletesOne 1 s s' := by
  have hruns : ∃ s₁ s₂ s₃, Returns (insertNode 2) ⟨none, Table.empty⟩ () s₁ ∧
      Returns (insertNode 1) s₁ () s₂ ∧ Returns (insertNode 3) s₂ () s₃ ∧ Deletable s₃ 1 := by
    refine ⟨_, _, _, .of_run 2 fun _ => rfl, .of_run 3 fun _ => rfl, .of_run 3 fun _ => rfl, ?_⟩
    -- it is a red leaf
    exact (deletable_one (.of_run 3 fun _ => rfl) rfl (.inl rfl)).mpr (.inr (.inr (.inl rfl)))
  obtain ⟨s₁, s₂, s₃, h₁, h₂, h₃, hdel⟩ := hruns
  have hreach : RbReached s₃ := .insert 3 (.insert 1 (.insert 2 (.empty _) h₁) h₂) h₃
  exact ⟨s₃, hreach, (deleteNode_ends_iff hreach 1).mpr hdel⟩

/-- The same tree, and 2 is deleted: its successor is its right child, a leaf. -/
theorem deleteNode_successor_faults : ∃ s, RbReached s ∧ ∀ n, deleteNode 2 s (n + 1) = .fault := by
  have hruns : ∃ s₁ s₂ s₃, Returns (insertNode 2) ⟨none, Table.empty⟩ () s₁ ∧
      Returns (insertNode 1) s₁ () s₂ ∧ Returns (insertNode 3) s₂ () s₃ ∧
      ∀ n, deleteNode 2 s₃ (n + 1) = .fault :=
    ⟨_, _, _, .of_run 2 fun _ => rfl, .of_run 3 fun _ => rfl, .of_run 3 fun _ => rfl,
      fun _ => rfl⟩
  obtain ⟨s₁, s₂, s₃, h₁, h₂, h₃, hfault⟩ := hruns
  exact ⟨s₃, .insert 3 (.insert 1 (.insert 2 (.empty _) h₁) h₂) h₃, hfault⟩

end DmfServer
