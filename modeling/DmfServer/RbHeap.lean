/-
DmfServer/RbHeap.lean

Red-black trees in memory.

`RbAt s ctx t` says that in `s` the tree `plug ctx t` is in memory, with all
child and parent pointers, and looks at the place of `t`: `Above` is what is
around it, `Holds` is what is there.  The place is moved freely
(`rbAt_cons`), and each operation of the source is described at the place it
works on: a rotation (`RbAt.rotate`), a change of colour (`RbAt.recolor`), and
the two uses `deleteNode` makes of `transplant`.
-/
import DmfServer.RbTree

namespace DmfServer

open Imperative Imperative.Prog Trees ColorTree RbMem

/-! ### Reading the programs -/

section rules

variable {α β : Type} {s s' : RbMem} {x : Ref} {node : Node} {b : β} {Q : β → RbMem → Prop}

theorem returns_field {f : Node → α} (h : s.nodes.get x = some node) :
    Returns (field f (some x)) s (f node) s := by
  rw [field, returns_deref_bind, returns_load_bind, h, returns_deref_bind]
  exact returns_pure.mpr ⟨rfl, rfl⟩

theorem returns_field_bind {f : Node → α} {k : α → Prog RbMem β}
    (h : s.nodes.get x = some node) :
    Returns (field f (some x) >>= k) s b s' ↔ Returns (k (f node)) s b s' :=
  returns_bind_iff (returns_field h)

theorem ends_field_bind {f : Node → α} {k : α → Prog RbMem β} (h : s.nodes.get x = some node) :
    Ends (field f (some x) >>= k) s Q ↔ Ends (k (f node)) s Q :=
  ends_bind_iff (returns_field h)

theorem returns_assign {f : Node → Node} (h : s.nodes.get x = some node) :
    Returns (assign f (some x)) s () (s.modify x f) := by
  rw [assign, returns_deref_bind, returns_load_bind, h, returns_deref_bind]
  exact returns_store.mpr rfl

theorem ends_assign_bind {f : Node → Node} {k : Unit → Prog RbMem β}
    (h : s.nodes.get x = some node) :
    Ends (assign f (some x) >>= k) s Q ↔ Ends (k ()) (s.modify x f) Q :=
  ends_bind_iff (returns_assign h)

end rules

/-! ### Trees in memory -/

/-- A node of the tree: its address and its key. -/
structure Item where
  ref : Ref
  key : Int

variable {s s' : RbMem} {nodes nodes' : Table Node} {d : Dir} {c c' : Color} {a b : Item}
variable {t u v A B C : ColorTree Item} {f : Frame Item} {ctx : List (Frame Item)}
  {p q : Option Ref}
variable {x y z : Ref} {n : Nat}

/-- The pointer to a tree. -/
def ptr : ColorTree Item → Option Ref
  | nil => none
  | node _ _ a _ => some a.ref

@[simp] theorem ptr_join : ptr (join d c t a u) = some a.ref := by cases d <;> rfl

theorem ptr_eq_none : ptr t = none ↔ t = nil := by
  cases t with
  | nil => exact iff_of_true rfl rfl
  | node c l a r => exact iff_of_false nofun nofun

/-- A node with the child `t` on the side `d`, and `u` on the other. -/
def mkNode (d : Dir) (key : Int) (c : Color) (t u p : Option Ref) : Node :=
  match d with
  | .left => ⟨key, c, t, u, p⟩
  | .right => ⟨key, c, u, t, p⟩

section mkNode

variable {key : Int} {l r l' : Option Ref}

@[simp] theorem mkNode_child : (mkNode d key c l r p).child d = l := by cases d <;> rfl

@[simp] theorem mkNode_child_other : (mkNode d key c l r p).child d.other = r := by
  cases d <;> rfl

@[simp] theorem mkNode_parent : (mkNode d key c l r p).parent = p := by cases d <;> rfl

@[simp] theorem mkNode_color : (mkNode d key c l r p).color = c := by cases d <;> rfl

@[simp] theorem mkNode_key : (mkNode d key c l r p).key = key := by cases d <;> rfl

@[simp] theorem mkNode_setChild :
    (mkNode d key c l r p).setChild d l' = mkNode d key c l' r p := by cases d <;> rfl

@[simp] theorem mkNode_setChild_other :
    (mkNode d key c l r p).setChild d.other l' = mkNode d key c l l' p := by cases d <;> rfl

@[simp] theorem mkNode_setParent :
    (mkNode d key c l r p).setParent q = mkNode d key c l r q := by cases d <;> rfl

@[simp] theorem mkNode_setColor :
    (mkNode d key c l r p).setColor c' = mkNode d key c' l r p := by cases d <;> rfl

end mkNode

/-- The tree is in memory, below `p`. -/
def Holds (nodes : Table Node) (p : Option Ref) : ColorTree Item → Prop
  | nil => True
  | node c l a r => nodes.get a.ref = some ⟨a.key, c, ptr l, ptr r, p⟩ ∧
      Holds nodes (some a.ref) l ∧ Holds nodes (some a.ref) r

theorem holds_join : Holds nodes p (join d c t a u) ↔
    nodes.get a.ref = some (mkNode d a.key c (ptr t) (ptr u) p) ∧
      Holds nodes (some a.ref) t ∧ Holds nodes (some a.ref) u := by
  cases d
  · rfl
  · exact and_congr_right' and_comm

theorem Holds.get (h : Holds nodes p t) (hx : ptr t = some x) :
    ∃ n, nodes.get x = some n ∧ n.parent = p ∧ n.color = t.color := by
  cases t with
  | nil => cases hx
  | node c l a r =>
      obtain rfl := Option.some.inj hx
      exact ⟨_, h.1, rfl, rfl⟩

theorem returns_isRed (h : Holds s.nodes p t) :
    Returns (isRed (ptr t)) s (decide (t.color = .red)) s := by
  cases t with
  | nil => exact returns_pure.mpr ⟨rfl, rfl⟩
  | node c l a r =>
      rw [ptr, isRed, if_neg nofun]
      exact (returns_field h.1).bind (returns_pure.mpr ⟨rfl, rfl⟩)

/-- The addresses of the nodes. -/
def refs (t : ColorTree Item) : List Ref := t.toList.map Item.ref

/-- The keys, in order. -/
def keys (t : ColorTree Item) : List Int := t.toList.map Item.key

theorem Holds.get_of_mem (h : Holds nodes p t) (hx : x ∈ refs t) : ∃ n, nodes.get x = some n := by
  induction t generalizing p with
  | nil => cases hx
  | node c l a r ihl ihr =>
      obtain ⟨ha, hl, hr⟩ := h
      rw [refs, toList, List.map_append, List.map_cons, List.mem_append, List.mem_cons] at hx
      rcases hx with hx | rfl | hx
      · exact ihl hl hx
      · exact ⟨_, ha⟩
      · exact ihr hr hx

theorem Holds.congr (h : Holds nodes p t) (hg : ∀ x ∈ refs t, nodes'.get x = nodes.get x) :
    Holds nodes' p t := by
  induction t generalizing p with
  | nil => trivial
  | node c l a r ihl ihr =>
      obtain ⟨ha, hl, hr⟩ := h
      rw [refs, toList, List.map_append, List.map_cons] at hg
      refine ⟨(hg _ (by simp)).trans ha, ihl hl fun x hx => hg x ?_, ihr hr fun x hx => hg x ?_⟩
      · exact List.mem_append_left _ hx
      · exact List.mem_append_right _ (List.mem_cons_of_mem _ hx)

/-- The address above the place. -/
def up : List (Frame Item) → Option Ref
  | [] => none
  | f :: _ => some f.val.ref

theorem up_eq_none : up ctx = none ↔ ctx = [] := by
  cases ctx with
  | nil => exact iff_of_true rfl rfl
  | cons f ctx => exact iff_of_false nofun nofun

/-- What is around the place is in memory, and points to `v` there. -/
def Above (s : RbMem) (v : Option Ref) : List (Frame Item) → Prop
  | [] => s.root = v
  | f :: ctx =>
      s.nodes.get f.val.ref = some (mkNode f.dir f.val.key f.color v (ptr f.sib) (up ctx)) ∧
        Holds s.nodes (some f.val.ref) f.sib ∧ Above s (some f.val.ref) ctx

/-- The addresses of the nodes around the place. -/
def ctxRefs (ctx : List (Frame Item)) : List Ref := (before ctx ++ after ctx).map Item.ref

theorem mem_ctxRefs_cons : x ∈ ctxRefs (f :: ctx) ↔
    x = f.val.ref ∨ x ∈ refs f.sib ∨ x ∈ ctxRefs ctx := by
  obtain ⟨d, c, a, u⟩ := f
  cases d <;> simp [ctxRefs, refs, before, after, Frame.before, Frame.after] <;> grind

theorem refs_plug_perm : (refs (plug ctx t)).Perm (refs t ++ ctxRefs ctx) := by
  rw [refs, refs, ctxRefs, toList_plug, ← List.map_append]
  refine List.Perm.map _ ?_
  rw [← List.append_assoc, ← List.append_assoc]
  exact List.perm_append_comm.append_right _

theorem refs_join_perm : (refs (join d c t a u)).Perm (a.ref :: (refs t ++ refs u)) := by
  cases d
  · exact (List.perm_middle.map _).trans (by simp [refs])
  · refine (List.perm_middle.map _).trans ?_
    rw [List.map_cons, List.map_append]
    exact List.perm_append_comm.cons _

theorem ctxRefs_cons_perm :
    (ctxRefs (f :: ctx)).Perm (f.val.ref :: (refs f.sib ++ ctxRefs ctx)) := by
  have hf : (f.before ++ f.after).Perm (f.val :: f.sib.toList) := by
    obtain ⟨d, c, a, u⟩ := f
    cases d
    · exact .refl _
    · rw [Frame.after, List.append_nil]
      exact List.perm_append_singleton _ _
  have hall : (before ctx ++ f.before ++ (f.after ++ after ctx)).Perm
      (f.val :: (f.sib.toList ++ (before ctx ++ after ctx))) := by
    rw [List.append_assoc, ← List.append_assoc f.before]
    exact (List.perm_append_comm_assoc _ _ _).trans (hf.append_right _)
  refine (hall.map Item.ref).trans ?_
  rw [List.map_cons, List.map_append]
  exact .refl _

theorem mem_refs_of_ptr (h : ptr t = some x) : x ∈ refs t := by
  cases t with
  | nil => cases h
  | node c l a r =>
      obtain rfl := Option.some.inj h
      exact (refs_join_perm (d := .left)).mem_iff.mpr List.mem_cons_self

/-- The test for the left child. -/
theorem left_eq_iff {key : Int} (hx : x ∉ refs u) :
    some x = (mkNode d key c (some x) (ptr u) p).left ↔ d = .left := by
  cases d with
  | left => exact iff_of_true rfl rfl
  | right => exact iff_of_false (fun heq => hx (mem_refs_of_ptr heq.symm)) nofun

theorem Above.congr (h : Above s p ctx) (hroot : s'.root = s.root)
    (hg : ∀ x ∈ ctxRefs ctx, s'.nodes.get x = s.nodes.get x) : Above s' p ctx := by
  induction ctx generalizing p with
  | nil => exact hroot.trans h
  | cons f ctx ih =>
      obtain ⟨hf, hsib, hctx⟩ := h
      refine ⟨(hg _ ?_).trans hf, hsib.congr fun x hx => hg x ?_, ih hctx fun x hx => hg x ?_⟩
      · exact mem_ctxRefs_cons.mpr (.inl rfl)
      · exact mem_ctxRefs_cons.mpr (.inr (.inl hx))
      · exact mem_ctxRefs_cons.mpr (.inr (.inr hx))

/-- The tree `plug ctx t` is in memory; the place is that of `t`. -/
structure RbAt (s : RbMem) (ctx : List (Frame Item)) (t : ColorTree Item) : Prop where
  above : Above s (ptr t) ctx
  below : Holds s.nodes (up ctx) t
  nodup : (refs (plug ctx t)).Nodup

theorem rbAt_cons : RbAt s (f :: ctx) t ↔ RbAt s ctx (f.fill t) := by
  constructor
  · rintro ⟨⟨hf, hsib, hctx⟩, ht, hnd⟩
    exact ⟨by rwa [Frame.fill, ptr_join], holds_join.mpr ⟨hf, ht, hsib⟩, hnd⟩
  · rintro ⟨hctx, ht, hnd⟩
    obtain ⟨hf, ht, hsib⟩ := holds_join.mp ht
    rw [Frame.fill, ptr_join] at hctx
    exact ⟨⟨hf, hsib, hctx⟩, ht, hnd⟩

/-- The place is moved to the other side of the node above it. -/
theorem rbAt_sib : RbAt s (⟨d, c, a, u⟩ :: ctx) t ↔ RbAt s (⟨d.other, c, a, t⟩ :: ctx) u := by
  rw [rbAt_cons, rbAt_cons, Frame.fill, Frame.fill, join_other]

theorem rbAt_plug : RbAt s ctx t ↔ RbAt s [] (plug ctx t) := by
  induction ctx generalizing t with
  | nil => rfl
  | cons f ctx ih => exact rbAt_cons.trans ih

theorem Above.root_ne (h : Above s p (f :: ctx)) (hx : x ∉ ctxRefs (f :: ctx)) :
    some x ≠ s.root := by
  induction ctx generalizing f p with
  | nil =>
      rw [h.2.2]
      rintro heq
      exact hx (mem_ctxRefs_cons.mpr (.inl (Option.some.inj heq)))
  | cons g ctx ih => exact ih h.2.2 fun hmem => hx (mem_ctxRefs_cons.mpr (.inr (.inr hmem)))

theorem Above.root_isSome (h : Above s p (f :: ctx)) : s.root ≠ none := by
  induction ctx generalizing f p with
  | nil =>
      rw [h.2.2]
      exact nofun
  | cons g ctx ih => exact ih h.2.2

/-! ### The operations -/

theorem get_modify_self {n : Node} {g : Node → Node} (h : s.nodes.get x = some n) :
    (s.modify x g).nodes.get x = some (g n) := by
  rw [modify_nodes, Table.get_modify_self, h, Option.map_some]

theorem get_modify_of_ne {g : Node → Node} (h : y ≠ x) :
    (s.modify x g).nodes.get y = s.nodes.get y := Table.get_modify_of_ne h

theorem Holds.reparent (h : Holds s.nodes q t) (hnd : (refs t).Nodup) (p : Option Ref) :
    Ends (reparent (ptr t) p) s fun _ s' => Holds s'.nodes p t ∧ s'.root = s.root ∧
      ∀ x ∉ refs t, s'.nodes.get x = s.nodes.get x := by
  cases t with
  | nil =>
      rw [ptr, DmfServer.reparent, if_pos rfl]
      exact ends_pure.mpr ⟨trivial, rfl, fun _ _ => rfl⟩
  | node c l a r =>
      obtain ⟨ha, hl, hr⟩ := h
      rw [ptr, DmfServer.reparent, if_neg nofun]
      have hnd' := (refs_join_perm (d := .left)).nodup_iff.mp hnd
      obtain ⟨hno, -⟩ := List.nodup_cons.mp hnd'
      have hsame : ∀ x ∈ refs l ++ refs r,
          (s.modify a.ref (Node.setParent p)).nodes.get x = s.nodes.get x := fun x hx =>
        get_modify_of_ne (ne_of_mem_of_not_mem hx hno)
      refine (returns_assign ha).ends ⟨⟨get_modify_self ha, ?_, ?_⟩, rfl, fun x hx => ?_⟩
      · exact hl.congr fun x hx => hsame x (List.mem_append_left _ hx)
      · exact hr.congr fun x hx => hsame x (List.mem_append_right _ hx)
      · refine get_modify_of_ne ?_
        rintro rfl
        exact hx ((refs_join_perm (d := .left)).mem_iff.mpr List.mem_cons_self)

/-- The pointer to the place is written. -/
theorem Above.setChild (h : Above s p (f :: ctx)) (hnd : (ctxRefs (f :: ctx)).Nodup)
    (v : Option Ref) : Above (s.modify f.val.ref (Node.setChild f.dir v)) v (f :: ctx) := by
  obtain ⟨hf, hsib, hctx⟩ := h
  obtain ⟨hno, -⟩ := List.nodup_cons.mp (ctxRefs_cons_perm.nodup_iff.mp hnd)
  rw [List.mem_append, not_or] at hno
  refine ⟨?_, ?_, ?_⟩
  · rw [get_modify_self hf, mkNode_setChild]
  · exact hsib.congr fun y hy => get_modify_of_ne (ne_of_mem_of_not_mem hy hno.1)
  · exact hctx.congr rfl fun y hy => get_modify_of_ne (ne_of_mem_of_not_mem hy hno.2)

theorem Above.relink (h : Above s (some x) ctx) (hnd : (ctxRefs ctx).Nodup)
    (hx : x ∉ ctxRefs ctx) (v : Option Ref) :
    Ends (relink (up ctx) (some x) v) s fun _ s' => Above s' v ctx ∧
      ∀ y ∉ ctxRefs ctx, s'.nodes.get y = s.nodes.get y := by
  cases ctx with
  | nil =>
      rw [up, DmfServer.relink, if_pos rfl]
      exact ends_store.mpr ⟨rfl, fun _ _ => rfl⟩
  | cons f ctx =>
      have hsib : x ∉ refs f.sib := fun hmem => hx (mem_ctxRefs_cons.mpr (.inr (.inl hmem)))
      have hside : Ends (assign (Node.setChild f.dir v) (some f.val.ref)) s fun _ s' =>
          Above s' v (f :: ctx) ∧ ∀ y ∉ ctxRefs (f :: ctx), s'.nodes.get y = s.nodes.get y := by
        refine (returns_assign h.1).ends ⟨h.setChild hnd v, fun y hy => get_modify_of_ne ?_⟩
        rintro rfl
        exact hy (mem_ctxRefs_cons.mpr (.inl rfl))
      rw [up, DmfServer.relink, if_neg nofun, ends_field_bind h.1]
      simp only [left_eq_iff hsib]
      cases hd : f.dir with
      | left =>
          rw [if_pos rfl, ← hd]
          exact hside
      | right =>
          rw [if_neg nofun, ← hd]
          exact hside

theorem refs_plug_congr (h : t.toList = u.toList) : refs (plug ctx t) = refs (plug ctx u) := by
  rw [refs, refs, toList_plug_congr h]

theorem RbAt.nodup_join (h : RbAt s ctx (join d c t a u)) :
    (a.ref :: (refs t ++ (refs u ++ ctxRefs ctx))).Nodup := by
  have hnd := refs_plug_perm.nodup_iff.mp h.nodup
  have hperm := (refs_join_perm (d := d) (c := c) (t := t) (a := a) (u := u)).append_right
    (ctxRefs ctx)
  rw [List.cons_append, List.append_assoc] at hperm
  exact hperm.nodup_iff.mp hnd

theorem RbAt.get (h : RbAt s ctx (join d c t a u)) :
    s.nodes.get a.ref = some (mkNode d a.key c (ptr t) (ptr u) (up ctx)) :=
  (holds_join.mp h.below).1

/-- A change of colour. -/
theorem RbAt.recolor (h : RbAt s ctx (join d c t a u)) (c' : Color) :
    RbAt (s.modify a.ref (Node.setColor c')) ctx (join d c' t a u) := by
  have hnd := h.nodup_join
  obtain ⟨habove, hbelow, hnodup⟩ := h
  obtain ⟨ha, ht, hu⟩ := holds_join.mp hbelow
  obtain ⟨hno, -⟩ := List.nodup_cons.mp hnd
  have hsame : ∀ x ∈ refs t ++ (refs u ++ ctxRefs ctx),
      (s.modify a.ref (Node.setColor c')).nodes.get x = s.nodes.get x := fun x hx =>
    get_modify_of_ne (ne_of_mem_of_not_mem hx hno)
  refine ⟨?_, holds_join.mpr ⟨?_, ?_, ?_⟩, ?_⟩
  · rw [ptr_join] at habove ⊢
    exact habove.congr rfl fun x hx => hsame x (by simp [hx])
  · rw [get_modify_self ha, mkNode_setColor]
  · exact ht.congr fun x hx => hsame x (by simp [hx])
  · exact hu.congr fun x hx => hsame x (by simp [hx])
  · rwa [refs_plug_congr toList_recolor]

/-- **A rotation.** -/
theorem RbAt.rotate (h : RbAt s ctx (join d c A a (join d c' B b C))) :
    Ends (rotate d (some a.ref)) s fun _ s' => RbAt s' ctx (join d c' (join d c A a B) b C) := by
  have hnd := h.nodup_join
  obtain ⟨habove, hbelow, hnodup⟩ := h
  obtain ⟨ha, hA, hb⟩ := holds_join.mp hbelow
  obtain ⟨hb, hB, hC⟩ := holds_join.mp hb
  rw [ptr_join] at ha habove
  -- all addresses are different
  have hperm : (a.ref :: (refs A ++ (refs (join d c' B b C) ++ ctxRefs ctx))).Perm
      (a.ref :: b.ref :: (refs A ++ (refs B ++ (refs C ++ ctxRefs ctx)))) := by
    refine List.Perm.cons _ ?_
    refine ((refs_join_perm.append_right _).append_left _).trans ?_
    rw [List.cons_append, List.append_assoc]
    exact List.perm_middle
  rw [hperm.nodup_iff, List.nodup_cons, List.nodup_cons] at hnd
  simp only [List.mem_cons, List.mem_append, not_or] at hnd
  obtain ⟨⟨hab, haA, haB, haC, haK⟩, ⟨hbA, hbB, hbC, hbK⟩, hnd⟩ := hnd
  have hdA : ∀ x ∈ refs A, x ∉ refs B ∧ x ∉ ctxRefs ctx := by grind
  have hdB : ∀ x ∈ refs B, x ∉ ctxRefs ctx := by grind
  have hdC : ∀ x ∈ refs C, x ∉ refs B ∧ x ∉ ctxRefs ctx := by grind
  have hndB : (refs B).Nodup := by grind
  have hndK : (ctxRefs ctx).Nodup := by grind
  rw [DmfServer.rotate, ends_field_bind ha, mkNode_child_other, ends_field_bind hb, mkNode_child,
    ends_assign_bind ha]
  -- the tree in the middle
  have hB₁ : Holds (s.modify a.ref (Node.setChild d.other (ptr B))).nodes (some b.ref) B :=
    hB.congr fun x hx => get_modify_of_ne (ne_of_mem_of_not_mem hx haB)
  refine Ends.bind (Ends.mono (hB₁.reparent hndB (some a.ref)) ?_)
  rintro - s₂ ⟨hB₂, hroot₂, hoff₂⟩
  have ha₂ := (hoff₂ _ haB).trans (get_modify_self ha)
  have hb₂ := (hoff₂ _ hbB).trans ((get_modify_of_ne (Ne.symm hab)).trans hb)
  rw [mkNode_setChild_other] at ha₂
  rw [ends_field_bind ha₂, mkNode_parent, ends_assign_bind hb₂]
  -- the place above
  have habove₃ : Above (s₂.modify b.ref (Node.setParent (up ctx))) (some a.ref) ctx := by
    refine habove.congr hroot₂ fun x hx => ?_
    rw [get_modify_of_ne (ne_of_mem_of_not_mem hx hbK), hoff₂ x fun hxB => hdB x hxB hx,
      get_modify_of_ne (ne_of_mem_of_not_mem hx haK)]
  refine Ends.bind (Ends.mono (habove₃.relink hndK haK (some b.ref)) ?_)
  rintro - s₄ ⟨habove₄, hoff₄⟩
  have hb₄ := (hoff₄ _ hbK).trans (get_modify_self hb₂)
  have ha₄ := (hoff₄ _ haK).trans ((get_modify_of_ne hab).trans ha₂)
  rw [mkNode_setParent] at hb₄
  rw [ends_assign_bind hb₄]
  have ha₅ := (get_modify_of_ne (g := Node.setChild d (some a.ref)) hab).trans ha₄
  have hb₅ := get_modify_self (g := Node.setChild d (some a.ref)) hb₄
  rw [mkNode_setChild] at hb₅
  have hoff : ∀ x, x ≠ a.ref → x ≠ b.ref → x ∉ ctxRefs ctx →
      (((s₄.modify b.ref (Node.setChild d (some a.ref))).modify a.ref
        (Node.setParent (some b.ref))).nodes.get x = s₂.nodes.get x) := by
    intro x hxa hxb hxK
    rw [get_modify_of_ne hxa, get_modify_of_ne hxb, hoff₄ x hxK, get_modify_of_ne hxb]
  have hsub : ∀ t q, Holds s.nodes q t → a.ref ∉ refs t → b.ref ∉ refs t →
      (∀ x ∈ refs t, x ∉ refs B ∧ x ∉ ctxRefs ctx) →
      Holds ((s₄.modify b.ref (Node.setChild d (some a.ref))).modify a.ref
        (Node.setParent (some b.ref))).nodes q t := by
    intro t q ht hat hbt hdt
    refine ht.congr fun x hx => ?_
    rw [hoff x (ne_of_mem_of_not_mem hx hat) (ne_of_mem_of_not_mem hx hbt) (hdt x hx).2,
      hoff₂ x (hdt x hx).1, get_modify_of_ne (ne_of_mem_of_not_mem hx hat)]
  refine (returns_assign ha₅).ends ⟨?_, holds_join.mpr ⟨?_, holds_join.mpr ⟨?_, ?_, ?_⟩, ?_⟩, ?_⟩
  · rw [ptr_join]
    refine habove₄.congr rfl fun x hx => ?_
    rw [get_modify_of_ne (ne_of_mem_of_not_mem hx haK),
      get_modify_of_ne (ne_of_mem_of_not_mem hx hbK)]
  · rw [get_modify_of_ne (Ne.symm hab), hb₅, ptr_join]
  · rw [get_modify_self ha₅, mkNode_setParent]
  · exact hsub A _ hA haA hbA hdA
  · refine hB₂.congr fun x hx => ?_
    exact hoff x (ne_of_mem_of_not_mem hx haB) (ne_of_mem_of_not_mem hx hbB) (hdB x hx)
  · exact hsub C _ hC haC hbC hdC
  · rwa [refs_plug_congr toList_rotate]

theorem RbAt.rotate_other (h : RbAt s ctx (join d c (join d c' A a B) b C)) :
    Ends (DmfServer.rotate d.other (some b.ref)) s fun _ s' =>
      RbAt s' ctx (join d c' A a (join d c B b C)) := by
  have h' : RbAt s ctx (join d.other c C b (join d.other c' B a A)) := by
    rwa [join_other, join_other]
  refine h'.rotate.mono fun _ s' h₁ => ?_
  rwa [join_other, join_other] at h₁

end DmfServer
