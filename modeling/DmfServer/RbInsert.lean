/-
DmfServer/RbInsert.lean

Insertion into the red-black tree.

`fixInsert` moves up with a red node `z` that may be below a red one; all else
is in order: `z` is the root of a tree of some black height, and that height
fits into the place of `z`.  Each turn keeps this: the uncle is red and the
grandparent is the next `z`, or a rotation or two end it (`RbAt.fixInsert`).
-/
import DmfServer.RbRead

namespace DmfServer

open Imperative Imperative.Prog Trees ColorTree RbMem

variable {s s' : RbMem} {d d' : Dir} {c c' : Color} {a b e : Item} {k : Int}
variable {t u l r A B S U Z : ColorTree Item} {f g : Frame Item} {ctx : List (Frame Item)}
variable {x y z : Ref} {n : Nat}

/-! ### A turn of `fixInsert` -/

/-- With a black uncle, and `z` on the outside. -/
theorem RbAt.fixInsertRotate (h : RbAt s ctx (join d c (join d c' Z a S) b U))
    (hz : ptr Z = some z) :
    Ends (fixInsertRotate d (some z)) s fun _ s' =>
      RbAt s' ctx (join d .black Z a (join d .red S b U)) := by
  have h₁ : RbAt s (⟨d, c, b, U⟩ :: ctx) (join d c' Z a S) := rbAt_cons.mpr h
  obtain ⟨-, hZ, -⟩ := holds_join.mp h₁.below
  obtain ⟨node, hnode, hparent, -⟩ := hZ.get hz
  have h₂ := h₁.recolor .black
  have h₃ : RbAt _ ctx (join d c (join d .black Z a S) b U) := rbAt_cons.mp h₂
  rw [DmfServer.fixInsertRotate, ends_field_bind hnode, hparent, ends_assign_bind h₁.get,
    ends_field_bind h₂.get, mkNode_parent, up, ends_assign_bind h₃.get]
  exact (h₃.recolor .red).rotate_other

/-- With a red uncle, the grandparent is the next `z`. -/
theorem RbAt.fixInsertSide_red (h : RbAt s ctx (join d c (join d' c' Z a S) b (node .red l e r)))
    (hz : ptr Z = some z) :
    Ends (fixInsertSide d (some z)) s fun z' s' => z' = some b.ref ∧
      RbAt s' ctx (join d .red (join d' .black Z a S) b (node .black l e r)) := by
  have h₁ : RbAt s (⟨d, c, b, node .red l e r⟩ :: ctx) (join d' c' Z a S) := rbAt_cons.mpr h
  obtain ⟨-, hZ, -⟩ := holds_join.mp h₁.below
  obtain ⟨-, -, hU⟩ := holds_join.mp h.below
  obtain ⟨node, hnode, hparent, -⟩ := hZ.get hz
  have h₂ := h₁.recolor .black
  have h₃ := (show RbAt _ _ (join .left .red l e r) from rbAt_sib.mp h₂)
  have h₄ := rbAt_cons.mp (rbAt_sib.mpr (h₃.recolor .black))
  rw [DmfServer.fixInsertSide, ends_field_bind hnode, hparent, ends_field_bind h₁.get,
    mkNode_parent, up, ends_field_bind h.get, mkNode_child_other,
    ends_bind_iff (returns_isRed hU)]
  show Ends (if decide (Color.red = .red) = true then _ else _) _ _
  rw [if_pos (decide_eq_true rfl), ends_assign_bind h₁.get]
  show Ends (assign _ (some e.ref) >>= _) _ _
  rw [ends_assign_bind h₃.get, ends_assign_bind h₄.get]
  exact ends_pure.mpr ⟨rfl, h₄.recolor .red⟩

/-- With a black uncle and `z` on the outside, `z` stays. -/
theorem RbAt.fixInsertSide_outer (h : RbAt s ctx (join d c (join d c' Z a S) b U))
    (hz : ptr Z = some z) (hU : U.color = .black) :
    Ends (fixInsertSide d (some z)) s fun z' s' => z' = some z ∧
      RbAt s' ctx (join d .black Z a (join d .red S b U)) := by
  have h₁ : RbAt s (⟨d, c, b, U⟩ :: ctx) (join d c' Z a S) := rbAt_cons.mpr h
  obtain ⟨-, hZ, -⟩ := holds_join.mp h₁.below
  obtain ⟨-, -, hUm⟩ := holds_join.mp h.below
  obtain ⟨node, hnode, hparent, -⟩ := hZ.get hz
  have hne : ¬ some z = ptr S := by
    intro heq
    have hnd := h₁.nodup_join
    have hzZ := mem_refs_of_ptr hz
    have hzS := mem_refs_of_ptr heq.symm
    grind
  rw [DmfServer.fixInsertSide, ends_field_bind hnode, hparent, ends_field_bind h₁.get,
    mkNode_parent, up, ends_field_bind h.get, mkNode_child_other,
    ends_bind_iff (returns_isRed hUm), hU]
  show Ends (if decide (Color.black = .red) = true then _ else _) _ _
  rw [if_neg (by decide), ends_field_bind h₁.get, mkNode_child_other, if_neg hne]
  refine Ends.bind ((h.fixInsertRotate hz).mono fun _ s' h' => ?_)
  exact ends_pure.mpr ⟨rfl, h'⟩

/-- With a black uncle and `z` on the inside, the parent is the next `z`. -/
theorem RbAt.fixInsertSide_inner
    (h : RbAt s ctx (join d c (join d.other c' (join d .red A e B) a S) b U))
    (hU : U.color = .black) :
    Ends (fixInsertSide d (some e.ref)) s fun z' s' => z' = some a.ref ∧
      RbAt s' ctx (join d .black (join d c' S a A) e (join d .red B b U)) := by
  have h₁ : RbAt s (⟨d, c, b, U⟩ :: ctx) (join d.other c' (join d .red A e B) a S) :=
    rbAt_cons.mpr h
  obtain ⟨hget, hZ, -⟩ := holds_join.mp h₁.below
  obtain ⟨-, -, hUm⟩ := holds_join.mp h.below
  obtain ⟨hnode, -⟩ := holds_join.mp hZ
  have hget' := h₁.get
  rw [join_other] at h₁
  rw [DmfServer.fixInsertSide, ends_field_bind hnode, mkNode_parent, ends_field_bind hget',
    mkNode_parent, up, ends_field_bind h.get, mkNode_child_other,
    ends_bind_iff (returns_isRed hUm), hU]
  show Ends (if decide (Color.black = .red) = true then _ else _) _ _
  rw [if_neg (by decide), ends_field_bind h₁.get, mkNode_child_other, ptr_join, if_pos rfl]
  refine Ends.bind (h₁.rotate.mono fun _ s₁ h₂ => ?_)
  refine Ends.bind (((rbAt_cons.mp h₂).fixInsertRotate ptr_join).mono fun _ s' h' => ?_)
  exact ends_pure.mpr ⟨rfl, h'⟩

/-! ### The loop -/

/-- A turn at the root ends the loop. -/
theorem RbAt.fixInsertTurn_root (h : RbAt s [] (join d c A a B)) :
    Returns (fixInsertTurn (some a.ref)) s (Sum.inr ()) s := by
  have hroot : s.root = some a.ref := h.above.trans ptr_join
  rw [fixInsertTurn, returns_load_bind, hroot, if_pos rfl]
  exact returns_pure.mpr ⟨rfl, rfl⟩

theorem RbAt.not_root (h : RbAt s (f :: ctx) (join d c A a B)) : some a.ref ≠ s.root := by
  refine h.above.root_ne fun hmem => ?_
  have hnd := h.nodup_join
  grind

/-- So does one below a black node. -/
theorem RbAt.fixInsertTurn_black (h : RbAt s (f :: ctx) (join d c A a B))
    (hf : f.color = .black) : Returns (fixInsertTurn (some a.ref)) s (Sum.inr ()) s := by
  have hred : f.color ≠ .red := by simp [hf]
  rw [fixInsertTurn, returns_load_bind, if_neg h.not_root, returns_field_bind h.get, mkNode_parent,
    up, returns_field_bind h.above.1, mkNode_color, if_neg hred]
  exact returns_pure.mpr ⟨rfl, rfl⟩

/-- Below a red one there is a grandparent, and its side decides. -/
theorem RbAt.fixInsertTurn_red (h : RbAt s (f :: g :: ctx) (join d c A a B))
    (hf : f.color = .red) {Q : Option Ref ⊕ Unit → RbMem → Prop}
    (hside : Ends (fixInsertSide g.dir (some a.ref)) s fun z s' => Q (Sum.inl z) s') :
    Ends (fixInsertTurn (some a.ref)) s Q := by
  obtain ⟨hfm, -, hgm, -⟩ := h.above
  have hsib : f.val.ref ∉ refs g.sib := by
    have hnd := (rbAt_cons.mp h).nodup_join
    intro hmem
    have hmem' : f.val.ref ∈ ctxRefs (g :: ctx) := mem_ctxRefs_cons.mpr (.inr (.inl hmem))
    grind
  rw [fixInsertTurn, ends_load_bind, if_neg h.not_root, ends_field_bind h.get, mkNode_parent,
    up, ends_field_bind hfm, mkNode_color, hf, if_pos rfl, ends_field_bind hfm, mkNode_parent, up,
    ends_field_bind hgm]
  simp only [left_eq_iff hsib]
  have hend := hside.mono fun z s' hq => (ends_pure.mpr hq : Ends (pure (Sum.inl z)) s' Q)
  cases hd : g.dir with
  | left =>
      rw [hd] at hend
      exact Ends.bind hend
  | right =>
      rw [hd] at hend
      exact Ends.bind hend

/-- **The loop of `fixInsert`.**  Where it ends, only the root may be red. -/
theorem RbAt.fixInsertLoop (h : RbAt s ctx (join d .red A a B))
    (hb : Balanced n (join d .red A a B)) (hf : Fits n ctx) :
    Ends (loop fixInsertTurn (some a.ref)) s fun _ s' => ∃ d₁ c₁ l b r,
      RbAt s' [] (join d₁ c₁ l b r) ∧ RedBlack (join d₁ .black l b r) ∧
      (join d₁ c₁ l b r).toList = (plug ctx (join d .red A a B)).toList := by
  induction hlen : ctx.length using Nat.strongRecOn generalizing s ctx d A a B n with
  | ind m ih =>
  apply Ends.loop
  obtain ⟨hA, hB, hAb, hBb⟩ := balanced_join_red.mp hb
  cases hf with
  | nil =>
      refine h.fixInsertTurn_root.ends ⟨_, _, _, _, _, h, ?_, rfl⟩
      exact redBlack_iff.mpr ⟨color_join, _, balanced_join_black.mpr ⟨hA, hB⟩⟩
  | @black _ d' e S ctx hu hctx =>
      have hall : RedBlack (plug (⟨d', .black, e, S⟩ :: ctx) (join d .red A a B)) :=
        redBlack_plug.mpr ⟨n, .black hu hctx, hb, .inr rfl⟩
      have hat := rbAt_plug.mp h
      obtain ⟨d₁, c₁, l, b, r, heq⟩ :
          ∃ d₁ c₁ l b r, plug (⟨d', .black, e, S⟩ :: ctx) (join d .red A a B) = join d₁ c₁ l b r :=
        plug_cons_eq_join
      refine (h.fixInsertTurn_black rfl).ends ⟨d₁, c₁, l, b, r, heq ▸ hat, ?_, by rw [heq]⟩
      rw [heq] at hall
      obtain rfl : c₁ = .black := color_join.symm.trans hall.root
      exact hall
  | @red _ d' e S ctx hu hub htop hctx =>
      cases hctx with
      | nil => cases htop
      | red => cases htop
      | @black _ dg b U ctx hU hctx =>
      have hlt : ctx.length + 1 < m := by
        simp only [List.length_cons] at hlen
        omega
      apply h.fixInsertTurn_red rfl
      have h₂ := rbAt_cons.mp (rbAt_cons.mp h)
      rcases hUc : U.color with - | -
      · -- a red uncle
        cases U with
        | nil => cases hUc
        | node cu l y r =>
        obtain rfl : cu = .red := hUc
        refine (h₂.fixInsertSide_red ptr_join).mono ?_
        rintro z' s' ⟨rfl, h'⟩
        have hU' : Balanced (n + 1) (node .black l y r) := by
          cases hU with
          | red hl hr => exact .black hl hr
        have hb' : Balanced (n + 1) (join dg .red (join d' .black (join d .red A a B) e S) b
            (node .black l y r)) :=
          balanced_join_red.mpr ⟨balanced_join_black.mpr ⟨hb, hu⟩, hU', color_join, rfl⟩
        refine (ih ctx.length (by omega) h' hb' hctx rfl).mono ?_
        rintro - s'' ⟨d₁, c₁, l₁, b₁, r₁, hat, hrb, hlist⟩
        refine ⟨d₁, c₁, l₁, b₁, r₁, hat, hrb, hlist.trans (toList_plug_congr ?_)⟩
        cases dg <;> cases d' <;> rfl
      · rcases dg.eq_or_other d' with rfl | rfl
        · -- a black uncle, and `z` on the outside
          refine (h₂.fixInsertSide_outer ptr_join hUc).mono ?_
          rintro z' s' ⟨rfl, h'⟩
          have hf' : Fits n (⟨d', .black, e, join d' .red S b U⟩ :: ctx) :=
            .black (balanced_join_red.mpr ⟨hu, hU, hub, hUc⟩) hctx
          refine (ih (ctx.length + 1) hlt (rbAt_cons.mpr h') hb hf' rfl).mono ?_
          rintro - s'' ⟨d₁, c₁, l₁, b₁, r₁, hat, hrb, hlist⟩
          exact ⟨d₁, c₁, l₁, b₁, r₁, hat, hrb, hlist.trans (toList_plug_congr toList_rotate.symm)⟩
        · -- a black uncle, and `z` on the inside
          obtain ⟨A', B', hZ⟩ := join_turn (c := .red) (t := A) (a := a) (u := B) d dg
          rw [hZ] at hb h₂ ⊢
          obtain ⟨hA, hB, hAb, hBb⟩ := balanced_join_red.mp hb
          refine (h₂.fixInsertSide_inner hUc).mono ?_
          rintro z' s' ⟨rfl, h'⟩
          have hb' : Balanced n (join dg .red S e A') := balanced_join_red.mpr ⟨hu, hA, hub, hAb⟩
          have hf' : Fits n (⟨dg, .black, a, join dg .red B' b U⟩ :: ctx) :=
            .black (balanced_join_red.mpr ⟨hB, hU, hBb, hUc⟩) hctx
          refine (ih (ctx.length + 1) hlt (rbAt_cons.mpr h') hb' hf' rfl).mono ?_
          rintro - s'' ⟨d₁, c₁, l₁, b₁, r₁, hat, hrb, hlist⟩
          refine ⟨d₁, c₁, l₁, b₁, r₁, hat, hrb, hlist.trans ?_⟩
          simp only [plug]
          apply toList_plug_congr
          cases dg <;> simp [Frame.fill, join, toList, Dir.other]

/-- `fixInsert`. -/
theorem RbAt.fixInsert (h : RbAt s ctx (join d .red A a B))
    (hb : Balanced n (join d .red A a B)) (hf : Fits n ctx) :
    Ends (fixInsert (some a.ref)) s fun _ s' => ∃ t, RbAt s' [] t ∧ RedBlack t ∧
      t.toList = (plug ctx (join d .red A a B)).toList := by
  refine Ends.bind ((h.fixInsertLoop hb hf).mono ?_)
  rintro - s₁ ⟨d₁, c₁, l, b, r, h₁, hrb, hlist⟩
  have hroot : s₁.root = some b.ref := h₁.above.trans ptr_join
  rw [ends_load_bind, hroot]
  refine (returns_assign h₁.get).ends ⟨_, h₁.recolor .black, hrb, ?_⟩
  exact toList_recolor.trans hlist

/-! ### `insertNode` -/

/-- The search for the place of `z` ends at a missing child. -/
theorem returns_insertLoop {node : Node} (hz : s.nodes.get z = some node) (h : RbAt s ctx t)
    (hk : Leads Item.key node.key ctx) :
    ∃ ctx', Returns (loop (insertTurn z) (up ctx, ptr t)) s (up ctx') s ∧
      plug ctx' nil = plug ctx t ∧ Leads Item.key node.key ctx' := by
  induction t generalizing ctx with
  | nil => exact ⟨ctx, Returns.loop_exit (returns_pure.mpr ⟨rfl, rfl⟩), rfl, hk⟩
  | node c l a r ihl ihr =>
      have ha := h.below.1
      by_cases hlt : node.key < a.key
      · have hturn : Returns (insertTurn z (up ctx, some a.ref)) s
            (Sum.inl (some a.ref, ptr l)) s := by
          rw [insertTurn, returns_field_bind hz, returns_field_bind ha, if_pos hlt,
            returns_field_bind ha]
          exact returns_pure.mpr ⟨rfl, rfl⟩
        have h' : RbAt s (⟨.left, c, a, r⟩ :: ctx) l := rbAt_cons.mpr h
        obtain ⟨ctx', hloop, hplug, hk'⟩ :=
          ihl h' (List.forall_mem_cons.mpr ⟨iff_of_true rfl hlt, hk⟩)
        exact ⟨ctx', hturn.loop_next hloop, hplug, hk'⟩
      · have hturn : Returns (insertTurn z (up ctx, some a.ref)) s
            (Sum.inl (some a.ref, ptr r)) s := by
          rw [insertTurn, returns_field_bind hz, returns_field_bind ha, if_neg hlt,
            returns_field_bind ha]
          exact returns_pure.mpr ⟨rfl, rfl⟩
        have h' : RbAt s (⟨.right, c, a, l⟩ :: ctx) r := rbAt_cons.mpr h
        obtain ⟨ctx', hloop, hplug, hk'⟩ :=
          ihr h' (List.forall_mem_cons.mpr ⟨iff_of_false nofun hlt, hk⟩)
        exact ⟨ctx', hturn.loop_next hloop, hplug, hk'⟩

/-- The new node is linked in at that place. -/
theorem RbAt.attach {node : Node} (h : RbAt s ctx nil) (hz : s.nodes.get z = some node)
    (hno : z ∉ ctxRefs ctx) (hk : Leads Item.key node.key ctx) :
    Ends (attach (up ctx) z) s fun _ s' =>
      Above s' (some z) ctx ∧ s'.nodes.get z = some node := by
  cases ctx with
  | nil =>
      rw [up, DmfServer.attach, if_pos rfl]
      exact ends_store.mpr ⟨rfl, hz⟩
  | cons f ctx =>
      have hnd : (ctxRefs (f :: ctx)).Nodup := by
        have hnd := refs_plug_perm.nodup_iff.mp h.nodup
        exact (List.nodup_append.mp hnd).2.1
      have hside : Ends (assign (Node.setChild f.dir (some z)) (some f.val.ref)) s fun _ s' =>
          Above s' (some z) (f :: ctx) ∧ s'.nodes.get z = some node := by
        refine (returns_assign h.above.1).ends ⟨h.above.setChild hnd _, ?_⟩
        refine (get_modify_of_ne ?_).trans hz
        rintro rfl
        exact hno (mem_ctxRefs_cons.mpr (.inl rfl))
      have hdir := hk f List.mem_cons_self
      rw [up, DmfServer.attach, if_neg (Option.some_ne_none _), ends_field_bind hz,
        ends_field_bind h.above.1, mkNode_key]
      simp only [← hdir]
      cases hd : f.dir with
      | left =>
          rw [if_pos rfl, ← hd]
          exact hside
      | right =>
          rw [if_neg (by simp : Dir.right ≠ .left), ← hd]
          exact hside

/-- What holds of the tree between the calls. -/
structure IsRb (s : RbMem) (t : ColorTree Item) : Prop where
  stored : RbAt s [] t
  redBlack : RedBlack t
  sorted : Sorted Item.key t

/-- A node is allocated. -/
theorem RbAt.newNode (h : RbAt s [] t) (node : Node) :
    RbAt (s.newNode node) [] t ∧ s.nodes.bound ∉ refs t := by
  have hlt : ∀ x ∈ refs t, x ≠ s.nodes.bound := by
    intro x hx
    obtain ⟨n, hn⟩ := h.below.get_of_mem hx
    exact Nat.ne_of_lt (Table.lt_bound hn)
  refine ⟨⟨h.above, ?_, h.nodup⟩, fun hmem => hlt _ hmem rfl⟩
  exact h.below.congr fun x hx => Table.get_push_of_ne (hlt x hx)

/-- **`insertNode`.** -/
theorem IsRb.insertNode (h : IsRb s t) (k : Int) :
    Ends (insertNode k) s fun _ s' => ∃ t', IsRb s' t' ∧ (keys t').Perm (k :: keys t) := by
  obtain ⟨hat, hrb, hs⟩ := h
  obtain ⟨h₁, hno⟩ := hat.newNode ⟨k, .red, none, none, none⟩
  have hz₁ : (s.newNode ⟨k, .red, none, none, none⟩).nodes.get s.nodes.bound =
      some ⟨k, .red, none, none, none⟩ := Table.get_push_self
  obtain ⟨ctx, hloop, hplug, hk⟩ :=
    returns_insertLoop hz₁ h₁ (fun f hf => absurd hf List.not_mem_nil)
  have hroot : (s.newNode ⟨k, .red, none, none, none⟩).root = ptr t := hat.above
  rw [DmfServer.insertNode, createNode, ends_call_bind, ends_load_bind, hroot]
  show Ends (loop (insertTurn s.nodes.bound) (up [], ptr t) >>= fun y =>
    assign (Node.setParent y) (some s.nodes.bound) >>= fun _ =>
    DmfServer.attach y s.nodes.bound >>= fun _ =>
    DmfServer.fixInsert (some s.nodes.bound)) (s.newNode _) _
  rw [ends_bind_iff hloop, ends_assign_bind hz₁]
  -- the place of the new node
  obtain rfl : plug ctx nil = t := hplug
  have h₂ : RbAt (s.newNode ⟨k, .red, none, none, none⟩) ctx nil := rbAt_plug.mpr h₁
  have hperm : (refs (plug ctx nil)).Perm (refs nil ++ ctxRefs ctx) := refs_plug_perm
  have hnoc : s.nodes.bound ∉ ctxRefs ctx := fun hmem =>
    hno (hperm.mem_iff.mpr (List.mem_append_right _ hmem))
  have h₃ : RbAt ((s.newNode ⟨k, .red, none, none, none⟩).modify s.nodes.bound
      (Node.setParent (up ctx))) ctx nil :=
    ⟨h₂.above.congr rfl fun x hx => get_modify_of_ne (ne_of_mem_of_not_mem hx hnoc), trivial,
      h₂.nodup⟩
  refine Ends.bind ((h₃.attach (get_modify_self hz₁) hnoc hk).mono ?_)
  rintro - s₄ ⟨habove, hz₄⟩
  have h₄ : RbAt s₄ ctx (join .left .red nil ⟨s.nodes.bound, k⟩ nil) := by
    refine ⟨habove, ⟨hz₄, trivial, trivial⟩, ?_⟩
    have hnd := hperm.nodup_iff.mp h₂.nodup
    exact refs_plug_perm.nodup_iff.mpr (List.nodup_cons.mpr ⟨hnoc, hnd⟩)
  obtain ⟨n, hf, hnil, -⟩ := redBlack_plug.mp hrb
  cases hnil
  refine (h₄.fixInsert (balanced_join_red.mpr ⟨.nil, .nil, rfl, rfl⟩) hf).mono ?_
  rintro - s' ⟨t', hat', hrb', hlist⟩
  refine ⟨t', ⟨hat', hrb', ?_⟩, ?_⟩
  · have hins := Sorted.insert (c := .red) (a := (⟨s.nodes.bound, k⟩ : Item)) hs hk
    rwa [Sorted, hlist]
  · rw [keys, keys, hlist, toList_plug, toList_plug]
    exact List.perm_middle.map _

/-- An empty tree. -/
theorem isRb_nil (nodes : Table Node) : IsRb ⟨none, nodes⟩ nil where
  stored := ⟨rfl, trivial, List.nodup_nil⟩
  redBlack := redBlack_iff.mpr ⟨rfl, 0, .nil⟩
  sorted := List.Pairwise.nil

theorem IsRb.insertAll (h : IsRb s t) (ks : List Int) :
    Ends (ks.forM DmfServer.insertNode) s fun _ s' =>
      ∃ t', IsRb s' t' ∧ (keys t').Perm (ks ++ keys t) := by
  induction ks generalizing s t with
  | nil => exact ends_pure.mpr ⟨t, h, .refl _⟩
  | cons k ks ih =>
      refine Ends.bind ((h.insertNode k).mono ?_)
      rintro - s₁ ⟨t₁, h₁, hp₁⟩
      refine (ih h₁).mono ?_
      rintro - s' ⟨t', h', hp'⟩
      refine ⟨t', h', hp'.trans ?_⟩
      exact (hp₁.append_left ks).trans List.perm_middle

/-- What the tree says about the keys in it. -/
theorem IsRb.searchNode (h : IsRb s t) (k : Int) :
    ∃ v, Returns (searchNode s.root k) s v s ∧ (v.isSome ↔ k ∈ keys t) ∧
      ∀ x, v = some x → ∃ node, s.nodes.get x = some node ∧ node.key = k := by
  obtain ⟨v, hv, hcase⟩ := returns_searchNode h.stored.below h.sorted k
  rw [show s.root = ptr t from h.stored.above]
  refine ⟨v, hv, ?_⟩
  rcases hcase with ⟨rfl, hno⟩ | ⟨ctx, c, l, a, r, rfl, rfl, rfl⟩
  · exact ⟨iff_of_false nofun hno, nofun⟩
  · refine ⟨iff_of_true rfl ?_, ?_⟩
    · rw [keys, toList_plug]
      simp [toList]
    · rintro x hx
      obtain rfl := Option.some.inj hx
      exact ⟨_, (rbAt_plug.mpr h.stored).below.1, rfl⟩

/-- **Red-black insertion.** -/
theorem insertNode_redBlack (nodes : Table Node) (ks : List Int) :
    Ends (ks.forM insertNode) ⟨none, nodes⟩ fun _ s => ∃ t, RbAt s [] t ∧ RedBlack t ∧
      (∃ out, Returns (inorderTraversal s.root) s out s ∧ out.Pairwise (· ≤ ·) ∧ out.Perm ks) ∧
      ∀ k, ∃ v, Returns (searchNode s.root k) s v s ∧ (v.isSome ↔ k ∈ ks) ∧
        ∀ x, v = some x → ∃ node, s.nodes.get x = some node ∧ node.key = k := by
  refine ((isRb_nil nodes).insertAll ks).mono ?_
  rintro - s ⟨t, h, hperm⟩
  rw [show keys nil = [] from rfl, List.append_nil] at hperm
  refine ⟨t, h.stored, h.redBlack, ⟨keys t, ?_, ?_, hperm⟩, fun k => ?_⟩
  · rw [show s.root = ptr t from h.stored.above]
    exact returns_inorderTraversal h.stored.below
  · exact List.pairwise_map.mpr h.sorted
  · obtain ⟨v, hv, hiff, hkey⟩ := h.searchNode k
    exact ⟨v, hv, hiff.trans hperm.mem_iff, hkey⟩

end DmfServer
