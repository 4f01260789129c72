/-
DmfServer/RbUnlink.lean

`deleteNode` takes a node out of the tree.

A node with a child missing leaves its place to the other one.  Otherwise its
successor, the first node on the right, does that first, and then takes the
place of the node.  In both cases the tree `X` that moves up comes to a place
where there was a node, of the colour that is answered, with `X` as its only
child (`Unlinked`).
-/
import DmfServer.RbRead

namespace DmfServer

open Imperative Imperative.Prog Trees ColorTree RbMem

variable {s s' : RbMem} {d : Dir} {c c' cy cz : Color} {a b y z : Item}
variable {t u L R X : ColorTree Item} {f : Frame Item} {ctx ctx' : List (Frame Item)}
variable {p q rz : Option Ref} {x : Ref} {n : Nat}

theorem refs_node_nil : refs (node c nil a u) = a.ref :: refs u := rfl

/-- `transplant`: the tree `u`, which is anywhere, comes to the place of `x`. -/
theorem Above.transplant {node : Node} (h : Above s (some x) ctx)
    (hx : s.nodes.get x = some node) (hparent : node.parent = up ctx)
    (hu : Holds s.nodes q u) (hnd : (refs u ++ ctxRefs ctx).Nodup) (hno : x ∉ ctxRefs ctx) :
    Ends (transplant (some x) (ptr u)) s fun _ s' => Above s' (ptr u) ctx ∧
      Holds s'.nodes (up ctx) u ∧
      ∀ y, y ∉ refs u → y ∉ ctxRefs ctx → s'.nodes.get y = s.nodes.get y := by
  obtain ⟨hndu, hndK, hdisj⟩ := List.nodup_append.mp hnd
  rw [DmfServer.transplant, ends_field_bind hx, hparent]
  refine Ends.bind ((h.relink hndK hno (ptr u)).mono ?_)
  rintro - s₁ ⟨h₁, hoff₁⟩
  have hu₁ : Holds s₁.nodes q u := hu.congr fun y hy => hoff₁ y fun hyK => hdisj y hy y hyK rfl
  refine (hu₁.reparent hndu (up ctx)).mono ?_
  rintro - s₂ ⟨hu₂, hroot₂, hoff₂⟩
  refine ⟨h₁.congr hroot₂ fun y hy => hoff₂ y fun hyu => hdisj y hyu y hy rfl, hu₂, ?_⟩
  exact fun y hyu hyK => (hoff₂ y hyu).trans (hoff₁ y hyK)

/-- A node with a child missing leaves its place to the other one. -/
theorem RbAt.transplant (h : RbAt s ctx (join d c nil a u)) :
    Ends (transplant (some a.ref) (ptr u)) s fun _ s' => RbAt s' ctx u ∧
      s'.nodes.get a.ref = s.nodes.get a.ref := by
  have hnd := h.nodup_join
  obtain ⟨ha, -, hu⟩ := holds_join.mp h.below
  have habove := h.above
  rw [ptr_join] at habove
  obtain ⟨hno, hnd⟩ := List.nodup_cons.mp hnd
  rw [List.mem_append, List.mem_append, not_or, not_or] at hno
  refine (habove.transplant ha mkNode_parent hu hnd hno.2.2).mono ?_
  rintro - s' ⟨habove', hu', hoff⟩
  exact ⟨⟨habove', hu', refs_plug_perm.nodup_iff.mpr hnd⟩, hoff _ hno.2.1 hno.2.2⟩

/-- `assign` where the source does not ask whether there is a node. -/
theorem Holds.assign_parent (h : Holds s.nodes q t) (ht : t ≠ nil) (hnd : (refs t).Nodup)
    (p : Option Ref) : Ends (assign (Node.setParent p) (ptr t)) s fun _ s' =>
      Holds s'.nodes p t ∧ s'.root = s.root ∧ ∀ x ∉ refs t, s'.nodes.get x = s.nodes.get x := by
  have hend := h.reparent hnd p
  rwa [DmfServer.reparent, if_neg (ptr_eq_none.not.mpr ht)] at hend

/-- `y` takes the place of `z`, and keeps what is on its right. -/
theorem Above.replaceNode (h : Above s (some z.ref) ctx)
    (hz : s.nodes.get z.ref = some ⟨z.key, cz, ptr L, rz, up ctx⟩)
    (hL : Holds s.nodes p L) (hLn : L ≠ nil) (hR : Holds s.nodes q (node cy nil y R))
    (hnd : (z.ref :: (refs L ++ (refs (node cy nil y R) ++ ctxRefs ctx))).Nodup) :
    Ends (replaceNode (some z.ref) (some y.ref)) s fun _ s' =>
      RbAt s' ctx (node cz L y R) ∧ ∃ n, s'.nodes.get z.ref = some n := by
  rw [refs_node_nil] at hnd
  obtain ⟨hno, hnd⟩ := List.nodup_cons.mp hnd
  rw [List.mem_append, List.mem_append, not_or, not_or] at hno
  obtain ⟨hzL, hzR, hzK⟩ := hno
  obtain ⟨hndL, hndR, hdisj⟩ := List.nodup_append.mp hnd
  have hyL : y.ref ∉ refs L := by grind
  have hyR : y.ref ∉ refs R := by grind
  have hyK : y.ref ∉ ctxRefs ctx := by grind
  have hzy : z.ref ≠ y.ref := by grind
  rw [DmfServer.replaceNode]
  refine Ends.bind ((h.transplant hz rfl hR hndR hzK).mono ?_)
  rintro - s₁ ⟨habove₁, ⟨hy₁, -, hR₁⟩, hoff₁⟩
  have hz₁ := (hoff₁ _ hzR hzK).trans hz
  have hL₁ : Holds s₁.nodes p L := hL.congr fun x hx =>
    hoff₁ x (fun hxR => hdisj x hx x (List.mem_append_left _ hxR) rfl)
      fun hxK => hdisj x hx x (List.mem_append_right _ hxK) rfl
  rw [ends_field_bind hz₁, ends_assign_bind hy₁]
  -- the tree on the left
  have hL₂ : Holds (s₁.modify y.ref (Node.setChild .left (ptr L))).nodes p L :=
    hL₁.congr fun x hx => get_modify_of_ne (ne_of_mem_of_not_mem hx hyL)
  refine Ends.bind ((hL₂.assign_parent hLn hndL (some y.ref)).mono ?_)
  rintro - s₃ ⟨hL₃, hroot₃, hoff₃⟩
  have hz₃ := (hoff₃ _ hzL).trans ((get_modify_of_ne hzy).trans hz₁)
  have hy₃ := (hoff₃ _ hyL).trans (get_modify_self hy₁)
  rw [ends_field_bind hz₃]
  have hoff : ∀ x, x ≠ y.ref → x ∉ refs L →
      (s₃.modify y.ref (Node.setColor cz)).nodes.get x = s₁.nodes.get x := by
    intro x hxy hxL
    rw [get_modify_of_ne hxy, hoff₃ x hxL, get_modify_of_ne hxy]
  refine (returns_assign hy₃).ends ⟨⟨?_, ⟨get_modify_self hy₃, ?_, ?_⟩, ?_⟩, ?_⟩
  · refine habove₁.congr hroot₃ fun x hx => hoff x (ne_of_mem_of_not_mem hx hyK) fun hxL => ?_
    exact hdisj x hxL x (List.mem_append_right _ hx) rfl
  · exact hL₃.congr fun x hx => get_modify_of_ne (ne_of_mem_of_not_mem hx hyL)
  · refine hR₁.congr fun x hx => hoff x (ne_of_mem_of_not_mem hx hyR) fun hxL => ?_
    exact hdisj x hxL x (List.mem_append_left _ (List.mem_cons_of_mem _ hx)) rfl
  · refine refs_plug_perm.nodup_iff.mpr ?_
    have hperm : (refs (node cz L y R) ++ ctxRefs ctx).Perm
        (refs L ++ (y.ref :: refs R ++ ctxRefs ctx)) := by
      rw [refs, toList, List.map_append, List.map_cons, List.append_assoc]
      exact .refl _
    exact hperm.nodup_iff.mpr hnd
  · exact ⟨_, (get_modify_of_ne hzy).trans hz₃⟩

/-- The place is moved down on the right. -/
theorem rbAt_right : RbAt s (ctx' ++ ⟨.right, c, a, L⟩ :: ctx) t ↔
    RbAt s ctx (node c L a (plug ctx' t)) := by
  rw [rbAt_plug, plug_append]
  exact rbAt_plug.symm.trans rbAt_cons

/-- The addresses, when `y` stands above the rest of the right side. -/
theorem RbAt.nodup_two (h : RbAt s ctx (node cz L z (plug ctx' (node cy nil y X)))) :
    (z.ref :: (refs L ++ (refs (node cy nil y (plug ctx' X)) ++ ctxRefs ctx))).Nodup := by
  have hnd := RbAt.nodup_join (show RbAt s ctx (join .left cz L z _) from h)
  have hperm : (refs (plug ctx' (node cy nil y X))).Perm (refs (node cy nil y (plug ctx' X))) :=
    refs_plug_perm.trans (List.Perm.cons y.ref refs_plug_perm.symm)
  exact (((hperm.append_right _).append_left _).cons _).nodup_iff.mp hnd

theorem RbAt.val_ne (h : RbAt s ctx (node cz L z (plug (f :: ctx') t))) :
    some f.val.ref ≠ some z.ref := by
  have hnd := RbAt.nodup_join (show RbAt s ctx (join .left cz L z _) from h)
  have hmem : f.val.ref ∈ refs (plug (f :: ctx') t) :=
    refs_plug_perm.mem_iff.mpr (List.mem_append_right _ (mem_ctxRefs_cons.mpr (.inl rfl)))
  intro heq
  rw [Option.some.inj heq] at hmem
  exact (List.nodup_cons.mp hnd).1 (List.mem_append_right _ (List.mem_append_left _ hmem))

/-- The successor leaves its place. -/
theorem RbAt.detachSuccessor
    (h : RbAt s ctx (node cz L z (plug ctx' (node cy nil y X)))) (hX : ctx' = [] → X ≠ nil) :
    Ends (detachSuccessor (some z.ref) (some y.ref) (ptr X)) s fun _ s' =>
      Above s' (some z.ref) ctx ∧
      (∃ rz, s'.nodes.get z.ref = some ⟨z.key, cz, ptr L, rz, up ctx⟩) ∧
      Holds s'.nodes (some z.ref) L ∧ ∃ q, Holds s'.nodes q (node cy nil y (plug ctx' X)) := by
  have hnd := h.nodup_two
  rw [refs_node_nil] at hnd
  obtain ⟨hno, hnd⟩ := List.nodup_cons.mp hnd
  obtain ⟨-, hndR, hdisj⟩ := List.nodup_append.mp hnd
  obtain ⟨hndR, -, hdisjK⟩ := List.nodup_append.mp hndR
  obtain ⟨hyR, hndR⟩ := List.nodup_cons.mp hndR
  have hyL : y.ref ∉ refs L := by grind
  have hyK : y.ref ∉ ctxRefs ctx := by grind
  have hzy : z.ref ≠ y.ref := by grind
  have hzR : z.ref ∉ refs (plug ctx' X) := by grind
  have hLR : ∀ x ∈ refs L, x ∉ refs (plug ctx' X) := by grind
  have hKR : ∀ x ∈ ctxRefs ctx, x ∉ refs (plug ctx' X) := by grind
  cases ctx' with
  | nil =>
      obtain ⟨hz, hL, hy, -, hXm⟩ := h.below
      rw [DmfServer.detachSuccessor, ends_field_bind hy, if_pos rfl]
      refine (hXm.assign_parent (hX rfl) hndR (some y.ref)).mono ?_
      rintro - s₁ ⟨hX₁, hroot₁, hoff₁⟩
      refine ⟨?_, ⟨_, (hoff₁ _ hzR).trans hz⟩, ?_, some z.ref, (hoff₁ _ hyR).trans hy, trivial, hX₁⟩
      · exact h.above.congr hroot₁ fun x hx => hoff₁ x (hKR x hx)
      · exact hL.congr fun x hx => hoff₁ x (hLR x hx)
  | cons f ctx' =>
      have h₁ : RbAt s (f :: ctx' ++ ⟨.right, cz, z, L⟩ :: ctx) (join .left cy nil y X) :=
        rbAt_right.mpr h
      have hy := h₁.get
      rw [DmfServer.detachSuccessor, ends_field_bind hy, mkNode_parent, List.cons_append, up,
        if_neg h.val_ne]
      refine Ends.bind (h₁.transplant.mono ?_)
      rintro - s₁ ⟨h₂, hy₁⟩
      have h₃ : RbAt s₁ ctx (node cz L z (plug (f :: ctx') X)) := rbAt_right.mp h₂
      obtain ⟨hz₁, hL₁, hR₁⟩ := h₃.below
      rw [ends_field_bind hz₁, ends_assign_bind (hy₁.trans hy)]
      have hR₂ : Holds (s₁.modify y.ref (Node.setChild .right (ptr (plug (f :: ctx') X)))).nodes
          (some z.ref) (plug (f :: ctx') X) :=
        hR₁.congr fun x hx => get_modify_of_ne (ne_of_mem_of_not_mem hx hyR)
      have hRn : plug ctx' (f.fill X) ≠ nil := plug_ne_nil f.fill_ne_nil
      refine (hR₂.assign_parent hRn hndR (some y.ref)).mono ?_
      rintro - s₃ ⟨hR₃, hroot₃, hoff₃⟩
      have hy₃ := (hoff₃ _ hyR).trans (get_modify_self (hy₁.trans hy))
      refine ⟨?_, ⟨_, (hoff₃ _ hzR).trans ((get_modify_of_ne hzy).trans hz₁)⟩, ?_, _, hy₃, trivial,
        hR₃⟩
      · refine h₃.above.congr hroot₃ fun x hx => (hoff₃ x (hKR x hx)).trans ?_
        exact get_modify_of_ne (ne_of_mem_of_not_mem hx hyK)
      · refine hL₁.congr fun x hx => (hoff₃ x (hLR x hx)).trans ?_
        exact get_modify_of_ne (ne_of_mem_of_not_mem hx hyL)

/-- **A node with a child missing is taken out.** -/
theorem RbAt.unlinkNode_one (h : RbAt s ctx (join d c nil a u)) :
    Ends (unlinkNode (some a.ref)) s fun res s' => res = (c, ptr u) ∧ RbAt s' ctx u ∧
      s'.nodes.get a.ref = s.nodes.get a.ref := by
  have hleft : ∀ {u : ColorTree Item}, RbAt s ctx (join .left c nil a u) →
      Ends (unlinkNode (some a.ref)) s fun res s' => res = (c, ptr u) ∧ RbAt s' ctx u ∧
        s'.nodes.get a.ref = s.nodes.get a.ref := by
    intro u h
    have ha := h.get
    rw [unlinkNode, ends_field_bind ha, ends_field_bind ha]
    show Ends (field Node.color (some a.ref) >>= _) _ _
    rw [ends_field_bind ha]
    refine Ends.bind (h.transplant.mono fun _ s' h' => ?_)
    exact ends_pure.mpr ⟨rfl, h'⟩
  cases d with
  | left => exact hleft h
  | right =>
      cases u with
      | nil => exact hleft h
      | node cu l b r =>
          have ha := h.get
          rw [unlinkNode, ends_field_bind ha, ends_field_bind ha]
          show Ends (field Node.color (some a.ref) >>= _) _ _
          rw [ends_field_bind ha]
          refine Ends.bind (h.transplant.mono fun _ s' h' => ?_)
          exact ends_pure.mpr ⟨rfl, h'⟩

/-- **A node with two children is taken out.** -/
theorem RbAt.unlinkNode_two (h : RbAt s ctx (node cz L z (plug ctx' (node cy nil y X))))
    (hL : L ≠ nil) (hX : ctx' = [] → X ≠ nil)
    (hmin : Returns (getMinimumNode (ptr (plug ctx' (node cy nil y X)))) s (some y.ref) s) :
    Ends (unlinkNode (some z.ref)) s fun res s' => res = (cy, ptr X) ∧
      RbAt s' (ctx' ++ ⟨.right, cz, y, L⟩ :: ctx) X ∧ ∃ n, s'.nodes.get z.ref = some n := by
  have hz := h.below.1
  have h₁ : RbAt s (ctx' ++ ⟨.right, cz, z, L⟩ :: ctx) (join .left cy nil y X) := rbAt_right.mpr h
  have hy := h₁.get
  have hR : plug ctx' (node cy nil y X) ≠ nil := plug_ne_nil nofun
  rw [unlinkNode, ends_field_bind hz, ends_field_bind hz, if_neg (ptr_eq_none.not.mpr hL),
    if_neg (ptr_eq_none.not.mpr hR), replaceBySuccessor, ends_field_bind hz, ends_bind_iff hmin,
    ends_field_bind hy, mkNode_color, ends_field_bind hy]
  refine Ends.bind ((h.detachSuccessor hX).mono ?_)
  rintro - s₁ ⟨habove, ⟨rz, hz₁⟩, hLm, q, hyR⟩
  refine Ends.bind ((habove.replaceNode hz₁ hLm hL hyR h.nodup_two).mono ?_)
  rintro - s₂ ⟨h₂, hz₂⟩
  exact ends_pure.mpr ⟨rfl, rbAt_right.mpr h₂, hz₂⟩

end DmfServer
