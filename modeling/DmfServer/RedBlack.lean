/-
DmfServer/RedBlack.lean

Red-black trees and their contexts, as a library.

A tree has data of any type at its nodes; `toList` is the data from left to
right.  A context is the way from a place in a tree up to the root: for each
node that is passed, the side the way comes from, and what is on the other
side.  `plug ctx t` puts `t` at that place.

What an algorithm does at a place is thereby separated from the rest of the
tree: the data around the place is `before ctx` and `after ctx`
(`toList_plug`), and whether the whole is red-black is a matter of the tree at
the place and of the context (`redBlack_plug`).

Most of it comes in two mirrored forms.  `join d` writes a node beginning with
its child on the side `d`.
-/
import Mathlib.Data.List.Basic
import Mathlib.Algebra.Group.Nat.Defs
import Mathlib.Data.Nat.Log
import Mathlib.Order.Lattice
import Mathlib.Tactic.Common

namespace Trees

inductive Color where
  | red
  | black
  deriving DecidableEq

/-- A side. -/
inductive Dir where
  | left
  | right
  deriving DecidableEq

def Dir.other : Dir → Dir
  | left => right
  | right => left

@[simp] theorem Dir.other_other (d : Dir) : d.other.other = d := by cases d <;> rfl

theorem Dir.eq_or_other (d d' : Dir) : d' = d ∨ d' = d.other := by
  cases d <;> cases d' <;> simp [other]

/-- A binary tree with a colour and a datum at each node. -/
inductive ColorTree (α : Type) where
  | nil
  | node (color : Color) (l : ColorTree α) (a : α) (r : ColorTree α)

variable {α : Type} {n m : Nat} {d : Dir} {c c' : Color} {a b : α} {t u v l r : ColorTree α}

namespace ColorTree

/-- A missing node counts as black. -/
def color : ColorTree α → Color
  | nil => .black
  | node c _ _ _ => c

/-- The data, in order. -/
def toList : ColorTree α → List α
  | nil => []
  | node _ l a r => l.toList ++ a :: r.toList

/-- The number of nodes on the longest way down. -/
def height : ColorTree α → Nat
  | nil => 0
  | node _ l _ r => max l.height r.height + 1

/-- A node with the child `t` on the side `d`, and `u` on the other. -/
def join (d : Dir) (c : Color) (t : ColorTree α) (a : α) (u : ColorTree α) : ColorTree α :=
  match d with
  | .left => node c t a u
  | .right => node c u a t

theorem join_other : join d.other c t a u = join d c u a t := by cases d <;> rfl

/-- Any node can be written from either side. -/
theorem join_turn (d d' : Dir) : ∃ t' u', join d c t a u = join d' c t' a u' := by
  rcases d'.eq_or_other d with rfl | rfl
  · exact ⟨t, u, rfl⟩
  · exact ⟨u, t, join_other⟩

@[simp] theorem color_join : (join d c t a u).color = c := by cases d <;> rfl

/-- A rotation keeps the order of the data. -/
theorem toList_rotate {c₁ c₂ c₃ c₄ : Color} :
    (join d c₁ (join d c₂ t a u) b v).toList = (join d c₃ t a (join d c₄ u b v)).toList := by
  cases d <;> simp [join, toList]

theorem toList_recolor : (join d c t a u).toList = (join d c' t a u).toList := by cases d <;> rfl

end ColorTree

open ColorTree

/-! ### Colours -/

/-- No red node has a red child. -/
def NoRedRed : ColorTree α → Prop
  | nil => True
  | node c l _ r => (c = .red → l.color = .black ∧ r.color = .black) ∧ NoRedRed l ∧ NoRedRed r

/-- The number of black nodes, for every path down to a missing child. -/
def blacks : ColorTree α → List Nat
  | nil => [0]
  | node .red l _ r => blacks l ++ blacks r
  | node .black l _ r => (blacks l ++ blacks r).map (· + 1)

/-- The red-black conditions. -/
structure RedBlack (t : ColorTree α) : Prop where
  root : t.color = .black
  noRedRed : NoRedRed t
  paths : ∀ i ∈ blacks t, ∀ j ∈ blacks t, i = j

/-- No red node has a red child, and the black height is `n`. -/
inductive Balanced : Nat → ColorTree α → Prop
  | nil : Balanced 0 nil
  | red {n : Nat} {l r : ColorTree α} {a : α} (hl : Balanced n l) (hr : Balanced n r)
      (hlb : l.color = .black) (hrb : r.color = .black) : Balanced n (node .red l a r)
  | black {n : Nat} {l r : ColorTree α} {a : α} (hl : Balanced n l) (hr : Balanced n r) :
      Balanced (n + 1) (node .black l a r)

theorem blacks_ne_nil : ∀ t : ColorTree α, blacks t ≠ []
  | nil => List.cons_ne_nil _ _
  | node .red l _ r => List.append_ne_nil_of_left_ne_nil (blacks_ne_nil l) _
  | node .black l _ r => by
      rw [blacks, ne_eq, List.map_eq_nil_iff]
      exact List.append_ne_nil_of_left_ne_nil (blacks_ne_nil l) _

theorem balanced_iff : Balanced n t ↔ NoRedRed t ∧ ∀ i ∈ blacks t, i = n := by
  constructor
  · intro h
    induction h with
    | nil => simp [NoRedRed, blacks]
    | red hl hr hlb hrb ihl ihr =>
        refine ⟨⟨fun _ => ⟨hlb, hrb⟩, ihl.1, ihr.1⟩, fun i hi => ?_⟩
        exact (List.mem_append.mp hi).elim (ihl.2 i) (ihr.2 i)
    | black hl hr ihl ihr =>
        refine ⟨⟨nofun, ihl.1, ihr.1⟩, fun i hi => ?_⟩
        obtain ⟨j, hj, rfl⟩ := List.mem_map.mp hi
        rw [(List.mem_append.mp hj).elim (ihl.2 j) (ihr.2 j)]
  · rintro ⟨hred, hn⟩
    induction t generalizing n with
    | nil =>
        obtain rfl := hn 0 (List.mem_singleton.mpr rfl)
        exact .nil
    | node c l a r ihl ihr =>
        obtain ⟨hc, hl, hr⟩ := hred
        cases c with
        | red =>
            obtain ⟨hlb, hrb⟩ := hc rfl
            exact .red (ihl hl fun i hi => hn i (List.mem_append_left _ hi))
              (ihr hr fun i hi => hn i (List.mem_append_right _ hi)) hlb hrb
        | black =>
            have hmap : ∀ i ∈ blacks l ++ blacks r, i + 1 = n := fun i hi =>
              hn (i + 1) (List.mem_map_of_mem hi)
            obtain ⟨i, hi⟩ := List.exists_mem_of_ne_nil _ (blacks_ne_nil l)
            obtain rfl := hmap i (List.mem_append_left _ hi)
            exact .black
              (ihl hl fun j hj => Nat.succ.inj (hmap j (List.mem_append_left _ hj)))
              (ihr hr fun j hj => Nat.succ.inj (hmap j (List.mem_append_right _ hj)))

theorem redBlack_iff : RedBlack t ↔ t.color = .black ∧ ∃ n, Balanced n t := by
  simp only [balanced_iff]
  constructor
  · rintro ⟨hroot, hred, hpaths⟩
    obtain ⟨n, hn⟩ := List.exists_mem_of_ne_nil _ (blacks_ne_nil t)
    exact ⟨hroot, n, hred, fun i hi => hpaths i hi n hn⟩
  · rintro ⟨hroot, n, hred, hn⟩
    exact ⟨hroot, hred, fun i hi j hj => (hn i hi).trans (hn j hj).symm⟩

theorem balanced_join_red : Balanced n (join d .red t a u) ↔
    Balanced n t ∧ Balanced n u ∧ t.color = .black ∧ u.color = .black := by
  cases d
  · constructor
    · rintro (_ | ⟨hl, hr, hlb, hrb⟩ | _)
      exact ⟨hl, hr, hlb, hrb⟩
    · rintro ⟨hl, hr, hlb, hrb⟩
      exact .red hl hr hlb hrb
  · constructor
    · rintro (_ | ⟨hl, hr, hlb, hrb⟩ | _)
      exact ⟨hr, hl, hrb, hlb⟩
    · rintro ⟨hl, hr, hlb, hrb⟩
      exact .red hr hl hrb hlb

theorem balanced_join_black : Balanced (n + 1) (join d .black t a u) ↔
    Balanced n t ∧ Balanced n u := by
  cases d
  · constructor
    · rintro (_ | _ | ⟨hl, hr⟩)
      exact ⟨hl, hr⟩
    · rintro ⟨hl, hr⟩
      exact .black hl hr
  · constructor
    · rintro (_ | _ | ⟨hl, hr⟩)
      exact ⟨hr, hl⟩
    · rintro ⟨hl, hr⟩
      exact .black hr hl

theorem Balanced.height_of_black (h : Balanced n (join d .black t a u)) : ∃ m, n = m + 1 := by
  cases d <;> cases h <;> exact ⟨_, rfl⟩

/-- Beside a missing child there is at most a red leaf, below a black node. -/
theorem Balanced.beside_nil (h : Balanced n (join d c .nil a t)) :
    (c = .red ∧ t = .nil ∧ n = 0) ∨
      (c = .black ∧ (t = .nil ∨ ∃ b, t = node .red .nil b .nil) ∧ n = 1) := by
  have hleaf : ∀ {t : ColorTree α}, Balanced 0 t → t.color = .black → t = .nil := by
    rintro t ht hc
    cases ht with
    | nil => rfl
    | red => cases hc
  cases c with
  | red =>
      obtain ⟨hnil, ht, -, hc⟩ := balanced_join_red.mp h
      cases hnil
      exact .inl ⟨rfl, hleaf ht hc, rfl⟩
  | black =>
      obtain ⟨m, rfl⟩ := h.height_of_black
      obtain ⟨hnil, ht⟩ := balanced_join_black.mp h
      cases hnil
      refine .inr ⟨rfl, ?_, rfl⟩
      cases ht with
      | nil => exact .inl rfl
      | red hl hr hlb hrb => exact .inr ⟨_, by rw [hleaf hl hlb, hleaf hr hrb]⟩

/-! ### Height -/

/-- On a way down, at least every second node is black. -/
theorem Balanced.height_le (h : Balanced n t) :
    t.height ≤ 2 * n + if t.color = .red then 1 else 0 := by
  induction h with
  | nil => exact Nat.zero_le _
  | red hl hr hlb hrb ihl ihr =>
      rw [hlb, if_neg (by decide)] at ihl
      rw [hrb, if_neg (by decide)] at ihr
      rw [height, color, if_pos rfl]
      omega
  | black hl hr ihl ihr =>
      rw [height, color, if_neg (by decide)]
      split_ifs at ihl ihr <;> omega

/-- Every way down passes `n` black nodes, so there are many nodes. -/
theorem Balanced.pow_le (h : Balanced n t) : 2 ^ n ≤ t.toList.length + 1 := by
  induction h with
  | nil => exact Nat.le_refl 1
  | red hl hr hlb hrb ihl ihr =>
      rw [toList, List.length_append, List.length_cons]
      omega
  | black hl hr ihl ihr =>
      rw [toList, List.length_append, List.length_cons, Nat.pow_succ]
      omega

/-- **The height of a red-black tree** is logarithmic in the number of nodes. -/
theorem RedBlack.height_le (h : RedBlack t) : t.height ≤ 2 * Nat.log 2 (t.toList.length + 1) := by
  obtain ⟨hroot, n, hn⟩ := redBlack_iff.mp h
  have hle := hn.height_le
  rw [hroot, if_neg (by decide), Nat.add_zero] at hle
  have hlog : n ≤ Nat.log 2 (t.toList.length + 1) :=
    Nat.le_log_of_pow_le (by decide) hn.pow_le
  omega

/-! ### Contexts -/

/-- A node on the way up: the side the way comes from, and what is on the other
side. -/
structure Frame (α : Type) where
  dir : Dir
  color : Color
  val : α
  sib : ColorTree α

variable {f : Frame α} {ctx ctx₁ ctx₂ : List (Frame α)}

def Frame.fill (f : Frame α) (t : ColorTree α) : ColorTree α := join f.dir f.color t f.val f.sib

/-- `t` in the place that `ctx` leads to. -/
def plug : List (Frame α) → ColorTree α → ColorTree α
  | [], t => t
  | f :: ctx, t => plug ctx (f.fill t)

theorem plug_append : plug (ctx₁ ++ ctx₂) t = plug ctx₂ (plug ctx₁ t) := by
  induction ctx₁ generalizing t with
  | nil => rfl
  | cons f ctx₁ ih => exact ih

theorem Frame.fill_ne_nil (f : Frame α) : f.fill t ≠ nil := by
  obtain ⟨d, c, a, u⟩ := f
  cases d <;> exact nofun

theorem plug_ne_nil (h : t ≠ nil) : plug ctx t ≠ nil := by
  induction ctx generalizing t with
  | nil => exact h
  | cons f ctx ih => exact ih f.fill_ne_nil

theorem plug_cons_eq_join : ∃ d c t' b u', plug (f :: ctx) t = join d c t' b u' := by
  induction ctx generalizing f t with
  | nil => exact ⟨_, _, _, _, _, rfl⟩
  | cons g ctx ih => exact ih

def Frame.before (f : Frame α) : List α :=
  match f.dir with
  | .left => []
  | .right => f.sib.toList ++ [f.val]

def Frame.after (f : Frame α) : List α :=
  match f.dir with
  | .left => f.val :: f.sib.toList
  | .right => []

theorem Frame.toList_fill : (f.fill t).toList = f.before ++ (t.toList ++ f.after) := by
  obtain ⟨d, c, a, u⟩ := f
  cases d <;> simp [fill, join, toList, before, after]

/-- The data to the left of the place. -/
def before : List (Frame α) → List α
  | [] => []
  | f :: ctx => before ctx ++ f.before

/-- The data to the right of the place. -/
def after : List (Frame α) → List α
  | [] => []
  | f :: ctx => f.after ++ after ctx

theorem toList_plug : (plug ctx t).toList = before ctx ++ (t.toList ++ after ctx) := by
  induction ctx generalizing t with
  | nil => simp [plug, before, after]
  | cons f ctx ih => simp [plug, ih, Frame.toList_fill, before, after]

theorem toList_plug_congr (h : t.toList = u.toList) :
    (plug ctx t).toList = (plug ctx u).toList := by
  rw [toList_plug, toList_plug, h]

theorem before_append : before (ctx₁ ++ ctx₂) = before ctx₂ ++ before ctx₁ := by
  induction ctx₁ with
  | nil => simp [before]
  | cons f ctx₁ ih => simp [before, ih]

theorem after_append : after (ctx₁ ++ ctx₂) = after ctx₁ ++ after ctx₂ := by
  induction ctx₁ with
  | nil => simp [after]
  | cons f ctx₁ ih => simp [after, ih]

/-- The colour above the place.  Above the root it is red, for the root is to be
black. -/
def topColor : List (Frame α) → Color
  | [] => .red
  | f :: _ => f.color

/-- A tree of the black height `n` fits into the place. -/
inductive Fits : Nat → List (Frame α) → Prop
  | nil {n : Nat} : Fits n []
  | red {n : Nat} {d : Dir} {a : α} {u : ColorTree α} {ctx : List (Frame α)} (hu : Balanced n u)
      (hub : u.color = .black) (htop : topColor ctx = .black) (hctx : Fits n ctx) :
      Fits n (⟨d, .red, a, u⟩ :: ctx)
  | black {n : Nat} {d : Dir} {a : α} {u : ColorTree α} {ctx : List (Frame α)} (hu : Balanced n u)
      (hctx : Fits (n + 1) ctx) : Fits n (⟨d, .black, a, u⟩ :: ctx)

/-- **Local reasoning.**  The whole is red-black when the tree fits, and is not
red below red. -/
theorem redBlack_plug : RedBlack (plug ctx t) ↔
    ∃ n, Fits n ctx ∧ Balanced n t ∧ (t.color = .black ∨ topColor ctx = .black) := by
  induction ctx generalizing t with
  | nil =>
      rw [plug, redBlack_iff]
      constructor
      · rintro ⟨hroot, n, hn⟩
        exact ⟨n, .nil, hn, .inl hroot⟩
      · rintro ⟨n, -, hn, hroot | hroot⟩
        · exact ⟨hroot, n, hn⟩
        · cases hroot
  | cons f ctx ih =>
      obtain ⟨d, c, a, u⟩ := f
      rw [plug, ih, Frame.fill]
      constructor
      · rintro ⟨n, hctx, hn, hc⟩
        cases c with
        | red =>
            obtain ⟨ht, hu, htb, hub⟩ := balanced_join_red.mp hn
            rw [color_join] at hc
            exact ⟨n, .red hu hub (hc.resolve_left nofun) hctx, ht, .inl htb⟩
        | black =>
            obtain ⟨m, rfl⟩ := hn.height_of_black
            obtain ⟨ht, hu⟩ := balanced_join_black.mp hn
            exact ⟨m, .black hu hctx, ht, .inr rfl⟩
      · rintro ⟨n, hctx, hn, hc⟩
        cases hctx with
        | red hu hub htop hctx =>
            exact ⟨n, hctx, balanced_join_red.mpr ⟨hn, hu, hc.resolve_right nofun, hub⟩, .inr htop⟩
        | black hu hctx =>
            exact ⟨n + 1, hctx, balanced_join_black.mpr ⟨hn, hu⟩, .inl color_join⟩

/-- What is at the nodes of the context does not matter. -/
theorem Fits.setVal {n : Nat} (h : Fits n (ctx₁ ++ ⟨d, c, a, u⟩ :: ctx₂)) :
    Fits n (ctx₁ ++ ⟨d, c, b, u⟩ :: ctx₂) := by
  induction ctx₁ generalizing n with
  | nil =>
      cases h with
      | red hu hub htop hctx => exact .red hu hub htop hctx
      | black hu hctx => exact .black hu hctx
  | cons f ctx₁ ih =>
      have htop : topColor (ctx₁ ++ ⟨d, c, a, u⟩ :: ctx₂) =
          topColor (ctx₁ ++ ⟨d, c, b, u⟩ :: ctx₂) := by
        cases ctx₁ <;> rfl
      cases h with
      | red hu hub hb hctx => exact .red hu hub (htop.symm.trans hb) (ih hctx)
      | black hu hctx => exact .black hu (ih hctx)

/-! ### Order -/

section order

variable {κ : Type} [LinearOrder κ] {key : α → κ} {k : κ}

/-- The keys do not decrease from left to right. -/
def Sorted (key : α → κ) (t : ColorTree α) : Prop := t.toList.Pairwise fun a b => key a ≤ key b

theorem Sorted.of_plug (h : Sorted key (plug ctx t)) : Sorted key t := by
  rw [Sorted, toList_plug, List.pairwise_append, List.pairwise_append] at h
  exact h.2.1.1

theorem Sorted.le_node (h : Sorted key (node c l a r)) :
    (∀ b ∈ l.toList, key b ≤ key a) ∧ ∀ b ∈ r.toList, key a ≤ key b := by
  rw [Sorted, toList, List.pairwise_append, List.pairwise_cons] at h
  exact ⟨fun b hb => h.2.2 b hb a List.mem_cons_self, h.2.1.1⟩

/-- Equal keys may be on both sides of a node, but smaller ones are not on the
right. -/
theorem Sorted.mem_left (h : Sorted key (node c l a r)) (hk : k < key a) :
    (∃ b ∈ (node c l a r).toList, key b = k) ↔ ∃ b ∈ l.toList, key b = k := by
  rw [toList]
  constructor
  · rintro ⟨b, hb, rfl⟩
    rcases List.mem_append.mp hb with hb | hb
    · exact ⟨b, hb, rfl⟩
    · rcases List.mem_cons.mp hb with rfl | hb
      · exact absurd hk (lt_irrefl _)
      · exact absurd hk (not_lt_of_ge (h.le_node.2 b hb))
  · rintro ⟨b, hb, rfl⟩
    exact ⟨b, List.mem_append_left _ hb, rfl⟩

theorem Sorted.mem_right (h : Sorted key (node c l a r)) (hk : key a < k) :
    (∃ b ∈ (node c l a r).toList, key b = k) ↔ ∃ b ∈ r.toList, key b = k := by
  rw [toList]
  constructor
  · rintro ⟨b, hb, rfl⟩
    rcases List.mem_append.mp hb with hb | hb
    · exact absurd hk (not_lt_of_ge (h.le_node.1 b hb))
    · rcases List.mem_cons.mp hb with rfl | hb
      · exact absurd hk (lt_irrefl _)
      · exact ⟨b, hb, rfl⟩
  · rintro ⟨b, hb, rfl⟩
    exact ⟨b, List.mem_append_right _ (List.mem_cons_of_mem _ hb), rfl⟩

/-- The way that the search for a place for `k` takes: to the left just at the
greater keys. -/
def Leads (key : α → κ) (k : κ) (ctx : List (Frame α)) : Prop :=
  ∀ f ∈ ctx, f.dir = .left ↔ k < key f.val

theorem Leads.before_le (hk : Leads key k ctx) (h : Sorted key (plug ctx t)) :
    ∀ b ∈ before ctx, key b ≤ k := by
  induction ctx generalizing t with
  | nil => exact fun b hb => absurd hb List.not_mem_nil
  | cons f ctx ih =>
      intro b hb
      obtain ⟨hf, hk⟩ := List.forall_mem_cons.mp hk
      rcases List.mem_append.mp hb with hb | hb
      · exact ih hk h b hb
      · obtain ⟨d, c, a, u⟩ := f
        cases d with
        | left => exact absurd hb List.not_mem_nil
        | right =>
            have ha : key a ≤ k := not_lt.mp (hf.not.mp nofun)
            have hnode : Sorted key (node c u a t) :=
              Sorted.of_plug (show Sorted key (plug ctx _) from h)
            rcases List.mem_append.mp hb with hb | hb
            · exact le_trans (hnode.le_node.1 b hb) ha
            · rw [List.mem_singleton.mp hb]
              exact ha

theorem Leads.le_after (hk : Leads key k ctx) (h : Sorted key (plug ctx t)) :
    ∀ b ∈ after ctx, k ≤ key b := by
  induction ctx generalizing t with
  | nil => exact fun b hb => absurd hb List.not_mem_nil
  | cons f ctx ih =>
      intro b hb
      obtain ⟨hf, hk⟩ := List.forall_mem_cons.mp hk
      rcases List.mem_append.mp hb with hb | hb
      · obtain ⟨d, c, a, u⟩ := f
        cases d with
        | left =>
            have ha : k ≤ key a := le_of_lt (hf.mp rfl)
            have hnode : Sorted key (node c t a u) :=
              Sorted.of_plug (show Sorted key (plug ctx _) from h)
            rcases List.mem_cons.mp hb with rfl | hb
            · exact ha
            · exact le_trans ha (hnode.le_node.2 b hb)
        | right => exact absurd hb List.not_mem_nil
      · exact ih hk h b hb

/-- A datum is put where the search for its place ends. -/
theorem Sorted.insert (h : Sorted key (plug ctx nil)) (hk : Leads key (key a) ctx) :
    Sorted key (plug ctx (node c nil a nil)) := by
  have hb := hk.before_le h
  have ha := hk.le_after h
  rw [Sorted, toList_plug, List.pairwise_append] at h ⊢
  refine ⟨h.1, List.pairwise_cons.mpr ⟨ha, h.2.1⟩, fun x hx y hy => ?_⟩
  rcases List.mem_cons.mp hy with rfl | hy
  · exact hb x hx
  · exact h.2.2 x hx y hy

end order

end Trees
