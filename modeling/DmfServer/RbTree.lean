/-
DmfServer/RbTree.lean

The red-black tree of `test/rbtree.c`, at pointer level.

A missing child is a null pointer, and there is no sentinel.  `*root` and the
nodes are the state; `malloc` does not give out an address twice, so a pointer
to a node that was released faults.

Most of the source is written twice, for the left and for the right.  Here it
is written once, for a side `d`: `leftRotate` is `rotate .left`, and a branch
for a parent that is a left child is `fixInsertSide .left`.  Only the tests
"is it the left child" are not mirrored in the source, and are not here.
-/
import DmfServer.Prog
import DmfServer.Table
import DmfServer.RedBlack

namespace DmfServer

open Imperative Imperative.Prog Trees

/-- The address of a node. -/
abbrev Ref : Type := Nat

/-- `struct Node`. -/
structure Node where
  key : Int
  color : Color
  left : Option Ref
  right : Option Ref
  parent : Option Ref

/-- `*root`, and the nodes. -/
structure RbMem where
  root : Option Ref
  nodes : Table Node

namespace Node

def child (d : Dir) (x : Node) : Option Ref :=
  match d with
  | .left => x.left
  | .right => x.right

def setChild (d : Dir) (v : Option Ref) (x : Node) : Node :=
  match d with
  | .left => { x with left := v }
  | .right => { x with right := v }

@[simps] def setParent (v : Option Ref) (x : Node) : Node := { x with parent := v }

@[simps] def setColor (c : Color) (x : Node) : Node := { x with color := c }

end Node

namespace RbMem

@[simps] def setRoot (v : Option Ref) (s : RbMem) : RbMem := { s with root := v }

@[simps] def modify (x : Ref) (f : Node → Node) (s : RbMem) : RbMem :=
  { s with nodes := s.nodes.modify x f }

@[simps] def newNode (x : Node) (s : RbMem) : RbMem := { s with nodes := s.nodes.push x }

@[simps] def freeNode (x : Ref) (s : RbMem) : RbMem := { s with nodes := s.nodes.erase x }

end RbMem

open RbMem

variable {α β : Type}

/-- A field of `*x`. -/
def field (f : Node → α) (x : Option Ref) : Prog RbMem α := do
  let x ← deref x
  let node ← deref ((← load nodes).get x)
  pure (f node)

/-- An assignment to a field of `*x`. -/
def assign (f : Node → Node) (x : Option Ref) : Prog RbMem Unit := do
  let x ← deref x
  let _ ← deref ((← load nodes).get x)
  store (modify x f)

/-- `x != NULL && x->color == RED`. -/
def isRed (x : Option Ref) : Prog RbMem Bool :=
  if x = none then pure false
  else do
    let c ← field Node.color x
    pure (c = .red)

/-- `if (v != NULL) v->parent = p`. -/
def reparent (v p : Option Ref) : Prog RbMem Unit :=
  if v = none then pure () else assign (Node.setParent p) v

/-- `if (v != NULL) v->color = BLACK`. -/
def blacken (v : Option Ref) : Prog RbMem Unit :=
  if v = none then pure () else assign (Node.setColor .black) v

/-- Below `p`, or at the root, `v` takes the place of `u`. -/
def relink (p u v : Option Ref) : Prog RbMem Unit :=
  if p = none then store (setRoot v)
  else do
    let l ← field Node.left p
    if u = l then assign (Node.setChild .left v) p else assign (Node.setChild .right v) p

/-! ### Rotations -/

/-- `x` goes down on the side `d`, and its other child comes up. -/
def rotate (d : Dir) (x : Option Ref) : Prog RbMem Unit := do
  let y ← field (Node.child d.other) x
  let c ← field (Node.child d) y
  assign (Node.setChild d.other c) x
  reparent c x
  let p ← field Node.parent x
  assign (Node.setParent p) y
  relink p x y
  assign (Node.setChild d x) y
  assign (Node.setParent y) x

/-- `leftRotate`. -/
def leftRotate (x : Option Ref) : Prog RbMem Unit := rotate .left x

/-- `rightRotate`. -/
def rightRotate (y : Option Ref) : Prog RbMem Unit := rotate .right y

/-! ### Insertion -/

/-- `createNode`. -/
def createNode (key : Int) : Prog RbMem Ref :=
  call fun s => (s.nodes.bound, s.newNode ⟨key, .red, none, none, none⟩)

/-- The turn of `fixInsert` from `if (z == z->parent->right)` on: the uncle of
`z` is not red. -/
def fixInsertRotate (d : Dir) (z : Option Ref) : Prog RbMem Unit := do
  let p ← field Node.parent z
  assign (Node.setColor .black) p
  let g ← field Node.parent p
  assign (Node.setColor .red) g
  rotate d.other g

/-- A turn of `fixInsert` where the parent of `z` is a child on the side `d`;
it answers the next `z`. -/
def fixInsertSide (d : Dir) (z : Option Ref) : Prog RbMem (Option Ref) := do
  let p ← field Node.parent z
  let g ← field Node.parent p
  let y ← field (Node.child d.other) g
  if ← isRed y then do
    assign (Node.setColor .black) p
    assign (Node.setColor .black) y
    assign (Node.setColor .red) g
    pure g
  else do
    let c ← field (Node.child d.other) p
    if z = c then do
      rotate d p
      fixInsertRotate d p
      pure p
    else do
      fixInsertRotate d z
      pure z

/-- A turn of `fixInsert`. -/
def fixInsertTurn (z : Option Ref) : Prog RbMem (Option Ref ⊕ Unit) := do
  if z = (← load root) then pure (Sum.inr ())
  else do
    let p ← field Node.parent z
    if (← field Node.color p) = .red then do
      let g ← field Node.parent p
      let z ← if p = (← field Node.left g) then fixInsertSide .left z else fixInsertSide .right z
      pure (Sum.inl z)
    else pure (Sum.inr ())

/-- `fixInsert`. -/
def fixInsert (z : Option Ref) : Prog RbMem Unit := do
  loop fixInsertTurn z
  assign (Node.setColor .black) (← load root)

/-- A turn of the search of `insertNode` for the place of `z`: at `x`, with `y`
above it. -/
def insertTurn (z : Ref) : Option Ref × Option Ref →
    Prog RbMem ((Option Ref × Option Ref) ⊕ Option Ref)
  | (y, none) => pure (Sum.inr y)
  | (_, some x) => do
      if (← field Node.key (some z)) < (← field Node.key (some x)) then do
        let l ← field Node.left (some x)
        pure (Sum.inl (some x, l))
      else do
        let r ← field Node.right (some x)
        pure (Sum.inl (some x, r))

/-- `insertNode` puts `z` below `y`. -/
def attach (y : Option Ref) (z : Ref) : Prog RbMem Unit :=
  if y = none then store (setRoot (some z))
  else do
    if (← field Node.key (some z)) < (← field Node.key y) then
      assign (Node.setChild .left (some z)) y
    else assign (Node.setChild .right (some z)) y

/-- `insertNode`. -/
def insertNode (key : Int) : Prog RbMem Unit := do
  let z ← createNode key
  let y ← loop (insertTurn z) (none, ← load root)
  assign (Node.setParent y) (some z)
  attach y z
  fixInsert (some z)

/-! ### Reading -/

/-- `inorderTraversal`: it answers what is printed.  A call costs one unit of
fuel. -/
def inorderFrom : Nat → Option Ref → Prog RbMem (List Int)
  | 0, _ => fun _ _ => .timeout
  | _ + 1, none => pure []
  | n + 1, some x => do
      let l ← inorderFrom n (← field Node.left (some x))
      let key ← field Node.key (some x)
      let r ← inorderFrom n (← field Node.right (some x))
      pure (l ++ key :: r)

/-- `inorderTraversal`. -/
def inorderTraversal (root : Option Ref) : Prog RbMem (List Int) := fun s n =>
  inorderFrom n root s n

/-- A call of `searchNode`; it calls itself last. -/
def searchTurn (key : Int) : Option Ref → Prog RbMem (Option Ref ⊕ Option Ref)
  | none => pure (Sum.inr none)
  | some x => do
      let k ← field Node.key (some x)
      if k = key then pure (Sum.inr (some x))
      else if key < k then do
        let l ← field Node.left (some x)
        pure (Sum.inl l)
      else do
        let r ← field Node.right (some x)
        pure (Sum.inl r)

/-- `searchNode`. -/
def searchNode (root : Option Ref) (key : Int) : Prog RbMem (Option Ref) :=
  loop (searchTurn key) root

/-- A turn of `getMinimumNode`. -/
def minimumTurn (node : Option Ref) : Prog RbMem (Option Ref ⊕ Option Ref) := do
  let l ← field Node.left node
  if l = none then pure (Sum.inr node) else pure (Sum.inl l)

/-- `getMinimumNode`. -/
def getMinimumNode (node : Option Ref) : Prog RbMem (Option Ref) := loop minimumTurn node

/-! ### Deletion -/

/-- `transplant`. -/
def transplant (u v : Option Ref) : Prog RbMem Unit := do
  let p ← field Node.parent u
  relink p u v
  reparent v p

/-- `w` in `fixDelete`, after it was made black if it was red. -/
def siblingOf (d : Dir) (x : Option Ref) : Prog RbMem (Option Ref) := do
  let p ← field Node.parent x
  let w ← field (Node.child d.other) p
  if ← isRed w then do
    assign (Node.setColor .black) w
    assign (Node.setColor .red) p
    rotate d p
    let p ← field Node.parent x
    field (Node.child d.other) p
  else pure w

/-- `w` in `fixDelete`, after its child on the side away from `x` was made red
if it was black. -/
def siblingRotate (d : Dir) (x w : Option Ref) : Prog RbMem (Option Ref) := do
  let c ← field (Node.child d.other) w
  if ← isRed c then pure w
  else do
    let c ← field (Node.child d) w
    blacken c
    assign (Node.setColor .red) w
    rotate d.other w
    let p ← field Node.parent x
    field (Node.child d.other) p

/-- A turn of `fixDelete` where `x` is a child on the side `d`; it answers the
next `x`. -/
def fixDeleteSide (d : Dir) (x : Option Ref) : Prog RbMem (Option Ref) := do
  let w ← siblingOf d x
  let l ← field (Node.child d) w
  let red ← if ← isRed l then pure true else do
    let r ← field (Node.child d.other) w
    isRed r
  if !red then do
    assign (Node.setColor .red) w
    field Node.parent x
  else do
    let w ← siblingRotate d x w
    let p ← field Node.parent x
    let c ← field Node.color p
    assign (Node.setColor c) w
    assign (Node.setColor .black) p
    let r ← field (Node.child d.other) w
    blacken r
    rotate d p
    load root

/-- A turn of `fixDelete`. -/
def fixDeleteTurn (x : Option Ref) : Prog RbMem (Option Ref ⊕ Option Ref) := do
  if x = (← load root) then pure (Sum.inr x)
  else if ← isRed x then pure (Sum.inr x)
  else do
    let p ← field Node.parent x
    let x ← if x = (← field Node.left p) then fixDeleteSide .left x else fixDeleteSide .right x
    pure (Sum.inl x)

/-- `fixDelete`. -/
def fixDelete (x : Option Ref) : Prog RbMem Unit := do
  let x ← loop fixDeleteTurn x
  blacken x

/-- `y`, the successor of `z`, leaves its place to its child `x`, unless it is a
child of `z`. -/
def detachSuccessor (z y x : Option Ref) : Prog RbMem Unit := do
  let p ← field Node.parent y
  if p = z then assign (Node.setParent y) x
  else do
    transplant y x
    let r ← field Node.right z
    assign (Node.setChild .right r) y
    assign (Node.setParent y) r

/-- `y` takes the place of `z`. -/
def replaceNode (z y : Option Ref) : Prog RbMem Unit := do
  transplant z y
  let l ← field Node.left z
  assign (Node.setChild .left l) y
  assign (Node.setParent y) l
  let c ← field Node.color z
  assign (Node.setColor c) y

/-- `deleteNode`, where `z` has two children.  It answers `yOriginalColor` and
`x`. -/
def replaceBySuccessor (z : Option Ref) : Prog RbMem (Color × Option Ref) := do
  let y ← getMinimumNode (← field Node.right z)
  let c ← field Node.color y
  let x ← field Node.right y
  detachSuccessor z y x
  replaceNode z y
  pure (c, x)

/-- `deleteNode` up to `fixDelete`: `z` is taken out. -/
def unlinkNode (z : Option Ref) : Prog RbMem (Color × Option Ref) := do
  let l ← field Node.left z
  let r ← field Node.right z
  if l = none then do
    let c ← field Node.color z
    transplant z r
    pure (c, r)
  else if r = none then do
    let c ← field Node.color z
    transplant z l
    pure (c, l)
  else replaceBySuccessor z

/-- `free`. -/
def free (x : Option Ref) : Prog RbMem Unit := do
  let x ← deref x
  let _ ← deref ((← load nodes).get x)
  store (freeNode x)

/-- `deleteNode`. -/
def deleteNode (key : Int) : Prog RbMem Unit := do
  let z ← searchNode (← load root) key
  if z = none then pure ()
  else do
    let (c, x) ← unlinkNode z
    if c = .black then do
      fixDelete x
      free z
    else free z

end DmfServer
