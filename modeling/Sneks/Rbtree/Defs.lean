import Sneks.Lib.RedBlack

/-!
# Red-black trees in memory

`lib/rbtree.c` and `sneks/rbtree.h`. A node is at an address of type `α`, and a dereference of `NULL` has
no result. The halves of the source that mirror each other take the side as an argument. Loops are given
so many turns.
-/

namespace Sneks.Rbtree
open Lib

variable {α : Type*} [DecidableEq α]

/-- `struct rb_node`. The parent and the colour share a word. -/
structure RbNode (α : Type*) where
  parent : Option α
  black : Bool
  right : Option α
  left : Option α

namespace RbNode
variable (n : RbNode α)

def child : Side → Option α
  | .left => n.left
  | .right => n.right

def setChild : Side → Option α → RbNode α
  | .left, p => { n with left := p }
  | .right, p => { n with right := p }

/-- `rb_set_parent`. -/
def setParent (p : Option α) : RbNode α := { n with parent := p }

/-- `rb_set_color`, `rb_set_black` and `rb_set_red`. -/
def setBlack (c : Bool) : RbNode α := { n with black := c }

end RbNode

/-- The nodes in memory, and a `struct rb_root`. -/
structure Store (α : Type*) where
  node : α → RbNode α
  root : Option α

namespace Store
variable (s : Store α)

def set (a : α) (n : RbNode α) : Store α := { s with node := Function.update s.node a n }

def setChild (a : α) (d : Side) (p : Option α) : Store α := s.set a ((s.node a).setChild d p)

def setParent (a : α) (p : Option α) : Store α := s.set a ((s.node a).setParent p)

def setBlack (a : α) (c : Bool) : Store α := s.set a ((s.node a).setBlack c)

/-- `if(p) rb_set_parent(p, parent)`. -/
def adopt (p parent : Option α) : Store α :=
  match p with
  | some a => s.setParent a parent
  | none => s

/-- `if(p) rb_set_black(p)`. -/
def blacken (p : Option α) : Store α :=
  match p with
  | some a => s.setBlack a true
  | none => s

/-- `!p || rb_is_black(p)`. -/
def blackAt (p : Option α) : Bool := p.all fun a => (s.node a).black

/-- What points to `old` is made to point to `new`. The child on the side `d` is looked at. -/
def relink (d : Side) (parent : Option α) (old : α) (new : Option α) : Store α :=
  match parent with
  | some p => s.setChild p (if (s.node p).child d = some old then d else d.other) new
  | none => { s with root := new }

/-- `__rb_rotate_left`, and `__rb_rotate_right` for the other side. -/
def rotate (d : Side) (node : α) : Option (Store α) := do
  let up ← (s.node node).child d.other
  let parent := (s.node node).parent
  let inner := (s.node up).child d
  let s := (s.setChild node d.other inner).adopt inner (some node)
  let s := (s.setChild up d (some node)).setParent up parent
  return (s.relink d parent node (some up)).setParent node (some up)

/-- Where `parent` has `node` on the far side they change places. The pair is the new `parent` and `node`. -/
def straighten (d : Side) (parent node : α) : Option (Store α × α × α) :=
  if (s.node parent).child d.other = some node then (s.rotate d parent).map (·, node, parent) else some (s, parent, node)

/-- The loop of `__rb_insert_color`. -/
def insertLoop : ℕ → Store α → α → Option (Store α)
  | 0, _, _ => none
  | turns + 1, s, node =>
    match (s.node node).parent with
    | none => some s
    | some parent =>
      if (s.node parent).black then some s
      else do
        let gparent ← (s.node parent).parent
        let d := if (s.node gparent).left = some parent then Side.left else Side.right
        let uncle := (s.node gparent).child d.other
        if s.blackAt uncle then
          let (s, parent, node) ← s.straighten d parent node
          let s ← ((s.setBlack parent true).setBlack gparent false).rotate d.other gparent
          insertLoop turns s node
        else insertLoop turns (((s.blacken uncle).setBlack parent true).setBlack gparent false) gparent

/-- `__rb_insert_color`. -/
def insertColor (turns : ℕ) (node : α) : Option (Store α) := do
  let s ← insertLoop turns s node
  return s.setBlack (← s.root) true

/-- A red `other` is raised over `parent`. -/
def raiseRed (d : Side) (parent other : α) : Option (Store α × α) :=
  if (s.node other).black then some (s, other)
  else do
    let s ← ((s.setBlack other true).setBlack parent false).rotate d parent
    return (s, ← (s.node parent).child d.other)

/-- A red child of `other` is brought to the far side. -/
def turnOut (d : Side) (parent other : α) : Option (Store α × α) :=
  if s.blackAt ((s.node other).child d.other) then do
    let s ← ((s.blacken ((s.node other).child d)).setBlack other false).rotate d.other other
    return (s, ← (s.node parent).child d.other)
  else some (s, other)

/-- The loop of `__rb_erase_color`, and the `node` that it ends with. -/
def eraseLoop : ℕ → Store α → Option α → Option α → Option (Store α × Option α)
  | 0, _, _, _ => none
  | turns + 1, s, node, parent =>
    if s.blackAt node ∧ node ≠ s.root then do
      let parent ← parent
      let d := if (s.node parent).left = node then Side.left else Side.right
      let other ← (s.node parent).child d.other
      let (s, other) ← s.raiseRed d parent other
      if s.blackAt (s.node other).left && s.blackAt (s.node other).right then
        eraseLoop turns (s.setBlack other false) (some parent) (s.node parent).parent
      else do
        let (s, other) ← s.turnOut d parent other
        let s := (s.setBlack other (s.node parent).black).setBlack parent true
        let s ← (s.blacken ((s.node other).child d.other)).rotate d parent
        return (s, s.root)
    else some (s, node)

/-- `__rb_erase_color`. -/
def eraseColor (turns : ℕ) (node parent : Option α) : Option (Store α) :=
  (eraseLoop turns s node parent).map fun (s, node) => s.blacken node

/-- `while(n->rb_left) n = n->rb_left`, or with `rb_right`. -/
def descend (d : Side) : ℕ → α → Option α
  | 0, _ => none
  | turns + 1, n =>
    match (s.node n).child d with
    | some a => descend d turns a
    | none => some n

/-- `__rb_link_node`. A place for a leaf is the root, or a side of a node. -/
def link (node : α) : Option (α × Side) → Store α
  | none => { s.set node ⟨none, false, none, none⟩ with root := some node }
  | some (parent, d) => (s.set node ⟨some parent, false, none, none⟩).setChild parent d (some node)

/-- `*node = *old`, and what points to `old` is made to point to `node`. -/
def replace (old node : α) : Store α :=
  let s := (s.set node (s.node old)).relink .left (s.node old).parent old (some node)
  (s.adopt (s.node old).left (some node)).adopt (s.node old).right (some node)

/-- `__rb_erase`. -/
def erase (turns : ℕ) (node : α) : Option (Store α) := do
  match (s.node node).left, (s.node node).right with
  | some _, some right =>
    let old := node
    let node ← s.descend .left turns right
    let child := (s.node node).right
    let parent ← (s.node node).parent
    let black := (s.node node).black
    let s := (s.adopt child (some parent)).setChild parent (if parent = old then .right else .left) child
    let parent := if parent = old then node else parent
    let s := s.replace old node
    if black then s.eraseColor turns child (some parent) else return s
  | left, right =>
    let child := if left = none then right else left
    let parent := (s.node node).parent
    let black := (s.node node).black
    let s := (s.adopt child parent).relink .left parent node child
    if black then s.eraseColor turns child parent else return s

/-- `__rb_first`, and `__rb_last` for the other side. -/
def outermost (d : Side) (turns : ℕ) : Option (Option α) :=
  match s.root with
  | none => some none
  | some n => (s.descend d turns n).map some

/-- The second loop of `__rb_next` and of `__rb_prev`. -/
def climb (d : Side) : ℕ → α → Option (Option α)
  | 0, _ => none
  | turns + 1, node =>
    match (s.node node).parent with
    | none => some none
    | some parent => if (s.node parent).child d = some node then climb d turns parent else some (some parent)

/-- `__rb_next` for the right side, and `__rb_prev` for the left. -/
def neighbour (d : Side) (turns : ℕ) (node : α) : Option (Option α) :=
  if (s.node node).parent = some node then some none
  else match (s.node node).child d with
    | some n => (s.descend d.other turns n).map some
    | none => s.climb d turns node

/-- The nodes that `RB_FOREACH` goes over from `cur` on, `n` at most. -/
def forEach (turns : ℕ) : ℕ → Option α → Option (List α)
  | _, none => some []
  | 0, some _ => none
  | n + 1, some cur => do
    let next ← s.neighbour .right turns cur
    return cur :: (← forEach turns n next)

end Store

end Sneks.Rbtree
