import PieceIndex.Piece
import PieceIndex.Size

/-!
A node wraps one piece. It keeps the sizes of the subtrees on its two sides beside the links to
them, and a link back to its parent. The two sides are alike in all that the tree does with them,
so fields are read and written by side.
-/
namespace PieceIndex

inductive Side where
  | left
  | right
  deriving DecidableEq, Repr

namespace Side

def other : Side → Side
  | .left => .right
  | .right => .left

def label : Side → String
  | .left => "left"
  | .right => "right"

@[simp] theorem other_other (side : Side) : side.other.other = side := by cases side <;> rfl

theorem other_ne (side : Side) : side.other ≠ side := by cases side <;> simp [other]

end Side

structure Node where
  piece : Piece
  lsize : Nat := 0
  rsize : Nat := 0
  left : Option NodeId := none
  right : Option NodeId := none
  parent : Option NodeId := none
  deriving DecidableEq, Repr

namespace Node

def child (node : Node) : Side → Option NodeId
  | .left => node.left
  | .right => node.right

def sizeOn (node : Node) : Side → Nat
  | .left => node.lsize
  | .right => node.rsize

def withChild (node : Node) (side : Side) (child : Option NodeId) : Node :=
  match side with
  | .left => { node with left := child }
  | .right => { node with right := child }

def withSize (node : Node) (side : Side) (size : Nat) : Node :=
  match side with
  | .left => { node with lsize := size }
  | .right => { node with rsize := size }

def withParent (node : Node) (parent : Option NodeId) : Node :=
  { node with parent := parent }

/-- Hangs a subtree of the given size on one side. -/
def hang (node : Node) (side : Side) (child : Option NodeId) (size : Nat) : Node :=
  (node.withChild side child).withSize side size

/-- The size of the subtree at a node, by its cached sizes. -/
def total (node : Node) : Except Fault Nat := do
  Size.add (← Size.add node.lsize node.piece.size) node.rsize

/-- Where the node's piece begins, if its subtree begins at `base`. -/
def leftEdge (node : Node) (base : Nat) : Except Fault Nat :=
  Size.add base node.lsize

/-- Where the node's piece ends, if its subtree begins at `base`. -/
def rightEdge (node : Node) (base : Nat) : Except Fault Nat := do
  Size.add (← node.leftEdge base) node.piece.size

section
variable (node : Node) (side : Side) (child : Option NodeId) (size : Nat)

@[simp] theorem sizeOn_withChild (s : Side) :
    (node.withChild side child).sizeOn s = node.sizeOn s := by
  cases side <;> cases s <;> rfl

@[simp] theorem child_withSize (s : Side) : (node.withSize side size).child s = node.child s := by
  cases side <;> cases s <;> rfl

@[simp] theorem piece_withChild : (node.withChild side child).piece = node.piece := by
  cases side <;> rfl

@[simp] theorem piece_withSize : (node.withSize side size).piece = node.piece := by
  cases side <;> rfl

@[simp] theorem parent_withChild : (node.withChild side child).parent = node.parent := by
  cases side <;> rfl

@[simp] theorem parent_withSize : (node.withSize side size).parent = node.parent := by
  cases side <;> rfl

end

end Node
end PieceIndex
