import PieceIndex.Stream
import PieceIndex.Tree

/-!
Walking the pieces in document order. A walk only follows child links and keeps the nodes it has
passed on its way down; an item is a node with the offset of its left edge.
-/
namespace PieceIndex

/-- The nodes still to come whose left side is done, nearest first, each with its left edge. -/
structure Walk where
  pending : List (NodeId × Nat) := []
  deriving DecidableEq, Repr

namespace Walk

/-- Enters a subtree that begins at `base`, down to its first node. -/
def enter (arena : Arena) : Nat → Option NodeId → Nat → List (NodeId × Nat) → Except Fault Walk
  | _, none, _, pending => .ok ⟨pending⟩
  | 0, some _, _, _ => .error .endless
  | fuel + 1, some id, base, pending => do
    let node ← arena.node id
    let first ← node.leftEdge base
    enter arena fuel node.left base ((id, first) :: pending)

/-- The next node. The edge on its right is added up even when nothing hangs there. -/
def next (arena : Arena) (walk : Walk) : Except Fault (Option (NodeId × Nat) × Walk) := do
  match walk.pending with
  | [] => return (none, walk)
  | (id, first) :: pending =>
    let node ← arena.node id
    let last ← Size.add first node.piece.size
    let walk ← enter arena (stepLimit arena.size) node.right last pending
    return (some (id, first), walk)

def take (arena : Arena) (count : Nat) (walk : Walk) : Except Fault (List (NodeId × Nat) × Walk) :=
  Stream.take (next arena) count walk

end Walk

/-- One node as it stands in the document. -/
structure View where
  id : NodeId
  node : Node
  leftEdge : Nat
  rightEdge : Nat
  deriving DecidableEq, Repr

namespace Tree

def walk (tree : Tree) : Except Fault Walk :=
  Walk.enter tree.nodes (stepLimit tree.nodeCount) tree.root 0 []

/-- What `use` makes of every node and its left edge, in document order. -/
def collect {α : Type} (tree : Tree) (use : NodeId × Nat → Except Fault α) :
    Except Fault (List α) := do
  Stream.drain (Walk.next tree.nodes) use (stepLimit tree.nodeCount) (← tree.walk)

def edges (tree : Tree) : Except Fault (List (NodeId × Nat)) := tree.collect pure

def offsets (tree : Tree) : Except Fault (List Nat) := tree.collect fun (id, _) => tree.offsetOf id

def view (tree : Tree) (id : NodeId) (leftEdge : Nat) : Except Fault View := do
  let node ← tree.node id
  let rightEdge ← Size.add leftEdge node.piece.size
  return ⟨id, node, leftEdge, rightEdge⟩

def views (tree : Tree) : Except Fault (List View) :=
  tree.collect fun (id, leftEdge) => tree.view id leftEdge

/-- Shows the views to a visitor one after the other; what it has made of them runs along. -/
def visit {σ : Type} (tree : Tree) (look : σ → View → σ) (state : σ) : Except Fault σ := do
  return (← tree.views).foldl look state

end Tree
end PieceIndex
