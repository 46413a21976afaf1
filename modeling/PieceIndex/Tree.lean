import PieceIndex.Arena

/-!
A document is the sequence of pieces met from left to right below the root. Besides the cached
sizes there are two slow ways to measure: adding up pieces one by one, and climbing from a node to
the root.
-/
namespace PieceIndex

structure Tree where
  nodes : Arena := #[]
  root : Option NodeId := none
  deriving DecidableEq, Repr

namespace Tree

def empty : Tree := {}

def isEmpty (tree : Tree) : Bool := tree.root.isNone

def nodeCount (tree : Tree) : Nat := tree.nodes.size

def node (tree : Tree) (id : NodeId) : Except Fault Node := tree.nodes.node id

def length (tree : Tree) : Except Fault Nat := tree.nodes.subtreeSize tree.root

end Tree

namespace Arena

/-- Adds the pieces at and below the pending nodes to `total`. -/
def sumPieces (arena : Arena) : Nat → List NodeId → Nat → Except Fault Nat
  | _, [], total => .ok total
  | 0, _ :: _, _ => .error .endless
  | fuel + 1, id :: pending, total => do
    let node ← arena.node id
    let total ← Size.add total node.piece.size
    sumPieces arena fuel (node.right.toList ++ (node.left.toList ++ pending)) total

/-- Adds to `offset` all that lies left of `child` in the subtrees of its ancestors. -/
def climb (arena : Arena) : Nat → NodeId → Nat → Except Fault Nat
  | 0, _, _ => .error .endless
  | fuel + 1, child, offset => do
    match (← arena.node child).parent with
    | none => return offset
    | some parent =>
      let node ← arena.node parent
      if node.right = some child then
        climb arena fuel parent (← Size.add offset (← node.rightEdge 0))
      else
        climb arena fuel parent offset

end Arena

namespace Tree

/-- The size of a subtree, without a look at any cached size. -/
def trueSize (tree : Tree) (id : Option NodeId) : Except Fault Nat :=
  tree.nodes.sumPieces (stepLimit tree.nodeCount) id.toList 0

/-- Where the piece of a node begins in the document. -/
def offsetOf (tree : Tree) (id : NodeId) : Except Fault Nat := do
  tree.nodes.climb (stepLimit tree.nodeCount) id (← tree.node id).lsize

end Tree
end PieceIndex
