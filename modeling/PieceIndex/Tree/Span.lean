import PieceIndex.Tree.Walk

/-!
The pieces that overlap a range of the document, each cut to the part inside the range. The walk
starts at the first piece that ends past the beginning of the range, and stops for good at the
first that begins at or past its end.
-/
namespace PieceIndex

/-- The part `start..stop` of one piece, counted from the piece's own beginning. -/
structure Span where
  node : NodeId
  leftEdge : Nat
  start : Nat
  stop : Nat
  deriving DecidableEq, Repr

namespace Walk

/-- Goes down to the first node whose right edge lies past `offset`. -/
def seek (arena : Arena) (offset : Nat) :
    Nat → Option NodeId → Nat → List (NodeId × Nat) → Except Fault Walk
  | _, none, _, pending => .ok ⟨pending⟩
  | 0, some _, _, _ => .error .endless
  | fuel + 1, some id, base, pending => do
    let node ← arena.node id
    let first ← node.leftEdge base
    let last ← Size.add first node.piece.size
    if last ≤ offset then
      seek arena offset fuel node.right last pending
    else
      seek arena offset fuel node.left base ((id, first) :: pending)

end Walk

/-- A walk over the pieces of `tree` inside `first..last`. -/
structure SpanWalk where
  walk : Walk
  first : Nat
  last : Nat
  deriving DecidableEq, Repr

namespace SpanWalk

def next (arena : Arena) (spans : SpanWalk) : Except Fault (Option Span × SpanWalk) := do
  match ← spans.walk.next arena with
  | (none, walk) => return (none, { spans with walk := walk })
  | (some (id, edge), walk) =>
    if spans.last ≤ edge then
      return (none, { spans with walk := {} })
    else
      let node ← arena.node id
      let span : Span :=
        { node := id, leftEdge := edge,
          start := spans.first - edge, stop := min (spans.last - edge) node.piece.size }
      return (some span, { spans with walk := walk })

end SpanWalk

namespace Tree

def spanWalk (tree : Tree) (first last : Nat) : Except Fault SpanWalk := do
  if first < last then
    let walk ← Walk.seek tree.nodes first (stepLimit tree.nodeCount) tree.root 0 []
    return ⟨walk, first, last⟩
  else
    return ⟨{}, first, last⟩

def spans (tree : Tree) (first last : Nat) : Except Fault (List Span) := do
  Stream.drain (SpanWalk.next tree.nodes) pure (stepLimit tree.nodeCount)
    (← tree.spanWalk first last)

end Tree
end PieceIndex
