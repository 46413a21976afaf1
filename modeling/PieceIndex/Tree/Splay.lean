import PieceIndex.Tree
import PieceIndex.Tree.Step

/-!
Splaying: one pass down from the root brings the piece that covers an offset to the root. Nodes the
pass leaves behind hang on two spines. Those left of the target hang from one another's right side,
those right of it from one another's left side.

    left spine        right spine
        a                  c
         \                /
          b              d
           \            /

At the target its own subtrees close the inner ends of the spines, the cached sizes along the spines
are made good from the ends outwards, and the spines become the subtrees of the target. While the
pass runs, the sizes cached on the inner side of a spine are out of date and are not read.

An offset on the edge between two pieces belongs to the piece that ends there, and offset 0 to the
first piece.
-/
namespace PieceIndex

/-- A splay in progress. Spines are kept from the inner end outwards, the trace from the latest step
back. -/
structure Pass where
  here : NodeId
  leftSpine : List NodeId := []
  rightSpine : List NodeId := []
  /-- The size of all that has been left behind on the left. -/
  passed : Nat := 0
  depth : Nat := 0
  trace : List Step := []
  deriving DecidableEq, Repr

namespace Pass

def spine (pass : Pass) : Side → List NodeId
  | .left => pass.leftSpine
  | .right => pass.rightSpine

def grow (pass : Pass) (side : Side) (node : NodeId) : Pass :=
  match side with
  | .left => { pass with leftSpine := node :: pass.leftSpine }
  | .right => { pass with rightSpine := node :: pass.rightSpine }

def record (pass : Pass) (step : Step) : Pass := { pass with trace := step :: pass.trace }

/-- All steps of a pass that ends where it stands, the first one first. -/
def steps (pass : Pass) : List Step :=
  (Step.target pass.here pass.depth :: pass.trace).reverse

end Pass

namespace Splay

/-- Where `offset` lies from a node whose subtree begins at `passed`; `none` on the node itself. -/
def heading (offset passed : Nat) (node : Node) : Except Fault (Option Side) := do
  let first ← node.leftEdge passed
  let last ← Size.add first node.piece.size
  if offset ≤ first ∧ ¬(offset = 0 ∧ first = 0) then
    return some .left
  else if last < offset then
    return some .right
  else
    return none

/-- Whether the pass goes past a child in the direction that led to it. -/
def goesPast (offset passed : Nat) (node child : Node) : Side → Except Fault Bool
  | .left => do
    let first ← child.leftEdge passed
    return offset ≤ first
  | .right => do
    let last ← child.rightEdge (← node.rightEdge passed)
    return last < offset

/-- Rotates the child on the given side of a node above it. -/
def rotate (arena : Arena) (side : Side) (node child : NodeId) : Except Fault Arena := do
  let lower ← arena.node child
  let middle := lower.child side.other
  let arena ← arena.update node fun upper =>
    (upper.hang side middle (lower.sizeOn side.other)).withParent (some child)
  let size ← (← arena.node node).total
  let arena ← arena.setParent middle (some node)
  arena.update child fun lower => (lower.hang side.other (some node) size).withParent none

/-- Rotates where the pass goes past the child, which it then stands on. -/
def fold (offset : Nat) (side : Side) (arena : Arena) (pass : Pass) (child : NodeId) :
    Except Fault (Arena × Pass) := do
  let upper ← arena.node pass.here
  let lower ← arena.node child
  if ← goesPast offset pass.passed upper lower side then
    let arena ← rotate arena side pass.here child
    return (arena, { pass.record (.rotate side pass.here child) with here := child })
  else
    return (arena, pass)

/-- What lies left of the pass once it has left `node` for its child on the given side. -/
def passedBy (passed : Nat) (node : Node) : Side → Except Fault Nat
  | .left => .ok passed
  | .right => do Size.add passed (← node.rightEdge 0)

/-- Leaves the node the pass stands on at the end of its spine and goes on to `next`. -/
def link (side : Side) (arena : Arena) (pass : Pass) (next : NodeId) :
    Except Fault (Arena × Pass) := do
  let node := pass.here
  let last := (pass.spine side.other).head?
  let arena ← arena.updateSome last (·.withChild side (some node))
  let arena ← arena.update node (·.withParent last)
  let passed ← passedBy pass.passed (← arena.node node) side
  let pass := (pass.grow side.other node).record (.link side node)
  return (arena, { pass with here := next, passed := passed, depth := pass.depth + 1 })

/-- One turn of the pass, and whether it goes on. -/
def advance (offset : Nat) (arena : Arena) (pass : Pass) : Except Fault (Arena × Pass × Bool) := do
  let node ← arena.node pass.here
  match ← heading offset pass.passed node with
  | none => return (arena, pass, false)
  | some side =>
    match node.child side with
    | none => return (arena, pass, false)
    | some child =>
      let (arena, pass) ← fold offset side arena pass child
      match (← arena.node pass.here).child side with
      | none => return (arena, pass, false)
      | some next =>
        let (arena, pass) ← link side arena pass next
        return (arena, pass, true)

def descend (offset : Nat) : Nat → Arena → Pass → Except Fault (Arena × Pass)
  | 0, _, _ => .error .endless
  | fuel + 1, arena, pass => do
    let (arena, pass, goesOn) ← advance offset arena pass
    if goesOn then descend offset fuel arena pass else return (arena, pass)

/-- Closes the inner end of a spine with a subtree of the target. -/
def handOver (side : Side) (arena : Arena) (pass : Pass) (inner : Option NodeId) :
    Except Fault Arena := do
  let last := (pass.spine side).head?
  let arena ← arena.updateSome last (·.withChild side.other inner)
  arena.setParent inner last

/-- Makes good the cached sizes along a spine, given from its inner end outwards. -/
def resize (side : Side) : List NodeId → Arena → Except Fault Arena
  | [], arena => .ok arena
  | id :: outer, arena => do
    let size ← arena.subtreeSize ((← arena.node id).child side.other)
    let arena ← arena.update id (·.withSize side.other size)
    resize side outer arena

/-- The top of a spine, or the subtree that would have closed it. -/
def top (pass : Pass) (side : Side) (inner : Option NodeId) : Option NodeId :=
  (pass.spine side).getLast?.or inner

/-- Puts the spines under the target. -/
def reassemble (arena : Arena) (pass : Pass) : Except Fault Arena := do
  let target ← arena.node pass.here
  let arena ← handOver .left arena pass target.left
  let arena ← handOver .right arena pass target.right
  let arena ← resize .left pass.leftSpine arena
  let arena ← resize .right pass.rightSpine arena
  let left := top pass .left target.left
  let right := top pass .right target.right
  let lsize ← arena.subtreeSize left
  let rsize ← arena.subtreeSize right
  let arena ← arena.update pass.here fun node =>
    ((node.hang .left left lsize).hang .right right rsize).withParent none
  let arena ← arena.setParent left (some pass.here)
  arena.setParent right (some pass.here)

end Splay

namespace Tree

/-- Brings the piece that covers `offset` to the root, and returns the root with the steps it took.
Only the empty tree has none. -/
def splayTraced (tree : Tree) (offset : Nat) : Except Fault (Tree × Option NodeId × List Step) := do
  match tree.root with
  | none => return (tree, none, [])
  | some root =>
    let length ← tree.length
    if length < offset then
      throw (.pastEnd offset length)
    else
      let ⟨arena, _⟩ := tree
      let (arena, pass) ← Splay.descend offset (stepLimit arena.size) arena { here := root }
      let arena ← Splay.reassemble arena pass
      return (⟨arena, some pass.here⟩, some pass.here, pass.steps)

def splay (tree : Tree) (offset : Nat) : Except Fault (Tree × Option NodeId) := do
  let (tree, root, _) ← tree.splayTraced offset
  return (tree, root)

end Tree
end PieceIndex
