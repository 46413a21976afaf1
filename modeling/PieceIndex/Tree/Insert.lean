import PieceIndex.Tree

/-!
Adding a piece beside the root. The new node becomes the root and takes over the root's subtree on
its own side; the old root, without it, hangs on the other side. So a splay followed by an insertion
puts a piece anywhere between two others.
-/
namespace PieceIndex
namespace Tree

/-- Adds `piece` directly on the given side of the root, and returns its place. -/
def insertBeside (tree : Tree) (side : Side) (piece : Piece) : Except Fault (Tree × NodeId) := do
  let ⟨arena, root⟩ := tree
  let (arena, id) ← arena.append { piece := piece }
  match root with
  | none => return (⟨arena, some id⟩, id)
  | some old =>
    let before ← Arena.node arena old
    let taken := before.child side
    let takenSize := before.sizeOn side
    let arena ← Arena.update arena old (·.hang side none 0)
    let rest ← (← Arena.node arena old).total
    let arena ← Arena.update arena id fun node =>
      (node.hang side taken takenSize).hang side.other (some old) rest
    let arena ← Arena.setParent arena taken (some id)
    let arena ← Arena.update arena old (·.withParent (some id))
    return (⟨arena, some id⟩, id)

def insertBefore (tree : Tree) (piece : Piece) : Except Fault (Tree × NodeId) :=
  tree.insertBeside .left piece

def insertAfter (tree : Tree) (piece : Piece) : Except Fault (Tree × NodeId) :=
  tree.insertBeside .right piece

end Tree
end PieceIndex
