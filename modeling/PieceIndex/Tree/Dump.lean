import PieceIndex.Tree
import PieceIndex.Text.Record

/-!
A whole arena written out, field by field.
-/
namespace PieceIndex

def Piece.dump (piece : Piece) : String :=
  Record.record "Piece" [("buffer", Record.wrapped "BufferId" (toString piece.buffer)),
    ("size", toString piece.size), ("state", piece.provenance.label),
    ("capacity", toString piece.capacity)]

def Node.dump (node : Node) : String :=
  let link := Record.optional NodeId.label
  Record.record "Node" [("piece", node.piece.dump), ("lsize", toString node.lsize),
    ("rsize", toString node.rsize), ("left", link node.left), ("right", link node.right),
    ("parent", link node.parent)]

def Tree.dump (tree : Tree) : String :=
  Record.record "PieceTree" [("nodes", Record.listing Node.dump tree.nodes.toList),
    ("root", Record.optional NodeId.label tree.root)]

end PieceIndex
