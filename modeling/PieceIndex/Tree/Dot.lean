import PieceIndex.Tree.Walk

/-!
A tree as a graph in the dot language. A node is labelled with its id, its size and its edges; where
a child is missing, the size cached on that side stands in the label. Links to children carry the
cached size of the subtree, links to parents are dotted.
-/
namespace PieceIndex
namespace Dot

def indent : String := "        "

def quoted (text : String) : String := "\"" ++ text ++ "\""

def color : Provenance → String
  | .frozen => "cornflowerblue"
  | .growing => "crimson"

def label (view : View) : String :=
  (if view.node.left.isNone then toString view.node.lsize ++ ":" else "") ++
  view.id.label ++ ":" ++ toString view.node.piece.size ++
  " [" ++ toString view.leftEdge ++ ", " ++ toString view.rightEdge ++ ")" ++
  (if view.node.right.isNone then ":" ++ toString view.node.rsize else "")

def childLine (id : NodeId) (child : Option NodeId) (size : Nat) : List String :=
  child.toList.map fun child =>
    quoted id.label ++ " -> " ++ quoted child.label ++ " [label=" ++ quoted (toString size) ++ "];"

def parentLine (id : NodeId) (parent : Option NodeId) : List String :=
  parent.toList.map fun parent =>
    quoted id.label ++ " -> " ++ quoted parent.label ++ " [style=" ++ quoted "dotted" ++ "];"

def viewLines (view : View) : List String :=
  (quoted view.id.label ++ " [label=" ++ quoted (label view) ++
    ",color=" ++ quoted (color view.node.piece.provenance) ++ "];") ::
  (childLine view.id view.node.left view.node.lsize ++
    childLine view.id view.node.right view.node.rsize ++
    parentLine view.id view.node.parent)

def header : List String :=
  ["graph [ordering=" ++ quoted "out" ++ "];", "ratio = fill;",
    "node [style=" ++ quoted "filled" ++ "];"]

def render (views : List View) : String :=
  let body := (header ++ views.flatMap viewLines).map fun line => indent ++ line ++ "\n"
  "digraph vine \x7b\n" ++ String.join body ++ "\x7d\n"

end Dot

def Tree.toDot (tree : Tree) : Except Fault String := do
  return Dot.render (← tree.views)

end PieceIndex
