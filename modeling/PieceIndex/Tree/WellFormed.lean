import PieceIndex.Shape
import PieceIndex.Tree

/-!
What it means for an arena to hold a tree. The child links below a node have a shape, which they
determine; over that shape the parent links may agree with the child links, and the cached sizes
with the pieces. A tree is well formed when all this holds over the whole arena, no piece is empty
and the document is no longer than a size can be.
-/
namespace PieceIndex
namespace Arena

/-- The child links lead from node to node as the shape says. -/
def Links (arena : Arena) : Shape → Prop
  | .empty => True
  | .node left id right =>
    ∃ node, arena[id]? = some node ∧ node.left = left.root ∧ node.right = right.root ∧
      Links arena left ∧ Links arena right

/-- Every node of the shape names its parent, and the top one names `parent`. -/
def Parents (arena : Arena) (parent : Option NodeId) : Shape → Prop
  | .empty => True
  | .node left id right =>
    (∃ node, arena[id]? = some node ∧ node.parent = parent) ∧
      Parents arena (some id) left ∧ Parents arena (some id) right

def pieceSize (arena : Arena) (id : NodeId) : Nat := (arena[id]?.map (·.piece.size)).getD 0

/-- The sizes of all pieces of the shape together. -/
def weight (arena : Arena) : Shape → Nat
  | .empty => 0
  | .node left id right => weight arena left + arena.pieceSize id + weight arena right

/-- Every node of the shape has the weight of its two sides in its cached sizes. -/
def Exact (arena : Arena) : Shape → Prop
  | .empty => True
  | .node left id right =>
    (∃ node, arena[id]? = some node ∧ node.lsize = arena.weight left ∧
      node.rsize = arena.weight right) ∧
      Exact arena left ∧ Exact arena right

/-- A node has but one shape of links below it. -/
theorem Links.unique {arena : Arena} {s t : Shape} (hs : arena.Links s) (ht : arena.Links t)
    (same : s.root = t.root) : s = t := by
  induction s generalizing t with
  | empty =>
    exact (Shape.root_eq_none.mp same.symm).symm
  | node left id right ihl ihr =>
    cases t with
    | empty => cases same
    | node left' id' right' =>
      cases same
      obtain ⟨node, found, hl, hr, linksl, linksr⟩ := hs
      obtain ⟨node', found', hl', hr', linksl', linksr'⟩ := ht
      have hn : node = node' := Option.some.inj (found.symm.trans found')
      subst hn
      rw [ihl linksl linksl' (hl.symm.trans hl'), ihr linksr linksr' (hr.symm.trans hr')]

end Arena

namespace Tree

/-- The links from the root form a tree of the given shape: no node stands in it twice. -/
structure HasShape (tree : Tree) (shape : Shape) : Prop where
  root_eq : tree.root = shape.root
  links : tree.nodes.Links shape
  nodup : shape.inOrder.Nodup

/-- The tree of the given shape fills the arena, and all that is kept beside its child links is
true. -/
structure WellFormedAs (tree : Tree) (shape : Shape) : Prop extends tree.HasShape shape where
  parents : tree.nodes.Parents none shape
  sizes : tree.nodes.Exact shape
  full : ∀ id < tree.nodes.size, id ∈ shape.inOrder
  nonempty : ∀ id ∈ shape.inOrder, 1 ≤ tree.nodes.pieceSize id
  fits : tree.nodes.weight shape < Size.limit

def WellFormed (tree : Tree) : Prop := ∃ shape, tree.WellFormedAs shape

theorem HasShape.unique {tree : Tree} {s t : Shape} (hs : tree.HasShape s) (ht : tree.HasShape t) :
    s = t :=
  hs.links.unique ht.links (hs.root_eq.symm.trans ht.root_eq)

theorem wellFormed_empty : Tree.empty.WellFormed :=
  ⟨.empty, {
    root_eq := rfl, links := trivial, nodup := List.nodup_nil, parents := trivial, sizes := trivial
    full := fun id h => absurd h (Nat.not_lt_zero id)
    nonempty := fun id h => absurd h (List.not_mem_nil)
    fits := by simp [Arena.weight, Size.limit] }⟩

end Tree
end PieceIndex
