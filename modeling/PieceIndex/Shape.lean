import PieceIndex.Fault

/-!
The shape of a tree apart from the arena that holds it: which node stands where. Document order is
the order of the nodes from left to right.
-/
namespace PieceIndex

inductive Shape where
  | empty
  | node (left : Shape) (id : NodeId) (right : Shape)
  deriving DecidableEq, Repr

namespace Shape

def root : Shape → Option NodeId
  | .empty => none
  | .node _ id _ => some id

def inOrder : Shape → List NodeId
  | .empty => []
  | .node left id right => left.inOrder ++ id :: right.inOrder

def count : Shape → Nat
  | .empty => 0
  | .node left _ right => left.count + 1 + right.count

def levels : Shape → Nat
  | .empty => 0
  | .node left _ right => max left.levels right.levels + 1

@[simp] theorem length_inOrder (shape : Shape) : shape.inOrder.length = shape.count := by
  induction shape with
  | empty => rfl
  | node left id right ihl ihr =>
    simp [inOrder, count, ihl, ihr]
    omega

theorem root_eq_none {shape : Shape} : shape.root = none ↔ shape = .empty := by
  cases shape <;> simp [root]

theorem mem_inOrder_of_root {shape : Shape} {id : NodeId} (h : shape.root = some id) :
    id ∈ shape.inOrder := by
  cases shape with
  | empty => cases h
  | node left top right =>
    cases h
    simp [inOrder]

theorem exists_root {shape : Shape} {id : NodeId} (inside : id ∈ shape.inOrder) :
    ∃ top, shape.root = some top := by
  cases shape with
  | empty => cases inside
  | node left top right => exact ⟨top, rfl⟩

theorem forall_mem_node {p : NodeId → Prop} {left right : Shape} {id : NodeId} (here : p id)
    (inLeft : ∀ i ∈ left.inOrder, p i) (inRight : ∀ i ∈ right.inOrder, p i) :
    ∀ i ∈ (node left id right).inOrder, p i := by
  intro i inside
  simp only [inOrder, List.mem_append, List.mem_cons] at inside
  rcases inside with inside | rfl | inside
  · exact inLeft i inside
  · exact here
  · exact inRight i inside

end Shape
end PieceIndex
