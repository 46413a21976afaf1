import PieceIndex.KeyMap
import PieceIndex.Shape

/-!
What it means for entries to hold a search tree: the links have a shape, and the keys ascend from
left to right over it. A map is well formed when the shape below its root takes in every entry once.
-/
namespace PieceIndex
namespace KeyMap

variable {V : Type}

/-- The links lead from entry to entry as the shape says. -/
def Links (entries : Entries V) : Shape → Prop
  | .empty => True
  | .node left index right =>
    ∃ entry, entries[index]? = some entry ∧ entry.left = left.root ∧ entry.right = right.root ∧
      Links entries left ∧ Links entries right

/-- The bindings of the shape from left to right. -/
def bindings (entries : Entries V) (shape : Shape) : List (Nat × V) :=
  shape.inOrder.filterMap fun index => entries[index]?.map fun entry => (entry.key, entry.value)

/-- The links below a place form a search tree of the given shape. -/
structure SearchTree (entries : Entries V) (shape : Shape) : Prop where
  links : Links entries shape
  ascending : (bindings entries shape).Pairwise fun x y => x.1 < y.1

structure WellFormedAs (map : KeyMap V) (shape : Shape) : Prop
    extends SearchTree map.entries shape where
  root_eq : map.root = shape.root
  nodup : shape.inOrder.Nodup
  full : ∀ index < map.entries.size, index ∈ shape.inOrder

def WellFormed (map : KeyMap V) : Prop := ∃ shape, map.WellFormedAs shape

theorem wellFormed_empty : (empty : KeyMap V).WellFormed :=
  ⟨.empty, {
    links := trivial, ascending := List.Pairwise.nil, root_eq := rfl, nodup := List.nodup_nil
    full := fun index h => absurd h (Nat.not_lt_zero index) }⟩

end KeyMap
end PieceIndex
