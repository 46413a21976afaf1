import PieceIndex.Proofs.Arena.Growth
import PieceIndex.Proofs.Splay.Target

/-!
The slow way to measure a subtree. The nodes still to be added wait in a list; a node that is taken
from it leaves its two sides there, the right one first. So a whole subtree is added up before what
waits behind it, in an order that is not the order of the document. The order does not matter: sizes
only grow, and the additions fit one by one exactly when the whole fits.
-/
namespace PieceIndex

namespace Arena
variable {arena : Arena} {shape : Shape}

/-- To add up what waits is to add the whole of the nearest subtree and then the rest. -/
theorem sumPieces_shape (inRange : ∀ i ∈ shape.inOrder, i < arena.size)
    (wired : shape.Wired arena.childOf) (fuel : Nat) (pending : List NodeId) {total : Nat}
    (fits : total < Size.limit) :
    arena.sumPieces (shape.count + fuel) (shape.root.toList ++ pending) total =
      (Size.add total (shape.weight arena.pieceSize) >>= arena.sumPieces fuel pending) := by
  induction shape generalizing fuel pending total with
  | empty =>
    rw [Shape.count, Nat.zero_add, Shape.weight_empty, Size.add_of_lt fits]
    rfl
  | node left id right ihl ihr =>
    obtain ⟨down, across, wiredl, wiredr⟩ := wired
    simp only [Shape.inOrder, List.mem_append, List.mem_cons] at inRange
    obtain ⟨node, found⟩ := exists_found (inRange id (.inr (.inl rfl)))
    rw [childOf_found found] at down across
    have rest (sum : Nat) (fits : sum < Size.limit) :
        arena.sumPieces (right.count + (left.count + fuel))
            (right.root.toList ++ (left.root.toList ++ pending)) sum =
          (Size.add sum (right.weight arena.pieceSize + left.weight arena.pieceSize) >>=
            arena.sumPieces fuel pending) := by
      rw [ihr (fun i h => inRange i (.inr (.inr h))) wiredr _ _ fits, ← Size.add_bind_add,
        bind_assoc]
      by_cases fits' : sum + right.weight arena.pieceSize < Size.limit
      · rw [Size.add_of_lt fits', ok_bind, ok_bind]
        exact ihl (fun i h => inRange i (.inl h)) wiredl _ _ fits'
      · rw [Size.add_of_ge (Nat.le_of_not_lt fits'), error_bind, error_bind]
    have turns : (Shape.node left id right).count + fuel =
        right.count + (left.count + fuel) + 1 := by
      rw [Shape.count]
      omega
    have whole : (Shape.node left id right).weight arena.pieceSize =
        node.piece.size + (right.weight arena.pieceSize + left.weight arena.pieceSize) := by
      rw [Shape.weight_node, pieceSize_found found]
      omega
    rw [turns, whole, ← Size.add_bind_add, bind_assoc, Shape.root, Option.toList_some,
      List.singleton_append, sumPieces, node_eq_ok.mpr found, ok_bind,
      show node.right = right.root from across, show node.left = left.root from down]
    by_cases fits' : total + node.piece.size < Size.limit
    · rw [Size.add_of_lt fits', ok_bind, ok_bind]
      exact rest _ fits'
    · rw [Size.add_of_ge (Nat.le_of_not_lt fits'), error_bind, error_bind]

end Arena

namespace Tree
variable {tree : Tree} {shape : Shape}

theorem trueSize_root (inRange : ∀ i ∈ shape.inOrder, i < tree.nodes.size)
    (wired : shape.Wired tree.nodes.childOf) (nodup : shape.inOrder.Nodup) :
    tree.trueSize shape.root = Size.add 0 (shape.weight tree.nodes.pieceSize) := by
  have small := Shape.count_le nodup inRange
  obtain ⟨fuel, turns⟩ : ∃ fuel, stepLimit tree.nodeCount = shape.count + fuel :=
    ⟨stepLimit tree.nodeCount - shape.count, by dsimp only [stepLimit, nodeCount]; omega⟩
  have summed := Arena.sumPieces_shape inRange wired fuel []
    (show 0 < Size.limit by decide)
  rw [List.append_nil, ← turns] at summed
  rw [trueSize, summed]
  cases Size.add 0 (shape.weight tree.nodes.pieceSize) with
  | error fault => rfl
  | ok size => cases fuel <;> rfl

/-- At every node of a well-formed tree both ways to measure tell the same. -/
theorem WellFormedAs.trueSize_eq (well : tree.WellFormedAs shape) {id : NodeId}
    (inRange : id < tree.nodeCount) :
    ∃ size, tree.nodes.subtreeSize (some id) = .ok size ∧ tree.trueSize (some id) = .ok size := by
  have stands := well.stands
  obtain ⟨below, root, sub, tallies⟩ := Shape.exists_below (well.full id inRange)
  have within (i : NodeId) (h : i ∈ below.inOrder) : i < tree.nodes.size :=
    stands.inRange i (sub.subset h)
  have fits : below.weight tree.nodes.pieceSize < Size.limit :=
    Nat.lt_of_le_of_lt (sizeSum_le_of_subset (stands.nodup.sublist sub) sub.subset) well.sizeSum_lt
  refine ⟨below.weight tree.nodes.pieceSize, ?_, ?_⟩
  · rw [← root, Arena.subtreeSize_of_measured within (tallies stands.measured) fits]
  · rw [← root, trueSize_root within (tallies stands.wired) (stands.nodup.sublist sub)]
    exact (Size.add_of_lt (by rwa [Nat.zero_add])).trans (by rw [Nat.zero_add])

/-- Over links that form a tree below a node, whatever the cached sizes and the parents, the pieces
there are added up to their whole, or to a fault when the whole does not fit. In a well-formed tree
this is the cached size at every node. -/
theorem trueSize_sums {id : Option NodeId} (root : id = shape.root) (links : tree.nodes.Links shape)
    (nodup : shape.inOrder.Nodup) :
    (tree.trueSize id = .error .sumOverflow ↔ Size.limit ≤ tree.nodes.weight shape) ∧
      (tree.nodes.weight shape < Size.limit → tree.trueSize id = .ok (tree.nodes.weight shape)) ∧
      tree.trueSize none = .ok 0 ∧
      (tree.WellFormed → ∀ id < tree.nodeCount, ∃ size,
        tree.nodes.subtreeSize (some id) = .ok size ∧ tree.trueSize (some id) = .ok size) := by
  subst root
  obtain ⟨inRange, wired⟩ := Arena.links_iff.mp links
  have nothing : tree.trueSize Shape.empty.root = Size.add 0 0 :=
    trueSize_root nofun trivial List.nodup_nil
  rw [Arena.weight_eq, trueSize_root inRange wired nodup]
  refine ⟨⟨fun faults => ?_, fun large => ?_⟩, fun fits => ?_, nothing, ?_⟩
  · apply Nat.le_of_not_lt
    intro fits
    rw [Size.add_of_lt (by omega)] at faults
    cases faults
  · exact Size.add_of_ge (by rwa [Nat.zero_add])
  · rw [Size.add_of_lt (by rwa [Nat.zero_add]), Nat.zero_add]
  · rintro ⟨shape, well⟩ id inRange
    exact well.trueSize_eq inRange

/-- Two pieces that are too long together, with no cached size to tell it. -/
def overlong : Tree where
  nodes := #[{ piece := .sized 9223372036854775808, right := some 1 },
    { piece := .sized 9223372036854775808 }]
  root := some 0

theorem trueSize_sums_worn :
    worn.trueSize (some 1) = .ok 6 ∧ overlong.trueSize (some 0) = .error .sumOverflow ∧
      overlong.trueSize (some 1) = .ok 9223372036854775808 ∧
      ∀ id < 3, ∃ size, three.nodes.subtreeSize (some id) = .ok size ∧
        three.trueSize (some id) = .ok size := by
  have inWorn : worn.nodes.Links (.node (.node .empty 0 .empty) 1 (.node .empty 3 .empty)) :=
    ⟨_, rfl, rfl, rfl, ⟨_, rfl, rfl, rfl, trivial, trivial⟩, _, rfl, rfl, rfl, trivial, trivial⟩
  have inPart : overlong.nodes.Links (.node .empty 1 .empty) := ⟨_, rfl, rfl, rfl, trivial, trivial⟩
  have inWhole : overlong.nodes.Links (.node .empty 0 (.node .empty 1 .empty)) :=
    ⟨_, rfl, rfl, rfl, trivial, inPart⟩
  have inThree : three.nodes.Links .empty := trivial
  obtain ⟨-, worn, -⟩ := trueSize_sums rfl inWorn (by decide)
  obtain ⟨whole, -⟩ := trueSize_sums rfl inWhole (by decide)
  obtain ⟨-, part, -⟩ := trueSize_sums rfl inPart (by decide)
  obtain ⟨-, -, -, three⟩ := trueSize_sums rfl inThree (by decide)
  exact ⟨worn (by decide), whole.mpr (by decide), part (by decide), three ⟨_, wellFormedAs_three⟩⟩

end Tree
end PieceIndex
