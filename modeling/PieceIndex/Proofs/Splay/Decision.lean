import PieceIndex.Proofs.Arena.Growth
import PieceIndex.Proofs.Splay.Order

/-!
What a pass over right sizes decides. As long as the whole document is no longer than a size can be,
no sum that a decision needs is too large, and the decision depends only on where the offset lies
among the pieces.
-/
namespace PieceIndex

section
variable {size : NodeId → Nat}

/-- What a pass to `offset` decides where all sizes are right. -/
def Zipper.choose (size : NodeId → Nat) (offset : Nat) (z : Zipper) : Choice :=
  match z.focus with
  | .empty => none
  | .node left id right =>
    let first := z.passed size + left.weight size
    let last := first + size id
    if offset ≤ first ∧ ¬(offset = 0 ∧ first = 0) then
      match left with
      | .empty => some (.left, false)
      | .node a _ _ => some (.left, offset ≤ z.passed size + a.weight size)
    else if last < offset then
      match right with
      | .empty => some (.right, false)
      | .node b child _ => some (.right, last + b.weight size + size child < offset)
    else
      none

/-- The shape that a splay makes of another, where all sizes are right. -/
def Shape.splay (size : NodeId → Nat) (offset : Nat) (shape : Shape) : Shape :=
  (Zipper.descend (Zipper.choose size offset) { focus := shape }).close

/-- What has been left behind on the left and what lies ahead make up no more than the whole. -/
theorem Zipper.passed_add_weight_le (z : Zipper) (size : NodeId → Nat) :
    z.passed size + z.focus.weight size ≤ sizeSum size z.inOrder := by
  simp only [passed, inOrder, sizeSum_append, Shape.weight]
  omega

theorem Zipper.weight_close {z : Zipper} (size : NodeId → Nat) (h : z.focus ≠ .empty) :
    z.close.weight size = sizeSum size z.inOrder := by
  rw [Shape.weight, inOrder_close h]

end

namespace Splay

/-- A pass over right sizes, none of whose sums is too large. -/
structure Sound (arena : Arena) (pass : Pass) (z : Zipper) : Prop where
  lays : arena.Lays z
  follows : pass.Follows z
  nodup : z.inOrder.Nodup
  sized : Sized arena pass z
  fits : sizeSum arena.pieceSize z.inOrder < Size.limit

variable {arena after : Arena} {pass pass' : Pass} {z z' : Zipper} {side : Side} {offset : Nat}

theorem Sound.advance (sound : Sound arena pass z) (same : z'.inOrder = z.inOrder)
    (advances : Advances arena after pass pass' z z') : Sound after pass' z' :=
  ⟨advances.lays, advances.follows, same ▸ sound.nodup, advances.sized sound.sized,
    by rw [advances.keeps.pieceSize, same]; exact sound.fits⟩

theorem sound_start {shape : Shape} {root : NodeId} (lays : arena.Lays { focus := shape })
    (top : shape.root = some root) (nodup : shape.inOrder.Nodup)
    (measured : shape.Measured arena.pieceSize arena.cachedOf)
    (fits : shape.weight arena.pieceSize < Size.limit) :
    Sound arena { here := root } { focus := shape } := by
  refine ⟨lays, Pass.follows_start top, by simpa using nodup, ⟨⟨measured, ?_⟩, rfl⟩, ?_⟩
  · intro side
    cases side <;> trivial
  · rwa [Zipper.inOrder_start]

/-- The node at the top of a shape whose links and sizes are right. -/
theorem exists_node {shape : Shape} {id : NodeId} (inRange : ∀ i ∈ shape.inOrder, i < arena.size)
    (wired : shape.Wired arena.childOf) (measured : shape.Measured arena.pieceSize arena.cachedOf)
    (root : shape.root = some id) :
    ∃ node : Node, arena[id]? = some node ∧ arena.pieceSize id = node.piece.size ∧
      ∀ side, node.child side = (shape.on side).root ∧
        node.sizeOn side = (shape.on side).weight arena.pieceSize := by
  obtain ⟨node, found⟩ := Arena.exists_found (inRange id (Shape.mem_inOrder_of_root root))
  refine ⟨node, found, Arena.pieceSize_found found, fun side => ?_⟩
  rw [Shape.exists_sided root side] at wired measured
  replace wired := ((Shape.tallies_sided ..).mp wired).1
  replace measured := ((Shape.tallies_sided ..).mp measured).1
  exact ⟨by rw [← wired, Arena.childOf_found found], by rw [← measured, Arena.cachedOf_found found]⟩

theorem heading_eq {passed : Nat} {node : Node}
    (fits : passed + node.lsize + node.piece.size < Size.limit) :
    heading offset passed node = .ok
      (if offset ≤ passed + node.lsize ∧ ¬(offset = 0 ∧ passed + node.lsize = 0) then some .left
        else if passed + node.lsize + node.piece.size < offset then some .right else none) := by
  rw [heading, Node.leftEdge, Size.add_of_lt (by omega), ok_bind, Size.add_of_lt fits, ok_bind]
  split
  · rfl
  · split <;> rfl

theorem goesPast_left {passed : Nat} {node child : Node}
    (fits : passed + child.lsize < Size.limit) :
    goesPast offset passed node child .left = .ok (offset ≤ passed + child.lsize) := by
  rw [goesPast, Node.leftEdge, Size.add_of_lt fits, ok_bind, pure_eq_ok]

theorem goesPast_right {passed : Nat} {node child : Node}
    (fits : passed + node.lsize + node.piece.size + child.lsize + child.piece.size < Size.limit) :
    goesPast offset passed node child .right =
      .ok (passed + node.lsize + node.piece.size + child.lsize + child.piece.size < offset) := by
  rw [goesPast, Node.rightEdge_eq_ok.mpr ⟨rfl, by omega⟩, ok_bind,
    Node.rightEdge_eq_ok.mpr ⟨rfl, fits⟩, ok_bind, pure_eq_ok]

theorem choice_eq (sound : Sound arena pass z) :
    choice offset arena pass = .ok (z.choose arena.pieceSize offset) := by
  have room := z.passed_add_weight_le arena.pieceSize
  have fits := sound.fits
  have inRange (i : NodeId) (h : i ∈ z.focus.inOrder) : i < arena.size :=
    sound.lays.inRange i ((z.mem_inOrder i).mpr (.inl h))
  have wired := sound.lays.wired.focus
  have measured := sound.sized.measured.focus
  obtain ⟨left, right, focus⟩ : ∃ left right, z.focus = .node left pass.here right :=
    ⟨_, _, Shape.exists_sided sound.follows.here .left⟩
  rw [focus] at inRange wired measured
  rw [focus, Shape.weight_node] at room
  obtain ⟨node, found, piece, sides⟩ := exists_node inRange wired measured rfl
  obtain ⟨-, -, wiredl, wiredr⟩ := wired
  obtain ⟨-, -, measuredl, measuredr⟩ := measured
  simp only [Shape.inOrder, List.mem_append, List.mem_cons] at inRange
  have lsize : node.lsize = left.weight arena.pieceSize := (sides .left).2
  rw [piece] at room
  rw [choice, Arena.node_eq_ok.mpr found, ok_bind, sound.sized.passed, heading_eq (by omega),
    ok_bind, lsize, ← piece, Zipper.choose, focus]
  by_cases before : offset ≤ z.passed arena.pieceSize + left.weight arena.pieceSize ∧
      ¬(offset = 0 ∧ z.passed arena.pieceSize + left.weight arena.pieceSize = 0)
  · simp only [if_pos before, (sides .left).1, Shape.on]
    cases left with
    | empty => rfl
    | node a child b =>
      obtain ⟨lower, foundl, piecel, sidesl⟩ :=
        exists_node (fun i h => inRange i (.inl h)) wiredl measuredl rfl
      have lsizel : lower.lsize = a.weight arena.pieceSize := (sidesl .left).2
      rw [Shape.weight_node] at room
      simp only [Shape.root]
      rw [Arena.node_eq_ok.mpr foundl, ok_bind, goesPast_left (by omega), ok_bind, lsizel,
        pure_eq_ok]
  · by_cases beyond : z.passed arena.pieceSize + left.weight arena.pieceSize +
        arena.pieceSize pass.here < offset
    · simp only [if_neg before, if_pos beyond, (sides .right).1, Shape.on]
      cases right with
      | empty => rfl
      | node b child a =>
        obtain ⟨lower, foundl, piecel, sidesl⟩ :=
          exists_node (fun i h => inRange i (.inr (.inr h))) wiredr measuredr rfl
        have lsizel : lower.lsize = b.weight arena.pieceSize := (sidesl .left).2
        rw [Shape.weight_node] at room
        simp only [Shape.root]
        rw [Arena.node_eq_ok.mpr foundl, ok_bind, goesPast_right (by omega), ok_bind, lsizel, lsize,
          ← piece, ← piecel, pure_eq_ok]
    · simp only [if_neg before, if_neg beyond, pure_eq_ok]

/-- Whatever turns a pass over right sizes has taken, its next one is decided by the sizes alone. -/
theorem Sound.decides {made : Zipper.Choice} (sound : Sound arena pass z)
    (same : z'.inOrder = z.inOrder)
    (advances : Advances arena after pass pass' z z') (h : choice offset after pass' = .ok made) :
    made = z'.choose arena.pieceSize offset := by
  rw [choice_eq (sound.advance same advances), advances.keeps.pieceSize] at h
  exact (Except.ok.inj h).symm

end Splay
end PieceIndex
