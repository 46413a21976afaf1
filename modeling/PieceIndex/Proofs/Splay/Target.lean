import PieceIndex.Proofs.Splay.Exact

/-!
Where a splay over right sizes ends. At each turn the offset lies in what is still ahead: past all
that has been left behind on the left, and no further than the right end of the focus; or else it is
0 and nothing has been left behind. So a pass never heads where there is no node, unless it is
already on the first piece or has just been rotated onto the one that covers the offset.
-/
namespace PieceIndex
namespace Zipper
variable {size : NodeId → Nat} {offset : Nat} {z : Zipper}

/-- The offset lies past `edge`, or both lie at the beginning of the document. -/
def Past (offset edge : Nat) : Prop := edge < offset ∨ offset = 0 ∧ edge = 0

/-- The offset lies in what is ahead of the pass. -/
structure Within (size : NodeId → Nat) (offset : Nat) (z : Zipper) : Prop where
  past : Past offset (z.passed size)
  inside : offset ≤ z.passed size + z.focus.weight size

/-- The offset lies in the piece at the top of the focus. -/
def Reached (size : NodeId → Nat) (offset : Nat) (z : Zipper) : Prop :=
  ∃ left id right, z.focus = .node left id right ∧
    Past offset (z.passed size + left.weight size) ∧
    offset ≤ z.passed size + left.weight size + size id

/-- What a turn is to lead to: the offset is still ahead, or the pass has come to its piece. -/
def Leads (size : NodeId → Nat) (offset : Nat) (turned : Zipper × Bool) : Prop :=
  if turned.2 then turned.1.Within size offset else turned.1.Reached size offset

section
variable {ls rs : List Rib} {left right : Shape} {id : NodeId}

theorem choose_left {a b : Shape} {child : NodeId}
    (before : offset ≤ sizeSum size (Rib.before ls) + (Shape.node a child b).weight size ∧
      ¬(offset = 0 ∧ sizeSum size (Rib.before ls) + (Shape.node a child b).weight size = 0)) :
    choose size offset ⟨ls, .node (.node a child b) id right, rs⟩ =
      some (.left, decide (offset ≤ sizeSum size (Rib.before ls) + a.weight size)) := by
  simp only [choose, passed]
  exact if_pos before

theorem choose_right {a b : Shape} {child : NodeId}
    (beyond : sizeSum size (Rib.before ls) + left.weight size + size id < offset) :
    choose size offset ⟨ls, .node left id (.node b child a), rs⟩ =
      some (.right, decide (sizeSum size (Rib.before ls) + left.weight size + size id +
        b.weight size + size child < offset)) := by
  have notBefore : ¬(offset ≤ sizeSum size (Rib.before ls) + left.weight size ∧
      ¬(offset = 0 ∧ sizeSum size (Rib.before ls) + left.weight size = 0)) := by omega
  simp only [choose, passed]
  exact (if_neg notBefore).trans (if_pos beyond)

theorem choose_stays
    (notBefore : ¬(offset ≤ sizeSum size (Rib.before ls) + left.weight size ∧
      ¬(offset = 0 ∧ sizeSum size (Rib.before ls) + left.weight size = 0)))
    (notBeyond : ¬sizeSum size (Rib.before ls) + left.weight size + size id < offset) :
    choose size offset ⟨ls, .node left id right, rs⟩ = none := by
  simp only [choose, passed]
  exact (if_neg notBefore).trans (if_neg notBeyond)

theorem heads_left {rotates : Bool}
    (heads : choose size offset ⟨ls, .node left id right, rs⟩ = some (.left, rotates)) :
    offset ≤ sizeSum size (Rib.before ls) + left.weight size ∧
      ¬(offset = 0 ∧ sizeSum size (Rib.before ls) + left.weight size = 0) := by
  by_cases before : offset ≤ sizeSum size (Rib.before ls) + left.weight size ∧
      ¬(offset = 0 ∧ sizeSum size (Rib.before ls) + left.weight size = 0)
  · exact before
  · by_cases beyond : sizeSum size (Rib.before ls) + left.weight size + size id < offset
    · cases right with
      | empty =>
        simp only [choose, passed] at heads
        cases ((if_neg before).trans (if_pos beyond)).symm.trans heads
      | node b child a =>
        rw [choose_right beyond] at heads
        cases heads
    · rw [choose_stays before beyond] at heads
      cases heads

theorem heads_right {rotates : Bool}
    (heads : choose size offset ⟨ls, .node left id right, rs⟩ = some (.right, rotates)) :
    sizeSum size (Rib.before ls) + left.weight size + size id < offset := by
  by_cases before : offset ≤ sizeSum size (Rib.before ls) + left.weight size ∧
      ¬(offset = 0 ∧ sizeSum size (Rib.before ls) + left.weight size = 0)
  · cases left with
    | empty =>
      simp only [choose, passed] at heads
      cases (if_pos before).symm.trans heads
    | node a child b =>
      rw [choose_left before] at heads
      cases heads
  · by_cases beyond : sizeSum size (Rib.before ls) + left.weight size + size id < offset
    · exact beyond
    · rw [choose_stays before beyond] at heads
      cases heads

/-- Heading left, the offset lies left of the top piece, where some node must be. -/
theorem leads_left (past : Past offset (sizeSum size (Rib.before ls)))
    (before : offset ≤ sizeSum size (Rib.before ls) + left.weight size ∧
      ¬(offset = 0 ∧ sizeSum size (Rib.before ls) + left.weight size = 0)) :
    let z : Zipper := ⟨ls, .node left id right, rs⟩
    Leads size offset (z.turn (z.choose size offset)) := by
  cases left with
  | empty =>
    rw [Shape.weight_empty] at before
    rcases past with past | past <;> omega
  | node a child b =>
    dsimp only
    rw [choose_left before]
    by_cases further : offset ≤ sizeSum size (Rib.before ls) + a.weight size
    · rw [decide_eq_true further]
      cases a with
      | empty => exact ⟨.empty, child, .node b id right, rfl, past, Nat.le_add_right_of_le further⟩
      | node c grandchild d => exact ⟨past, further⟩
    · rw [decide_eq_false further]
      exact ⟨past, before.1⟩

theorem passed_cons (size : NodeId → Nat) (ls : List Rib) (outer : Shape) (id : NodeId) :
    sizeSum size (Rib.before (⟨id, outer⟩ :: ls)) =
      sizeSum size (Rib.before ls) + outer.weight size + size id := by
  simp only [Rib.before, sizeSum_append, sizeSum_cons, sizeSum_nil, Shape.weight]
  omega

/-- Heading right, the offset lies right of the top piece, where some node must be. -/
theorem leads_right (beyond : sizeSum size (Rib.before ls) + left.weight size + size id < offset)
    (inside : offset ≤
      sizeSum size (Rib.before ls) + left.weight size + size id + right.weight size) :
    let z : Zipper := ⟨ls, .node left id right, rs⟩
    Leads size offset (z.turn (z.choose size offset)) := by
  cases right with
  | empty =>
    rw [Shape.weight_empty] at inside
    omega
  | node b child a =>
    dsimp only
    rw [choose_right beyond]
    rw [Shape.weight_node] at inside
    by_cases further : sizeSum size (Rib.before ls) + left.weight size + size id +
        b.weight size + size child < offset
    · rw [decide_eq_true further]
      cases a with
      | empty =>
        rw [Shape.weight_empty] at inside
        omega
      | node c grandchild d =>
        have grown := passed_cons size ls (.node left id b) child
        rw [Shape.weight_node] at grown
        refine ⟨.inl ?_, ?_⟩
        · show sizeSum size (Rib.before (⟨child, .node left id b⟩ :: ls)) < offset
          omega
        · show offset ≤ sizeSum size (Rib.before (⟨child, .node left id b⟩ :: ls)) +
            (Shape.node c grandchild d).weight size
          omega
    · rw [decide_eq_false further]
      have grown := passed_cons size ls left id
      refine ⟨.inl ?_, ?_⟩
      · show sizeSum size (Rib.before (⟨id, left⟩ :: ls)) < offset
        omega
      · show offset ≤ sizeSum size (Rib.before (⟨id, left⟩ :: ls)) +
          (Shape.node b child a).weight size
        rw [Shape.weight_node]
        omega

end

theorem within_start {shape : Shape} (inside : offset ≤ shape.weight size) :
    Within size offset { focus := shape } := by
  refine ⟨?_, by simpa [passed, Rib.before] using inside⟩
  exact (Nat.eq_zero_or_pos offset).symm.imp_right (⟨·, rfl⟩)

/-- A turn keeps the offset in what is ahead, and ends at the piece that covers it. -/
theorem Within.turn (within : z.Within size offset) (ahead : z.focus ≠ .empty) :
    Leads size offset (z.turn (z.choose size offset)) := by
  obtain ⟨ls, focus, rs⟩ := z
  obtain ⟨past, inside⟩ := within
  cases focus with
  | empty => exact absurd rfl ahead
  | node left id right =>
    dsimp only [passed] at past inside
    rw [Shape.weight_node] at inside
    by_cases before : offset ≤ sizeSum size (Rib.before ls) + left.weight size ∧
        ¬(offset = 0 ∧ sizeSum size (Rib.before ls) + left.weight size = 0)
    · exact leads_left past before
    · by_cases beyond : sizeSum size (Rib.before ls) + left.weight size + size id < offset
      · exact leads_right beyond (by omega)
      · rw [choose_stays before beyond]
        refine ⟨left, id, right, rfl, ?_, Nat.le_of_not_lt beyond⟩
        show Past offset (sizeSum size (Rib.before ls) + left.weight size)
        unfold Past
        omega

/-- A pass over right sizes ends at the piece that covers the offset. -/
theorem Within.descend (within : z.Within size offset) (ahead : z.focus ≠ .empty) :
    (z.descend (choose size offset)).Reached size offset := by
  induction z using descend.induct (choose size offset) with
  | case1 z goesOn ih =>
    have leads := within.turn ahead
    rw [Leads, if_pos goesOn] at leads
    rw [descend_of_goesOn goesOn]
    exact ih leads (turn_goesOn goesOn).2
  | case2 z stops =>
    have leads := within.turn ahead
    rw [Leads, if_neg stops] at leads
    rwa [descend_of_stops stops]

end Zipper

section
variable {size : NodeId → Nat}

/-- Two items of one list are the same, or one of them stands behind the other. -/
theorem split_cases {α : Type} {xs ys us vs : List α} {a b : α}
    (same : xs ++ a :: ys = us ++ b :: vs) :
    (xs = us ∧ a = b) ∨ (∃ gap, us = xs ++ a :: gap) ∨ ∃ gap, xs = us ++ b :: gap := by
  rcases List.append_eq_append_iff.mp same with ⟨gap, longer, tail⟩ | ⟨gap, shorter, tail⟩
  · cases gap with
    | nil => exact .inl ⟨by simpa using longer.symm, (List.cons.inj tail).1⟩
    | cons next gap =>
      obtain ⟨rfl, -⟩ := List.cons.inj tail
      exact .inr (.inl ⟨gap, longer⟩)
  · cases gap with
    | nil => exact .inl ⟨by simpa using shorter, (List.cons.inj tail).1.symm⟩
    | cons next gap =>
      obtain ⟨rfl, -⟩ := List.cons.inj tail
      exact .inr (.inr ⟨gap, shorter⟩)

/-- The first of the nodes whose right edge is not before the offset: it stands behind `before`, and
every node of `before` ends too early. -/
structure Covers (size : NodeId → Nat) (offset : Nat) (ids before : List NodeId) (id : NodeId) :
    Prop where
  stands : ∃ rest, ids = before ++ id :: rest
  reaches : offset ≤ sizeSum size before + size id
  first : ∀ earlier node later, before = earlier ++ node :: later →
    sizeSum size earlier + size node < offset

theorem Covers.at_zero {ids before : List NodeId} {id : NodeId}
    (covers : Covers size 0 ids before id) : ids.head? = some id := by
  obtain ⟨rest, rfl⟩ := covers.stands
  cases before with
  | nil => rfl
  | cons node later => exact absurd (covers.first [] node later rfl) (Nat.not_lt_zero _)

/-- An offset on the edge between two pieces belongs to the piece that ends there. -/
theorem Covers.at_edge {offset : Nat} {ids before earlier later : List NodeId} {id node : NodeId}
    (covers : Covers size offset ids before id) (nonempty : ∀ i ∈ ids, 1 ≤ size i)
    (stands : ids = earlier ++ node :: later) (edge : offset = sizeSum size earlier + size node) :
    id = node := by
  obtain ⟨rest, whole⟩ := covers.stands
  have reaches := covers.reaches
  rcases split_cases (whole.symm.trans stands) with ⟨-, same⟩ | ⟨gap, longer⟩ | ⟨gap, shorter⟩
  · exact same
  · have positive := nonempty node (by simp [stands])
    rw [longer, sizeSum_append, sizeSum_cons] at edge
    omega
  · exact absurd (covers.first earlier node gap shorter) (by omega)

/-- The piece that a pass has reached becomes the root, with all that comes before it on its
left. -/
theorem Zipper.Reached.covers {offset : Nat} {z : Zipper} (reached : z.Reached size offset)
    (nonempty : ∀ i ∈ z.inOrder, 1 ≤ size i) :
    ∃ left id right, z.close = .node left id right ∧
      Covers size offset z.inOrder left.inOrder id := by
  obtain ⟨left, id, right, focus, past, reaches⟩ := reached
  have before : (Rib.close .left z.left left).inOrder = Rib.before z.left ++ left.inOrder :=
    Rib.inOrder_close .left z.left left
  have sum : sizeSum size (Rib.close .left z.left left).inOrder =
      z.passed size + left.weight size := by
    rw [before, sizeSum_append, passed, Shape.weight]
  refine ⟨_, id, _, close_eq focus, ⟨right.inOrder ++ Rib.after z.right, ?_⟩, ?_, ?_⟩
  · simp [inOrder, focus, Shape.inOrder, before]
  · rwa [sum]
  · intro earlier node later split
    have positive := nonempty node (by simp [inOrder, focus, Shape.inOrder, ← List.append_assoc,
      ← before, split])
    rw [split, sizeSum_append, sizeSum_cons] at sum
    rcases past with past | past <;> omega

/-- A splay to an offset within the document brings up the piece that covers the offset. -/
theorem Shape.exists_splay_eq {offset : Nat} {shape : Shape} (ahead : shape ≠ .empty)
    (within : offset ≤ shape.weight size) (nonempty : ∀ i ∈ shape.inOrder, 1 ≤ size i) :
    ∃ left id right, shape.splay size offset = .node left id right ∧
      Covers size offset shape.inOrder left.inOrder id := by
  obtain ⟨left, id, right, close, covers⟩ :=
    ((Zipper.within_start within).descend ahead).covers (by simpa using nonempty)
  rw [Zipper.inOrder_descend, Zipper.inOrder_start] at covers
  exact ⟨left, id, right, close, covers⟩

end

namespace Tree
variable {tree : Tree} {shape : Shape}

/-- A splay within the document brings up the piece that covers the offset, with all that comes
before it on its left. -/
theorem WellFormedAs.exists_covers (well : tree.WellFormedAs shape)
    (nonempty : tree.isEmpty = false)
    {offset : Nat} (within : offset ≤ shape.weight tree.nodes.pieceSize) :
    ∃ after left root right, tree.splay offset = .ok (after, some root) ∧
      after.WellFormedAs (.node left root right) ∧
      tree.Rearranges after shape (.node left root right) ∧
      Covers tree.nodes.pieceSize offset shape.inOrder left.inOrder root := by
  have ahead : shape ≠ .empty := by
    rintro rfl
    simp [isEmpty, well.root_eq, Shape.root] at nonempty
  obtain ⟨left, root, right, splay, covers⟩ := Shape.exists_splay_eq ahead within well.nonempty
  obtain ⟨after, steps, splayed, well', rearranges⟩ := well.splayTraced within
  rw [splay] at well' rearranges
  rw [show after.root = some root from well'.root_eq] at splayed
  exact ⟨after, left, root, right, splay_eq_ok.mpr ⟨steps, splayed⟩, well', rearranges, covers⟩

/-- On a well-formed tree that is not empty a splay to an offset within the document brings up the
piece that covers the offset, and finds what lies before it on its left. -/
theorem splay_covers (well : tree.WellFormedAs shape) (nonempty : tree.isEmpty = false)
    {offset length : Nat} (measured : tree.length = .ok length) (within : offset ≤ length) :
    ∃ after root node before, tree.splay offset = .ok (after, some root) ∧ after.root = some root ∧
      after.node root = .ok node ∧ node.lsize = sizeSum tree.nodes.pieceSize before ∧
      Covers tree.nodes.pieceSize offset shape.inOrder before root ∧
      (offset = 0 → shape.inOrder.head? = some root) ∧
      ∀ earlier id later, shape.inOrder = earlier ++ id :: later →
        offset = sizeSum tree.nodes.pieceSize earlier + tree.nodes.pieceSize id → root = id := by
  rw [well.length_eq] at measured
  cases measured
  obtain ⟨after, left, root, right, splayed, well', rearranges, covers⟩ :=
    well.exists_covers nonempty within
  obtain ⟨node, found, lsize, -⟩ := well'.sizes.1
  rw [Arena.weight_eq, rearranges.keeps.pieceSize] at lsize
  refine ⟨after, root, node, left.inOrder, splayed, well'.root_eq, Arena.node_eq_ok.mpr found,
    lsize, covers, ?_, fun earlier id later => covers.at_edge well.nonempty⟩
  rintro rfl
  exact covers.at_zero

/-- Three pieces of sizes 3, 4 and 5, the second one at the root. -/
def three : Tree where
  nodes := #[{ piece := .sized 3, parent := some 1 },
    { piece := .sized 4, lsize := 3, rsize := 5, left := some 0, right := some 2 },
    { piece := .sized 5, parent := some 1 }]
  root := some 1

theorem wellFormedAs_three :
    three.WellFormedAs (.node (.node .empty 0 .empty) 1 (.node .empty 2 .empty)) := by
  have stands : three.nodes.Stands (.node (.node .empty 0 .empty) 1 (.node .empty 2 .empty)) := by
    refine ⟨by decide, by decide, ?_, ?_, ?_⟩
    · exact ⟨rfl, rfl, ⟨rfl, rfl, trivial, trivial⟩, rfl, rfl, trivial, trivial⟩
    · exact ⟨rfl, ⟨rfl, trivial, trivial⟩, rfl, trivial, trivial⟩
    · exact ⟨rfl, rfl, ⟨rfl, rfl, trivial, trivial⟩, rfl, rfl, trivial, trivial⟩
  exact .of_stands stands (by decide) (by decide) (by decide)

/-- The end of three pieces brings up the last one, which was below the second. -/
theorem splay_covers_three :
    three.root = some 1 ∧ ∃ after node before, three.splay 12 = .ok (after, some 2) ∧
      after.root = some 2 ∧ after.node 2 = .ok node ∧
      node.lsize = sizeSum three.nodes.pieceSize before ∧
      Covers three.nodes.pieceSize 12 [0, 1, 2] before 2 := by
  have within : 12 ≤ 12 := by decide
  obtain ⟨after, root, node, before, h, top, found, lsize, covers, -, edge⟩ :=
    splay_covers wellFormedAs_three rfl rfl within
  obtain rfl : root = 2 := edge [0, 1] 2 [] rfl rfl
  exact ⟨rfl, after, node, before, h, top, found, lsize, covers⟩

/-- Seven pieces of one size, in a tree that is deep on its left. -/
def seven : Tree where
  nodes := #[{ piece := .sized 1, parent := some 1 },
    { piece := .sized 1, lsize := 1, rsize := 1, left := some 0, right := some 2,
      parent := some 3 },
    { piece := .sized 1, parent := some 1 },
    { piece := .sized 1, lsize := 3, rsize := 1, left := some 1, right := some 4,
      parent := some 5 },
    { piece := .sized 1, parent := some 3 },
    { piece := .sized 1, lsize := 5, rsize := 1, left := some 3, right := some 6 },
    { piece := .sized 1, parent := some 5 }]
  root := some 5

def sevenShape : Shape :=
  .node
    (.node (.node (.node .empty 0 .empty) 1 (.node .empty 2 .empty)) 3 (.node .empty 4 .empty)) 5
    (.node .empty 6 .empty)

theorem wellFormedAs_seven : seven.WellFormedAs sevenShape := by
  have stands : seven.nodes.Stands sevenShape := by
    refine ⟨by decide, by decide, ?_, ?_, ?_⟩
    · exact ⟨rfl, rfl, ⟨rfl, rfl, ⟨rfl, rfl, ⟨rfl, rfl, trivial, trivial⟩, rfl, rfl, trivial,
        trivial⟩, rfl, rfl, trivial, trivial⟩, rfl, rfl, trivial, trivial⟩
    · exact ⟨rfl, ⟨rfl, ⟨rfl, ⟨rfl, trivial, trivial⟩, rfl, trivial, trivial⟩, rfl, trivial,
        trivial⟩, rfl, trivial, trivial⟩
    · exact ⟨rfl, rfl, ⟨rfl, rfl, ⟨rfl, rfl, ⟨rfl, rfl, trivial, trivial⟩, rfl, rfl, trivial,
        trivial⟩, rfl, rfl, trivial, trivial⟩, rfl, rfl, trivial, trivial⟩
  exact .of_stands stands (by decide) (by decide) (by decide)

end Tree
end PieceIndex
