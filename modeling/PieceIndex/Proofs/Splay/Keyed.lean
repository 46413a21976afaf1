import PieceIndex.Proofs.KeyMap.Renaming
import PieceIndex.Proofs.Splay.Target

/-!
The two ways to splay compared. When every node is keyed with the right edge of its piece, a pass
for the key of the piece that covers an offset takes the same turns as a pass to the offset. Only at
offset 0 the ways part: above the first piece the pass to the offset rotates once more and then
finds nothing ahead, while the pass for the key goes on to the piece and stops there. They still end
in one shape. Nor does the shape depend on how its nodes are named.
-/
namespace PieceIndex
open KeyMap (Ascending)

variable {size keyAt : NodeId → Nat} {offset : Nat} {ids before : List NodeId} {owner : NodeId}

/-- Every node is keyed with the right edge of its piece. -/
def Edges (size keyAt : NodeId → Nat) (ids : List NodeId) : Prop :=
  ∀ before id rest, ids = before ++ id :: rest → keyAt id = sizeSum size before + size id

/-- Right edges ascend, wherever the document begins. -/
theorem ascending_of_edges (base : Nat)
    (edges : ∀ before id rest, ids = before ++ id :: rest →
      keyAt id = base + sizeSum size before + size id)
    (nonempty : ∀ id ∈ ids, 1 ≤ size id) : Ascending keyAt ids := by
  induction ids generalizing base with
  | nil => exact List.Pairwise.nil
  | cons id ids ih =>
    rw [List.forall_mem_cons] at nonempty
    rw [Ascending, List.pairwise_cons]
    constructor
    · intro later inside
      have positive := nonempty.2 later inside
      obtain ⟨between, rest, rfl⟩ := List.append_of_mem inside
      have here := edges [] id _ rfl
      have there := edges (id :: between) later rest rfl
      rw [sizeSum_nil] at here
      rw [sizeSum_cons] at there
      omega
    · apply ih (base + size id) _ nonempty.2
      rintro between later rest rfl
      have there := edges (id :: between) later rest rfl
      rw [sizeSum_cons] at there
      omega

theorem Edges.ascending (edges : Edges size keyAt ids) (nonempty : ∀ id ∈ ids, 1 ≤ size id) :
    Ascending keyAt ids := by
  apply ascending_of_edges 0 _ nonempty
  intro before id rest split
  rw [edges before id rest split]
  omega

/-- The piece that covers an offset parts the others by its right edge as the offset does: the same
ones end before it, and the same ones begin behind it. -/
theorem Covers.parts (covers : Covers size offset ids before owner) (edges : Edges size keyAt ids)
    (nonempty : ∀ id ∈ ids, 1 ≤ size id) {earlier later : List NodeId} {id : NodeId}
    (stands : ids = earlier ++ id :: later) :
    (keyAt id < keyAt owner ↔ keyAt id < offset) ∧
    (keyAt owner < keyAt id ↔
      offset ≤ sizeSum size earlier ∧ ¬(offset = 0 ∧ sizeSum size earlier = 0)) := by
  obtain ⟨rest, whole⟩ := covers.stands
  have reaches := covers.reaches
  have ownerKey := edges before owner rest whole
  have key := edges earlier id later stands
  have positive := nonempty id (by simp [stands])
  have ownerPositive := nonempty owner (by simp [whole])
  rcases split_cases (whole.symm.trans stands) with ⟨rfl, rfl⟩ | ⟨gap, longer⟩ | ⟨gap, shorter⟩
  · rcases List.eq_nil_or_concat before with rfl | ⟨init, last, rfl⟩
    · rw [sizeSum_nil] at key ⊢
      omega
    · have ends := covers.first init last [] (by simp)
      rw [List.concat_eq_append, sizeSum_append, sizeSum_cons, sizeSum_nil] at key ⊢
      omega
  · rw [longer, sizeSum_append, sizeSum_cons] at key ⊢
    omega
  · have ends := covers.first earlier id gap shorter
    omega

theorem eq_nil_of_sizeSum {items : List NodeId} (nonempty : ∀ id ∈ items, 1 ≤ size id)
    (nothing : sizeSum size items = 0) : items = [] := by
  cases items with
  | nil => rfl
  | cons id items =>
    have positive := nonempty id List.mem_cons_self
    rw [sizeSum_cons] at nothing
    omega

namespace Zipper
variable {z : Zipper} {ls rs : List Rib} {left right a b : Shape} {id child : NodeId} {key : Nat}

/-- Above the first piece on the way to offset 0, where the pass rotates for nothing. -/
structure AtFirst (size : NodeId → Nat) (offset : Nat) (z : Zipper) (child : NodeId) : Prop where
  start : offset = 0
  first : z.inOrder.head? = some child
  focus : ∃ b id right, z.focus = .node (.node .empty child b) id right
  rotates : z.choose size offset = some (.left, true)

theorem seek_left_empty (heading : key < keyAt id) :
    seek keyAt key ⟨ls, .node .empty id right, rs⟩ = some (.left, false) := by
  rw [← sideOf_eq_left] at heading
  simp [seek, Shape.root, Shape.on, heading]

theorem seek_left (heading : key < keyAt id) :
    seek keyAt key ⟨ls, .node (.node a child b) id right, rs⟩ =
      some (.left, decide (key < keyAt child)) := by
  rw [← sideOf_eq_left] at heading
  simp [seek, Shape.root, Shape.on, heading]

theorem seek_right_empty (heading : keyAt id < key) :
    seek keyAt key ⟨ls, .node left id .empty, rs⟩ = some (.right, false) := by
  rw [← sideOf_eq_right] at heading
  simp [seek, Shape.root, Shape.on, heading]

theorem seek_right (heading : keyAt id < key) :
    seek keyAt key ⟨ls, .node left id (.node b child a), rs⟩ =
      some (.right, decide (keyAt child < key)) := by
  rw [← sideOf_eq_right] at heading
  simp [seek, Shape.root, Shape.on, heading]

section
variable (covers : Covers size offset (inOrder ⟨ls, .node left id right, rs⟩) before owner)
  (edges : Edges size keyAt (inOrder ⟨ls, .node left id right, rs⟩))
  (nonempty : ∀ i ∈ inOrder ⟨ls, .node left id right, rs⟩, 1 ≤ size i)
include covers edges nonempty

/-- Towards the left the passes differ only above the first piece. -/
theorem seek_eq_choose_left (heading : keyAt owner < keyAt id)
    (inFront : offset ≤ sizeSum size (Rib.before ls) + left.weight size ∧
      ¬(offset = 0 ∧ sizeSum size (Rib.before ls) + left.weight size = 0)) :
    seek keyAt (keyAt owner) ⟨ls, .node left id right, rs⟩ =
      choose size offset ⟨ls, .node left id right, rs⟩ ∨
    ∃ child, AtFirst size offset ⟨ls, .node left id right, rs⟩ child ∧
      seek keyAt (keyAt owner) ⟨ls, .node left id right, rs⟩ = some (.left, false) := by
  cases left with
  | empty =>
    left
    rw [seek_left_empty heading]
    simp only [choose, passed]
    exact (if_pos inFront).symm
  | node a child b =>
    have stands : inOrder ⟨ls, .node (.node a child b) id right, rs⟩ =
        (Rib.before ls ++ a.inOrder) ++ child ::
          (b.inOrder ++ id :: (right.inOrder ++ Rib.after rs)) := by
      simp [inOrder, Shape.inOrder]
    have ahead := (covers.parts edges nonempty stands).2
    rw [sizeSum_append] at ahead
    rw [seek_left heading, choose_left inFront]
    by_cases corner : offset = 0 ∧ sizeSum size (Rib.before ls) + a.weight size = 0
    · right
      obtain ⟨start, nothing⟩ := corner
      -- no piece is empty, so nothing stands left of the child at all
      have outer : Rib.before ls ++ a.inOrder = [] := by
        apply eq_nil_of_sizeSum
        · intro i inside
          exact nonempty i (by rw [stands]; exact List.mem_append_left _ inside)
        · rw [sizeSum_append]
          exact nothing
      obtain ⟨-, bare⟩ := List.append_eq_nil_iff.mp outer
      have alone : a = .empty := by
        rw [← Shape.count_eq_zero, ← Shape.length_inOrder, bare]
        rfl
      refine ⟨child, ⟨start, ?_, ⟨b, id, right, by rw [alone]⟩, ?_⟩, ?_⟩
      · rw [stands, outer]
        rfl
      · rw [choose_left inFront, decide_eq_true (by omega)]
      · rw [decide_eq_false (fun further => (ahead.mp further).2 ⟨start, nothing⟩)]
    · left
      have same :
          keyAt owner < keyAt child ↔ offset ≤ sizeSum size (Rib.before ls) + a.weight size :=
        ahead.trans (and_iff_left corner)
      rw [decide_eq_decide.mpr same]

/-- Towards the right the passes do not differ. -/
theorem seek_eq_choose_right (heading : keyAt id < keyAt owner)
    (beyond : sizeSum size (Rib.before ls) + left.weight size + size id < offset) :
    seek keyAt (keyAt owner) ⟨ls, .node left id right, rs⟩ =
      choose size offset ⟨ls, .node left id right, rs⟩ := by
  cases right with
  | empty =>
    have notInFront : ¬(offset ≤ sizeSum size (Rib.before ls) + left.weight size ∧
        ¬(offset = 0 ∧ sizeSum size (Rib.before ls) + left.weight size = 0)) := by omega
    rw [seek_right_empty heading]
    simp only [choose, passed]
    exact ((if_neg notInFront).trans (if_pos beyond)).symm
  | node b child a =>
    have stands : inOrder ⟨ls, .node left id (.node b child a), rs⟩ =
        (Rib.before ls ++ (left.inOrder ++ id :: b.inOrder)) ++ child ::
          (a.inOrder ++ Rib.after rs) := by
      simp [inOrder, Shape.inOrder]
    have further := (covers.parts edges nonempty stands).1
    have key := edges _ child _ stands
    have sum : sizeSum size (Rib.before ls ++ (left.inOrder ++ id :: b.inOrder)) =
        sizeSum size (Rib.before ls) + left.weight size + size id + b.weight size := by
      simp only [sizeSum_append, sizeSum_cons, Shape.weight]
      omega
    rw [sum] at key
    have same : keyAt child < keyAt owner ↔ sizeSum size (Rib.before ls) + left.weight size +
        size id + b.weight size + size child < offset := by
      rw [← key]
      exact further
    rw [seek_right heading, choose_right beyond, decide_eq_decide.mpr same]

end

/-- The pass to the offset decides as the pass for the key does, except above the first piece. -/
theorem seek_eq_choose (ahead : z.focus ≠ .empty)
    (covers : Covers size offset z.inOrder before owner) (edges : Edges size keyAt z.inOrder)
    (nonempty : ∀ i ∈ z.inOrder, 1 ≤ size i) :
    z.seek keyAt (keyAt owner) = z.choose size offset ∨
    ∃ child, z.AtFirst size offset child ∧ z.seek keyAt (keyAt owner) = some (.left, false) := by
  obtain ⟨ls, focus, rs⟩ := z
  cases focus with
  | empty => exact absurd rfl ahead
  | node left id right =>
    have stands : inOrder ⟨ls, .node left id right, rs⟩ =
        (Rib.before ls ++ left.inOrder) ++ id :: (right.inOrder ++ Rib.after rs) := by
      simp [inOrder, Shape.inOrder]
    obtain ⟨behind, inFront⟩ := covers.parts edges nonempty stands
    have key := edges _ id _ stands
    have edge : sizeSum size (Rib.before ls ++ left.inOrder) =
        sizeSum size (Rib.before ls) + left.weight size := by
      rw [sizeSum_append, Shape.weight]
    rw [edge] at inFront key
    by_cases before : keyAt owner < keyAt id
    · exact seek_eq_choose_left covers edges nonempty before (inFront.mp before)
    · left
      by_cases after : keyAt id < keyAt owner
      · exact seek_eq_choose_right covers edges nonempty after (key ▸ behind.mp after)
      · have here : sideOf (keyAt owner) (keyAt id) = none := by
          rw [sideOf_eq_none]
          omega
        have stops : choose size offset ⟨ls, .node left id right, rs⟩ = none := by
          rw [inFront] at before
          rw [behind, key] at after
          simp only [choose, passed]
          exact (if_neg before).trans (if_neg after)
        rw [stops]
        simp [seek, Shape.root, here]

/-- Where the pass to the offset rotates once more, the pass for the key ends in the same shape. -/
theorem AtFirst.close_descend (first : z.AtFirst size offset child)
    (covers : Covers size offset z.inOrder before owner)
    (seeks : z.seek keyAt (keyAt owner) = some (.left, false)) :
    (z.descend (seek keyAt (keyAt owner))).close = (z.descend (choose size offset)).close := by
  obtain ⟨rfl, head, ⟨b, id, right, focus⟩, rotates⟩ := first
  have same := covers.at_zero
  rw [head, Option.some.injEq] at same
  subst same
  obtain ⟨ls, shape, rs⟩ := z
  subst focus
  have stuck : turn ⟨ls, .node (.node .empty child b) id right, rs⟩ (some (.left, true)) =
      (⟨ls, .node .empty child (.node b id right), rs⟩, false) := turn_stuck rfl
  have linked : turn ⟨ls, .node (.node .empty child b) id right, rs⟩ (some (.left, false)) =
      (⟨ls, .node .empty child b, ⟨id, right⟩ :: rs⟩, true) := turn_link (Shape.noConfusion ·)
  have arrived : seek keyAt (keyAt child) ⟨ls, .node .empty child b, ⟨id, right⟩ :: rs⟩ = none := by
    have here : sideOf (keyAt child) (keyAt child) = none := sideOf_eq_none.mpr rfl
    simp [seek, Shape.root, here]
  -- the pass for the key links where the other rotates, and stops on the piece itself
  have keyed : descend (seek keyAt (keyAt child)) ⟨ls, .node (.node .empty child b) id right, rs⟩ =
      ⟨ls, .node .empty child b, ⟨id, right⟩ :: rs⟩ := by
    rw [descend, seeks, linked, dif_pos rfl, descend, arrived]
    exact dif_neg Bool.false_ne_true
  have sized : descend (choose size 0) ⟨ls, .node (.node .empty child b) id right, rs⟩ =
      ⟨ls, .node .empty child (.node b id right), rs⟩ := by
    rw [descend, rotates, stuck]
    exact dif_neg Bool.false_ne_true
  rw [keyed, sized]
  rfl

/-- Both passes end in one shape. -/
theorem close_descend_seek (ahead : z.focus ≠ .empty)
    (covers : Covers size offset z.inOrder before owner) (edges : Edges size keyAt z.inOrder)
    (nonempty : ∀ i ∈ z.inOrder, 1 ≤ size i) :
    (z.descend (seek keyAt (keyAt owner))).close = (z.descend (choose size offset)).close := by
  induction z using descend.induct (choose size offset) with
  | case1 z goesOn ih =>
    rcases seek_eq_choose ahead covers edges nonempty with same | ⟨child, first, seeks⟩
    · rw [descend_of_goesOn goesOn, descend_of_goesOn (by rw [same]; exact goesOn), same]
      apply ih (turn_goesOn goesOn).2
      · rwa [inOrder_turn]
      · rwa [inOrder_turn]
      · rwa [inOrder_turn]
    · exact first.close_descend covers seeks
  | case2 z stops =>
    rcases seek_eq_choose ahead covers edges nonempty with same | ⟨child, first, seeks⟩
    · rw [descend_of_stops stops, descend_of_stops (by rw [same]; exact stops), same]
    · exact first.close_descend covers seeks

end Zipper

/-- A splay for the right edge of the piece that covers an offset makes of a shape what a splay to
the offset does. -/
theorem Shape.seek_eq_splay {shape : Shape} (covers : Covers size offset shape.inOrder before owner)
    (edges : Edges size keyAt shape.inOrder) (nonempty : ∀ i ∈ shape.inOrder, 1 ≤ size i) :
    shape.seek keyAt (keyAt owner) = shape.splay size offset := by
  have ahead : shape ≠ .empty := by
    rintro rfl
    obtain ⟨rest, stands⟩ := covers.stands
    simp [inOrder] at stands
  rw [seek, splay]
  apply Zipper.close_descend_seek ahead
  · rwa [Zipper.inOrder_start]
  · rwa [Zipper.inOrder_start]
  · rwa [Zipper.inOrder_start]

/-! A splay with its nodes renamed. -/

def Rib.map (f : Nat → Nat) (rib : Rib) : Rib := ⟨f rib.node, rib.outer.map f⟩

/-- The zipper with its nodes renamed. -/
def Zipper.map (f : Nat → Nat) (z : Zipper) : Zipper :=
  ⟨z.left.map (Rib.map f), z.focus.map f, z.right.map (Rib.map f)⟩

namespace Shape
variable (f : Nat → Nat) (side : Side) (shape : Shape)

@[simp] theorem map_eq_empty : shape.map f = .empty ↔ shape = .empty := by
  cases shape <;> simp [map]

@[simp] theorem on_map : (shape.map f).on side = (shape.on side).map f := by
  cases shape <;> cases side <;> rfl

@[simp] theorem rotate_map : (shape.map f).rotate side = (shape.rotate side).map f := by
  cases shape with
  | empty => cases side <;> rfl
  | node left id right =>
    cases side with
    | left => cases left <;> rfl
    | right => cases right <;> rfl

end Shape

theorem Rib.close_map (f : Nat → Nat) (side : Side) (ribs : List Rib) (inner : Shape) :
    close side (ribs.map (Rib.map f)) (inner.map f) = (close side ribs inner).map f := by
  induction ribs generalizing inner with
  | nil => rfl
  | cons rib ribs ih =>
    rw [List.map_cons, close, close, ← ih, Shape.map_sided]
    rfl

namespace Zipper
variable (f : Nat → Nat) (z : Zipper)

theorem foldIf_map (rotates : Bool) (side : Side) :
    (z.map f).foldIf rotates side = (z.foldIf rotates side).map f := by
  cases rotates with
  | false => rfl
  | true => simp [foldIf, fold, map]

theorem link_map (side : Side) : (z.map f).link side = (z.link side).map f := by
  obtain ⟨ls, focus, rs⟩ := z
  cases focus with
  | empty => rfl
  | node left id right => cases side <;> rfl

theorem turn_map (choice : Choice) :
    (z.map f).turn choice = ((z.turn choice).1.map f, (z.turn choice).2) := by
  match choice with
  | none => rfl
  | some (side, rotates) =>
    have ahead : ((z.map f).foldIf rotates side).focus.on side =
        ((z.foldIf rotates side).focus.on side).map f := by
      rw [foldIf_map, map, Shape.on_map]
    by_cases more : (z.foldIf rotates side).focus.on side = .empty
    · have more' := ahead.trans ((Shape.map_eq_empty f _).mpr more)
      rw [turn_stuck more, turn_stuck more', foldIf_map]
    · have more' : ((z.map f).foldIf rotates side).focus.on side ≠ .empty := by
        rw [ahead]
        exact fun nothing => more ((Shape.map_eq_empty f _).mp nothing)
      rw [turn_link more, turn_link more', foldIf_map, link_map]

theorem seek_map (keyAt : Nat → Nat) (key : Nat) :
    (z.map f).seek keyAt key = z.seek (fun id => keyAt (f id)) key := by
  have rotates (side : Side) : (((z.map f).focus.on side).root.any fun child =>
      decide (sideOf key (keyAt child) = some side)) =
      (z.focus.on side).root.any fun child =>
        decide (sideOf key (keyAt (f child)) = some side) := by
    rw [map, Shape.on_map, Shape.root_map]
    cases (z.focus.on side).root <;> rfl
  simp only [seek, rotates]
  rw [map, Shape.root_map]
  cases z.focus.root <;> rfl

theorem close_map : (z.map f).close = z.close.map f := by
  obtain ⟨ls, focus, rs⟩ := z
  cases focus with
  | empty => rfl
  | node left id right =>
    simp only [close, map, Shape.map, Rib.close_map]

theorem descend_seek_map (keyAt : Nat → Nat) (key : Nat) :
    (z.map f).descend (seek keyAt key) = (z.descend (seek (fun id => keyAt (f id)) key)).map f := by
  induction z using descend.induct (seek (fun id => keyAt (f id)) key) with
  | case1 z goesOn ih =>
    have goesOn' : ((z.map f).turn ((z.map f).seek keyAt key)).2 = true := by
      rw [seek_map, turn_map]
      exact goesOn
    rw [descend_of_goesOn goesOn, descend_of_goesOn goesOn', seek_map, turn_map, ih]
  | case2 z stops =>
    have stops' : ¬((z.map f).turn ((z.map f).seek keyAt key)).2 = true := by
      rw [seek_map, turn_map]
      exact stops
    rw [descend_of_stops stops, descend_of_stops stops', seek_map, turn_map]

end Zipper

theorem Shape.seek_map (f keyAt : Nat → Nat) (key : Nat) (shape : Shape) :
    (shape.map f).seek keyAt key = (shape.seek (fun id => keyAt (f id)) key).map f := by
  rw [seek, seek, ← Zipper.close_map, ← Zipper.descend_seek_map]
  rfl

end PieceIndex
