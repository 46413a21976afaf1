import PieceIndex.Node
import PieceIndex.Shape

/-!
A splay in progress, apart from the arena that holds it. What the pass has left behind on either
side of it is a spine of ribs, each a node with the subtree on its outer side; what lies ahead is
the shape in focus. A turn of the pass may rotate within the focus and may leave its top node on a
spine; at the end the spines are closed over the subtrees of the focus and hung below its top node.
None of this changes the order of the nodes from left to right.
-/
namespace PieceIndex

theorem Side.eq_other_of_ne {s side : Side} (h : s ≠ side) : s = side.other := by
  cases s <;> cases side <;> first | rfl | exact absurd rfl h

namespace Shape

/-- The shape with `outer` on the given side of its top node and `inner` on the other. -/
def sided (side : Side) (outer : Shape) (id : NodeId) (inner : Shape) : Shape :=
  match side with
  | .left => .node outer id inner
  | .right => .node inner id outer

/-- The subtree on one side. -/
def on : Shape → Side → Shape
  | .empty, _ => .empty
  | .node left _ _, .left => left
  | .node _ _ right, .right => right

/-- Rotates the child on the given side above the top node. -/
def rotate : Side → Shape → Shape
  | .left, .node (.node a child b) id right => .node a child (.node b id right)
  | .right, .node left id (.node b child a) => .node (.node left id b) child a
  | _, shape => shape

section
variable (side : Side) (outer inner : Shape) (id : NodeId)

@[simp] theorem on_sided : (sided side outer id inner).on side = outer := by
  cases side <;> rfl

@[simp] theorem on_other_sided : (sided side outer id inner).on side.other = inner := by
  cases side <;> rfl

@[simp] theorem root_sided : (sided side outer id inner).root = some id := by
  cases side <;> rfl

@[simp] theorem count_sided :
    (sided side outer id inner).count = outer.count + 1 + inner.count := by
  cases side
  · rfl
  · simp only [sided, count]
    omega

@[simp] theorem rotate_sided (a b : Shape) (child : NodeId) :
    (sided side (sided side a child b) id inner).rotate side =
      sided side a child (sided side b id inner) := by
  cases side <;> rfl

@[simp] theorem mem_inOrder_sided (x : NodeId) :
    x ∈ (sided side outer id inner).inOrder ↔ x ∈ outer.inOrder ∨ x = id ∨ x ∈ inner.inOrder := by
  cases side with
  | left => simp only [sided, inOrder, List.mem_append, List.mem_cons]
  | right =>
    simp only [sided, inOrder, List.mem_append, List.mem_cons]
    grind

theorem nodup_inOrder_sided :
    (sided side outer id inner).inOrder.Nodup ↔
      outer.inOrder.Nodup ∧ inner.inOrder.Nodup ∧ id ∉ outer.inOrder ∧ id ∉ inner.inOrder ∧
        ∀ x ∈ outer.inOrder, x ∉ inner.inOrder := by
  cases side <;> simp only [sided, inOrder, List.nodup_append, List.nodup_cons] <;> grind

end

theorem exists_sided {shape : Shape} {id : NodeId} (h : shape.root = some id) (side : Side) :
    shape = sided side (shape.on side) id (shape.on side.other) := by
  cases shape with
  | empty => cases h
  | node left top right =>
    cases h
    cases side <;> rfl

theorem rotate_of_on_eq_empty {side : Side} {shape : Shape} (h : shape.on side = .empty) :
    shape.rotate side = shape := by
  unfold rotate
  split
  · cases h
  · cases h
  · rfl

@[simp] theorem inOrder_rotate (side : Side) (shape : Shape) :
    (shape.rotate side).inOrder = shape.inOrder := by
  unfold rotate
  split <;> simp [inOrder]

@[simp] theorem count_rotate (side : Side) (shape : Shape) :
    (shape.rotate side).count = shape.count := by
  rw [← length_inOrder, inOrder_rotate, length_inOrder]

theorem count_on_lt {shape : Shape} (h : shape ≠ .empty) (side : Side) :
    (shape.on side).count < shape.count := by
  cases shape with
  | empty => exact absurd rfl h
  | node left id right => cases side <;> simp only [on, count] <;> omega

theorem count_eq_zero {shape : Shape} : shape.count = 0 ↔ shape = .empty := by
  cases shape <;> simp [count]

/-- Nodes that are all different and lie below a bound are no more than the bound. -/
theorem count_le {shape : Shape} {bound : Nat} (nodup : shape.inOrder.Nodup)
    (inRange : ∀ id ∈ shape.inOrder, id < bound) : shape.count ≤ bound := by
  have inside : shape.inOrder ⊆ List.range bound :=
    fun id h => List.mem_range.mpr (inRange id h)
  have fits := List.Nodup.length_le_of_subset nodup inside
  rwa [length_inOrder, List.length_range] at fits

theorem count_eq {shape : Shape} {bound : Nat} (nodup : shape.inOrder.Nodup)
    (inRange : ∀ id ∈ shape.inOrder, id < bound) (full : ∀ id < bound, id ∈ shape.inOrder) :
    shape.count = bound := by
  have most := count_le nodup inRange
  have all : List.range bound ⊆ shape.inOrder := fun id h => full id (List.mem_range.mp h)
  have least := List.Nodup.length_le_of_subset List.nodup_range all
  rw [List.length_range, length_inOrder] at least
  omega

end Shape

/-- A node on a spine, with the subtree on its outer side. -/
structure Rib where
  node : NodeId
  outer : Shape
  deriving DecidableEq, Repr

namespace Rib

/-- The nodes of a left spine in document order. Spines are kept from the inner end outwards. -/
def before : List Rib → List NodeId
  | [] => []
  | rib :: ribs => before ribs ++ (rib.outer.inOrder ++ [rib.node])

/-- The nodes of a right spine in document order. -/
def after : List Rib → List NodeId
  | [] => []
  | rib :: ribs => rib.node :: (rib.outer.inOrder ++ after ribs)

/-- The nodes of a spine, on whichever side. -/
def ids (side : Side) (ribs : List Rib) : List NodeId :=
  match side with
  | .left => before ribs
  | .right => after ribs

/-- The node at the inner end of a spine. -/
def last (ribs : List Rib) : Option NodeId := ribs.head?.map (·.node)

/-- A spine as a tree, with its inner end closed by a subtree. -/
def close (side : Side) : List Rib → Shape → Shape
  | [], inner => inner
  | rib :: ribs, inner => close side ribs (.sided side rib.outer rib.node inner)

@[simp] theorem last_cons (rib : Rib) (ribs : List Rib) : last (rib :: ribs) = some rib.node := rfl

@[simp] theorem mem_ids_cons (side : Side) (rib : Rib) (ribs : List Rib) (x : NodeId) :
    x ∈ ids side (rib :: ribs) ↔ x = rib.node ∨ x ∈ rib.outer.inOrder ∨ x ∈ ids side ribs := by
  cases side with
  | left =>
    simp only [ids, before, List.mem_append, List.mem_cons]
    grind
  | right => simp only [ids, after, List.mem_append, List.mem_cons]

theorem mem_ids_of_last {side : Side} {ribs : List Rib} {x : NodeId} (h : last ribs = some x) :
    x ∈ ids side ribs := by
  cases ribs with
  | nil => cases h
  | cons rib ribs =>
    cases h
    simp

theorem mem_ids_of_mem_map {side : Side} {ribs : List Rib} {x : NodeId}
    (h : x ∈ ribs.map (·.node)) : x ∈ ids side ribs := by
  induction ribs with
  | nil => cases h
  | cons rib ribs ih =>
    rw [mem_ids_cons]
    rcases List.mem_cons.mp h with h | h
    · exact .inl h
    · exact .inr (.inr (ih h))

theorem nodup_ids_cons (side : Side) (rib : Rib) (ribs : List Rib) :
    (ids side (rib :: ribs)).Nodup ↔
      rib.outer.inOrder.Nodup ∧ (ids side ribs).Nodup ∧ rib.node ∉ rib.outer.inOrder ∧
        rib.node ∉ ids side ribs ∧ ∀ x ∈ rib.outer.inOrder, x ∉ ids side ribs := by
  cases side <;>
    simp only [ids, before, after, List.nodup_append, List.nodup_cons, List.mem_append] <;> grind

theorem inOrder_close (side : Side) (ribs : List Rib) (inner : Shape) :
    (close side ribs inner).inOrder =
      match side with
      | .left => before ribs ++ inner.inOrder
      | .right => inner.inOrder ++ after ribs := by
  induction ribs generalizing inner with
  | nil => cases side <;> simp [close, before, after]
  | cons rib ribs ih =>
    rw [close, ih]
    cases side <;> simp [Shape.sided, Shape.inOrder, before, after]

theorem mem_inOrder_close (side : Side) (ribs : List Rib) (inner : Shape) (x : NodeId) :
    x ∈ (close side ribs inner).inOrder ↔ x ∈ inner.inOrder ∨ x ∈ ids side ribs := by
  rw [inOrder_close]
  cases side <;> simp [ids, or_comm]

/-- The top of a closed spine is its outermost node, or that of the subtree it is closed with. -/
theorem root_close (side : Side) (ribs : List Rib) (inner : Shape) :
    (close side ribs inner).root = (ribs.map (·.node)).getLast?.or inner.root := by
  induction ribs generalizing inner with
  | nil => rfl
  | cons rib ribs ih =>
    rw [close, ih, Shape.root_sided]
    cases ribs with
    | nil => rfl
    | cons next ribs =>
      rw [List.map_cons (a := rib), List.map_cons, List.getLast?_cons_cons]
      simp [List.getLast?_cons]

end Rib

/-- A splay in progress: the spines on both sides and the shape that lies ahead. -/
structure Zipper where
  left : List Rib := []
  focus : Shape
  right : List Rib := []
  deriving DecidableEq, Repr

namespace Zipper

def spine (z : Zipper) : Side → List Rib
  | .left => z.left
  | .right => z.right

def grow (z : Zipper) (side : Side) (rib : Rib) : Zipper :=
  match side with
  | .left => { z with left := rib :: z.left }
  | .right => { z with right := rib :: z.right }

/-- The nodes from left to right. -/
def inOrder (z : Zipper) : List NodeId :=
  Rib.before z.left ++ (z.focus.inOrder ++ Rib.after z.right)

/-- Rotates the child on the given side above the top node of the focus. -/
def fold (side : Side) (z : Zipper) : Zipper := { z with focus := z.focus.rotate side }

/-- Rotates or not. -/
def foldIf (rotates : Bool) (side : Side) (z : Zipper) : Zipper :=
  if rotates then z.fold side else z

/-- Leaves the top node of the focus on a spine and goes on to its subtree on the given side. -/
def link (side : Side) (z : Zipper) : Zipper :=
  match z.focus with
  | .empty => z
  | .node _ id _ =>
    { z.grow side.other ⟨id, z.focus.on side.other⟩ with focus := z.focus.on side }

/-- What a pass does in one turn: it stops, or it heads for one side, with a rotation before it goes
on or without. -/
abbrev Choice := Option (Side × Bool)

/-- One turn, and whether the pass goes on. A pass that finds nothing on its side stops. -/
def turn (z : Zipper) : Choice → Zipper × Bool
  | none => (z, false)
  | some (side, rotates) =>
    if (z.foldIf rotates side).focus.on side = .empty then (z.foldIf rotates side, false)
    else ((z.foldIf rotates side).link side, true)

/-- Hangs the spines, closed over the subtrees of the focus, below the top node of the focus. -/
def close (z : Zipper) : Shape :=
  match z.focus with
  | .empty => .empty
  | .node left id right => .node (Rib.close .left z.left left) id (Rib.close .right z.right right)

@[simp] theorem inOrder_start (shape : Shape) :
    ({ focus := shape } : Zipper).inOrder = shape.inOrder := by
  simp [inOrder, Rib.before, Rib.after]

@[simp] theorem spine_with_focus (z : Zipper) (shape : Shape) (side : Side) :
    ({ z with focus := shape } : Zipper).spine side = z.spine side := by
  cases side <;> rfl

@[simp] theorem spine_grow (z : Zipper) (side : Side) (rib : Rib) :
    (z.grow side rib).spine side = rib :: z.spine side := by
  cases side <;> rfl

@[simp] theorem spine_grow_other (z : Zipper) (side : Side) (rib : Rib) :
    (z.grow side.other rib).spine side = z.spine side := by
  cases side <;> rfl

theorem link_eq {z : Zipper} {side : Side} {next outer : Shape} {id : NodeId}
    (focus : z.focus = .sided side next id outer) :
    z.link side = { z.grow side.other ⟨id, outer⟩ with focus := next } := by
  obtain ⟨left, shape, right⟩ := z
  cases focus
  cases side <;> rfl

theorem spine_link {z : Zipper} {side : Side} {next outer : Shape} {id : NodeId}
    (focus : z.focus = .sided side next id outer) : (z.link side).spine side = z.spine side := by
  simp [link_eq focus]

theorem spine_link_other {z : Zipper} {side : Side} {next outer : Shape} {id : NodeId}
    (focus : z.focus = .sided side next id outer) :
    (z.link side).spine side.other = ⟨id, outer⟩ :: z.spine side.other := by
  simp [link_eq focus]

theorem mem_inOrder (z : Zipper) (x : NodeId) :
    x ∈ z.inOrder ↔ x ∈ z.focus.inOrder ∨ ∃ side, x ∈ Rib.ids side (z.spine side) := by
  simp only [inOrder, List.mem_append]
  constructor
  · rintro (h | h | h)
    · exact .inr ⟨.left, h⟩
    · exact .inl h
    · exact .inr ⟨.right, h⟩
  · rintro (h | ⟨side, h⟩)
    · exact .inr (.inl h)
    · cases side with
      | left => exact .inl h
      | right => exact .inr (.inr h)

/-- The parts of a zipper share no node, and none of them holds a node twice. -/
theorem nodup_inOrder (z : Zipper) :
    z.inOrder.Nodup ↔
      z.focus.inOrder.Nodup ∧ (∀ side, (Rib.ids side (z.spine side)).Nodup) ∧
        (∀ side, ∀ x ∈ Rib.ids side (z.spine side), x ∉ z.focus.inOrder) ∧
        ∀ side, ∀ x ∈ Rib.ids side (z.spine side), x ∉ Rib.ids side.other (z.spine side.other) := by
  have sides (p : Side → Prop) : (∀ side, p side) ↔ p .left ∧ p .right :=
    ⟨fun h => ⟨h .left, h .right⟩, fun h side => match side with | .left => h.1 | .right => h.2⟩
  simp only [sides, inOrder, List.nodup_append, Rib.ids, spine, Side.other, List.mem_append]
  grind

@[simp] theorem inOrder_fold (side : Side) (z : Zipper) : (z.fold side).inOrder = z.inOrder := by
  simp [fold, inOrder]

@[simp] theorem inOrder_foldIf (rotates : Bool) (side : Side) (z : Zipper) :
    (z.foldIf rotates side).inOrder = z.inOrder := by
  cases rotates <;> simp [foldIf]

@[simp] theorem inOrder_link (side : Side) (z : Zipper) : (z.link side).inOrder = z.inOrder := by
  obtain ⟨left, focus, right⟩ := z
  cases focus with
  | empty => rfl
  | node l id r =>
    cases side <;> simp [link, grow, Side.other, inOrder, Rib.before, Rib.after, Shape.inOrder,
      Shape.on]

theorem foldIf_of_on_eq_empty (rotates : Bool) {z : Zipper} {side : Side}
    (h : z.focus.on side = .empty) : z.foldIf rotates side = z := by
  cases rotates with
  | false => rfl
  | true => simp only [foldIf, fold, if_true, Shape.rotate_of_on_eq_empty h]

theorem turn_stuck {z : Zipper} {rotates : Bool} {side : Side}
    (h : (z.foldIf rotates side).focus.on side = .empty) :
    z.turn (some (side, rotates)) = (z.foldIf rotates side, false) :=
  if_pos h

theorem turn_link {z : Zipper} {rotates : Bool} {side : Side}
    (h : (z.foldIf rotates side).focus.on side ≠ .empty) :
    z.turn (some (side, rotates)) = ((z.foldIf rotates side).link side, true) :=
  if_neg h

@[simp] theorem inOrder_turn (z : Zipper) (choice : Choice) :
    (z.turn choice).1.inOrder = z.inOrder := by
  match choice with
  | none => rfl
  | some (side, rotates) =>
    by_cases h : (z.foldIf rotates side).focus.on side = .empty
    · simp [turn_stuck h]
    · simp [turn_link h]

theorem close_eq {z : Zipper} {left right : Shape} {id : NodeId}
    (focus : z.focus = .node left id right) :
    z.close = .node (Rib.close .left z.left left) id (Rib.close .right z.right right) := by
  rw [close, focus]

theorem root_close {z : Zipper} {id : NodeId} (here : z.focus.root = some id) :
    z.close.root = some id := by
  obtain ⟨left, focus, right⟩ := z
  cases focus with
  | empty => cases here
  | node l top r => exact here

theorem inOrder_close {z : Zipper} (h : z.focus ≠ .empty) : z.close.inOrder = z.inOrder := by
  obtain ⟨left, focus, right⟩ := z
  cases focus with
  | empty => exact absurd rfl h
  | node l id r => simp [close, inOrder, Shape.inOrder, Rib.inOrder_close]

@[simp] theorem count_focus_foldIf (rotates : Bool) (side : Side) (z : Zipper) :
    (z.foldIf rotates side).focus.count = z.focus.count := by
  cases rotates <;> simp [foldIf, fold]

theorem focus_link {z : Zipper} {side : Side} (h : z.focus.on side ≠ .empty) :
    (z.link side).focus = z.focus.on side := by
  obtain ⟨left, focus, right⟩ := z
  cases focus with
  | empty => exact absurd rfl h
  | node l id r => simp [link]

/-- A pass that goes on has something ahead of it, and less than before. -/
theorem turn_goesOn {z : Zipper} {choice : Choice} (h : (z.turn choice).2 = true) :
    (z.turn choice).1.focus.count < z.focus.count ∧ (z.turn choice).1.focus ≠ .empty := by
  match choice with
  | none => cases h
  | some (side, rotates) =>
    by_cases more : (z.foldIf rotates side).focus.on side = .empty
    · rw [turn_stuck more] at h
      cases h
    · have ahead : (z.foldIf rotates side).focus ≠ .empty := fun e => more (by rw [e]; rfl)
      have less := Shape.count_on_lt ahead side
      rw [count_focus_foldIf] at less
      rw [turn_link more, focus_link more]
      exact ⟨less, more⟩

theorem turn_focus_ne_empty {z : Zipper} (h : z.focus ≠ .empty) (choice : Choice) :
    (z.turn choice).1.focus ≠ .empty := by
  match choice with
  | none => exact h
  | some (side, rotates) =>
    by_cases more : (z.foldIf rotates side).focus.on side = .empty
    · rw [turn_stuck more, ne_eq, ← Shape.count_eq_zero, count_focus_foldIf, Shape.count_eq_zero]
      exact h
    · rw [turn_link more, focus_link more]
      exact more

/-- A whole pass whose turns are chosen from what it has left behind and what lies ahead. -/
def descend (choose : Zipper → Choice) (z : Zipper) : Zipper :=
  if _ : (z.turn (choose z)).2 = true then descend choose (z.turn (choose z)).1
  else (z.turn (choose z)).1
termination_by z.focus.count
decreasing_by exact (turn_goesOn ‹_›).1

theorem descend_of_goesOn {choose : Zipper → Choice} {z : Zipper}
    (goesOn : (z.turn (choose z)).2 = true) :
    z.descend choose = descend choose (z.turn (choose z)).1 := by
  rw [descend, dif_pos goesOn]

theorem descend_of_stops {choose : Zipper → Choice} {z : Zipper}
    (stops : ¬(z.turn (choose z)).2 = true) : z.descend choose = (z.turn (choose z)).1 := by
  rw [descend, dif_neg stops]

@[simp] theorem inOrder_descend (choose : Zipper → Choice) (z : Zipper) :
    (z.descend choose).inOrder = z.inOrder := by
  induction z using descend.induct choose with
  | case1 z goesOn ih =>
    rw [descend_of_goesOn goesOn, ih, inOrder_turn]
  | case2 z stops =>
    rw [descend_of_stops stops, inOrder_turn]

end Zipper
end PieceIndex
