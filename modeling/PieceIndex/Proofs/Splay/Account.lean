import PieceIndex.Proofs.Splay.Target
import PieceIndex.Proofs.Splay.Travel

/-!
The steps of a splay as an account of the way down. Each stride tells one link, or a rotation and
then the link of the node it brought up; read one by one, the nodes they leave above are the way
from the old root to the parent of the target. A rotation that no link follows can only be told
last, and only on the way to offset 0: it brings up a node at one end of all that is ahead, and no
other offset makes a pass go on past that node.
-/
namespace PieceIndex

namespace Step

/-- Which way a pass went on, and from which node of the old tree. -/
def passed : Step → Option (Side × NodeId)
  | .rotate heading node _ => some (heading, node)
  | .link heading node => some (heading, node)
  | .target .. => none

def isLink : Step → Bool
  | .link .. => true
  | _ => false

def isRotation : Step → Bool
  | .rotate .. => true
  | _ => false

/-- What is told of one stride. -/
inductive Group : List Step → Prop
  | link (heading : Side) (node : NodeId) : Group [.link heading node]
  | fold (heading : Side) (node child : NodeId) :
    Group [.rotate heading node child, .link heading child]

theorem length_passed (steps : List Step) :
    (steps.filterMap passed).length = steps.countP isLink + steps.countP isRotation := by
  induction steps with
  | nil => rfl
  | cons step steps ih =>
    rw [List.filterMap_cons, List.countP_cons, List.countP_cons]
    cases step <;> simp [passed, isLink, isRotation, ih] <;> omega

end Step

/-- What steps tell of the forks on a way, from the top one on. -/
def Fork.turns (forks : List Fork) : List (Side × NodeId) :=
  (forks.map fun fork => (fork.heading, fork.node)).reverse

theorem Fork.turns_append (nearer further : List Fork) :
    turns (nearer ++ further) = turns further ++ turns nearer := by
  simp [turns]

theorem Fork.nodes_turns (forks : List Fork) : (turns forks).map (·.2) = path forks := by
  simp [turns, path, Function.comp_def]

namespace Stride

theorem group_steps (stride : Stride) : Step.Group stride.steps := by
  cases stride with
  | link heading rib => exact .link ..
  | fold heading upper lower => exact .fold ..

theorem told_eq_flatten (strides : List Stride) :
    told strides = (strides.reverse.map steps).flatten :=
  List.flatMap_def ..

theorem passed_told (strides : List Stride) :
    (told strides).filterMap Step.passed = Fork.turns (trail strides) := by
  induction strides with
  | nil => rfl
  | cons stride strides ih =>
    rw [told_cons, List.filterMap_append, ih, trail_cons, Fork.turns_append]
    cases stride <;> rfl

theorem links_told (strides : List Stride) :
    (told strides).countP Step.isLink = strides.length := by
  induction strides with
  | nil => rfl
  | cons stride strides ih =>
    rw [told_cons, List.countP_append, ih, List.length_cons]
    cases stride <;> rfl

end Stride

namespace Course
variable (course : Course)

theorem passed_moves : course.moves.filterMap Step.passed = Fork.turns course.forks := by
  rw [moves, List.filterMap_append, Stride.passed_told, forks, Fork.turns_append]
  cases course.landing <;> rfl

theorem links_moves : course.moves.countP Step.isLink = course.strides.length := by
  rw [moves, List.countP_append, Stride.links_told]
  cases course.landing <;> rfl

/-- Nodes that the pass went right from stand before the target, the others behind it. -/
theorem turns_around : ∃ before rest, course.origin.inOrder = before ++ course.target :: rest ∧
    ∀ heading node, (heading, node) ∈ Fork.turns course.forks →
      node ∈ match heading with | .left => rest | .right => before := by
  obtain ⟨before, after, order, sides⟩ := Fork.inOrder_unwind course.forks course.landing.top
  obtain ⟨inner, outer, top⟩ :=
    List.append_of_mem (Shape.mem_inOrder_of_root course.landing.root_top)
  refine ⟨before ++ inner, outer ++ after, ?_, ?_⟩
  · rw [origin, order, top]
    simp [target]
  · intro heading node told
    obtain ⟨fork, taken, same⟩ := List.mem_map.mp (List.mem_reverse.mp told)
    cases same
    obtain ⟨right, left⟩ := sides fork taken
    cases heading : fork.heading with
    | left => exact List.mem_append_right _ (left heading)
    | right => exact List.mem_append_left _ (right heading)

end Course

section
open Zipper (Within choose along)
variable {size : NodeId → Nat} {offset : Nat} {strides : List Stride}

/-- After any number of strides the offset lies in what is ahead. -/
theorem Stride.Obey.within {next : Shape}
    (obeys : Obey (fun z made => made = z.choose size offset) strides next) (ahead : next ≠ .empty)
    (start : offset ≤ (Fork.unwind (trail strides) next).weight size) :
    Within size offset (along strides next) := by
  induction strides generalizing next with
  | nil => exact Zipper.within_start start
  | cons stride strides ih =>
    obtain ⟨chosen, earlier⟩ := obeys
    rw [trail_cons, Fork.unwind_append] at start
    have further : Fork.unwind stride.forks next ≠ .empty := unwind_ne_empty ahead
    have leads := (ih earlier further start).turn further
    rwa [← chosen, Zipper.turn_along strides stride ahead] at leads

/-- Heading left, a pass goes on past the first of all nodes ahead for offset 0 only. -/
theorem Zipper.Within.at_zero {ls rs : List Rib} {b right : Shape} {child id : NodeId}
    (within : Within size offset ⟨ls, .node (.node .empty child b) id right, rs⟩)
    (folds : choose size offset ⟨ls, .node (.node .empty child b) id right, rs⟩ =
      some (.left, true)) :
    offset = 0 := by
  rw [choose_left (heads_left folds), Option.some.injEq, Prod.mk.injEq, decide_eq_true_iff] at folds
  have first : offset ≤ sizeSum size (Rib.before ls) + 0 := folds.2
  rcases within.past with past | past
  · exact absurd past (Nat.not_lt.mpr first)
  · exact past.1

/-- Heading right, a pass never goes on past the last of all nodes ahead. -/
theorem Zipper.Within.choose_ne {ls rs : List Rib} {b left : Shape} {child id : NodeId}
    (within : Within size offset ⟨ls, .node left id (.node b child .empty), rs⟩) :
    choose size offset ⟨ls, .node left id (.node b child .empty), rs⟩ ≠ some (.right, true) := by
  intro folds
  rw [choose_right (heads_right folds), Option.some.injEq, Prod.mk.injEq, decide_eq_true_iff]
    at folds
  have inside := within.inside
  dsimp only [passed] at inside
  rw [Shape.weight_node, Shape.weight_node, Shape.weight_empty] at inside
  omega

theorem Landing.fold_at_zero {landing : Landing}
    (within : Within size offset (along strides landing.before))
    (chosen : landing.Chosen (choose size offset (along strides landing.before))) :
    landing.steps = [] ∨
      offset = 0 ∧ ∃ node, landing.steps = [.rotate .left node landing.target] := by
  cases landing with
  | stay left target right => exact .inl rfl
  | fold heading upper target middle =>
    cases heading with
    | left => exact .inr ⟨within.at_zero chosen, upper.node, rfl⟩
    | right => exact (within.choose_ne chosen).elim

end

/-- The steps before the last one, as an account of the way from the top of a shape down to a node:
groups of steps, and a rotation that no link follows. -/
structure Shape.Recounts (shape : Shape) (offset : Nat) (target : NodeId)
    (groups : List (List Step)) (ending : List Step) (depth : Nat) : Prop where
  grouped : ∀ group ∈ groups, Step.Group group
  ends : ending = [] ∨ offset = 0 ∧ ∃ node, ending = [.rotate .left node target]
  way : ((groups.flatten ++ ending).filterMap Step.passed).map (·.2) = shape.above target
  once : (shape.above target).Nodup
  around : ∃ before rest, shape.inOrder = before ++ target :: rest ∧
    ∀ heading node, (heading, node) ∈ (groups.flatten ++ ending).filterMap Step.passed →
      node ∈ match heading with | .left => rest | .right => before
  links : depth = (groups.flatten ++ ending).countP Step.isLink
  levels : shape.depth target = depth + (groups.flatten ++ ending).countP Step.isRotation

namespace Tree
variable {tree : Tree} {shape : Shape} {offset : Nat}

/-- The steps of a splay of a well-formed tree that is not empty are a faithful account of the
pass. -/
theorem splayTraced_recounts (well : tree.WellFormedAs shape) (nonempty : tree.isEmpty = false)
    {length : Nat} (measured : tree.length = .ok length) (within : offset ≤ length) :
    ∃ after root groups ending depth,
      tree.splayTraced offset =
        .ok (after, some root, groups.flatten ++ ending ++ [.target root depth]) ∧
      after.root = some root ∧ shape.Recounts offset root groups ending depth := by
  rw [well.length_eq] at measured
  cases measured
  obtain ⟨after, course, splayed, well', travels⟩ := well.travels nonempty within
  have moves : course.moves =
      (course.strides.reverse.map Stride.steps).flatten ++ course.landing.steps := by
    rw [Course.moves, Stride.told_eq_flatten]
  rw [Course.steps, moves] at splayed
  refine ⟨after, course.target, _, _, _, splayed, ?_, ?_⟩
  · rw [well'.root_eq, course.root_outcome]
  obtain rfl := travels.whole
  obtain ⟨obeyed, choice, rfl, chosen⟩ := travels.obeys
  rw [course.origin_eq] at within
  have reached := obeyed.within course.landing.before_ne_empty within
  have above := course.above_target well.nodup
  constructor
  · intro group member
    obtain ⟨stride, -, rfl⟩ := List.mem_map.mp member
    exact stride.group_steps
  · exact Landing.fold_at_zero reached chosen
  · rw [← moves, course.passed_moves, Fork.nodes_turns, above]
  · exact Shape.nodup_above well.nodup
  · rw [← moves, course.passed_moves]
    exact course.turns_around
  · rw [← moves, course.links_moves]
  · rw [← moves, Shape.depth, above, ← Fork.nodes_turns, List.length_map, ← course.passed_moves,
      Step.length_passed, course.links_moves]

/-- On the way to the beginning of seven pieces the pass rotates at two places, and goes on from
one. -/
theorem splayTraced_recounts_seven :
    ∃ after groups ending, seven.splayTraced 0 =
        .ok (after, some 0, groups.flatten ++ ending ++ [.target 0 1]) ∧ after.root = some 0 ∧
      groups.flatten ++ ending = [.rotate .left 5 3, .link .left 3, .rotate .left 1 0] ∧
      sevenShape.Recounts 0 0 groups ending 1 := by
  have within : 0 ≤ 7 := by decide
  obtain ⟨after, root, groups, ending, depth, splayed, top, recounts⟩ :=
    splayTraced_recounts wellFormedAs_seven rfl rfl within
  have told : (seven.splayTraced 0).map (·.2) = .ok (some 0,
      [.rotate .left 5 3, .link .left 3, .rotate .left 1 0] ++ [.target 0 1]) := rfl
  rw [splayed] at told
  obtain ⟨here, steps⟩ := Prod.mk.inj (Except.ok.inj told)
  cases here
  obtain ⟨moves, last⟩ := List.append_inj' steps rfl
  cases last
  exact ⟨after, groups, ending, splayed, top, moves, recounts⟩

end Tree
end PieceIndex
