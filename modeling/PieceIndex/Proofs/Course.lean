import PieceIndex.Proofs.Trail
import PieceIndex.Tree.Step

/-!
The course of a pass: the strides that it takes down from the top, and how it lands on its target.
It tells what shape the pass began with and what shape it ends with, which way it went, and which
steps are told of it. A stride leads down one level of the shape it began with, or two, when the
pass rotates first; what it leaves on a spine is one rib in either case.
-/
namespace PieceIndex

/-- A turn after which a pass goes on. -/
inductive Stride where
  | link (heading : Side) (rib : Rib)
  /-- With a rotation, which hangs the upper of two nodes from the lower one. -/
  | fold (heading : Side) (upper lower : Rib)
  deriving DecidableEq, Repr

namespace Stride

def heading : Stride → Side
  | link heading _ => heading
  | fold heading _ _ => heading

def folds : Stride → Bool
  | link .. => false
  | fold .. => true

/-- The forks of the way down, the lowest one first. -/
def forks : Stride → List Fork
  | link heading rib => [⟨rib, heading⟩]
  | fold heading upper lower => [⟨lower, heading⟩, ⟨upper, heading⟩]

/-- What is left on a spine. -/
def rib : Stride → Rib
  | link _ rib => rib
  | fold heading upper lower => ⟨lower.node, .sided heading lower.outer upper.node upper.outer⟩

/-- The steps that are told, the first one first. -/
def steps : Stride → List Step
  | link heading rib => [.link heading rib.node]
  | fold heading upper lower => [.rotate heading upper.node lower.node, .link heading lower.node]

/-! Strides are kept from the latest one back. -/

/-- The forks of all strides, the lowest one first. -/
def trail (strides : List Stride) : List Fork := strides.flatMap forks

/-- The steps of all strides, the first one first. -/
def told (strides : List Stride) : List Step := strides.reverse.flatMap steps

/-- The spine on one side, from its inner end outwards. -/
def ribs (side : Side) (strides : List Stride) : List Rib :=
  (strides.filter (·.heading = side.other)).map rib

@[simp] theorem trail_cons (stride : Stride) (strides : List Stride) :
    trail (stride :: strides) = stride.forks ++ trail strides := rfl

@[simp] theorem told_cons (stride : Stride) (strides : List Stride) :
    told (stride :: strides) = told strides ++ stride.steps := by
  simp [told]

theorem ribs_cons_other (stride : Stride) (strides : List Stride) :
    ribs stride.heading.other (stride :: strides) =
      stride.rib :: ribs stride.heading.other strides := by
  simp [ribs]

theorem ribs_cons_same (stride : Stride) (strides : List Stride) :
    ribs stride.heading (stride :: strides) = ribs stride.heading strides := by
  simp [ribs, (Side.other_ne stride.heading).symm]

/-- Each stride leaves one rib on one of the spines. -/
theorem length_ribs (strides : List Stride) :
    (ribs .left strides).length + (ribs .right strides).length = strides.length := by
  induction strides with
  | nil => rfl
  | cons stride strides ih =>
    cases heading : stride.heading <;> simp [ribs, heading, Side.other] at ih ⊢ <;> omega

theorem mem_path_trail {stride : Stride} {strides : List Stride} (taken : stride ∈ strides) :
    stride.rib.node ∈ Fork.path (trail strides) := by
  rw [Fork.mem_path]
  cases stride with
  | link heading rib =>
    exact ⟨⟨rib, heading⟩, List.mem_flatMap.mpr ⟨_, taken, by simp [forks]⟩, rfl⟩
  | fold heading upper lower =>
    exact ⟨⟨lower, heading⟩, List.mem_flatMap.mpr ⟨_, taken, by simp [forks]⟩, rfl⟩

theorem node_mem_path {side : Side} {strides : List Stride} {rib : Rib}
    (inside : rib ∈ ribs side strides) : rib.node ∈ Fork.path (trail strides) := by
  obtain ⟨stride, taken, rfl⟩ := List.mem_map.mp inside
  exact mem_path_trail (List.mem_filter.mp taken).1

theorem last_mem_path {side : Side} {strides : List Stride} {x : NodeId}
    (last : Rib.last (ribs side strides) = some x) : x ∈ Fork.path (trail strides) := by
  obtain ⟨rib, top, rfl⟩ := Option.map_eq_some_iff.mp last
  exact node_mem_path (List.mem_of_head? top)

theorem unwind_ne_empty {forks : List Fork} {next : Shape} (ahead : next ≠ .empty) :
    Fork.unwind forks next ≠ .empty := by
  induction forks generalizing next with
  | nil => exact ahead
  | cons fork forks ih =>
    apply ih
    intro nothing
    have root := Shape.root_sided fork.heading next fork.outer fork.node
    rw [← Fork.atop, nothing] at root
    cases root

end Stride

namespace Zipper
variable (strides : List Stride) (stride : Stride) (next : Shape)

/-- A pass that has taken some strides and has a shape ahead of it. -/
def along (focus : Shape) : Zipper :=
  { left := Stride.ribs .left strides, focus, right := Stride.ribs .right strides }

@[simp] theorem spine_along (side : Side) :
    (along strides next).spine side = Stride.ribs side strides := by
  cases side <;> rfl

theorem foldIf_along :
    (along strides (Fork.unwind stride.forks next)).foldIf stride.folds stride.heading =
      along strides (.sided stride.heading next stride.rib.node stride.rib.outer) := by
  cases stride with
  | link heading rib => rfl
  | fold heading upper lower =>
    simp [Stride.forks, Stride.folds, Stride.heading, Stride.rib, foldIf, fold, along, Fork.unwind,
      Fork.atop]

theorem link_along :
    (along strides (.sided stride.heading next stride.rib.node stride.rib.outer)).link
        stride.heading =
      along (stride :: strides) next := by
  rw [link_eq rfl]
  have same := Stride.ribs_cons_same stride strides
  have other := Stride.ribs_cons_other stride strides
  cases heading : stride.heading with
  | left =>
    rw [heading] at same other
    change Stride.ribs .right (stride :: strides) = stride.rib :: Stride.ribs .right strides
      at other
    simp only [along, same, other, Side.other, grow]
  | right =>
    rw [heading] at same other
    change Stride.ribs .left (stride :: strides) = stride.rib :: Stride.ribs .left strides at other
    simp only [along, same, other, Side.other, grow]

/-- A stride is one turn of the pass. -/
theorem turn_along {next : Shape} (ahead : next ≠ .empty) :
    (along strides (Fork.unwind stride.forks next)).turn (some (stride.heading, stride.folds)) =
      (along (stride :: strides) next, true) := by
  have further : ((along strides (Fork.unwind stride.forks next)).foldIf stride.folds
      stride.heading).focus.on stride.heading ≠ .empty := by
    rw [foldIf_along, along, Shape.on_sided]
    exact ahead
  rw [turn_link further, foldIf_along, link_along]

@[simp] theorem inOrder_along :
    (along strides next).inOrder = (Fork.unwind (Stride.trail strides) next).inOrder := by
  induction strides generalizing next with
  | nil => simp [along, Stride.ribs, Stride.trail, Fork.unwind]
  | cons stride strides ih =>
    rw [← link_along, inOrder_link, ← foldIf_along, inOrder_foldIf, ih, Stride.trail_cons,
      Fork.unwind_append]

end Zipper

/-- How a pass comes to its end. -/
inductive Landing where
  /-- On the node where it stands. -/
  | stay (left : Shape) (target : NodeId) (right : Shape)
  /-- On the child that it has rotated there, with nothing further ahead. -/
  | fold (heading : Side) (upper : Rib) (target : NodeId) (middle : Shape)
  deriving DecidableEq, Repr

namespace Landing
open Zipper (Choice along)

def target : Landing → NodeId
  | stay _ target _ => target
  | fold _ _ target _ => target

/-- The target with the subtrees it had before the pass. -/
def top : Landing → Shape
  | stay left target right => .node left target right
  | fold heading _ target middle => .sided heading .empty target middle

def forks : Landing → List Fork
  | stay .. => []
  | fold heading upper _ _ => [⟨upper, heading⟩]

def steps : Landing → List Step
  | stay .. => []
  | fold heading upper target _ => [.rotate heading upper.node target]

/-- What lay ahead in the last turn. -/
def before (landing : Landing) : Shape := Fork.unwind landing.forks landing.top

/-- What lies ahead when the pass has landed. -/
def after : Landing → Shape
  | stay left target right => .node left target right
  | fold heading upper target middle =>
    .sided heading .empty target (.sided heading middle upper.node upper.outer)

/-- The pass lands in this way on the given choice. -/
def Chosen (choice : Choice) : Landing → Prop
  | stay .. => True
  | fold heading .. => choice = some (heading, true)

section
variable (landing : Landing) (strides : List Stride)

@[simp] theorem root_top : landing.top.root = some landing.target := by
  cases landing with
  | stay => rfl
  | fold => exact Shape.root_sided ..

@[simp] theorem root_after : landing.after.root = some landing.target := by
  cases landing with
  | stay => rfl
  | fold => exact Shape.root_sided ..

theorem before_ne_empty : landing.before ≠ .empty := by
  apply Stride.unwind_ne_empty
  intro nothing
  have root := landing.root_top
  rw [nothing] at root
  cases root

theorem inOrder_after : landing.after.inOrder = landing.before.inOrder := by
  cases landing with
  | stay => rfl
  | fold heading upper target middle =>
    cases heading <;> simp [after, before, forks, top, Fork.unwind, Fork.atop, Shape.sided,
      Shape.inOrder]

theorem turn_fold (heading : Side) (upper : Rib) (target : NodeId) (middle : Shape) :
    (along strides (fold heading upper target middle).before).turn (some (heading, true)) =
      (along strides (fold heading upper target middle).after, false) := by
  have folded : (along strides (fold heading upper target middle).before).foldIf true heading =
      along strides (fold heading upper target middle).after := by
    simp [before, after, forks, top, Zipper.foldIf, Zipper.fold, along, Fork.unwind, Fork.atop]
  have stuck : ((along strides (fold heading upper target middle).before).foldIf true
      heading).focus.on heading = .empty := by
    rw [folded, along, after, Shape.on_sided]
  rw [Zipper.turn_stuck stuck, folded]

end
end Landing

/-- A whole pass: its strides, from the latest one back, and how it landed. -/
structure Course where
  strides : List Stride
  landing : Landing
  deriving DecidableEq, Repr

/-- A rule holds of every choice that strides were taken on, and of what lay ahead then. -/
def Stride.Obey (rule : Zipper → Zipper.Choice → Prop) : List Stride → Shape → Prop
  | [], _ => True
  | stride :: strides, next =>
    rule (.along strides (Fork.unwind stride.forks next)) (some (stride.heading, stride.folds)) ∧
      Obey rule strides (Fork.unwind stride.forks next)

namespace Course
variable (course : Course)

def target : NodeId := course.landing.target

/-- The forks of the way down to the target, the lowest one first. -/
def forks : List Fork := course.landing.forks ++ Stride.trail course.strides

/-- The shape that the pass began with. -/
def origin : Shape := Fork.unwind course.forks course.landing.top

/-- The shape that the pass ends with. -/
def outcome : Shape := (Zipper.along course.strides course.landing.after).close

/-- The steps of the pass before it told of its target. -/
def moves : List Step := Stride.told course.strides ++ course.landing.steps

def steps : List Step := course.moves ++ [.target course.target course.strides.length]

/-- A rule holds of every choice on the course, and of what lay ahead then. -/
structure Obeys (rule : Zipper → Zipper.Choice → Prop) : Prop where
  strides : Stride.Obey rule course.strides course.landing.before
  landing : ∃ choice, rule (.along course.strides course.landing.before) choice ∧
    course.landing.Chosen choice

theorem origin_eq :
    course.origin = Fork.unwind (Stride.trail course.strides) course.landing.before := by
  rw [origin, forks, Fork.unwind_append, Landing.before]

theorem inOrder_along_after :
    (Zipper.along course.strides course.landing.after).inOrder = course.origin.inOrder := by
  rw [Zipper.inOrder_along, origin_eq]
  exact Fork.inOrder_unwind_congr course.landing.inOrder_after

theorem root_outcome : course.outcome.root = some course.target :=
  Zipper.root_close course.landing.root_after

theorem top_subset {x : NodeId} (inside : x ∈ course.landing.top.inOrder) :
    x ∈ course.origin.inOrder :=
  Fork.mem_unwind.mpr (.inl inside)

theorem target_mem : course.target ∈ course.origin.inOrder :=
  course.top_subset (Shape.mem_inOrder_of_root course.landing.root_top)

/-- The way down to the target goes past the forks of the course. -/
theorem above_target (nodup : course.origin.inOrder.Nodup) :
    course.origin.above course.target = Fork.path course.forks := by
  have inside := Shape.mem_inOrder_of_root course.landing.root_top
  have top := Shape.above_top (Fork.nodup_next nodup) course.landing.root_top
  rw [origin, target, Fork.above_unwind nodup inside, top, List.append_nil]

end Course
end PieceIndex
