import PieceIndex.Proofs.Course
import PieceIndex.Proofs.Splay.Depth
import PieceIndex.Proofs.Splay.Exact

/-!
The course that a splay takes over an arena, whatever the cached sizes say. Each turn is a stride or
a landing; it tells the steps of that, and the links and sizes that it writes are those of nodes on
the way down to the target. The same holds of the spines when they are put under the target.
-/
namespace PieceIndex

/-- Outside the given nodes, child links and cached sizes stay as they are. -/
structure Arena.Spares (before after : Arena) (written : List NodeId) : Prop where
  links : ∀ i ∉ written, after.childOf i = before.childOf i
  sizes : ∀ i ∉ written, after.cachedOf i = before.cachedOf i

namespace Arena.Spares
variable {before middle after : Arena} {written more : List NodeId}

theorem refl (arena : Arena) (written : List NodeId) : Spares arena arena written :=
  ⟨fun _ _ => rfl, fun _ _ => rfl⟩

theorem mono (spares : Spares before after written) (sub : ∀ i ∈ written, i ∈ more) :
    Spares before after more :=
  ⟨fun i h => spares.links i fun t => h (sub i t), fun i h => spares.sizes i fun t => h (sub i t)⟩

theorem trans (first : Spares before middle written) (second : Spares middle after written) :
    Spares before after written :=
  ⟨fun i h => (second.links i h).trans (first.links i h),
    fun i h => (second.sizes i h).trans (first.sizes i h)⟩

variable {nearer further : List Fork}

theorem of_further (spares : Spares before after (Fork.path further)) (nearer : List Fork) :
    Spares before after (Fork.path (nearer ++ further)) := by
  apply spares.mono
  intro i inside
  rw [Fork.path_append]
  exact List.mem_append_left _ inside

theorem of_nearer (spares : Spares before after (Fork.path nearer)) (further : List Fork) :
    Spares before after (Fork.path (nearer ++ further)) := by
  apply spares.mono
  intro i inside
  rw [Fork.path_append]
  exact List.mem_append_right _ inside

end Arena.Spares

theorem Arena.Keeps.spares {before after : Arena} {touched : List NodeId}
    (keeps : before.Keeps after touched) : before.Spares after touched := by
  refine ⟨fun i outside => ?_, fun i outside => ?_⟩
  · funext side
    rw [childOf, childOf, keeps.rest i outside]
  · funext side
    rw [cachedOf, cachedOf, keeps.rest i outside]

namespace Splay
open Zipper (Choice along)
variable {arena after : Arena} {pass pass' : Pass} {strides : List Stride} {focus : Shape}
  {side : Side} {id child next : NodeId}

/-- The middle subtree changes its parent only. -/
theorem rotate_spares (h : rotate arena side id child = .ok after) :
    arena.Spares after [id, child] := by
  have becomes := rotate_becomes h rfl
  have apart {i : NodeId} (outside : i ∉ [id, child]) : i ≠ id ∧ i ≠ child := by
    simpa using outside
  constructor
  · intro i outside
    rw [becomes.links_eq, foldTable_of_ne (apart outside).1 (apart outside).2]
  · intro i outside
    rw [becomes.sizes_eq, foldTable_of_ne (apart outside).1 (apart outside).2]

/-- Only the node at the end of a spine is written. -/
theorem link_spares (follows : pass.Follows (along strides focus))
    (h : link side arena pass next = .ok (after, pass')) :
    arena.Spares after (Fork.path (Stride.trail strides)) := by
  simp only [link, bind_eq_ok] at h
  obtain ⟨first, h1, second, h2, node, -, passed, -, h⟩ := h
  cases h
  rw [follows.last, Zipper.spine_along] at h1
  have b1 := Arena.becomes_setChild h1
  have b2 := Arena.becomes_setParent (show first.setParent (some pass.here) _ = _ from h2)
  rw [b1.links_eq, b1.sizes_eq] at b2
  refine ⟨fun i outside => ?_, fun i _ => by rw [b2.sizes_eq]⟩
  rw [b2.links_eq]
  apply rewire_of_ne
  intro last
  exact outside (Stride.last_mem_path last.symm)

theorem link_trace (h : link side arena pass next = .ok (after, pass')) :
    pass'.trace = .link side pass.here :: pass.trace := by
  simp only [link, bind_eq_ok] at h
  obtain ⟨first, -, second, -, node, -, passed, -, h⟩ := h
  cases h
  cases side <;> rfl

/-- What a turn comes to, where some strides have been taken and a shape lies ahead. -/
inductive Turned (arena : Arena) (pass : Pass) (strides : List Stride) (choice : Choice)
    (after : Arena) (pass' : Pass) : Shape → Bool → Prop
  | onwards (stride : Stride) (next : Shape) (ahead : next ≠ .empty)
      (chosen : choice = some (stride.heading, stride.folds))
      (trace : pass'.trace = stride.steps.reverse ++ pass.trace)
      (spares : arena.Spares after (Fork.path (Stride.trail (stride :: strides)))) :
      Turned arena pass strides choice after pass' (Fork.unwind stride.forks next) true
  | landed (landing : Landing) (chosen : landing.Chosen choice)
      (turn : (along strides landing.before).turn choice = (along strides landing.after, false))
      (trace : pass'.trace = landing.steps.reverse ++ pass.trace)
      (spares : arena.Spares after (Fork.path landing.forks ++ [landing.target])) :
      Turned arena pass strides choice after pass' landing.before false

/-- A turn that leaves everything as it is lands where the pass stands. -/
theorem turned_stay {choice : Choice} (follows : pass.Follows (along strides focus))
    (stays : (along strides focus).turn choice = (along strides focus, false)) :
    Turned arena pass strides choice arena pass focus false := by
  let landing := Landing.stay (focus.on .left) pass.here (focus.on .right)
  have whole : landing.before = focus := (Shape.exists_sided follows.here .left).symm
  have unmoved : landing.after = landing.before := rfl
  rw [← whole] at stays ⊢
  exact .landed landing trivial (unmoved ▸ stays) rfl (.refl _ _)

theorem turned_link (follows : pass.Follows (along strides focus))
    (ahead : (focus.on side).root = some next)
    (h : link side arena pass next = .ok (after, pass')) :
    Turned arena pass strides (some (side, false)) after pass' focus true := by
  let stride := Stride.link side ⟨pass.here, focus.on side.other⟩
  have whole : Fork.unwind stride.forks (focus.on side) = focus :=
    (Shape.exists_sided follows.here side).symm
  rw [← whole]
  refine .onwards stride (focus.on side) ?_ rfl (link_trace h)
    ((link_spares follows h).of_further stride.forks)
  intro nothing
  rw [nothing] at ahead
  cases ahead

/-- A turn that begins with a rotation is a stride over two levels, or it lands on the child. -/
theorem turned_fold {middle : Arena} {goesOn : Bool} (lays : arena.Lays (along strides focus))
    (follows : pass.Follows (along strides focus)) (nodup : (along strides focus).inOrder.Nodup)
    (ahead : (focus.on side).root = some child)
    (rotated : rotate arena side pass.here child = .ok middle)
    (h : (do
      let folded := { pass.record (.rotate side pass.here child) with here := child }
      match (← middle.node child).child side with
      | none => return (middle, folded, false)
      | some next =>
        let (arena, pass) ← link side middle folded next
        return (arena, pass, true)) = Except.ok (after, pass', goesOn)) :
    Turned arena pass strides (some (side, true)) after pass' focus goesOn := by
  have advances := fold_advances lays follows nodup ahead rotated
  have spares := rotate_spares rotated
  obtain ⟨next, hnext⟩ : ∃ next, next = (focus.on side).on side := ⟨_, rfl⟩
  obtain ⟨b, hb⟩ : ∃ b, b = (focus.on side).on side.other := ⟨_, rfl⟩
  obtain ⟨outer, houter⟩ : ∃ outer, outer = focus.on side.other := ⟨_, rfl⟩
  have whole : focus = .sided side (.sided side next child b) pass.here outer := by
    rw [hnext, hb, houter, ← Shape.exists_sided ahead]
    exact Shape.exists_sided follows.here side
  have folded : (along strides focus).fold side =
      along strides (.sided side next child (.sided side b pass.here outer)) := by
    simp only [Zipper.fold, along, whole, Shape.rotate_sided]
  rw [folded] at advances
  obtain ⟨node, found, h⟩ := bind_eq_ok.mp h
  have below := advances.lays.child_here advances.follows side
  rw [along, Shape.on_sided] at below
  dsimp only at below h
  rw [← Arena.childOf_found (Arena.node_eq_ok.mp found), below] at h
  rw [whole]
  cases further : next.root with
  | none =>
    simp only [further] at h
    cases h
    obtain rfl := Shape.root_eq_none.mp further
    exact .landed (.fold side ⟨pass.here, outer⟩ child b) rfl (Landing.turn_fold ..) rfl spares
  | some top =>
    simp only [further] at h
    obtain ⟨⟨last, pass''⟩, linked, h⟩ := bind_eq_ok.mp h
    cases h
    let stride := Stride.fold side ⟨pass.here, outer⟩ ⟨child, b⟩
    have rotatedBoth : arena.Spares middle (Fork.path stride.forks) := spares
    refine .onwards stride next ?_ rfl (link_trace linked)
      ((rotatedBoth.of_nearer _).trans ((link_spares advances.follows linked).of_further _))
    rintro rfl
    cases further

/-- Every turn is a stride or a landing. -/
theorem follow_turned {choice : Choice} {goesOn : Bool} (lays : arena.Lays (along strides focus))
    (follows : pass.Follows (along strides focus)) (nodup : (along strides focus).inOrder.Nodup)
    (h : follow arena pass choice = .ok (after, pass', goesOn)) :
    Turned arena pass strides choice after pass' focus goesOn := by
  match choice with
  | none =>
    cases h
    exact turned_stay follows rfl
  | some (side, rotates) =>
    obtain ⟨node, found, h⟩ := bind_eq_ok.mp h
    have below := lays.child_here follows side
    rw [Arena.childOf_found (Arena.node_eq_ok.mp found), along] at below
    rw [below] at h
    dsimp only at h
    cases ahead : (focus.on side).root with
    | none =>
      simp only [ahead] at h
      cases h
      have nothing : (along strides focus).focus.on side = .empty := Shape.root_eq_none.mp ahead
      have unfolded := Zipper.foldIf_of_on_eq_empty rotates nothing
      apply turned_stay follows
      rw [Zipper.turn_stuck (by rwa [unfolded]), unfolded]
    | some child =>
      simp only [ahead] at h
      cases rotates with
      | true =>
        obtain ⟨⟨middle, folded⟩, hfold, h⟩ := bind_eq_ok.mp h
        obtain ⟨_, rotated, same⟩ := bind_eq_ok.mp hfold
        cases same
        exact turned_fold lays follows nodup ahead rotated h
      | false =>
        simp only [foldIf, Bool.false_eq_true, if_false, pure_eq_ok, ok_bind, found, below, ahead]
          at h
        obtain ⟨⟨last, pass''⟩, linked, h⟩ := bind_eq_ok.mp h
        cases h
        exact turned_link follows ahead linked

/-- A pass that has taken some strides since it began over `start`. -/
structure Underway (rule : Zipper → Choice → Prop) (start arena : Arena) (root : NodeId)
    (pass : Pass) (shape : Shape) (strides : List Stride) (focus : Shape) : Prop where
  advances : Advances start arena { here := root } pass { focus := shape } (along strides focus)
  whole : Fork.unwind (Stride.trail strides) focus = shape
  obeys : Stride.Obey rule strides focus
  trace : pass.trace = (Stride.told strides).reverse
  spares : start.Spares arena (Fork.path (Stride.trail strides))

/-- A pass that has come to the end of its course. -/
structure Arrived (rule : Zipper → Choice → Prop) (start arena : Arena) (root : NodeId)
    (pass : Pass) (shape : Shape) (course : Course) : Prop where
  advances : Advances start arena { here := root } pass { focus := shape }
    (along course.strides course.landing.after)
  whole : course.origin = shape
  obeys : course.Obeys rule
  trace : pass.trace = course.moves.reverse
  spares : start.Spares arena (Fork.path course.forks ++ [course.target])

section
variable {rule : Zipper → Choice → Prop} {start : Arena} {root : NodeId} {shape : Shape}
  {offset fuel : Nat}

theorem underway_start (rule : Zipper → Choice → Prop) (lays : start.Lays { focus := shape })
    (top : shape.root = some root) :
    Underway rule start start root { here := root } shape [] shape :=
  ⟨⟨lays, Pass.follows_start top, .refl _ _, id⟩, rfl, trivial, rfl, .refl _ _⟩

theorem Underway.inOrder_eq (underway : Underway rule start arena root pass shape strides focus) :
    (along strides focus).inOrder = shape.inOrder := by
  rw [Zipper.inOrder_along, underway.whole]

/-- A turn of a pass takes one more stride and goes on, or it lands. -/
theorem Underway.advance {goesOn : Bool}
    (underway : Underway rule start arena root pass shape strides focus)
    (nodup : shape.inOrder.Nodup)
    (lawful : ∀ made, choice offset arena pass = .ok made → rule (along strides focus) made)
    (h : advance offset arena pass = .ok (after, pass', goesOn)) :
    (goesOn = true ∧ ∃ stride next,
      Underway rule start after root pass' shape (stride :: strides) next) ∨
    (goesOn = false ∧ ∃ landing, Arrived rule start after root pass' shape ⟨strides, landing⟩) := by
  have same := underway.inOrder_eq
  obtain ⟨advances, whole, obeys, trace, spares⟩ := underway
  rw [advance_eq, bind_eq_ok] at h
  obtain ⟨made, decided, h⟩ := h
  have nodup' : (along strides focus).inOrder.Nodup := same ▸ nodup
  have turned := follow_turned advances.lays advances.follows nodup' h
  obtain ⟨-, further⟩ := follow_advances advances.lays advances.follows nodup' h
  have permitted := lawful made decided
  have advances' := advances.trans (same.trans (Zipper.inOrder_start shape).symm) further
  cases turned with
  | onwards stride next ahead chosen told spared =>
    left
    rw [chosen] at advances' permitted
    rw [Zipper.turn_along strides stride ahead] at advances'
    refine ⟨rfl, stride, next, advances', ?_, ⟨permitted, obeys⟩, ?_, ?_⟩
    · rw [Stride.trail_cons, Fork.unwind_append, whole]
    · rw [told, trace, Stride.told_cons, List.reverse_append]
    · exact (spares.of_further stride.forks).trans spared
  | landed landing chosen turn told spared =>
    right
    rw [turn] at advances'
    refine ⟨rfl, landing, advances', ?_, ⟨obeys, made, permitted, chosen⟩, ?_,
      ((spares.of_further landing.forks).mono ?_).trans (spared.mono ?_)⟩
    · rw [Course.origin_eq, whole]
    · rw [told, trace, Course.moves, List.reverse_append]
    · intro i inside
      exact List.mem_append_left _ inside
    · intro i inside
      rw [Course.forks, Fork.path_append, List.append_assoc]
      exact List.mem_append_right _ inside

/-- A pass that ends has gone a whole course. -/
theorem Underway.descend
    (lawful : ∀ arena pass z made, Advances start arena { here := root } pass { focus := shape } z →
      z.inOrder = shape.inOrder → choice offset arena pass = .ok made → rule z made)
    (underway : Underway rule start arena root pass shape strides focus)
    (nodup : shape.inOrder.Nodup) (h : descend offset fuel arena pass = .ok (after, pass')) :
    ∃ course, Arrived rule start after root pass' shape course := by
  induction fuel generalizing arena pass strides focus with
  | zero => cases h
  | succ fuel ih =>
    rw [Splay.descend, bind_eq_ok] at h
    obtain ⟨⟨middle, pass'', goesOn⟩, turned, h⟩ := h
    have permitted := fun made => lawful arena pass _ made underway.advances underway.inOrder_eq
    rcases underway.advance nodup permitted turned with ⟨rfl, stride, next, onwards⟩ |
      ⟨rfl, landing, arrived⟩
    · exact ih onwards h
    · cases h
      exact ⟨_, arrived⟩

end

/-- Putting the spines under the target writes along the spines and to the target. -/
theorem reassemble_spares {left right : Shape} (lays : arena.Lays (along strides focus))
    (follows : pass.Follows (along strides focus)) (ahead : focus = .node left pass.here right)
    (h : reassemble arena pass = .ok after) :
    arena.Spares after (Fork.path (Stride.trail strides) ++ [pass.here]) := by
  rw [reassemble_eq lays follows ahead] at h
  simp only [bind_eq_ok] at h
  obtain ⟨first, h1, second, h2, h3⟩ := h
  have b1 := handBoth_becomes follows h1
  obtain ⟨sizes, b2, -⟩ := resizeBoth_becomes follows h2
  obtain ⟨lsize, rsize, -, -, b3⟩ := hangBoth_becomes h3
  have spared1 : arena.Spares first (Fork.path (Stride.trail strides)) := by
    refine ⟨fun i outside => ?_, fun i _ => by rw [b1.sizes_eq]⟩
    have elsewhere (side : Side) : some i ≠ Rib.last (Stride.ribs side strides) := fun last =>
      outside (Stride.last_mem_path last.symm)
    rw [b1.links_eq]
    exact (rewire_of_ne _ _ _ (elsewhere .right)).trans (rewire_of_ne _ _ _ (elsewhere .left))
  have spared2 : first.Spares second (Fork.path (Stride.trail strides)) := by
    apply b2.toKeeps.spares.mono
    intro i inside
    rcases List.mem_append.mp inside with inside | inside
    · obtain ⟨rib, onLeft, rfl⟩ := List.mem_map.mp inside
      exact Stride.node_mem_path onLeft
    · obtain ⟨rib, onRight, rfl⟩ := List.mem_map.mp inside
      exact Stride.node_mem_path onRight
  have spared3 : second.Spares after [pass.here] := by
    have elsewhere {i : NodeId} (outside : i ∉ [pass.here]) : some i ≠ some pass.here := by
      simpa using outside
    constructor
    · intro i outside
      rw [b3.links_eq, rewire_of_ne _ _ _ (elsewhere outside),
        rewire_of_ne _ _ _ (elsewhere outside)]
    · intro i outside
      rw [b3.sizes_eq, rewire_of_ne _ _ _ (elsewhere outside),
        rewire_of_ne _ _ _ (elsewhere outside)]
  exact ((spared1.trans spared2).mono fun i => List.mem_append_left _).trans
    (spared3.mono fun i => List.mem_append_right _)

/-- Each stride has left one rib on a spine, and counts for one in the depth that is told. -/
theorem Arrived.steps_eq {rule : Zipper → Choice → Prop} {start : Arena} {root : NodeId}
    {shape : Shape} {course : Course} (arrived : Arrived rule start arena root pass shape course)
    (counted : pass.Counted) : pass.steps = course.steps ∧ pass.here = course.target := by
  have follows := arrived.advances.follows
  have here : pass.here = course.target :=
    Option.some.inj (follows.here.symm.trans course.landing.root_after)
  have spine (side : Side) : pass.spine side = (Stride.ribs side course.strides).map (·.node) := by
    rw [follows.spine, Zipper.spine_along]
  have depth : pass.depth = course.strides.length := by
    rw [counted.spines, show pass.leftSpine = _ from spine .left,
      show pass.rightSpine = _ from spine .right, List.length_map, List.length_map,
      Stride.length_ribs]
  refine ⟨?_, here⟩
  rw [Pass.steps, List.reverse_cons, arrived.trace, List.reverse_reverse, here, depth, Course.steps]

end Splay

namespace Tree
variable {tree after : Tree} {shape : Shape} {offset : Nat}

/-- A splay that went a course on which a rule was kept: what it told, and what it made of the
tree. -/
structure Travels (rule : Zipper → Zipper.Choice → Prop) (tree after : Tree) (shape : Shape)
    (course : Course) (steps : List Step) : Prop where
  whole : course.origin = shape
  obeys : course.Obeys rule
  told : steps = course.steps
  rearranges : tree.Rearranges after shape course.outcome
  spares : tree.nodes.Spares after.nodes (shape.wayTo course.target)

/-- Every splay that meets no fault goes a course, and keeps any rule that every decision keeps. -/
theorem HasShape.travels {root : NodeId} {top : Option NodeId} {steps : List Step}
    (has : tree.HasShape shape) (parents : ∃ above, tree.nodes.Parents above shape)
    (rule : Zipper → Zipper.Choice → Prop) (ahead : tree.root = some root)
    (lawful : ∀ arena pass z made,
      Advances tree.nodes arena { here := root } pass { focus := shape } z →
      z.inOrder = shape.inOrder → Splay.choice offset arena pass = .ok made → rule z made)
    (h : tree.splayTraced offset = .ok (after, top, steps)) :
    ∃ course, top = some course.target ∧ tree.Travels rule after shape course steps := by
  have lays := has.lays parents
  have start := Splay.underway_start rule lays (has.root_eq.symm.trans ahead)
  obtain ⟨arena, _⟩ := tree
  cases ahead
  obtain ⟨middle, pass, last, descended, reassembled, rfl, rfl, rfl⟩ := splayTraced_cases h
  obtain ⟨course, arrived⟩ := start.descend lawful has.nodup descended
  obtain ⟨told, here⟩ :=
    arrived.steps_eq (Splay.descend_counted (Pass.counted_start root) descended)
  have origin : course.origin.inOrder.Nodup := by
    rw [arrived.whole]
    exact has.nodup
  have order : (Zipper.along course.strides course.landing.after).inOrder = shape.inOrder := by
    rw [← arrived.whole]
    exact course.inOrder_along_after
  have spares := Splay.reassemble_spares arrived.advances.lays arrived.advances.follows
    (Shape.exists_sided arrived.advances.follows.here .left) reassembled
  refine ⟨course, by rw [here], arrived.whole, arrived.obeys, told, ?_, ?_⟩
  · exact (rearranges_close has order arrived.advances reassembled).1
  · rw [Shape.wayTo, ← arrived.whole, course.above_target origin]
    apply arrived.spares.trans
    apply spares.mono
    intro i inside
    rw [Course.forks, Fork.path_append, List.append_assoc]
    rcases List.mem_append.mp inside with inside | inside
    · exact List.mem_append_left _ inside
    · rw [here] at inside
      exact List.mem_append_right _ (List.mem_append_right _ inside)

/-- Over a well-formed tree every turn of the course is the one that the sizes alone decide. -/
theorem WellFormedAs.travels (well : tree.WellFormedAs shape) (nonempty : tree.isEmpty = false)
    (within : offset ≤ shape.weight tree.nodes.pieceSize) :
    ∃ after course, tree.splayTraced offset = .ok (after, some course.target, course.steps) ∧
      after.WellFormedAs course.outcome ∧
      tree.Travels (fun z made => made = z.choose tree.nodes.pieceSize offset) after shape course
        course.steps := by
  obtain ⟨root, ahead⟩ : ∃ root, tree.root = some root := by
    rwa [isEmpty, Option.isNone_eq_false_iff, Option.isSome_iff_exists] at nonempty
  have parents : ∃ above, tree.nodes.Parents above shape := ⟨none, well.parents⟩
  have start := Splay.sound_start (well.toHasShape.lays parents) (well.root_eq.symm.trans ahead)
    well.nodup well.stands.measured well.sizeSum_lt
  obtain ⟨after, steps, splayed, well', -⟩ := well.splayTraced within
  obtain ⟨course, top, travels⟩ := well.toHasShape.travels parents
    (fun z made => made = z.choose tree.nodes.pieceSize offset) ahead
    (fun arena pass z made advances same decided =>
      start.decides (same.trans (Zipper.inOrder_start shape).symm) advances decided) splayed
  rw [top, travels.told] at splayed
  rw [well'.toHasShape.unique travels.rearranges.toHasShape] at well'
  obtain rfl := travels.told
  exact ⟨after, course, splayed, well', travels⟩

end Tree
end PieceIndex
