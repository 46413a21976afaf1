import PieceIndex.Proofs.Splay.Owner
import PieceIndex.Proofs.Splay.Travel

/-!
A splay to a piece that is at the root already. The pass decides at once to stay where it is, so its
course has no stride; the shape it ends with is the shape it began with, and with it the links and
the cached sizes that the spines are put together with are those that were there before.
-/
namespace PieceIndex
variable {size : NodeId → Nat} {offset : Nat} {ids before before' : List NodeId} {owner : NodeId}

/-- Nothing before the piece that covers an offset reaches up to it. -/
theorem Covers.past (covers : Covers size offset ids before owner) :
    Zipper.Past offset (sizeSum size before) := by
  rcases List.eq_nil_or_concat before with rfl | ⟨init, last, rfl⟩
  · exact (Nat.eq_zero_or_pos offset).symm.imp_right (⟨·, rfl⟩)
  · left
    rw [List.concat_eq_append, sizeSum_append, sizeSum_cons, sizeSum_nil]
    exact covers.first init last [] (by simp)

theorem Covers.before_eq {offset' : Nat} (covers : Covers size offset ids before owner)
    (covers' : Covers size offset' ids before' owner) (nodup : ids.Nodup) : before' = before := by
  obtain ⟨rest, stands⟩ := covers.stands
  obtain ⟨rest', stands'⟩ := covers'.stands
  subst stands
  have twice {xs ys zs : List NodeId} (h : (xs ++ owner :: ys ++ owner :: zs).Nodup) : False := by
    rw [List.append_assoc, List.cons_append] at h
    exact (List.nodup_cons.mp (List.nodup_append.mp h).2.1).1 (by simp)
  rcases split_cases stands' with ⟨same, -⟩ | ⟨gap, longer⟩ | ⟨gap, shorter⟩
  · exact same.symm
  · rw [stands', longer] at nodup
    exact (twice nodup).elim
  · rw [shorter] at nodup
    exact (twice nodup).elim

namespace Zipper

/-- A pass that has come to its piece decides to stay there. -/
theorem Reached.choose_eq_none {z : Zipper} (reached : z.Reached size offset) :
    z.choose size offset = none := by
  obtain ⟨ls, focus, rs⟩ := z
  obtain ⟨left, id, right, same, past, reaches⟩ := reached
  obtain rfl : focus = .node left id right := same
  dsimp only [passed] at past reaches
  apply choose_stays
  · rintro ⟨before, further⟩
    rcases past with past | past <;> omega
  · omega

end Zipper

section
variable {rule : Zipper → Zipper.Choice → Prop}

/-- Where the rule allows no turn from the top on, no stride is taken. -/
theorem Stride.Obey.eq_nil {strides : List Stride} {next : Shape} (obeys : Obey rule strides next)
    (stays : ∀ heading, ¬rule { focus := Fork.unwind (trail strides) next } (some heading)) :
    strides = [] := by
  induction strides generalizing next with
  | nil => rfl
  | cons stride strides ih =>
    obtain ⟨permitted, earlier⟩ := obeys
    rw [trail_cons, Fork.unwind_append] at stays
    obtain rfl := ih earlier stays
    exact absurd permitted (stays _)

/-- A course on which no turn is allowed ends as it began, and only its target is told. -/
theorem Course.Obeys.rests {course : Course} (obeys : course.Obeys rule)
    (stays : ∀ heading, ¬rule { focus := course.origin } (some heading)) :
    course.outcome = course.origin ∧ course.steps = [.target course.target 0] := by
  obtain ⟨strides, landing⟩ := course
  obtain ⟨obeyed, choice, permitted, chosen⟩ := obeys
  rw [Course.origin_eq] at stays
  obtain rfl := obeyed.eq_nil stays
  cases landing with
  | stay left target right => exact ⟨rfl, rfl⟩
  | fold heading upper target middle =>
    rw [show choice = _ from chosen] at permitted
    exact absurd permitted (stays _)

end

namespace Tree
variable {tree : Tree} {shape : Shape}

/-- A splay to an offset of the piece at the root tells only of the root, at depth 0, and changes
nothing. -/
theorem WellFormedAs.splayTraced_root {left right : Shape}
    (well : tree.WellFormedAs (.node left owner right))
    (covers : Covers tree.nodes.pieceSize offset (Shape.node left owner right).inOrder left.inOrder
      owner) :
    tree.splayTraced offset = .ok (tree, some owner, [.target owner 0]) := by
  have nonempty : tree.isEmpty = false := by
    rw [isEmpty, well.root_eq, Shape.root, Option.isNone_some]
  obtain ⟨after, course, splayed, well', travels⟩ := well.travels nonempty covers.le_sizeSum
  have reached :
      Zipper.Reached tree.nodes.pieceSize offset { focus := .node left owner right } := by
    refine ⟨left, owner, right, rfl, ?_, ?_⟩
    · simpa [Zipper.passed, Rib.before, Shape.weight] using covers.past
    · simpa [Zipper.passed, Rib.before, Shape.weight] using covers.reaches
  have stays (heading : Side × Bool) : ¬some heading =
      Zipper.choose tree.nodes.pieceSize offset { focus := course.origin } := by
    rw [travels.whole, reached.choose_eq_none]
    exact Option.some_ne_none heading
  obtain ⟨ends, told⟩ := travels.obeys.rests stays
  have top : some course.target = some owner := by
    rw [← course.root_outcome, ends, travels.whole, Shape.root]
  rw [ends, travels.whole] at well'
  obtain rfl := well.eq_of_pieces well' travels.rearranges.keeps.pieceAt
  rw [told, top, Option.some.inj top] at splayed
  exact splayed

/-- A splay of a well-formed tree that is not empty brings up the piece that covers the offset; and
another splay to any offset of that piece then returns the same root, tells only of it, at depth 0,
and leaves the tree as it is in every field of every node. -/
theorem splay_again (well : tree.WellFormedAs shape) (nonempty : tree.isEmpty = false)
    {a length : Nat} (measured : tree.length = .ok length) (within : a ≤ length) :
    ∃ after owner before, Covers tree.nodes.pieceSize a shape.inOrder before owner ∧
      tree.splay a = .ok (after, some owner) ∧
      ∀ b before', Covers tree.nodes.pieceSize b shape.inOrder before' owner →
        after.splayTraced b = .ok (after, some owner, [.target owner 0]) := by
  rw [well.length_eq] at measured
  cases measured
  obtain ⟨after, left, owner, right, splayed, well', rearranges, covers⟩ :=
    well.exists_covers nonempty within
  refine ⟨after, owner, left.inOrder, covers, splayed, ?_⟩
  intro b before' covers'
  apply well'.splayTraced_root
  rwa [rearranges.keeps.pieceSize, rearranges.inOrder_eq, ← covers.before_eq covers' well.nodup]

/-- After a splay to the beginning of three pieces, one to the end of the first piece. -/
theorem splay_again_three :
    three.root = some 1 ∧ ∃ after, three.splay 0 = .ok (after, some 0) ∧
      after.splayTraced 3 = .ok (after, some 0, [.target 0 0]) := by
  have within : 0 ≤ 12 := by decide
  obtain ⟨after, owner, before, covers, splayed, again⟩ :=
    splay_again wellFormedAs_three rfl rfl within
  cases (covers.at_zero : some 0 = some owner)
  have covers' : Covers three.nodes.pieceSize 3 [0, 1, 2] [] 0 := by
    refine ⟨⟨[1, 2], rfl⟩, by decide, ?_⟩
    intro earlier node later split
    cases earlier <;> cases split
  exact ⟨rfl, after, splayed, again 3 [] covers'⟩

end Tree
end PieceIndex
