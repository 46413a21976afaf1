import PieceIndex.Proofs.Splay.Keyed

/-!
What a splay leaves depends on the piece that covers the offset, and on nothing else of it. The
passes to two such offsets may differ in their turns, but each comes to the shape that the pass for
the right edge of the piece comes to. And a shape with its pieces leaves nothing open in a
well-formed tree: links, parents and cached sizes can all be read off it.
-/
namespace PieceIndex

namespace Tree
variable {tree after : Tree} {shape : Shape}

/-- A well-formed tree is determined by its shape and its pieces. -/
theorem WellFormedAs.eq_of_pieces (well : tree.WellFormedAs shape)
    (well' : after.WellFormedAs shape)
    (pieces : after.nodes.pieceAt = tree.nodes.pieceAt) : after = tree := by
  have stands := well.stands
  have stands' := well'.stands
  have weights : after.nodes.pieceSize = tree.nodes.pieceSize := by
    funext id
    rw [Arena.pieceSize_eq, Arena.pieceSize_eq, pieces]
  have size : after.nodes.size = tree.nodes.size :=
    (Shape.count_eq well'.nodup stands'.inRange well'.full).symm.trans
      (Shape.count_eq well.nodup stands.inRange well.full)
  have measured := stands'.measured
  rw [weights] at measured
  have nodes : after.nodes = tree.nodes := by
    apply Array.ext_getElem?
    intro id
    by_cases inRange : id < tree.nodes.size
    · obtain ⟨node, found⟩ := Arena.exists_found inRange
      obtain ⟨node', found'⟩ := Arena.exists_found (show id < after.nodes.size by rwa [size])
      have inside := well.full id inRange
      have piece := congrFun pieces id
      have child := stands.wired.agree stands'.wired id inside
      have cached := stands.measured.agree measured id inside
      have parent := stands.parented.agree stands'.parented id inside
      rw [Arena.pieceAt, Arena.pieceAt, found, found'] at piece
      rw [Arena.parentOf_found found, Arena.parentOf_found found'] at parent
      rw [found, found', Node.eq_of_views (Option.some.inj piece) _ _ parent]
      · funext side
        rw [← Arena.childOf_found found, ← Arena.childOf_found found', child]
      · funext side
        rw [← Arena.cachedOf_found found, ← Arena.cachedOf_found found', cached]
    · rw [Array.getElem?_eq_none (by omega), Array.getElem?_eq_none (by omega)]
  have root : after.root = tree.root := well'.root_eq.trans well.root_eq.symm
  obtain ⟨arena, top⟩ := after
  obtain ⟨arena', top'⟩ := tree
  cases nodes
  cases root
  rfl

end Tree

/-- The right edge of a node whose piece stands in a list of nodes. -/
def edgeIn (size : NodeId → Nat) (ids : List NodeId) (id : NodeId) : Nat :=
  sizeSum size (ids.takeWhile (· ≠ id)) + size id

theorem edges_edgeIn (size : NodeId → Nat) {ids : List NodeId} (nodup : ids.Nodup) :
    Edges size (edgeIn size ids) ids := by
  rintro before id rest rfl
  obtain ⟨-, -, apart⟩ := List.nodup_append.mp nodup
  have others : ∀ i ∈ before, decide (i ≠ id) = true := fun i inside =>
    decide_eq_true (apart i inside id List.mem_cons_self)
  rw [edgeIn, List.takeWhile_append_of_pos others, List.takeWhile_cons_of_neg (by simp),
    List.append_nil]

theorem Covers.le_sizeSum {size : NodeId → Nat} {offset : Nat} {ids before : List NodeId}
    {owner : NodeId} (covers : Covers size offset ids before owner) :
    offset ≤ sizeSum size ids := by
  obtain ⟨rest, rfl⟩ := covers.stands
  have reaches := covers.reaches
  rw [sizeSum_append, sizeSum_cons]
  omega

namespace Tree
variable {tree : Tree} {shape : Shape} {offset : Nat} {before : List NodeId} {owner : NodeId}

/-- A splay to an offset that a piece covers makes of the tree what its right edge tells, and
returns the node of the piece. -/
theorem WellFormedAs.splay_to_owner (well : tree.WellFormedAs shape)
    (covers : Covers tree.nodes.pieceSize offset shape.inOrder before owner) :
    ∃ after, tree.splay offset = .ok (after, some owner) ∧
      after.nodes.pieceAt = tree.nodes.pieceAt ∧
      after.WellFormedAs (shape.seek (edgeIn tree.nodes.pieceSize shape.inOrder)
        (edgeIn tree.nodes.pieceSize shape.inOrder owner)) := by
  have edges := edges_edgeIn tree.nodes.pieceSize well.nodup
  obtain ⟨after, steps, splayed, well', rearranges⟩ := well.splayTraced covers.le_sizeSum
  have inside : owner ∈ shape.inOrder := by
    obtain ⟨rest, stands⟩ := covers.stands
    simp [stands]
  have top := Shape.root_seek_of_mem (edges.ascending well.nonempty) inside
  rw [← Shape.seek_eq_splay covers edges well.nonempty] at well'
  rw [well'.root_eq, top] at splayed
  exact ⟨after, splay_eq_ok.mpr ⟨steps, splayed⟩, rearranges.keeps.pieceAt, well'⟩

/-- Splays of a well-formed tree to two offsets that one piece covers leave the same tree, in every
field of every node, and return the node of that piece. -/
theorem splay_depends_on_owner (well : tree.WellFormedAs shape) {a b : Nat}
    {before before' : List NodeId}
    (covers : Covers tree.nodes.pieceSize a shape.inOrder before owner)
    (covers' : Covers tree.nodes.pieceSize b shape.inOrder before' owner) :
    ∃ after, tree.splay a = .ok (after, some owner) ∧ tree.splay b = .ok (after, some owner) := by
  obtain ⟨after, splayed, pieces, well'⟩ := well.splay_to_owner covers
  obtain ⟨after', splayed', pieces', well''⟩ := well.splay_to_owner covers'
  obtain rfl := well'.eq_of_pieces well'' (pieces'.trans pieces.symm)
  exact ⟨_, splayed, splayed'⟩

/-- Above the first of three pieces the pass to its beginning rotates, and the pass to its end
links. -/
theorem splay_depends_on_owner_three :
    ∃ after, three.splayTraced 0 = .ok (after, some 0, [.rotate .left 1 0, .target 0 0]) ∧
      three.splayTraced 3 = .ok (after, some 0, [.link .left 1, .target 0 1]) := by
  have covers (offset : Nat) (within : offset ≤ 3) :
      Covers three.nodes.pieceSize offset [0, 1, 2] [] 0 := by
    refine ⟨⟨[1, 2], rfl⟩, within, ?_⟩
    intro earlier node later split
    cases earlier <;> cases split
  obtain ⟨after, first, last⟩ := splay_depends_on_owner wellFormedAs_three
    (covers 0 (by decide)) (covers 3 (by decide))
  obtain ⟨steps, first⟩ := splay_eq_ok.mp first
  obtain ⟨steps', last⟩ := splay_eq_ok.mp last
  have rotates : (three.splayTraced 0).map (·.2.2) = .ok [.rotate .left 1 0, .target 0 0] := rfl
  have links : (three.splayTraced 3).map (·.2.2) = .ok [.link .left 1, .target 0 1] := rfl
  rw [first] at rotates
  rw [last] at links
  cases rotates
  cases links
  exact ⟨after, first, last⟩

end Tree
end PieceIndex
