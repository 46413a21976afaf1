import PieceIndex.Proofs.Splay.Turns

/-!
The end of a pass over an arena. The spines are closed with the subtrees of the target and hung
below it, which leaves the tables as they are for the closed zipper. The cached sizes along the
spines come out right if all others were right before.
-/
namespace PieceIndex

namespace Splay
variable {arena after : Arena} {pass : Pass} {z : Zipper} {side : Side}

theorem handOver_becomes {inner : Option NodeId} (follows : pass.Follows z)
    (h : handOver side arena pass inner = .ok after) :
    arena.Becomes after ((Rib.last (z.spine side)).toList ++ inner.toList)
      (rewire arena.childOf (Rib.last (z.spine side)) side.other inner)
      (reparent arena.parentOf inner (Rib.last (z.spine side))) arena.cachedOf := by
  obtain ⟨middle, h1, h2⟩ := bind_eq_ok.mp h
  rw [follows.last] at h1 h2
  have b1 := Arena.becomes_setChild h1
  have b2 := Arena.becomes_setParent h2
  rw [b1.links_eq, b1.parents_eq, b1.sizes_eq] at b2
  exact b1.trans b2

/-- Only sizes are made good along a spine, each from the one before. -/
theorem resize_becomes {ribs : List Rib} (h : resize side (ribs.map (·.node)) arena = .ok after) :
    ∃ sizes, arena.Becomes after (ribs.map (·.node)) arena.childOf arena.parentOf sizes ∧
      ∀ inner : Shape,
        Rib.Mendable arena.pieceSize arena.childOf arena.cachedOf side ribs inner →
        sizes = Rib.resized arena.pieceSize side ribs inner arena.cachedOf := by
  induction ribs generalizing arena with
  | nil =>
    cases h
    exact ⟨_, .refl _ _, fun _ _ => rfl⟩
  | cons rib ribs ih =>
    simp only [List.map_cons, resize, bind_eq_ok, Arena.node_eq_ok] at h
    obtain ⟨node, found, size, hsize, middle, h1, h2⟩ := h
    have b1 := Arena.becomes_withSize h1
    obtain ⟨sizes, b2, exact⟩ := ih h2
    rw [b1.links_eq, b1.parents_eq] at b2
    refine ⟨sizes, b1.trans b2, fun inner mendable => ?_⟩
    rw [← Arena.childOf_found found, mendable.chained.1] at hsize
    obtain rfl := Arena.subtreeSize_eq_ok mendable.measured hsize
    rw [b1.pieceSize, b1.sizes_eq, b1.links_eq] at exact
    exact exact _ mendable.step

theorem top_eq (follows : pass.Follows z) (side : Side) (inner : Shape) :
    top pass side inner.root = (Rib.close side (z.spine side) inner).root := by
  rw [top, follows.spine, Rib.root_close]

/-! Putting the spines under the target goes in three phases. -/

/-- Both spines are closed with the subtrees of the target. -/
def handBoth (arena : Arena) (pass : Pass) (left right : Option NodeId) : Except Fault Arena := do
  let arena ← handOver .left arena pass left
  handOver .right arena pass right

/-- The sizes along both spines are made good. -/
def resizeBoth (arena : Arena) (pass : Pass) : Except Fault Arena := do
  let arena ← resize .left pass.leftSpine arena
  resize .right pass.rightSpine arena

/-- Two trees are hung below a node that has no parent. -/
def hangBoth (arena : Arena) (id : NodeId) (left right : Option NodeId) : Except Fault Arena := do
  let lsize ← arena.subtreeSize left
  let rsize ← arena.subtreeSize right
  let arena ← arena.update id fun node =>
    ((node.hang .left left lsize).hang .right right rsize).withParent none
  let arena ← Arena.setParent arena left (some id)
  Arena.setParent arena right (some id)

theorem reassemble_eq {left right : Shape} (lays : arena.Lays z) (follows : pass.Follows z)
    (focus : z.focus = .node left pass.here right) :
    reassemble arena pass = (do
      let arena ← handBoth arena pass left.root right.root
      let arena ← resizeBoth arena pass
      hangBoth arena pass.here (Rib.close .left z.left left).root
        (Rib.close .right z.right right).root) := by
  have inside : pass.here ∈ z.inOrder :=
    (z.mem_inOrder _).mpr (.inl (Shape.mem_inOrder_of_root follows.here))
  obtain ⟨target, found⟩ := Arena.exists_found (lays.inRange _ inside)
  have wired := lays.wired.focus
  rw [focus] at wired
  have left_eq : target.left = left.root := by
    rw [← wired.1, Arena.childOf_found found, Node.child]
  have right_eq : target.right = right.root := by
    rw [← wired.2.1, Arena.childOf_found found, Node.child]
  have topLeft := top_eq follows .left left
  have topRight := top_eq follows .right right
  rw [reassemble, Arena.node_eq_ok.mpr found, ok_bind]
  simp only [left_eq, right_eq, topLeft, topRight, handBoth, resizeBoth, hangBoth, bind_assoc]
  rfl

theorem handBoth_becomes {left right : Option NodeId} (follows : pass.Follows z)
    (h : handBoth arena pass left right = .ok after) :
    arena.Becomes after
      (((Rib.last z.left).toList ++ left.toList) ++ ((Rib.last z.right).toList ++ right.toList))
      (rewire (rewire arena.childOf (Rib.last z.left) .right left) (Rib.last z.right) .left right)
      (reparent (reparent arena.parentOf left (Rib.last z.left)) right (Rib.last z.right))
      arena.cachedOf := by
  obtain ⟨middle, h1, h2⟩ := bind_eq_ok.mp h
  have b1 := handOver_becomes follows h1
  have b2 := handOver_becomes follows h2
  rw [b1.links_eq, b1.parents_eq, b1.sizes_eq] at b2
  exact b1.trans b2

theorem resizeBoth_becomes (follows : pass.Follows z) (h : resizeBoth arena pass = .ok after) :
    ∃ sizes, arena.Becomes after (z.left.map (·.node) ++ z.right.map (·.node)) arena.childOf
        arena.parentOf sizes ∧
      ∀ left right : Shape,
        Zipper.Closable arena.pieceSize arena.childOf arena.cachedOf z left right →
        sizes = Rib.resized arena.pieceSize .right z.right right
          (Rib.resized arena.pieceSize .left z.left left arena.cachedOf) := by
  obtain ⟨middle, h1, h2⟩ := bind_eq_ok.mp h
  have h1 : resize .left ((z.spine .left).map (·.node)) arena = .ok middle :=
    follows.spine .left ▸ h1
  have h2 : resize .right ((z.spine .right).map (·.node)) middle = .ok after :=
    follows.spine .right ▸ h2
  obtain ⟨sizes1, b1, exact1⟩ := resize_becomes h1
  obtain ⟨sizes2, b2, exact2⟩ := resize_becomes h2
  rw [b1.links_eq, b1.parents_eq] at b2
  refine ⟨sizes2, b1.trans b2, fun left right closable => ?_⟩
  rw [b1.pieceSize, b1.links_eq, b1.sizes_eq] at exact2
  obtain rfl := exact1 left closable.mendsLeft
  exact exact2 right closable.mendsRight

theorem hangBoth_becomes {id : NodeId} {left right : Option NodeId}
    (h : hangBoth arena id left right = .ok after) :
    ∃ lsize rsize, arena.subtreeSize left = .ok lsize ∧ arena.subtreeSize right = .ok rsize ∧
      arena.Becomes after ([id] ++ (left.toList ++ right.toList))
        (rewire (rewire arena.childOf (some id) .left left) (some id) .right right)
        (reparent (reparent (reparent arena.parentOf (some id) none) left (some id)) right
          (some id))
        (rewire (rewire arena.cachedOf (some id) .left lsize) (some id) .right rsize) := by
  simp only [hangBoth, bind_eq_ok] at h
  obtain ⟨lsize, hl, rsize, hr, first, h1, second, h2, h3⟩ := h
  have b1 := Arena.becomes_hang_both h1
  have b2 := Arena.becomes_setParent h2
  have b3 := Arena.becomes_setParent h3
  rw [b1.links_eq, b1.parents_eq, b1.sizes_eq] at b2
  rw [b2.links_eq, b2.parents_eq, b2.sizes_eq] at b3
  exact ⟨lsize, rsize, hl, hr, b1.trans (b2.trans b3)⟩

theorem reassemble_becomes {left right : Shape} (lays : arena.Lays z) (follows : pass.Follows z)
    (nodup : z.inOrder.Nodup) (focus : z.focus = .node left pass.here right)
    (h : reassemble arena pass = .ok after) :
    ∃ sizes, arena.Becomes after z.inOrder (closeLinks arena.childOf z pass.here left right)
        (closeParents arena.parentOf z pass.here left right) sizes ∧
      (z.Measured arena.pieceSize arena.cachedOf →
        sizes = closeSizes arena.pieceSize arena.cachedOf z pass.here left right) := by
  rw [reassemble_eq lays follows focus] at h
  simp only [bind_eq_ok] at h
  obtain ⟨first, h1, second, h2, h3⟩ := h
  have b1 := handBoth_becomes follows h1
  obtain ⟨sizes, b2, exact⟩ := resizeBoth_becomes follows h2
  obtain ⟨lsize, rsize, hl, hr, b3⟩ := hangBoth_becomes h3
  rw [b1.links_eq, b1.parents_eq] at b2
  rw [b2.links_eq, b2.parents_eq, b2.sizes_eq] at b3
  have all := b1.trans (b2.trans b3)
  refine ⟨_, ⟨all.mono fun i h => ?_, all.links_eq, all.parents_eq, all.sizes_eq⟩,
    fun measured => ?_⟩
  · have inLeft (h : i ∈ (Rib.close .left z.left left).inOrder) : i ∈ z.close.inOrder := by
      rw [Zipper.close_eq focus]
      exact List.mem_append_left _ h
    have inRight (h : i ∈ (Rib.close .right z.right right).inOrder) : i ∈ z.close.inOrder := by
      rw [Zipper.close_eq focus]
      exact List.mem_append_right _ (List.mem_cons_of_mem _ h)
    rw [← Zipper.inOrder_close (by simp [focus])]
    simp only [List.mem_append, Option.mem_toList, List.mem_singleton] at h
    rcases h with ((h | h) | h | h) | (h | h) | h | h | h
    · exact inLeft ((Rib.mem_inOrder_close ..).mpr (.inr (Rib.mem_ids_of_last h)))
    · exact inLeft ((Rib.mem_inOrder_close ..).mpr (.inl (Shape.mem_inOrder_of_root h)))
    · exact inRight ((Rib.mem_inOrder_close ..).mpr (.inr (Rib.mem_ids_of_last h)))
    · exact inRight ((Rib.mem_inOrder_close ..).mpr (.inl (Shape.mem_inOrder_of_root h)))
    · exact inLeft ((Rib.mem_inOrder_close ..).mpr (.inr (Rib.mem_ids_of_mem_map h)))
    · exact inRight ((Rib.mem_inOrder_close ..).mpr (.inr (Rib.mem_ids_of_mem_map h)))
    · rw [h, Zipper.close_eq focus]
      exact List.mem_append_right _ List.mem_cons_self
    · exact inLeft (Shape.mem_inOrder_of_root h)
    · exact inRight (Shape.mem_inOrder_of_root h)
  · have closable := Zipper.Measured.closable measured lays.wired nodup focus
    rw [b1.pieceSize, b1.links_eq, b1.sizes_eq] at exact
    obtain rfl := exact left right closable
    have pieces : second.pieceSize = arena.pieceSize := by rw [b2.pieceSize, b1.pieceSize]
    rw [Arena.subtreeSize_eq_ok (by rw [pieces, b2.sizes_eq]; exact closable.closedLeft) hl,
      Arena.subtreeSize_eq_ok (by rw [pieces, b2.sizes_eq]; exact closable.closedRight) hr, pieces]
    rfl

end Splay
end PieceIndex
