import PieceIndex.Proofs.Arena.Growth
import PieceIndex.Proofs.Beside
import PieceIndex.Tree.Insert

/-!
Adding a piece beside the root of a well-formed tree. The new node takes one of the old root's
subtrees and has the old root on its other side, with sizes to match; nothing else changes.
-/
namespace PieceIndex

namespace Arena
variable {arena after : Arena}

theorem becomes_rehang {id : NodeId} {side : Side} {child : Option NodeId} {size : Nat}
    (h : arena.update id (·.hang side child size) = .ok after) :
    Becomes arena after [id] (rewire arena.childOf (some id) side child) arena.parentOf
      (rewire arena.cachedOf (some id) side size) := by
  refine ⟨keeps_update h (by simp), childOf_update h ?_ ?_, parentOf_update h ?_ fun _ _ => rfl,
    cachedOf_update h ?_ ?_⟩
  · intro node found s
    simp [Node.child_hang, rewire, childOf_found found]
  · exact fun i ne => rewire_of_ne _ _ _ (by simpa using ne)
  · intro node found
    simp [parentOf_found found]
  · intro node found s
    simp [Node.sizeOn_hang, rewire, cachedOf_found found]
  · exact fun i ne => rewire_of_ne _ _ _ (by simpa using ne)

theorem update_twice {id : NodeId} (first second : Node → Node)
    (h : arena.update id (fun node => second (first node)) = .ok after) :
    ∃ middle, arena.update id first = .ok middle ∧ middle.update id second = .ok after := by
  have inRange := lt_size_of_update h
  obtain ⟨middle, h1⟩ := exists_update arena id first inRange
  obtain ⟨last, h2⟩ := exists_update middle id second (by rwa [size_update h1])
  refine ⟨middle, h1, ?_⟩
  rw [h2]
  congr 1
  apply Array.ext_getElem?
  intro i
  rw [getElem?_update h2, getElem?_update h1, getElem?_update h]
  split
  · rw [Option.map_map]
    rfl
  · rfl

/-- What an insertion does once the new node `id` is there: it takes over what hangs on one side of
the old root, which then hangs on its other side. -/
def takeOver (arena : Arena) (side : Side) (id old : NodeId) : Except Fault Arena := do
  let before ← arena.node old
  let taken := before.child side
  let takenSize := before.sizeOn side
  let arena ← arena.update old (·.hang side none 0)
  let rest ← (← Arena.node arena old).total
  let arena ← Arena.update arena id fun node =>
    (node.hang side taken takenSize).hang side.other (some old) rest
  let arena ← Arena.setParent arena taken (some id)
  Arena.update arena old (·.withParent (some id))

theorem append_eq (arena : Arena) (node : Node) (room : arena.size < NodeId.limit) :
    arena.append node = .ok (arena.push node, arena.size) := by
  rw [append, NodeId.ofSlot, if_pos room]
  rfl

theorem insertBeside_none (side : Side) (piece : Piece) (room : arena.size < NodeId.limit) :
    Tree.insertBeside ⟨arena, none⟩ side piece =
      .ok (⟨arena.push { piece := piece }, some arena.size⟩, arena.size) := by
  rw [Tree.insertBeside]
  dsimp only
  rw [append_eq arena _ room]
  rfl

theorem insertBeside_some {side : Side} {piece : Piece} {old : NodeId}
    (room : arena.size < NodeId.limit)
    (taken : takeOver (arena.push { piece := piece }) side arena.size old = .ok after) :
    Tree.insertBeside ⟨arena, some old⟩ side piece =
      .ok (⟨after, some arena.size⟩, arena.size) := by
  simp only [takeOver, bind_eq_ok] at taken
  obtain ⟨top, found, second, h2, lower, foundLower, rest, total, third, h3, fourth, h4, h5⟩ :=
    taken
  rw [Tree.insertBeside]
  simp only [append_eq arena _ room, found, h2, foundLower, total, h3, h4, h5, ok_bind, pure_eq_ok]

/-- Taking over changes the tables as `insertTable` does, and the parents of the two trees moved. -/
theorem Stands.exists_takeOver {shape : Shape} (stands : arena.Stands shape) (side : Side)
    {id old : NodeId} (root : shape.root = some old) (here : id < arena.size)
    (fits : shape.weight arena.pieceSize < Size.limit) :
    ∃ after, arena.takeOver side id old = .ok after ∧
      Becomes arena after (id :: shape.inOrder)
        (insertTable arena.childOf side id old none (shape.on side).root (some old))
        (reparent (reparent arena.parentOf (shape.on side).root (some id)) (some old) (some id))
        (insertTable arena.cachedOf side id old 0 ((shape.on side).weight arena.pieceSize)
          ((Shape.sided side .empty old (shape.on side.other)).weight arena.pieceSize)) := by
  have inShape : old ∈ shape.inOrder := Shape.mem_inOrder_of_root root
  have inRange := stands.inRange old inShape
  obtain ⟨top, foundTop⟩ := exists_found inRange
  have parts := Shape.exists_sided root side
  have wired := stands.wired
  have measured := stands.measured
  rw [parts] at wired measured fits
  replace wired := (Shape.tallies_sided ..).mp wired
  replace measured := (Shape.tallies_sided ..).mp measured
  rw [Shape.weight_sided] at fits
  have taken : top.child side = (shape.on side).root := by
    rw [← childOf_found foundTop, wired.1]
  have takenSize : top.sizeOn side = (shape.on side).weight arena.pieceSize := by
    rw [← cachedOf_found foundTop, measured.1]
  obtain ⟨second, h2⟩ := exists_update arena old (·.hang side none 0) inRange
  have b2 := becomes_rehang h2
  obtain ⟨lower, foundLower⟩ := exists_found (show old < second.size by rwa [b2.size])
  have rest : lower.total = .ok
      ((Shape.sided side .empty old (shape.on side.other)).weight arena.pieceSize) := by
    rw [Node.total_eq_ok side, ← cachedOf_found foundLower, ← cachedOf_found foundLower,
      ← pieceSize_found foundLower, b2.sizes_eq, b2.pieceSize, rewire_self, Shape.weight_sided,
      Shape.weight_empty, ← measured.2.1]
    refine ⟨by simp [rewire, Side.other_ne], by rw [measured.2.1]; omega⟩
  obtain ⟨third, h3⟩ := exists_update second id
    (fun node => (node.hang side (shape.on side).root ((shape.on side).weight arena.pieceSize)).hang
      side.other (some old) ((Shape.sided side .empty old (shape.on side.other)).weight
        arena.pieceSize)) (by rwa [b2.size])
  obtain ⟨between, h3a, h3b⟩ := update_twice
    (·.hang side (shape.on side).root ((shape.on side).weight arena.pieceSize))
    (·.hang side.other (some old)
      ((Shape.sided side .empty old (shape.on side.other)).weight arena.pieceSize)) h3
  have b3a := becomes_rehang h3a
  have b3b := becomes_rehang h3b
  have within {i : NodeId} (h : (shape.on side).root = some i) : i ∈ shape.inOrder := by
    rw [parts, Shape.mem_inOrder_sided]
    exact .inl (Shape.mem_inOrder_of_root h)
  obtain ⟨fourth, h4⟩ := exists_setParent third (shape.on side).root (some id) fun i h => by
    rw [b3b.size, b3a.size, b2.size]
    exact stands.inRange i (within h)
  have b4 := becomes_setParent h4
  obtain ⟨after, h5⟩ := exists_update fourth old (·.withParent (some id))
    (by rw [b4.size, b3b.size, b3a.size, b2.size]; exact inRange)
  have b5 := becomes_setParent (show fourth.setParent (some old) _ = _ from h5)
  rw [b2.links_eq, b2.parents_eq, b2.sizes_eq] at b3a
  rw [b3a.links_eq, b3a.parents_eq, b3a.sizes_eq] at b3b
  rw [b3b.links_eq, b3b.parents_eq, b3b.sizes_eq] at b4
  rw [b4.links_eq, b4.parents_eq, b4.sizes_eq] at b5
  have becomes := b2.trans (b3a.trans (b3b.trans (b4.trans b5)))
  refine ⟨after, ?_, becomes.toKeeps.mono fun i h => ?_, becomes.links_eq, becomes.parents_eq,
    becomes.sizes_eq⟩
  · rw [takeOver]
    simp only [node_eq_ok.mpr foundTop, node_eq_ok.mpr foundLower, taken, takenSize, rest, h2, h3,
      h4, h5, ok_bind]
  · simp only [List.mem_append, List.mem_singleton, Option.mem_toList, Option.some.injEq] at h
    rw [List.mem_cons]
    rcases h with rfl | rfl | rfl | top | rfl
    · exact .inr inShape
    · exact .inl rfl
    · exact .inl rfl
    · exact .inr (within top)
    · exact .inr inShape

/-- Once it has taken over, the new node is the root of a tree that stands by itself. -/
theorem Stands.takeOver {shape : Shape} (stands : arena.Stands shape) (side : Side)
    {id old : NodeId} (root : shape.root = some old) (new : id ∉ shape.inOrder)
    (here : id < arena.size) (alone : arena.parentOf id = none)
    (fits : shape.weight arena.pieceSize < Size.limit) :
    ∃ after, arena.takeOver side id old = .ok after ∧ after.Stands (shape.insertBeside side id) ∧
      arena.Keeps after (id :: shape.inOrder) := by
  obtain ⟨after, taken, becomes⟩ := stands.exists_takeOver side root here fits
  refine ⟨after, taken, ⟨fun i h => ?_, Shape.nodup_insertBeside stands.nodup new, ?_, ?_, ?_⟩,
    becomes.toKeeps⟩
  · rw [becomes.size]
    rcases (Shape.mem_inOrder_insertBeside i).mp h with rfl | h
    · exact here
    · exact stands.inRange i h
  · have inserted := Shape.Tallies.insertBeside side stands.wired stands.nodup root new
    rw [Shape.root_sided] at inserted
    rw [becomes.links_eq]
    exact inserted
  · rw [becomes.parents_eq]
    exact stands.parented.insertBeside stands.nodup root new alone
  · rw [becomes.sizes_eq, becomes.pieceSize]
    exact Shape.Tallies.insertBeside side stands.measured stands.nodup root new

theorem Stands.insertBeside {shape : Shape} (stands : arena.Stands shape) (side : Side)
    (piece : Piece) (room : arena.size < NodeId.limit)
    (fits : shape.weight arena.pieceSize < Size.limit) :
    ∃ after, Tree.insertBeside ⟨arena, shape.root⟩ side piece =
        .ok (⟨after, some arena.size⟩, arena.size) ∧
      after.Stands (shape.insertBeside side arena.size) ∧
      arena.Gains after piece shape.inOrder := by
  have gains := (Keeps.refl arena shape.inOrder).gains { piece := piece }
  cases root : shape.root with
  | none =>
    obtain rfl := Shape.root_eq_none.mp root
    have pushed := (hangs_empty arena _).push (hangs_empty arena _)
      (fun _ h => absurd h List.not_mem_nil) piece
    exact ⟨_, insertBeside_none side piece room, pushed, gains⟩
  | some old =>
    have found : (arena.push { piece := piece })[arena.size]? = some { piece := piece } :=
      push_self _
    have kept (i : NodeId) (h : i ∈ shape.inOrder) :
        (arena.push { piece := piece })[i]? = arena[i]? :=
      push_elsewhere _ (Nat.ne_of_lt (stands.inRange i h))
    have new : arena.size ∉ shape.inOrder := fun h => Nat.lt_irrefl _ (stands.inRange _ h)
    have weight : shape.weight (pieceSize (arena.push { piece := piece })) =
        shape.weight arena.pieceSize := sizeSum_congr fun i h => pieceSize_congr (kept i h)
    have standing : Stands (arena.push { piece := piece }) shape := stands.congr kept
    obtain ⟨after, taken, placed, keeps⟩ := standing.takeOver side root new
      (lt_size_of_found found) (parentOf_found found) (weight ▸ fits)
    exact ⟨after, insertBeside_some room taken, placed, gains.keeps keeps⟩

end Arena

/-- A piece that is not empty and for which there is room can be added beside the root of a
well-formed tree, and takes the place in the document that is asked for. -/
theorem Tree.WellFormedAs.insertBeside {tree : Tree} {shape : Shape}
    (well : tree.WellFormedAs shape) (side : Side) {piece : Piece} (nonempty : 1 ≤ piece.size)
    (room : tree.nodes.size < NodeId.limit)
    (fits : shape.weight tree.nodes.pieceSize + piece.size < Size.limit) :
    ∃ after, tree.insertBeside side piece = .ok (after, tree.nodes.size) ∧
      after.WellFormedAs (shape.insertBeside side tree.nodes.size) ∧
      tree.nodes.Gains after.nodes piece shape.inOrder := by
  obtain ⟨arena, inserted, stands, gains⟩ := well.stands.insertBeside side piece room (by omega)
  have new : arena.pieceSize tree.nodes.size = piece.size := by
    rw [Arena.pieceSize_eq, gains.added]
    rfl
  have old (i : NodeId) (h : i ∈ shape.inOrder) : arena.pieceSize i = tree.nodes.pieceSize i := by
    rw [Arena.pieceSize_eq, Arena.pieceSize_eq, gains.pieces i (well.stands.inRange i h)]
  have well' : WellFormedAs ⟨arena, (shape.insertBeside side tree.nodes.size).root⟩
      (shape.insertBeside side tree.nodes.size) := by
    refine .of_stands stands (fun id h => ?_) (fun id h => ?_) ?_
    · rw [gains.size] at h
      rw [Shape.mem_inOrder_insertBeside]
      exact (Nat.lt_succ_iff_lt_or_eq.mp h).symm.imp_right (well.full id)
    · rcases (Shape.mem_inOrder_insertBeside id).mp h with rfl | h
      · rwa [new]
      · rw [old id h]
        exact well.nonempty id h
    · rw [Shape.weight_insertBeside, new, Shape.weight, sizeSum_congr old, Nat.add_comm]
      exact fits
  rw [Shape.root_insertBeside] at well'
  refine ⟨_, ?_, well', gains⟩
  rw [← well.root_eq] at inserted
  exact inserted

end PieceIndex
