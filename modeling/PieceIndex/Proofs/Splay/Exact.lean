import PieceIndex.Proofs.Splay.Decision

/-!
A splay over right sizes meets no fault. Whatever is decided, no sum of a turn is too large, and
none that is needed to put the tree together again; so that a splay makes of a well-formed tree the
shape that its sizes alone tell.
-/
namespace PieceIndex
namespace Splay
variable {arena after : Arena} {pass pass' : Pass} {z z' : Zipper} {side : Side} {offset : Nat}

theorem exists_rotate {child : NodeId} (sound : Sound arena pass z)
    (ahead : (z.focus.on side).root = some child) :
    ∃ after, rotate arena side pass.here child = .ok after := by
  have room := z.passed_add_weight_le arena.pieceSize
  have fits := sound.fits
  have inRange (i : NodeId) (h : i ∈ z.focus.inOrder) : i < arena.size :=
    sound.lays.inRange i ((z.mem_inOrder i).mpr (.inl h))
  have wired := sound.lays.wired.focus
  have measured := sound.sized.measured.focus
  have focus := Shape.exists_sided sound.follows.here side
  rw [Shape.exists_sided ahead side] at focus
  rw [focus] at inRange wired measured
  simp only [Shape.tallies_sided, Shape.mem_inOrder_sided] at inRange wired measured
  rw [focus, Shape.weight_sided, Shape.weight_sided] at room
  obtain ⟨lower, foundl⟩ := Arena.exists_found (inRange child (.inl (.inr (.inl rfl))))
  obtain ⟨first, h1⟩ := Arena.exists_update arena pass.here
    (fun upper => (upper.hang side (lower.child side.other) (lower.sizeOn side.other)).withParent
      (some child)) (inRange pass.here (.inr (.inl rfl)))
  have b1 := Arena.becomes_hang h1
  obtain ⟨upper, foundu⟩ := Arena.exists_found
    (show pass.here < first.size by rw [b1.size]; exact inRange pass.here (.inr (.inl rfl)))
  have inner : upper.sizeOn side = ((z.focus.on side).on side.other).weight arena.pieceSize := by
    rw [← Arena.cachedOf_found foundu, b1.sizes_eq, rewire_self, ← measured.2.2.1.2.1,
      Arena.cachedOf_found foundl]
  have outer : upper.sizeOn side.other = (z.focus.on side.other).weight arena.pieceSize := by
    rw [← Arena.cachedOf_found foundu, b1.sizes_eq, ← measured.2.1]
    simp [rewire, Side.other_ne]
  have piece : upper.piece.size = arena.pieceSize pass.here := by
    rw [← Arena.pieceSize_found foundu, b1.pieceSize]
  have total : upper.total = .ok _ := (Node.total_eq_ok side).mpr ⟨rfl, by omega⟩
  obtain ⟨second, h2⟩ := Arena.exists_setParent first (lower.child side.other)
    (some pass.here) fun i h => by
      rw [← Arena.childOf_found foundl, wired.2.2.1.2.1] at h
      rw [b1.size]
      exact inRange i (.inl (.inr (.inr (Shape.mem_inOrder_of_root h))))
  obtain ⟨after, h3⟩ := Arena.exists_update second child
    (fun lower => (lower.hang side.other (some pass.here)
      (upper.sizeOn side + upper.piece.size + upper.sizeOn side.other)).withParent none)
    (by
      rw [(Arena.becomes_setParent h2).size, b1.size]
      exact inRange child (.inl (.inr (.inl rfl))))
  refine ⟨after, ?_⟩
  simp only [rotate, bind_eq_ok, Arena.node_eq_ok]
  exact ⟨lower, foundl, first, h1, upper, foundu, _, total, second, h2, h3⟩

theorem exists_link (sound : Sound arena pass z) (side : Side) (next : NodeId) :
    ∃ result, link side arena pass next = .ok result := by
  have room := z.passed_add_weight_le arena.pieceSize
  have fits := sound.fits
  have inRange := sound.lays.inRange
  have here : pass.here < arena.size :=
    inRange _ ((z.mem_inOrder _).mpr (.inl (Shape.mem_inOrder_of_root sound.follows.here)))
  have measured := sound.sized.measured.focus
  have focus := Shape.exists_sided sound.follows.here .left
  rw [focus, Shape.tallies_sided] at measured
  rw [focus, Shape.weight_sided] at room
  obtain ⟨first, h1⟩ := Arena.exists_updateSome arena
    (pass.spine side.other).head? (·.withChild side (some pass.here)) fun i h => by
      rw [sound.follows.last] at h
      exact inRange i ((z.mem_inOrder i).mpr (.inr ⟨_, Rib.mem_ids_of_last h⟩))
  have b1 := Arena.becomes_setChild h1
  obtain ⟨second, h2⟩ := Arena.exists_update first pass.here
    (·.withParent (pass.spine side.other).head?) (by rw [b1.size]; exact here)
  have b2 := Arena.becomes_setParent (show first.setParent (some pass.here) _ = _ from h2)
  obtain ⟨node, found⟩ := Arena.exists_found
    (show pass.here < second.size by rw [b2.size, b1.size]; exact here)
  have lsize : node.lsize = (z.focus.on .left).weight arena.pieceSize := by
    rw [← show node.sizeOn .left = node.lsize from rfl, ← Arena.cachedOf_found found, b2.sizes_eq,
      b1.sizes_eq]
    exact measured.1
  have piece : node.piece.size = arena.pieceSize pass.here := by
    rw [← Arena.pieceSize_found found, b2.pieceSize, b1.pieceSize]
  have passed := sound.sized.passed
  have moved : ∃ passed, passedBy pass.passed node side = .ok passed := by
    cases side with
    | left => exact ⟨_, rfl⟩
    | right =>
      rw [passedBy, Node.rightEdge_eq_ok.mpr ⟨rfl, by omega⟩, ok_bind]
      exact ⟨_, Size.add_of_lt (by omega)⟩
  obtain ⟨passed, moved⟩ := moved
  simp only [link, bind_eq_ok, Arena.node_eq_ok]
  exact ⟨_, first, h1, second, h2, node, found, passed, moved, rfl⟩

theorem exists_follow (sound : Sound arena pass z) (choice : Zipper.Choice) :
    ∃ after pass' goesOn, follow arena pass choice = .ok (after, pass', goesOn) := by
  match choice with
  | none => exact ⟨_, _, _, rfl⟩
  | some (side, rotates) =>
    obtain ⟨node, found⟩ := Arena.exists_found (sound.lays.inRange _
      ((z.mem_inOrder _).mpr (.inl (Shape.mem_inOrder_of_root sound.follows.here))))
    rw [follow, Arena.node_eq_ok.mpr found, ok_bind, ← Arena.childOf_found found,
      sound.lays.child_here sound.follows]
    cases ahead : (z.focus.on side).root with
    | none => exact ⟨_, _, _, rfl⟩
    | some child =>
      obtain ⟨middle, pass', folded⟩ : ∃ middle pass', foldIf rotates side arena pass child =
          .ok (middle, pass') := by
        cases rotates with
        | false => exact ⟨_, _, rfl⟩
        | true =>
          obtain ⟨middle, rotated⟩ := exists_rotate sound ahead
          exact ⟨middle, _, bind_eq_ok.mpr ⟨middle, rotated, rfl⟩⟩
      have sound' := sound.advance (Zipper.inOrder_foldIf rotates side z)
        (foldIf_advances sound.lays sound.follows sound.nodup ahead folded)
      obtain ⟨node', found'⟩ := Arena.exists_found (sound'.lays.inRange _
        ((Zipper.mem_inOrder _ _).mpr (.inl (Shape.mem_inOrder_of_root sound'.follows.here))))
      dsimp only
      rw [folded, ok_bind]
      dsimp only
      rw [Arena.node_eq_ok.mpr found', ok_bind]
      cases node'.child side with
      | none => exact ⟨_, _, _, rfl⟩
      | some next =>
        obtain ⟨⟨last, pass''⟩, linked⟩ := exists_link sound' side next
        exact ⟨last, pass'', true, bind_eq_ok.mpr ⟨_, linked, rfl⟩⟩

/-- A turn over right sizes is the one that the sizes alone decide. -/
theorem advance_sound (sound : Sound arena pass z) (offset : Nat) :
    ∃ after pass', advance offset arena pass =
        .ok (after, pass', (z.turn (z.choose arena.pieceSize offset)).2) ∧
      Advances arena after pass pass' z (z.turn (z.choose arena.pieceSize offset)).1 := by
  obtain ⟨after, pass', goesOn, h⟩ := exists_follow sound (z.choose arena.pieceSize offset)
  obtain ⟨rfl, advances⟩ := follow_advances sound.lays sound.follows sound.nodup h
  exact ⟨after, pass', by rw [advance_eq, choice_eq sound, ok_bind, h], advances⟩

theorem descend_sound (offset fuel : Nat) (sound : Sound arena pass z)
    (enough : z.focus.count ≤ fuel) :
    ∃ after pass', descend offset fuel arena pass = .ok (after, pass') ∧
      Sound after pass' (z.descend (Zipper.choose arena.pieceSize offset)) ∧
      Advances arena after pass pass' z (z.descend (Zipper.choose arena.pieceSize offset)) := by
  induction fuel generalizing arena pass z with
  | zero =>
    have none := Shape.count_eq_zero.mp (Nat.le_zero.mp enough)
    have here := sound.follows.here
    rw [none] at here
    cases here
  | succ fuel ih =>
    obtain ⟨middle, pass', h, advances⟩ := advance_sound sound offset
    have same := Zipper.inOrder_turn z (z.choose arena.pieceSize offset)
    have sound' := sound.advance same advances
    rw [descend, h, ok_bind, Zipper.descend]
    by_cases goesOn : (z.turn (z.choose arena.pieceSize offset)).2 = true
    · obtain ⟨after, pass'', h', sound'', rest⟩ :=
        ih sound' (by have := (Zipper.turn_goesOn goesOn).1; omega)
      rw [advances.keeps.pieceSize] at sound'' rest
      simp only [goesOn, if_true, dite_true]
      exact ⟨after, pass'', h', sound'', advances.trans same rest⟩
    · simp only [goesOn]
      exact ⟨middle, pass', rfl, sound', advances⟩

theorem exists_handOver (arena : Arena) (side : Side) (inner : Shape) (follows : pass.Follows z)
    (inRange : ∀ i ∈ z.inOrder, i < arena.size) (inside : ∀ i ∈ inner.inOrder, i < arena.size) :
    ∃ after, handOver side arena pass inner.root = .ok after := by
  obtain ⟨middle, h1⟩ := Arena.exists_updateSome arena (pass.spine side).head?
    (·.withChild side.other inner.root) fun i h => by
      rw [follows.last] at h
      exact inRange i ((z.mem_inOrder i).mpr (.inr ⟨_, Rib.mem_ids_of_last h⟩))
  obtain ⟨after, h2⟩ := Arena.exists_setParent middle inner.root
    (pass.spine side).head? fun i h => by
      rw [(Arena.becomes_setChild h1).size]
      exact inside i (Shape.mem_inOrder_of_root h)
  exact ⟨after, bind_eq_ok.mpr ⟨middle, h1, h2⟩⟩

theorem exists_resize (arena : Arena) (side : Side) (ribs : List Rib) (inner : Shape)
    (mendable : Rib.Mendable arena.pieceSize arena.childOf arena.cachedOf side ribs inner)
    (inRange : ∀ i ∈ (Rib.close side ribs inner).inOrder, i < arena.size)
    (fits : (Rib.close side ribs inner).weight arena.pieceSize < Size.limit) :
    ∃ after, resize side (ribs.map (·.node)) arena = .ok after := by
  induction ribs generalizing arena inner with
  | nil => exact ⟨arena, rfl⟩
  | cons rib ribs ih =>
    have within : inner.weight arena.pieceSize ≤
        (Rib.close side (rib :: ribs) inner).weight arena.pieceSize := by
      rw [Shape.weight, Shape.weight, Rib.inOrder_close]
      cases side <;> simp
    have inside (i : NodeId) (h : i ∈ inner.inOrder) : i < arena.size :=
      inRange i ((Rib.mem_inOrder_close ..).mpr (.inl h))
    have here : rib.node < arena.size :=
      inRange _ ((Rib.mem_inOrder_close ..).mpr (.inr ((Rib.mem_ids_cons ..).mpr (.inl rfl))))
    obtain ⟨node, found⟩ := Arena.exists_found here
    obtain ⟨middle, h1⟩ := Arena.exists_update arena rib.node
      (·.withSize side.other (inner.weight arena.pieceSize)) here
    have b1 := Arena.becomes_withSize h1
    obtain ⟨after, h2⟩ := ih middle (.sided side rib.outer rib.node inner)
      (by rw [b1.pieceSize, b1.links_eq, b1.sizes_eq]; exact mendable.step)
      (by rw [b1.size]; exact inRange) (by rw [b1.pieceSize]; exact fits)
    refine ⟨after, ?_⟩
    simp only [List.map_cons, resize, bind_eq_ok, Arena.node_eq_ok]
    refine ⟨node, found, _, ?_, middle, h1, h2⟩
    rw [← Arena.childOf_found found, mendable.chained.1]
    exact Arena.subtreeSize_of_measured inside mendable.measured (by omega)

theorem exists_handBoth (follows : pass.Follows z) (left right : Shape)
    (inRange : ∀ i ∈ z.inOrder, i < arena.size) (inLeft : ∀ i ∈ left.inOrder, i < arena.size)
    (inRight : ∀ i ∈ right.inOrder, i < arena.size) :
    ∃ after, handBoth arena pass left.root right.root = .ok after := by
  obtain ⟨middle, h1⟩ := exists_handOver arena .left left follows inRange inLeft
  have b1 := handOver_becomes follows h1
  obtain ⟨after, h2⟩ := exists_handOver middle .right right follows
    (by rw [b1.size]; exact inRange) (by rw [b1.size]; exact inRight)
  exact ⟨after, bind_eq_ok.mpr ⟨middle, h1, h2⟩⟩

theorem exists_resizeBoth (follows : pass.Follows z) {left right : Shape}
    (closable : Zipper.Closable arena.pieceSize arena.childOf arena.cachedOf z left right)
    (inLeft : ∀ i ∈ (Rib.close .left z.left left).inOrder, i < arena.size)
    (inRight : ∀ i ∈ (Rib.close .right z.right right).inOrder, i < arena.size)
    (fitsl : (Rib.close .left z.left left).weight arena.pieceSize < Size.limit)
    (fitsr : (Rib.close .right z.right right).weight arena.pieceSize < Size.limit) :
    ∃ after, resizeBoth arena pass = .ok after := by
  obtain ⟨middle, h1⟩ := exists_resize arena .left z.left left closable.mendsLeft inLeft fitsl
  obtain ⟨sizes, b1, exact⟩ := resize_becomes h1
  obtain rfl := exact left closable.mendsLeft
  obtain ⟨after, h2⟩ := exists_resize middle .right z.right right
    (by rw [b1.pieceSize, b1.links_eq, b1.sizes_eq]; exact closable.mendsRight)
    (by rw [b1.size]; exact inRight) (by rw [b1.pieceSize]; exact fitsr)
  rw [← show pass.leftSpine = z.left.map (·.node) from follows.spine .left] at h1
  rw [← show pass.rightSpine = z.right.map (·.node) from follows.spine .right] at h2
  exact ⟨after, bind_eq_ok.mpr ⟨middle, h1, h2⟩⟩

theorem exists_hangBoth {id : NodeId} {left right : Shape} (here : id < arena.size)
    (inLeft : ∀ i ∈ left.inOrder, i < arena.size) (inRight : ∀ i ∈ right.inOrder, i < arena.size)
    (measuredl : left.Measured arena.pieceSize arena.cachedOf)
    (measuredr : right.Measured arena.pieceSize arena.cachedOf)
    (fitsl : left.weight arena.pieceSize < Size.limit)
    (fitsr : right.weight arena.pieceSize < Size.limit) :
    ∃ after, hangBoth arena id left.root right.root = .ok after := by
  obtain ⟨first, h1⟩ := Arena.exists_update arena id
    (fun node => ((node.hang .left left.root (left.weight arena.pieceSize)).hang .right right.root
      (right.weight arena.pieceSize)).withParent none) here
  have b1 := Arena.becomes_hang_both h1
  obtain ⟨second, h2⟩ := Arena.exists_setParent first left.root (some id) fun i h => by
    rw [b1.size]
    exact inLeft i (Shape.mem_inOrder_of_root h)
  obtain ⟨after, h3⟩ := Arena.exists_setParent second right.root (some id) fun i h => by
    rw [(Arena.becomes_setParent h2).size, b1.size]
    exact inRight i (Shape.mem_inOrder_of_root h)
  simp only [hangBoth, bind_eq_ok]
  exact ⟨after, _, Arena.subtreeSize_of_measured inLeft measuredl fitsl, _,
    Arena.subtreeSize_of_measured inRight measuredr fitsr, first, h1, second, h2, h3⟩

theorem exists_reassemble (sound : Sound arena pass z) :
    ∃ after, reassemble arena pass = .ok after := by
  obtain ⟨lays, follows, nodup, sized, fits⟩ := sound
  obtain ⟨left, right, focus⟩ : ∃ left right, z.focus = .node left pass.here right :=
    ⟨_, _, Shape.exists_sided follows.here .left⟩
  have closable := sized.measured.closable lays.wired nodup focus
  have whole := Zipper.weight_close arena.pieceSize (show z.focus ≠ .empty by simp [focus])
  have order := Zipper.inOrder_close (show z.focus ≠ .empty by simp [focus])
  rw [Zipper.close_eq focus] at whole order
  rw [Shape.weight_node] at whole
  have inLeft (i : NodeId) (h : i ∈ (Rib.close .left z.left left).inOrder) : i < arena.size :=
    lays.inRange i (order ▸ List.mem_append_left _ h)
  have inRight (i : NodeId) (h : i ∈ (Rib.close .right z.right right).inOrder) : i < arena.size :=
    lays.inRange i (order ▸ List.mem_append_right _ (List.mem_cons_of_mem _ h))
  have here : pass.here < arena.size :=
    lays.inRange _ (order ▸ List.mem_append_right _ List.mem_cons_self)
  obtain ⟨first, h1⟩ := exists_handBoth follows left right lays.inRange
    (fun i h => inLeft i ((Rib.mem_inOrder_close ..).mpr (.inl h)))
    (fun i h => inRight i ((Rib.mem_inOrder_close ..).mpr (.inl h)))
  have b1 := handBoth_becomes follows h1
  rw [← b1.links_eq, ← b1.sizes_eq, ← b1.pieceSize] at closable
  rw [← b1.pieceSize] at whole fits
  rw [← b1.size] at inLeft inRight here
  obtain ⟨second, h2⟩ := exists_resizeBoth follows closable inLeft inRight (by omega) (by omega)
  obtain ⟨sizes, b2, exact⟩ := resizeBoth_becomes follows h2
  obtain rfl := exact left right closable
  rw [← b2.size] at inLeft inRight here
  obtain ⟨after, h3⟩ := exists_hangBoth here inLeft inRight
    (by rw [b2.pieceSize, b2.sizes_eq]; exact closable.closedLeft)
    (by rw [b2.pieceSize, b2.sizes_eq]; exact closable.closedRight)
    (by rw [b2.pieceSize]; omega) (by rw [b2.pieceSize]; omega)
  rw [reassemble_eq lays follows focus]
  simp only [bind_eq_ok]
  exact ⟨after, first, h1, second, h2, h3⟩

end Splay

namespace Tree
variable {tree after : Tree} {shape shape' : Shape}

theorem WellFormedAs.rearranged (well : tree.WellFormedAs shape)
    (rearranges : tree.Rearranges after shape shape') (sizes : after.nodes.Exact shape') :
    after.WellFormedAs shape' := by
  have order := rearranges.inOrder_eq
  refine ⟨rearranges.toHasShape, rearranges.parents, sizes, fun id h => ?_, fun id h => ?_, ?_⟩
  · rw [order]
    exact well.full id (by rwa [rearranges.keeps.size] at h)
  · rw [rearranges.keeps.pieceSize]
    exact well.nonempty id (order ▸ h)
  · rw [Arena.weight_eq, rearranges.keeps.pieceSize, Shape.weight, order]
    exact well.sizeSum_lt

/-- Where the cached sizes are right and the whole fits, a splay to an offset within it meets no
fault, and what it makes of the tree depends on the sizes alone. Pieces may be empty, and nodes out
of reach. -/
theorem HasShape.splayTraced (has : tree.HasShape shape)
    (parents : ∃ above, tree.nodes.Parents above shape) (sizes : tree.nodes.Exact shape)
    (fits : shape.weight tree.nodes.pieceSize < Size.limit) {offset : Nat}
    (within : offset ≤ shape.weight tree.nodes.pieceSize) :
    ∃ after steps, tree.splayTraced offset = .ok (after, after.root, steps) ∧
      after.nodes.Exact (shape.splay tree.nodes.pieceSize offset) ∧
      tree.Rearranges after shape (shape.splay tree.nodes.pieceSize offset) := by
  have lays := has.lays parents
  have enough := has.count_le
  obtain ⟨inRange, measured⟩ := Arena.exact_iff.mp sizes
  have length := Arena.subtreeSize_of_measured inRange measured fits
  obtain ⟨arena, top⟩ := tree
  have top_eq := has.root_eq
  dsimp only at lays top_eq enough within measured length fits ⊢
  cases top with
  | none =>
    obtain rfl := Shape.root_eq_none.mp top_eq.symm
    have same : Shape.empty.splay arena.pieceSize offset = .empty := by
      simp [Shape.splay, Zipper.descend, Zipper.choose, Zipper.turn, Zipper.close]
    rw [same]
    exact ⟨_, [], rfl, sizes, has, trivial, rfl, .refl _ _⟩
  | some root =>
    have start := Splay.sound_start lays top_eq.symm has.nodup measured fits
    obtain ⟨middle, pass, descended, sound, advances⟩ :=
      Splay.descend_sound offset (stepLimit arena.size) start
        (by dsimp only [stepLimit]; omega)
    obtain ⟨last, reassembled⟩ := Splay.exists_reassemble sound
    obtain ⟨rearranges, exact⟩ := rearranges_close has (by simp) advances reassembled
    refine ⟨⟨last, some pass.here⟩, pass.steps, ?_, exact sizes, rearranges⟩
    rw [← top_eq] at length
    simp only [Tree.splayTraced, Tree.length, bind_eq_ok]
    refine ⟨_, length, ?_⟩
    rw [if_neg (Nat.not_lt.mpr within)]
    simp only [bind_eq_ok]
    exact ⟨_, descended, last, reassembled, rfl⟩

/-- On a well-formed tree a splay to an offset within the document meets no fault, and what it makes
of the tree depends on the sizes alone. -/
theorem WellFormedAs.splayTraced (well : tree.WellFormedAs shape) {offset : Nat}
    (within : offset ≤ shape.weight tree.nodes.pieceSize) :
    ∃ after steps, tree.splayTraced offset = .ok (after, after.root, steps) ∧
      after.WellFormedAs (shape.splay tree.nodes.pieceSize offset) ∧
      tree.Rearranges after shape (shape.splay tree.nodes.pieceSize offset) := by
  obtain ⟨after, steps, splayed, sizes, rearranges⟩ :=
    well.toHasShape.splayTraced ⟨none, well.parents⟩ well.sizes well.sizeSum_lt within
  exact ⟨after, steps, splayed, well.rearranged rearranges sizes, rearranges⟩

end Tree
end PieceIndex
