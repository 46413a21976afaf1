import PieceIndex.Proofs.Splay.Reassembly

/-!
A splay keeps the document and the links sound, whatever the cached sizes say. Wrong sizes can only
send the pass to another target or end it with a sum that does not fit; each turn still keeps the
order of the nodes and takes something away from what lies ahead.
-/
namespace PieceIndex
namespace Splay

@[simp] theorem ends_choice (offset : Nat) (arena : Arena) (pass : Pass) :
    Ends (choice offset arena pass) := by
  have ends_heading (node : Node) : Ends (heading offset pass.passed node) := by
    simp only [heading, ends_bind, Node.ends_leftEdge, Size.ends_add]
    refine ⟨trivial, fun first _ => ⟨trivial, fun last _ => ?_⟩⟩
    split
    · simp
    · split <;> simp
  have ends_goesPast (node child : Node) (side : Side) :
      Ends (goesPast offset pass.passed node child side) := by
    cases side <;> simp [goesPast]
  simp only [choice, ends_bind, Arena.ends_node, ends_heading, true_and]
  intro node _ side _
  cases side with
  | none => simp
  | some side => cases below : node.child side <;> simp [below, ends_goesPast]

@[simp] theorem ends_follow (arena : Arena) (pass : Pass) (choice : Zipper.Choice) :
    Ends (follow arena pass choice) := by
  have ends_foldIf (rotates : Bool) (side : Side) (child : NodeId) :
      Ends (foldIf rotates side arena pass child) := by
    cases rotates <;> simp [foldIf, rotate]
  have ends_link (side : Side) (arena : Arena) (pass : Pass) (next : NodeId) :
      Ends (link side arena pass next) := by
    cases side <;> simp [link, passedBy]
  rcases choice with _ | ⟨side, rotates⟩
  · simp [follow]
  · simp only [follow, ends_bind, Arena.ends_node, true_and]
    intro node _
    cases node.child side with
    | none => simp
    | some child =>
      simp only [ends_bind, ends_foldIf, Arena.ends_node, true_and]
      intro folded _ node _
      cases node.child side <;> simp [ends_link]

@[simp] theorem ends_resize (side : Side) (ids : List NodeId) (arena : Arena) :
    Ends (resize side ids arena) := by
  induction ids generalizing arena with
  | nil => simp [resize]
  | cons id ids ih => simp [resize, ih]

@[simp] theorem ends_reassemble (arena : Arena) (pass : Pass) : Ends (reassemble arena pass) := by
  simp [reassemble, handOver]

variable {arena after : Arena} {pass pass' : Pass} {z : Zipper}

theorem advance_advances {offset : Nat} {goesOn : Bool} (lays : arena.Lays z)
    (follows : pass.Follows z) (nodup : z.inOrder.Nodup)
    (h : advance offset arena pass = .ok (after, pass', goesOn)) :
    ∃ choice, goesOn = (z.turn choice).2 ∧
      Advances arena after pass pass' z (z.turn choice).1 := by
  rw [advance_eq, bind_eq_ok] at h
  obtain ⟨choice, -, h⟩ := h
  exact ⟨choice, follow_advances lays follows nodup h⟩

/-- Every pass ends, as each turn leaves less ahead of it. -/
theorem ends_descend (offset fuel : Nat) (lays : arena.Lays z) (follows : pass.Follows z)
    (nodup : z.inOrder.Nodup) (enough : z.focus.count ≤ fuel) :
    Ends (descend offset fuel arena pass) := by
  induction fuel generalizing arena pass z with
  | zero =>
    have none := Shape.count_eq_zero.mp (Nat.le_zero.mp enough)
    have here := follows.here
    rw [none] at here
    cases here
  | succ fuel ih =>
    rw [descend, ends_bind]
    constructor
    · simp [advance_eq]
    · rintro ⟨middle, pass', goesOn⟩ h
      obtain ⟨choice, rfl, advances⟩ := advance_advances lays follows nodup h
      dsimp only
      split
      · next goesOn =>
        have less := (Zipper.turn_goesOn goesOn).1
        exact ih advances.lays advances.follows (by rwa [Zipper.inOrder_turn]) (by omega)
      · simp

theorem descend_advances {offset fuel : Nat} (lays : arena.Lays z) (follows : pass.Follows z)
    (nodup : z.inOrder.Nodup) (h : descend offset fuel arena pass = .ok (after, pass')) :
    ∃ z', z'.inOrder = z.inOrder ∧ Advances arena after pass pass' z z' := by
  induction fuel generalizing arena pass z with
  | zero => cases h
  | succ fuel ih =>
    rw [descend, bind_eq_ok] at h
    obtain ⟨⟨middle, pass'', goesOn⟩, turned, h⟩ := h
    obtain ⟨choice, rfl, advances⟩ := advance_advances lays follows nodup turned
    have same := Zipper.inOrder_turn z choice
    dsimp only at h
    split at h
    · obtain ⟨z', same', rest⟩ := ih advances.lays advances.follows (same ▸ nodup) h
      exact ⟨z', same'.trans same, advances.trans same rest⟩
    · cases h
      exact ⟨_, same, advances⟩

end Splay

namespace Tree
variable {tree : Tree} {shape : Shape}

theorem HasShape.lays (h : tree.HasShape shape)
    (parents : ∃ above, tree.nodes.Parents above shape) : tree.nodes.Lays { focus := shape } := by
  obtain ⟨above, parents⟩ := parents
  refine ⟨?_, ⟨⟨(Arena.links_iff.mp h.links).2, fun side => ?_⟩, fun side => ⟨none, ?_⟩⟩,
    ⟨⟨above, (Arena.parents_iff.mp parents).2⟩, fun side => ?_⟩⟩
  · simpa using (Arena.links_iff.mp h.links).1
  all_goals cases side <;> trivial

/-- The tree that was splayed holds the same pieces in the same order, in links that are sound, and
nodes that were not part of it are left alone. -/
structure Rearranges (before after : Tree) (shape shape' : Shape) : Prop
    extends after.HasShape shape' where
  parents : after.nodes.Parents none shape'
  inOrder_eq : shape'.inOrder = shape.inOrder
  keeps : before.nodes.Keeps after.nodes shape.inOrder

/-- A pass that has come to its end and is put together again has rearranged the tree. -/
theorem rearranges_close {arena middle last : Arena} {root : NodeId} {pass : Pass} {z : Zipper}
    (has : Tree.HasShape ⟨arena, some root⟩ shape) (same : z.inOrder = shape.inOrder)
    (advances : Advances arena middle { here := root } pass { focus := shape } z)
    (reassembled : Splay.reassemble middle pass = .ok last) :
    Rearranges ⟨arena, some root⟩ ⟨last, some pass.here⟩ shape z.close ∧
      (arena.Exact shape → last.Exact z.close) := by
  have nodup : z.inOrder.Nodup := same ▸ has.nodup
  obtain ⟨left, right, focus⟩ : ∃ left right, z.focus = .node left pass.here right :=
    ⟨_, _, Shape.exists_sided advances.follows.here .left⟩
  obtain ⟨sizes, becomes, exact⟩ := Splay.reassemble_becomes advances.lays advances.follows
    nodup focus reassembled
  have order : z.close.inOrder = shape.inOrder := by
    rw [Zipper.inOrder_close (by simp [focus]), same]
  have keeps : arena.Keeps last shape.inOrder := by
    have first := advances.keeps
    rw [Zipper.inOrder_start] at first
    exact first.trans (same ▸ becomes.toKeeps)
  have inRange : ∀ i ∈ z.close.inOrder, i < last.size := by
    intro i h
    rw [keeps.size]
    exact (Arena.links_iff.mp has.links).1 i (order ▸ h)
  refine ⟨⟨⟨?_, ?_, ?_⟩, ?_, order, keeps⟩, fun sizesExact => ?_⟩
  · rw [Zipper.close_eq focus, Shape.root]
  · rw [Arena.links_iff, becomes.links_eq]
    exact ⟨inRange, advances.lays.wired.close nodup focus⟩
  · rw [order]
    exact has.nodup
  · rw [Arena.parents_iff, becomes.parents_eq]
    exact ⟨inRange, advances.lays.parented.close nodup focus⟩
  · have start : Sized arena { here := root } { focus := shape } :=
      ⟨⟨(Arena.exact_iff.mp sizesExact).2, fun side => by cases side <;> trivial⟩, rfl⟩
    have measured := (advances.sized start).measured
    rw [Arena.exact_iff, becomes.sizes_eq, becomes.pieceSize, exact measured]
    exact ⟨inRange, measured.close nodup focus⟩

/-- A splay that gives a tree has gone down from the root and put the spines under the target. -/
theorem splayTraced_cases {arena : Arena} {id : NodeId} {offset : Nat} {after : Tree}
    {root : Option NodeId} {steps : List Step}
    (h : splayTraced ⟨arena, some id⟩ offset = .ok (after, root, steps)) :
    ∃ middle pass last,
      Splay.descend offset (stepLimit arena.size) arena { here := id } = .ok (middle, pass) ∧
        Splay.reassemble middle pass = .ok last ∧ after = ⟨last, some pass.here⟩ ∧
        root = some pass.here ∧ steps = pass.steps := by
  simp only [splayTraced, bind_eq_ok] at h
  obtain ⟨length, -, h⟩ := h
  split at h
  · cases h
  · simp only [bind_eq_ok] at h
    obtain ⟨⟨middle, pass⟩, descended, last, reassembled, h⟩ := h
    cases h
    exact ⟨middle, pass, last, descended, reassembled, rfl, rfl, rfl⟩

theorem splayTraced_rearranges {after : Tree} {offset : Nat} {root : Option NodeId}
    {steps : List Step} (has : tree.HasShape shape)
    (parents : ∃ above, tree.nodes.Parents above shape)
    (h : tree.splayTraced offset = .ok (after, root, steps)) :
    root = after.root ∧ ∃ shape', tree.Rearranges after shape shape' := by
  have lays := has.lays parents
  obtain ⟨arena, top⟩ := tree
  have top_eq := has.root_eq
  dsimp only at lays top_eq
  cases top with
  | none =>
    cases h
    obtain rfl := Shape.root_eq_none.mp top_eq.symm
    exact ⟨rfl, .empty, has, trivial, rfl, .refl _ _⟩
  | some id =>
    obtain ⟨middle, pass, last, descended, reassembled, rfl, rfl, rfl⟩ := splayTraced_cases h
    obtain ⟨z, same, advances⟩ := Splay.descend_advances lays (Pass.follows_start top_eq.symm)
      (by simpa using has.nodup) descended
    rw [Zipper.inOrder_start] at same
    exact ⟨rfl, z.close, (rearranges_close has same advances reassembled).1⟩

theorem ends_splayTraced (has : tree.HasShape shape)
    (parents : ∃ above, tree.nodes.Parents above shape) (offset : Nat) :
    Ends (tree.splayTraced offset) := by
  have lays := has.lays parents
  have enough := has.count_le
  obtain ⟨arena, top⟩ := tree
  cases top with
  | none => exact ends_ok _
  | some id =>
    have ends := Splay.ends_descend offset (stepLimit arena.size) lays
      (Pass.follows_start has.root_eq.symm) (by simpa using has.nodup)
      (by dsimp only [stepLimit] at enough ⊢; omega)
    simp only [splayTraced, ends_bind, length, Arena.ends_subtreeSize, true_and]
    intro length _
    split
    · exact ⟨fun h => by cases h⟩
    · simp [ends]

theorem splay_eq_ok {after : Tree} {offset : Nat} {root : Option NodeId} :
    tree.splay offset = .ok (after, root) ↔
      ∃ steps, tree.splayTraced offset = .ok (after, root, steps) := by
  simp only [splay, bind_eq_ok]
  constructor
  · rintro ⟨⟨_, _, steps⟩, h, same⟩
    cases same
    exact ⟨steps, h⟩
  · rintro ⟨steps, h⟩
    exact ⟨_, h, rfl⟩

/-- Whatever sizes are cached, and with empty pieces and nodes outside the tree, a splay ends; and
if no sum on its way is too large, it only rearranges the tree. -/
theorem splay_keeps_order (has : tree.HasShape shape)
    (parents : ∃ above, tree.nodes.Parents above shape) (offset : Nat) :
    tree.splay offset ≠ .error .endless ∧
      ∀ after root, tree.splay offset = .ok (after, root) →
        root = after.root ∧ ∃ shape', tree.Rearranges after shape shape' := by
  constructor
  · apply Ends.ne_endless
    simp [splay, ends_splayTraced has parents]
  · intro after root h
    obtain ⟨steps, h⟩ := splay_eq_ok.mp h
    obtain ⟨top, shape', rearranges⟩ := splayTraced_rearranges has parents h
    exact ⟨top, shape', rearranges⟩

/-- A tree in bad repair: one piece is empty, the cached sizes are wrong, the root names a parent
and one node is out of reach. -/
def worn : Tree where
  nodes := #[{ piece := .sized 0, rsize := 9, parent := some 1 },
    { piece := .sized 4, lsize := 6, left := some 0, right := some 3, parent := some 7 },
    { piece := .sized 5, left := some 1, parent := some 2 },
    { piece := .sized 2, parent := some 1 }]
  root := some 1

theorem splay_keeps_order_worn :
    worn.splay 3 ≠ .error .endless ∧ ∃ after root, worn.splay 3 = .ok (after, root) ∧
      root = after.root ∧
      ∃ shape, worn.Rearranges after
        (.node (.node .empty 0 .empty) 1 (.node .empty 3 .empty)) shape := by
  have has : worn.HasShape (.node (.node .empty 0 .empty) 1 (.node .empty 3 .empty)) := by
    refine ⟨rfl, ⟨_, rfl, rfl, rfl, ⟨_, rfl, rfl, rfl, trivial, trivial⟩, _, rfl, rfl, rfl, trivial,
      trivial⟩, by decide⟩
  have parents : ∃ above,
      worn.nodes.Parents above (.node (.node .empty 0 .empty) 1 (.node .empty 3 .empty)) :=
    ⟨some 7, ⟨_, rfl, rfl⟩, ⟨⟨_, rfl, rfl⟩, trivial, trivial⟩, ⟨_, rfl, rfl⟩, trivial, trivial⟩
  obtain ⟨ends, rearranges⟩ := splay_keeps_order has parents 3
  have some : ∃ result, worn.splay 3 = .ok result := ⟨_, rfl⟩
  obtain ⟨⟨after, root⟩, h⟩ := some
  exact ⟨ends, after, root, h, rearranges after root h⟩

end Tree
end PieceIndex
