import PieceIndex.Proofs.Sizes

/-!
Adding a node beside the root of a shape. The new node takes one of the old root's subtrees and has
the old root on its other side; in the tables that are kept of the shape, only the entries of the
two change.
-/
namespace PieceIndex

/-- The shape with a new node at its root, directly on the given side of the old root. -/
def Shape.insertBeside (side : Side) (id : NodeId) : Shape → Shape
  | .empty => .node .empty id .empty
  | shape@(.node _ old _) =>
    sided side (shape.on side) id (sided side .empty old (shape.on side.other))

namespace Shape
variable {side : Side} {id : NodeId} {shape : Shape}

theorem insertBeside_of_root {old : NodeId} (h : shape.root = some old) :
    shape.insertBeside side id =
      sided side (shape.on side) id (sided side .empty old (shape.on side.other)) := by
  cases shape with
  | empty => cases h
  | node left top right =>
    cases h
    rfl

@[simp] theorem root_insertBeside : (shape.insertBeside side id).root = some id := by
  cases shape with
  | empty => rfl
  | node left old right => rw [insertBeside_of_root rfl, root_sided]

theorem mem_inOrder_insertBeside (x : NodeId) :
    x ∈ (shape.insertBeside side id).inOrder ↔ x = id ∨ x ∈ shape.inOrder := by
  cases shape with
  | empty => simp [insertBeside, inOrder]
  | node left old right =>
    have root : (node left old right).root = some old := rfl
    rw [insertBeside_of_root root, exists_sided root side]
    simp only [mem_inOrder_sided, on_sided, on_other_sided, inOrder, List.not_mem_nil, false_or]
    grind

theorem nodup_insertBeside (nodup : shape.inOrder.Nodup) (new : id ∉ shape.inOrder) :
    (shape.insertBeside side id).inOrder.Nodup := by
  cases shape with
  | empty => simp [insertBeside, inOrder]
  | node left old right =>
    have parts := exists_sided (show (node left old right).root = some old from rfl) side
    rw [insertBeside_of_root rfl]
    rw [parts] at nodup new
    simp only [nodup_inOrder_sided, mem_inOrder_sided] at nodup new ⊢
    simp only [inOrder, List.nodup_nil, List.not_mem_nil]
    grind

theorem weight_insertBeside (size : NodeId → Nat) :
    (shape.insertBeside side id).weight size = size id + shape.weight size := by
  cases shape with
  | empty => simp [insertBeside]
  | node left old right =>
    have root : (node left old right).root = some old := rfl
    rw [insertBeside_of_root root, exists_sided root side]
    simp only [weight_sided, on_sided, on_other_sided, weight_empty]
    omega

end Shape

/-- The table once `id` has taken over the subtree of `old` on one side and has `old` on the
other. -/
def insertTable {α : Type} (table : NodeId → Side → α) (side : Side) (id old : NodeId)
    (nothing taken rest : α) : NodeId → Side → α :=
  rewire (rewire (rewire table (some old) side nothing) (some id) side taken)
    (some id) side.other rest

theorem insertTable_of_ne {α : Type} (table : NodeId → Side → α) (side : Side) {id old i : NodeId}
    (nothing taken rest : α) (hid : i ≠ id) (hold : i ≠ old) :
    insertTable table side id old nothing taken rest i = table i := by
  rw [insertTable, rewire_of_ne _ _ _ (by simpa using hid), rewire_of_ne _ _ _ (by simpa using hid),
    rewire_of_ne _ _ _ (by simpa using hold)]

namespace Shape
variable {side : Side} {id old : NodeId} {shape : Shape}

theorem Tallies.insertBeside {α : Type} (side : Side) {view : Shape → α} {table : NodeId → Side → α}
    (tallies : shape.Tallies view table) (nodup : shape.inOrder.Nodup)
    (root : shape.root = some old) (new : id ∉ shape.inOrder) :
    (shape.insertBeside side id).Tallies view
      (insertTable table side id old (view .empty) (view (shape.on side))
        (view (sided side .empty old (shape.on side.other)))) := by
  rw [insertBeside_of_root root]
  have parts := exists_sided root side
  rw [parts] at tallies nodup new
  simp only [nodup_inOrder_sided, mem_inOrder_sided, tallies_sided] at tallies nodup new ⊢
  obtain ⟨-, inner, outer, ti⟩ := tallies
  have different : old ≠ id := by grind
  refine ⟨?_, rewire_self _ _ _ _,
    outer.congr fun i h => insertTable_of_ne _ _ _ _ _ (by grind) (by grind), ?_, ?_, trivial,
    ti.congr fun i h => insertTable_of_ne _ _ _ _ _ (by grind) (by grind)⟩
  · rw [insertTable, rewire_other, rewire_self]
  · rw [insertTable, rewire_of_ne _ _ _ (by simpa using different),
      rewire_of_ne _ _ _ (by simpa using different), rewire_self]
  · rw [insertTable, rewire_of_ne _ _ _ (by simpa using different),
      rewire_of_ne _ _ _ (by simpa using different), ← inner]
    simp [rewire, Side.other_ne]

theorem Parented.insertBeside {parent : NodeId → Option NodeId}
    (parented : shape.Parented parent none) (nodup : shape.inOrder.Nodup)
    (root : shape.root = some old) (new : id ∉ shape.inOrder) (alone : parent id = none) :
    (shape.insertBeside side id).Parented
      (reparent (reparent parent (shape.on side).root (some id)) (some old) (some id)) none := by
  rw [insertBeside_of_root root]
  have parts := exists_sided root side
  rw [parts] at parented nodup new
  simp only [nodup_inOrder_sided, mem_inOrder_sided, parented_sided] at parented nodup new ⊢
  obtain ⟨-, po, pi⟩ := parented
  have different : id ≠ old := by grind
  have elsewhere {i : NodeId} (hold : i ≠ old) (h : i ∉ (shape.on side).inOrder) :
      reparent (reparent parent (shape.on side).root (some id)) (some old) (some id) i =
        parent i := by
    rw [reparent_of_ne _ _ (by simpa using hold), reparent_of_ne _ _ (ne_root_of_notMem h)]
  refine ⟨?_, po.rehang nodup.1 (fun i top => ?_) fun i h lower => ?_, reparent_self _ _ _, trivial,
    pi.congr fun i h => elsewhere (by grind) (by grind)⟩
  · rw [elsewhere different (by grind), alone]
  · have := mem_inOrder_of_root top
    rw [reparent_of_ne _ _ (by simp only [ne_eq, Option.some.injEq]; grind), top, reparent_self]
  · rw [reparent_of_ne _ _ (by simp only [ne_eq, Option.some.injEq]; grind),
      reparent_of_ne _ _ lower]

end Shape

end PieceIndex
