import PieceIndex.Proofs.Splay.Order

/-!
How deep a pass goes. Every link leaves one node on a spine and counts one, and nothing else does
either; so the depth told with the last step is the number of nodes on the spines, which never
reaches the number of all nodes. No step before the last one tells a depth.
-/
namespace PieceIndex

/-- The depth that a step tells. -/
def Step.depth : Step → Nat
  | .target _ depth => depth
  | _ => 0

/-- The depth of the pass is the number of nodes that it has left behind, and no depth has been told
yet. -/
structure Pass.Counted (pass : Pass) : Prop where
  spines : pass.depth = pass.leftSpine.length + pass.rightSpine.length
  untold : sizeSum Step.depth pass.trace = 0

theorem Pass.counted_start (id : NodeId) : ({ here := id } : Pass).Counted := ⟨rfl, rfl⟩

namespace Splay
variable {arena after : Arena} {pass pass' : Pass} {side : Side} {offset : Nat}
  {child next : NodeId}

theorem fold_counted (counted : pass.Counted)
    (h : fold offset side arena pass child = .ok (after, pass')) : pass'.Counted := by
  simp only [fold, bind_eq_ok] at h
  obtain ⟨upper, -, lower, -, past, -, h⟩ := h
  split at h
  · obtain ⟨rotated, -, h⟩ := bind_eq_ok.mp h
    cases h
    exact ⟨counted.spines, (Nat.zero_add _).trans counted.untold⟩
  · cases h
    exact counted

theorem link_counted (counted : pass.Counted)
    (h : link side arena pass next = .ok (after, pass')) : pass'.Counted := by
  simp only [link, bind_eq_ok] at h
  obtain ⟨first, -, second, -, node, -, passed, -, h⟩ := h
  cases h
  obtain ⟨spines, untold⟩ := counted
  cases side with
  | left =>
    refine ⟨?_, (Nat.zero_add _).trans untold⟩
    change pass.depth + 1 = pass.leftSpine.length + (pass.rightSpine.length + 1)
    omega
  | right =>
    refine ⟨?_, (Nat.zero_add _).trans untold⟩
    change pass.depth + 1 = pass.leftSpine.length + 1 + pass.rightSpine.length
    omega

theorem advance_counted {goesOn : Bool} (counted : pass.Counted)
    (h : advance offset arena pass = .ok (after, pass', goesOn)) : pass'.Counted := by
  simp only [advance, bind_eq_ok] at h
  obtain ⟨node, -, heading, -, h⟩ := h
  cases heading with
  | none =>
    cases h
    exact counted
  | some side =>
    dsimp only at h
    cases ahead : node.child side with
    | none =>
      rw [ahead] at h
      cases h
      exact counted
    | some child =>
      rw [ahead] at h
      simp only [bind_eq_ok] at h
      obtain ⟨⟨middle, pass''⟩, folded, here, -, h⟩ := h
      have counted' := fold_counted counted folded
      dsimp only at h
      cases ahead' : here.child side with
      | none =>
        rw [ahead'] at h
        cases h
        exact counted'
      | some next =>
        rw [ahead'] at h
        obtain ⟨⟨last, pass'''⟩, linked, h⟩ := bind_eq_ok.mp h
        cases h
        exact link_counted counted' linked

theorem descend_counted {fuel : Nat} (counted : pass.Counted)
    (h : descend offset fuel arena pass = .ok (after, pass')) : pass'.Counted := by
  induction fuel generalizing arena pass with
  | zero => cases h
  | succ fuel ih =>
    rw [descend, bind_eq_ok] at h
    obtain ⟨⟨middle, pass'', goesOn⟩, turned, h⟩ := h
    have counted' := advance_counted counted turned
    dsimp only at h
    split at h
    · exact ih counted' h
    · cases h
      exact counted'

end Splay

theorem Rib.length_le_ids (side : Side) (ribs : List Rib) :
    ribs.length ≤ (ids side ribs).length := by
  induction ribs with
  | nil => exact Nat.zero_le _
  | cons rib ribs ih =>
    cases side <;> simp [ids, before, after] at ih ⊢ <;> omega

/-- The nodes that a pass has left behind are fewer than all. -/
theorem Pass.Follows.depth_lt {pass : Pass} {z : Zipper} (follows : pass.Follows z)
    (counted : pass.Counted) : pass.depth < z.inOrder.length := by
  have left := Rib.length_le_ids .left z.left
  have right := Rib.length_le_ids .right z.right
  have spinel : pass.leftSpine = z.left.map (·.node) := follows.spine .left
  have spiner : pass.rightSpine = z.right.map (·.node) := follows.spine .right
  have here := List.length_pos_of_mem (Shape.mem_inOrder_of_root follows.here)
  have depth := counted.spines
  rw [spinel, spiner, List.length_map, List.length_map] at depth
  simp only [Zipper.inOrder, List.length_append, Rib.ids] at left right ⊢
  omega

theorem Pass.getLast?_steps (pass : Pass) :
    pass.steps.getLast? = some (.target pass.here pass.depth) := by
  rw [steps, List.getLast?_reverse, List.head?_cons]

/-- All depths that a pass tells together are the one told last. -/
theorem Pass.Counted.sum_depth {pass : Pass} (counted : pass.Counted) :
    sizeSum Step.depth pass.steps = pass.depth := by
  rw [steps, sizeSum_reverse, sizeSum_cons, counted.untold]
  rfl

namespace Tree
variable {tree after : Tree} {shape : Shape}

/-- A splay tells a depth with its last step and with no other, and no step at all where there is
no node. -/
theorem splayTraced_tells {offset : Nat} {root : Option NodeId} {steps : List Step}
    (h : tree.splayTraced offset = .ok (after, root, steps)) :
    steps = [] ∨ ∃ id depth, steps.getLast? = some (.target id depth) ∧
      sizeSum Step.depth steps = depth := by
  obtain ⟨arena, top⟩ := tree
  cases top with
  | none =>
    cases h
    exact .inl rfl
  | some id =>
    obtain ⟨middle, pass, last, descended, -, rfl, rfl, rfl⟩ := splayTraced_cases h
    have counted := Splay.descend_counted (Pass.counted_start id) descended
    exact .inr ⟨pass.here, pass.depth, pass.getLast?_steps, counted.sum_depth⟩

/-- A splay of a tree that is not empty tells last which node it has reached, and at what depth. -/
theorem splayTraced_depth {offset : Nat} {root : Option NodeId} {steps : List Step}
    (has : tree.HasShape shape) (parents : ∃ above, tree.nodes.Parents above shape)
    (h : tree.splayTraced offset = .ok (after, root, steps)) :
    (root = none ∧ steps = []) ∨
      ∃ id depth, root = some id ∧ steps.getLast? = some (.target id depth) ∧
        depth < shape.count := by
  have lays := has.lays parents
  obtain ⟨arena, top⟩ := tree
  have top_eq := has.root_eq
  dsimp only at lays top_eq
  cases top with
  | none =>
    cases h
    exact .inl ⟨rfl, rfl⟩
  | some id =>
    obtain ⟨middle, pass, last, descended, -, rfl, rfl, rfl⟩ := splayTraced_cases h
    obtain ⟨z, same, advances⟩ := Splay.descend_advances lays (Pass.follows_start top_eq.symm)
      (by simpa using has.nodup) descended
    have deep := advances.follows.depth_lt (Splay.descend_counted (Pass.counted_start id) descended)
    rw [same, Zipper.inOrder_start, Shape.length_inOrder] at deep
    exact .inr ⟨pass.here, pass.depth, rfl, pass.getLast?_steps, deep⟩

end Tree
end PieceIndex
