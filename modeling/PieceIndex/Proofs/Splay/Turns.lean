import PieceIndex.Proofs.Arena.Views
import PieceIndex.Tree.Splay

/-!
One turn of a pass over an arena is one turn of a zipper. What the pass reads decides how it goes
on, and only that depends on the cached sizes; whatever it decides, the arena holds the zipper that
the same decision leads to, with the same pieces, and no node outside the zipper is touched.
-/
namespace PieceIndex

/-- The arena holds the links of a splay in progress. -/
structure Arena.Lays (arena : Arena) (z : Zipper) : Prop where
  inRange : ∀ id ∈ z.inOrder, id < arena.size
  wired : z.Wired arena.childOf
  parented : z.Parented arena.parentOf

/-- The pass stands at the top of the focus and keeps the nodes of the spines. -/
structure Pass.Follows (pass : Pass) (z : Zipper) : Prop where
  here : z.focus.root = some pass.here
  spine : ∀ side, pass.spine side = (z.spine side).map (·.node)

/-- The cached sizes are right but on the inner sides of the spines, and the pass knows how much it
has left behind on the left. -/
structure Sized (arena : Arena) (pass : Pass) (z : Zipper) : Prop where
  measured : z.Measured arena.pieceSize arena.cachedOf
  passed : pass.passed = z.passed arena.pieceSize

/-- What is kept when a pass goes on from one zipper to another. -/
structure Advances (arena after : Arena) (pass pass' : Pass) (z z' : Zipper) : Prop where
  lays : after.Lays z'
  follows : pass'.Follows z'
  keeps : arena.Keeps after z.inOrder
  sized : Sized arena pass z → Sized after pass' z'

theorem Advances.trans {arena middle after : Arena} {pass pass' pass'' : Pass} {z z' z'' : Zipper}
    (first : Advances arena middle pass pass' z z') (same : z'.inOrder = z.inOrder)
    (second : Advances middle after pass' pass'' z' z'') :
    Advances arena after pass pass'' z z'' :=
  ⟨second.lays, second.follows, first.keeps.trans (same ▸ second.keeps),
    fun sized => second.sized (first.sized sized)⟩

namespace Pass

@[simp] theorem spine_grow (pass : Pass) (side : Side) (node : NodeId) :
    (pass.grow side node).spine side = node :: pass.spine side := by
  cases side <;> rfl

@[simp] theorem spine_grow_other (pass : Pass) (side : Side) (node : NodeId) :
    (pass.grow side.other node).spine side = pass.spine side := by
  cases side <;> rfl

theorem follows_start {shape : Shape} {id : NodeId} (h : shape.root = some id) :
    ({ here := id } : Pass).Follows { focus := shape } :=
  ⟨h, fun side => by cases side <;> rfl⟩

theorem Follows.last {pass : Pass} {z : Zipper} (follows : pass.Follows z) (side : Side) :
    (pass.spine side).head? = Rib.last (z.spine side) := by
  rw [follows.spine, Rib.last, List.head?_map]

end Pass

/-- Where the pass stands, the links are those of the focus. -/
theorem Arena.Lays.child_here {arena : Arena} {pass : Pass} {z : Zipper} (lays : arena.Lays z)
    (follows : pass.Follows z) (side : Side) :
    arena.childOf pass.here side = (z.focus.on side).root := by
  have here := lays.wired.focus
  rw [Shape.exists_sided follows.here side, Shape.tallies_sided] at here
  exact here.1

namespace Splay

/-- What the pass decides before a turn: where to head, and whether to rotate first. -/
def choice (offset : Nat) (arena : Arena) (pass : Pass) : Except Fault Zipper.Choice := do
  let node ← arena.node pass.here
  match ← heading offset pass.passed node with
  | none => return none
  | some side =>
    match node.child side with
    | none => return some (side, false)
    | some child =>
      let lower ← arena.node child
      let past ← goesPast offset pass.passed node lower side
      return some (side, past)

/-- Rotates the child above the node the pass stands on and goes there, if it is to. -/
def foldIf (rotates : Bool) (side : Side) (arena : Arena) (pass : Pass) (child : NodeId) :
    Except Fault (Arena × Pass) :=
  if rotates then do
    let arena ← rotate arena side pass.here child
    return (arena, { pass.record (.rotate side pass.here child) with here := child })
  else
    return (arena, pass)

/-- A turn once it is decided. -/
def follow (arena : Arena) (pass : Pass) : Zipper.Choice → Except Fault (Arena × Pass × Bool)
  | none => return (arena, pass, false)
  | some (side, rotates) => do
    match (← arena.node pass.here).child side with
    | none => return (arena, pass, false)
    | some child =>
      let (arena, pass) ← foldIf rotates side arena pass child
      match (← arena.node pass.here).child side with
      | none => return (arena, pass, false)
      | some next =>
        let (arena, pass) ← link side arena pass next
        return (arena, pass, true)

theorem advance_eq (offset : Nat) (arena : Arena) (pass : Pass) :
    advance offset arena pass = choice offset arena pass >>= follow arena pass := by
  unfold advance choice
  cases found : arena.node pass.here with
  | error fault => rfl
  | ok node =>
    simp only [ok_bind]
    cases heading offset pass.passed node with
    | error fault => rfl
    | ok side =>
      cases side with
      | none => rfl
      | some side =>
        simp only [ok_bind]
        cases below : node.child side with
        | none => simp [follow, found, below]
        | some child =>
          simp only [fold, found, ok_bind]
          cases arena.node child with
          | error fault => rfl
          | ok lower =>
            simp only [ok_bind]
            cases goesPast offset pass.passed node lower side with
            | error fault => rfl
            | ok rotates =>
              show _ = follow arena pass (some (side, rotates))
              simp only [follow, found, ok_bind, below]
              rfl

theorem rotate_becomes {arena after : Arena} {side : Side} {id child : NodeId}
    {middle : Option NodeId} (h : rotate arena side id child = .ok after)
    (below : arena.childOf child side.other = middle) :
    arena.Becomes after (id :: (middle.toList ++ [child]))
      (foldTable arena.childOf side id child middle (some id))
      (foldParents arena.parentOf id child middle)
      (foldTable arena.cachedOf side id child (arena.cachedOf child side.other)
        (arena.cachedOf child side.other + arena.pieceSize id + arena.cachedOf id side.other)) := by
  simp only [rotate, bind_eq_ok, Arena.node_eq_ok] at h
  obtain ⟨lower, foundl, first, h1, upper, foundu, size, total, second, h2, h3⟩ := h
  rw [← Arena.childOf_found foundl, below] at h1 h2
  rw [← Arena.cachedOf_found foundl] at h1
  have b1 := Arena.becomes_hang h1
  have b2 := Arena.becomes_setParent h2
  have b3 := Arena.becomes_hang h3
  have sum := ((Node.total_eq_ok side).mp total).1
  rw [← Arena.cachedOf_found foundu, ← Arena.cachedOf_found foundu, ← Arena.pieceSize_found foundu,
    b1.sizes_eq, b1.pieceSize, rewire_self] at sum
  have kept : rewire arena.cachedOf (some id) side (arena.cachedOf child side.other) id side.other =
      arena.cachedOf id side.other := by
    simp [rewire, Side.other_ne]
  rw [kept] at sum
  rw [b2.links_eq, b2.parents_eq, b2.sizes_eq, b1.links_eq, b1.parents_eq, b1.sizes_eq] at b3
  rw [foldTable, foldTable, foldParents, ← sum]
  exact b1.trans (b2.trans b3)

variable {arena after : Arena} {pass pass' : Pass} {z : Zipper} {side : Side}

theorem fold_advances {child : NodeId} (lays : arena.Lays z) (follows : pass.Follows z)
    (nodup : z.inOrder.Nodup) (ahead : (z.focus.on side).root = some child)
    (h : rotate arena side pass.here child = .ok after) :
    Advances arena after pass { pass.record (.rotate side pass.here child) with here := child } z
      (z.fold side) := by
  obtain ⟨a, ha⟩ : ∃ a, a = (z.focus.on side).on side := ⟨_, rfl⟩
  obtain ⟨b, hb⟩ : ∃ b, b = (z.focus.on side).on side.other := ⟨_, rfl⟩
  obtain ⟨inner, hinner⟩ : ∃ inner, inner = z.focus.on side.other := ⟨_, rfl⟩
  have focus : z.focus = .sided side (.sided side a child b) pass.here inner := by
    rw [ha, hb, hinner, ← Shape.exists_sided ahead, ← Shape.exists_sided follows.here]
  have wired := lays.wired.focus
  rw [focus] at wired
  simp only [Shape.tallies_sided] at wired
  have becomes := rotate_becomes h wired.2.2.1.2.1
  constructor
  · refine ⟨fun i h => ?_, ?_, ?_⟩
    · rw [becomes.size]
      exact lays.inRange i (by simpa using h)
    · rw [becomes.links_eq]
      exact lays.wired.fold nodup focus
    · rw [becomes.parents_eq]
      exact lays.parented.fold nodup focus
  · constructor
    · simp [Zipper.fold, focus]
    · intro s
      rw [Zipper.fold, Zipper.spine_with_focus, ← follows.spine]
      cases s <;> rfl
  · refine becomes.mono fun i h => ?_
    rw [Zipper.mem_inOrder, focus]
    left
    simp only [List.mem_cons, List.mem_append, Option.mem_toList, List.not_mem_nil, or_false] at h
    simp only [Shape.mem_inOrder_sided]
    rcases h with h | h | h
    · exact .inr (.inl h)
    · exact .inl (.inr (.inr (Shape.mem_inOrder_of_root h)))
    · exact .inl (.inr (.inl h))
  · rintro ⟨measured, passed⟩
    have cached := measured.focus
    rw [focus] at cached
    simp only [Shape.tallies_sided] at cached
    refine ⟨?_, ?_⟩
    · rw [becomes.sizes_eq, becomes.pieceSize, cached.2.1, cached.2.2.1.2.1, ← Shape.weight_sided]
      exact measured.fold nodup focus
    · rw [becomes.pieceSize]
      exact passed

theorem foldIf_advances {rotates : Bool} {child : NodeId} (lays : arena.Lays z)
    (follows : pass.Follows z) (nodup : z.inOrder.Nodup)
    (ahead : (z.focus.on side).root = some child)
    (h : foldIf rotates side arena pass child = .ok (after, pass')) :
    Advances arena after pass pass' z (z.foldIf rotates side) := by
  cases rotates with
  | false =>
    cases h
    exact ⟨lays, follows, .refl _ _, id⟩
  | true =>
    obtain ⟨_, rotated, h⟩ := bind_eq_ok.mp h
    cases h
    exact fold_advances lays follows nodup ahead rotated

theorem passedBy_right {passed n : Nat} {node : Node} (h : passedBy passed node .right = .ok n) :
    n = passed + node.lsize + node.piece.size := by
  simp only [passedBy, bind_eq_ok, Node.rightEdge_eq_ok, Size.add_eq_ok] at h
  obtain ⟨edge, ⟨rfl, -⟩, -, rfl⟩ := h
  omega

theorem link_advances {next : NodeId} (lays : arena.Lays z) (follows : pass.Follows z)
    (nodup : z.inOrder.Nodup) (ahead : (z.focus.on side).root = some next)
    (h : link side arena pass next = .ok (after, pass')) :
    Advances arena after pass pass' z (z.link side) := by
  have focus := Shape.exists_sided follows.here side
  simp only [link, bind_eq_ok, Arena.node_eq_ok] at h
  obtain ⟨first, h1, second, h2, node, found, passed, hpassed, h⟩ := h
  cases h
  rw [follows.last] at h1 h2
  have b1 := Arena.becomes_setChild h1
  have b2 := Arena.becomes_setParent (show first.setParent (some pass.here) _ = _ from h2)
  rw [b1.links_eq, b1.parents_eq, b1.sizes_eq] at b2
  have becomes := b1.trans b2
  constructor
  · refine ⟨fun i h => ?_, ?_, ?_⟩
    · rw [becomes.size]
      exact lays.inRange i (by simpa using h)
    · rw [becomes.links_eq]
      exact lays.wired.link nodup focus
    · rw [becomes.parents_eq]
      exact lays.parented.link nodup focus
  · constructor
    · rw [Zipper.link_eq focus]
      exact ahead
    · intro s
      have unchanged (p : Pass) (passed depth : Nat) (step : Step) :
          ({ p.record step with here := next, passed := passed, depth := depth } : Pass).spine s =
            p.spine s := by
        cases s <;> rfl
      rw [unchanged]
      by_cases same : s = side
      · rw [same, Pass.spine_grow_other, Zipper.spine_link focus, follows.spine]
      · obtain rfl := Side.eq_other_of_ne same
        rw [Pass.spine_grow, Zipper.spine_link_other focus, follows.spine, List.map_cons]
  · refine becomes.mono fun i h => (Zipper.mem_inOrder z i).mpr ?_
    simp only [Option.toList_some, List.mem_append, Option.mem_toList, List.mem_singleton] at h
    rcases h with h | rfl
    · exact .inr ⟨side.other, Rib.mem_ids_of_last h⟩
    · exact .inl (Shape.mem_inOrder_of_root follows.here)
  · rintro ⟨measured, before⟩
    refine ⟨?_, ?_⟩
    · rw [becomes.sizes_eq, becomes.pieceSize]
      exact Zipper.Tallies.link measured focus
    · have here := measured.focus
      rw [focus, Shape.tallies_sided] at here
      rw [becomes.pieceSize, Zipper.link_eq focus]
      cases side with
      | left =>
        cases hpassed
        exact before
      | right =>
        have lsize : node.lsize = (z.focus.on .left).weight arena.pieceSize := by
          rw [← show node.sizeOn .left = node.lsize from rfl, ← Arena.cachedOf_found found,
            becomes.sizes_eq]
          exact here.2.1
        rw [passedBy_right hpassed, ← Arena.pieceSize_found found, becomes.pieceSize, lsize, before]
        simp [Zipper.passed, Zipper.grow, Side.other, Rib.before, Shape.weight]
        omega

/-- A turn over an arena is the same turn of the zipper that the arena holds. -/
theorem follow_advances {choice : Zipper.Choice} {goesOn : Bool} (lays : arena.Lays z)
    (follows : pass.Follows z) (nodup : z.inOrder.Nodup)
    (h : follow arena pass choice = .ok (after, pass', goesOn)) :
    goesOn = (z.turn choice).2 ∧ Advances arena after pass pass' z (z.turn choice).1 := by
  match choice with
  | none =>
    cases h
    exact ⟨rfl, lays, follows, .refl _ _, id⟩
  | some (side, rotates) =>
    obtain ⟨node, found, h⟩ := bind_eq_ok.mp h
    rw [← Arena.childOf_found (Arena.node_eq_ok.mp found), lays.child_here follows] at h
    cases ahead : (z.focus.on side).root with
    | none =>
      simp only [ahead] at h
      cases h
      have nothing := Shape.root_eq_none.mp ahead
      have unfolded := Zipper.foldIf_of_on_eq_empty rotates nothing
      rw [Zipper.turn_stuck (by rwa [unfolded]), unfolded]
      exact ⟨rfl, lays, follows, .refl _ _, id⟩
    | some child =>
      simp only [ahead] at h
      obtain ⟨⟨middle, pass''⟩, folded, h⟩ := bind_eq_ok.mp h
      have first := foldIf_advances lays follows nodup ahead folded
      obtain ⟨node, found, h⟩ := bind_eq_ok.mp h
      rw [← Arena.childOf_found (Arena.node_eq_ok.mp found), first.lays.child_here first.follows]
        at h
      cases further : ((z.foldIf rotates side).focus.on side).root with
      | none =>
        simp only [further] at h
        cases h
        rw [Zipper.turn_stuck (Shape.root_eq_none.mp further)]
        exact ⟨rfl, first⟩
      | some next =>
        simp only [further] at h
        obtain ⟨⟨last, pass''⟩, linked, h⟩ := bind_eq_ok.mp h
        cases h
        have same := Zipper.inOrder_foldIf rotates side z
        have second := link_advances first.lays first.follows (same ▸ nodup) further linked
        rw [Zipper.turn_link fun e => by rw [e] at further; cases further]
        exact ⟨rfl, first.trans same second⟩

end Splay
end PieceIndex
