import PieceIndex.Proofs.Arena.Growth
import PieceIndex.Tree.Check

/-!
What the visits of a check leave behind. A node is marked as seen when it is entered, and when it is
left what was added up below it is noted there. So once all visits of a shape are done its nodes
have been seen, its weight is found at its top node, and nothing else has changed.
-/
namespace PieceIndex
namespace Check
variable {arena : Arena} {findings after : Findings} {shape : Shape} {id : NodeId}

/-- What is known once all visits below a shape are done. -/
structure Done (arena : Arena) (shape : Shape) (before after : Findings) : Prop where
  seenSize : after.seen.size = before.seen.size
  sumsSize : after.sums.size = before.sums.size
  seen : ∀ i ∈ shape.inOrder, after.seen[i]?.getD false = true
  seenRest : ∀ i : NodeId, i ∉ shape.inOrder → after.seen[i]? = before.seen[i]?
  sum : ∀ i, shape.root = some i → after.sums[i]? = some (shape.weight arena.pieceSize)
  sumsRest : ∀ i : NodeId, i ∉ shape.inOrder → after.sums[i]? = before.sums[i]?

/-- What was noted at the top of a shape is found there as long as it is kept. -/
theorem Done.sumBelow (later : Findings) (done : Done arena shape findings after)
    (kept : ∀ i ∈ shape.inOrder, later.sums[i]? = after.sums[i]?) :
    sumBelow later.sums shape.root = .ok (shape.weight arena.pieceSize) := by
  cases root : shape.root with
  | none =>
    obtain rfl := Shape.root_eq_none.mp root
    rfl
  | some i =>
    simp only [Check.sumBelow, kept i (Shape.mem_inOrder_of_root root), done.sum i root]

/-- The findings once a node has been entered. -/
def entered (findings : Findings) (id : NodeId) : Findings :=
  ⟨findings.seen.setIfInBounds id true, findings.sums⟩

/-- The findings once a node has been left, with the weight below it. -/
def noted (findings : Findings) (id : NodeId) (weight : Nat) : Findings :=
  ⟨findings.seen, findings.sums.setIfInBounds id weight⟩

theorem seen_entered_of_ne {i : NodeId} (h : i ≠ id) :
    (entered findings id).seen[i]? = findings.seen[i]? := by
  rw [entered, Array.getElem?_setIfInBounds_ne (Ne.symm h)]

theorem seen_entered (inRange : id < findings.seen.size) :
    (entered findings id).seen[id]?.getD false = true := by
  rw [entered, Array.getElem?_setIfInBounds_self_of_lt inRange]
  rfl

/-- A node is done once it was entered, its right subtree done, then its left one, and it was
left. -/
theorem Done.node {l r : Shape} {second third : Findings}
    (nodup : (Shape.node l id r).inOrder.Nodup) (seenSize : id < findings.seen.size)
    (sumsSize : id < findings.sums.size) (doner : Done arena r (entered findings id) second)
    (donel : Done arena l second third) :
    Done arena (.node l id r) findings
      (noted third id ((Shape.node l id r).weight arena.pieceSize)) := by
  obtain ⟨-, -, idl, idr, apart⟩ := (Shape.nodup_inOrder_sided .left l r id).mp nodup
  have seenAll : third.seen.size = findings.seen.size := by
    rw [donel.seenSize, doner.seenSize, entered, Array.size_setIfInBounds]
  have sumsAll : third.sums.size = findings.sums.size := by
    rw [donel.sumsSize, doner.sumsSize, entered]
  refine ⟨seenAll, ?_, fun i h => ?_, fun i h => ?_, fun i root => ?_, fun i h => ?_⟩
  · rw [noted, Array.size_setIfInBounds, sumsAll]
  · simp only [Shape.inOrder, List.mem_append, List.mem_cons] at h
    rcases h with h | rfl | h
    · exact donel.seen i h
    · rw [noted, donel.seenRest i idl, doner.seenRest i idr]
      exact seen_entered seenSize
    · rw [noted, donel.seenRest i fun h' => apart i h' h]
      exact doner.seen i h
  · simp only [Shape.inOrder, List.mem_append, List.mem_cons, not_or] at h
    rw [noted, donel.seenRest i h.1, doner.seenRest i h.2.2, seen_entered_of_ne h.2.1]
  · cases root
    rw [noted, Array.getElem?_setIfInBounds_self_of_lt (by rwa [sumsAll])]
  · simp only [Shape.inOrder, List.mem_append, List.mem_cons, not_or] at h
    rw [noted, Array.getElem?_setIfInBounds_ne (Ne.symm h.2.1), donel.sumsRest i h.1,
      doner.sumsRest i h.2.2, entered]

theorem seen_start (count : Nat) (i : NodeId) : (start count).seen[i]?.getD false = false := by
  rw [start, Array.getElem?_replicate]
  split <;> rfl

theorem firstUnseen_eq_none {seen : Array Bool} (all : firstUnseen seen = none) {i : NodeId}
    (inRange : i < seen.size) : seen[i]?.getD false = true := by
  have marked := Array.findIdx?_eq_none_iff.mp all seen[i] (Array.getElem_mem inRange)
  rw [Array.getElem?_eq_getElem inRange, Option.getD_some]
  simpa using marked

theorem firstUnseen_eq_some {seen : Array Bool} (first : firstUnseen seen = some id) :
    id < seen.size ∧ seen[id]?.getD false = false ∧
      ∀ earlier < id, seen[earlier]?.getD false = true := by
  obtain ⟨inSeen, blank, marked⟩ := Array.findIdx?_eq_some_iff_getElem.mp first
  refine ⟨inSeen, ?_, fun earlier before => ?_⟩
  · rw [Array.getElem?_eq_getElem inSeen, Option.getD_some]
    simpa using blank
  · rw [Array.getElem?_eq_getElem (Nat.lt_trans before inSeen), Option.getD_some]
    simpa using marked earlier before

/-- After a check of the whole, what was seen is what stands in the shape. -/
theorem Done.seen_iff (done : Done arena shape (start arena.size) after) (i : NodeId) :
    after.seen[i]?.getD false = true ↔ i ∈ shape.inOrder := by
  refine ⟨fun seen => ?_, done.seen i⟩
  apply Classical.byContradiction
  intro outside
  rw [done.seenRest i outside, seen_start] at seen
  cases seen

/-- A shape that leaves nothing unseen holds every node. -/
theorem Done.full (done : Done arena shape (start arena.size) after)
    (seen : firstUnseen after.seen = none) : ∀ id < arena.size, id ∈ shape.inOrder := by
  intro id inRange
  rw [← done.seen_iff]
  exact firstUnseen_eq_none seen (by simpa [done.seenSize, start] using inRange)

/-- What is left unseen first does not stand in the shape, but all places before it do. -/
theorem Done.outside (done : Done arena shape (start arena.size) after)
    (unseen : firstUnseen after.seen = some id) :
    id < arena.size ∧ id ∉ shape.inOrder ∧ ∀ earlier < id, earlier ∈ shape.inOrder := by
  obtain ⟨inSeen, blank, before⟩ := firstUnseen_eq_some unseen
  refine ⟨by simpa [done.seenSize, start] using inSeen, fun inside => ?_, fun earlier lower => ?_⟩
  · rw [(done.seen_iff id).mpr inside] at blank
    cases blank
  · exact (done.seen_iff earlier).mp (before earlier lower)

end Check
end PieceIndex
