import PieceIndex.Proofs.Check.Diagnosis

/-!
What the verdict of a check tells, wherever the links inside the arena lead. The visits below a link
either end the check or have walked a tree: whatever was entered had not been seen before, so that
no node stands twice below another, and what was left had the sizes that were added up below. Since
every node can be entered but once, the turns suffice. The check decides in this way whether a tree
is well formed, unless the pieces that it adds up are too large for any well-formed tree; and when
it ends with a violation, that violation is there.
-/
namespace PieceIndex

/-- Some of the pieces below the root are together too large for a document. -/
def Tree.Overfull (tree : Tree) : Prop :=
  ∃ ids : List NodeId, ids.Nodup ∧ (∀ id ∈ ids, id < tree.nodeCount ∧ tree.Reaches id) ∧
    Size.limit ≤ sizeSum tree.nodes.pieceSize ids

/-- No link down leads out of the arena. -/
structure Tree.InRange (tree : Tree) : Prop where
  root : ∀ id, tree.root = some id → id < tree.nodeCount
  children : ∀ id side child, tree.nodes.childOf id side = some child → child < tree.nodeCount

namespace Check
variable {arena : Arena} {findings after : Findings} {shape : Shape} {id : NodeId}
  {visits : List Visit}

/-- How many places have not been entered. -/
def Findings.unseen (findings : Findings) : Nat := findings.seen.count false

theorem unseen_entered (inRange : id < findings.seen.size)
    (unseen : findings.seen[id]?.getD false = false) :
    (entered findings id).unseen + 1 = findings.unseen := by
  rw [Array.getElem?_eq_getElem inRange, Option.getD_some] at unseen
  have member : false ∈ findings.seen := unseen ▸ Array.getElem_mem inRange
  have positive := Array.count_pos_iff.mpr member
  simp only [Findings.unseen, entered, Array.setIfInBounds, dif_pos inRange, Array.count_set,
    unseen]
  simp only [beq_self_eq_true, if_true, Bool.true_beq, Bool.false_eq_true, if_false]
  omega

/-- Nothing is wrong with the nodes of a shape, which hangs from `above`. -/
structure Flawless (arena : Arena) (above : Option NodeId) (shape : Shape) : Prop
    extends arena.Hangs above shape where
  nonempty : ∀ i ∈ shape.inOrder, 1 ≤ arena.pieceSize i
  fits : shape.weight arena.pieceSize < Size.limit

theorem Flawless.hasShape {above link : Option NodeId} (flawless : Flawless arena above shape)
    (root : shape.root = link) : Tree.HasShape ⟨arena, link⟩ shape :=
  ⟨root.symm, Arena.links_iff.mpr ⟨flawless.inRange, flawless.wired⟩, flawless.nodup⟩

theorem Flawless.exact {above : Option NodeId} (flawless : Flawless arena above shape) :
    arena.Exact shape :=
  Arena.exact_iff.mpr ⟨flawless.inRange, flawless.measured⟩

/-- What the visits of a shape have found that was entered from `above` and done with. -/
structure Walked (arena : Arena) (above : Option NodeId) (shape : Shape) (before after : Findings) :
    Prop extends Flawless arena above shape, Done arena shape before after where
  unseen : ∀ i ∈ shape.inOrder, before.seen[i]?.getD false = false
  count : after.unseen + shape.count = before.unseen

theorem walked_empty (arena : Arena) (above : Option NodeId) (findings : Findings) :
    Walked arena above .empty findings findings := by
  have none {p : NodeId → Prop} : ∀ i ∈ Shape.empty.inOrder, p i :=
    fun i inside => absurd inside List.not_mem_nil
  constructor
  · exact ⟨arena.hangs_empty above, none, by simp [Size.limit]⟩
  · exact ⟨rfl, rfl, none, fun _ _ => rfl,
      fun _ root => absurd root.symm (Option.some_ne_none _), fun _ _ => rfl⟩
  · exact none
  · rfl

namespace Walked
variable {above other : Option NodeId} {l r : Shape} {second third : Findings} {i : NodeId}

theorem notMem (walked : Walked arena above shape findings after)
    (seen : findings.seen[i]?.getD false = true) : i ∉ shape.inOrder := by
  intro inside
  rw [walked.unseen i inside] at seen
  cases seen

/-- What was seen before stays so. -/
theorem keepsSeen (walked : Walked arena above shape findings after)
    (seen : findings.seen[i]?.getD false = true) : after.seen[i]?.getD false = true := by
  rwa [walked.seenRest i (walked.notMem seen)]

/-- If the parents of all nodes that were seen before were seen too, this is still so. -/
theorem keepsUp (walked : Walked arena above shape findings after)
    (top : ∀ p, above = some p → findings.seen[p]?.getD false = true)
    (up : ∀ i p, findings.seen[i]?.getD false = true → arena.parentOf i = some p →
      findings.seen[p]?.getD false = true) (i p : NodeId)
    (seen : after.seen[i]?.getD false = true) (parent : arena.parentOf i = some p) :
    after.seen[p]?.getD false = true := by
  by_cases inside : i ∈ shape.inOrder
  · rcases walked.wired.root_or_leads inside with root | ⟨holder, inside, side, link⟩
    · have hangs := walked.parented.of_root root
      exact walked.keepsSeen (top p (hangs.symm.trans parent))
    · have hangs := walked.parented.of_link walked.wired inside link
      cases hangs.symm.trans parent
      exact walked.seen _ inside
  · rw [walked.seenRest i inside] at seen
    exact walked.keepsSeen (up i p seen parent)

theorem apart (walkedr : Walked arena above r findings second)
    (walkedl : Walked arena other l second third) : ∀ i ∈ l.inOrder, i ∉ r.inOrder :=
  fun i insidel insider => walkedl.notMem (walkedr.seen i insider) insidel

section
variable {here : Node} (walkedr : Walked arena (some id) r (entered findings id) second)
  (walkedl : Walked arena (some id) l second third) (seenSize : findings.seen.size = arena.size)
include walkedr walkedl

/-- No node stands twice below a node whose subtrees were walked, the right one first. -/
theorem nodup_node (inRange : id < findings.seen.size) : (Shape.node l id r).inOrder.Nodup := by
  have marked := seen_entered inRange
  have idl : id ∉ l.inOrder := walkedl.notMem (walkedr.keepsSeen marked)
  have idr : id ∉ r.inOrder := walkedr.notMem marked
  exact (Shape.nodup_inOrder_sided .left l r id).mpr
    ⟨walkedl.nodup, walkedr.nodup, idl, idr, walkedr.apart walkedl⟩

include seenSize

/-- A node that was entered for the first time and left after its subtrees is walked itself. -/
theorem node (sumsSize : findings.sums.size = arena.size)
    (unseen : findings.seen[id]?.getD false = false)
    (flawless : Flawless arena above (.node l id r)) :
    Walked arena above (.node l id r) findings
      (noted third id ((Shape.node l id r).weight arena.pieceSize)) := by
  have inRange : id < arena.size := flawless.inRange id (Shape.mem_inOrder_of_root rfl)
  obtain ⟨-, -, idl, idr, apart⟩ := (Shape.nodup_inOrder_sided .left l r id).mp flawless.nodup
  constructor
  · exact flawless
  · exact Done.node flawless.nodup (seenSize ▸ inRange) (sumsSize ▸ inRange) walkedr.toDone
      walkedl.toDone
  · refine Shape.forall_mem_node (p := fun i => findings.seen[i]?.getD false = false) unseen ?_ ?_
    · intro i inside
      have before := walkedl.unseen i inside
      rw [walkedr.seenRest i (apart i inside)] at before
      rwa [seen_entered_of_ne (by rintro rfl; exact idl inside)] at before
    · intro i inside
      have before := walkedr.unseen i inside
      rwa [seen_entered_of_ne (by rintro rfl; exact idr inside)] at before
  · have first := unseen_entered (seenSize ▸ inRange) unseen
    have countl := walkedl.count
    have countr := walkedr.count
    have here : (noted third id ((Shape.node l id r).weight arena.pieceSize)).unseen =
      third.unseen := rfl
    rw [here, Shape.count]
    omega

end
end Walked

/-- What is known when the visits below a link begin. Parents are seen before their children, so
that a node which is met again is the other child of a node that was entered last. -/
structure Begun (tree : Tree) (above link : Option NodeId) (findings : Findings) : Prop where
  seenSize : findings.seen.size = tree.nodes.size
  sumsSize : findings.sums.size = tree.nodes.size
  named : ∀ i, link = some i → i < tree.nodes.size ∧ tree.nodes.parentOf i = above
  reached : ∀ i, link = some i → tree.Reaches i
  top : ∀ p, above = some p → findings.seen[p]?.getD false = true
  up : ∀ i p, findings.seen[i]?.getD false = true → tree.nodes.parentOf i = some p →
    findings.seen[p]?.getD false = true
  again : ∀ i, link = some i → findings.seen[i]?.getD false = true → (Violation.shared i).Holds tree

section
variable {tree : Tree} {above : Option NodeId} {here : Node}

/-- The root has no parent, and nothing was seen before it. -/
theorem begun_start (inRange : ∀ i, tree.root = some i → i < tree.nodeCount)
    (parent : ∀ i, tree.root = some i → tree.nodes.parentOf i = none) :
    Begun tree none tree.root (start tree.nodeCount) := by
  have nothing (i : NodeId) : (start tree.nodeCount).seen[i]?.getD false ≠ true := by
    rw [seen_start]
    exact Bool.false_ne_true
  refine ⟨Array.size_replicate .., Array.size_replicate .., fun i root => ⟨inRange i root,
    parent i root⟩, fun i root => ⟨i, root, .refl⟩, nofun, fun i p seen => absurd seen (nothing i),
    fun i root seen => absurd seen (nothing i)⟩

section
variable (begun : Begun tree above (some id) findings) (found : tree.nodes[id]? = some here)
  (unseen : findings.seen[id]?.getD false = false)
  (named : ∀ side i, here.child side = some i →
    i < tree.nodes.size ∧ tree.nodes.parentOf i = some id)
include begun

/-- A node that cannot be entered is one of which something wrong is told. -/
theorem Begun.enter_error {violation : Violation}
    (h : enter tree.nodes findings id = .ok (.error violation)) : violation.Holds tree := by
  have reached := begun.reached id rfl
  rcases enter_eq_error h with ⟨seen, rfl⟩ | ⟨inRange, empty, rfl⟩ | ⟨side, child, link, other, rfl⟩
  · exact begun.again id rfl seen
  · exact ⟨reached, inRange, empty⟩
  · exact ⟨reached, link, rfl, other⟩

/-- What was seen once the node is entered hangs from what was seen before. -/
theorem Begun.up_of_entered {i p : NodeId}
    (seen : (entered findings id).seen[i]?.getD false = true)
    (parent : tree.nodes.parentOf i = some p) : findings.seen[p]?.getD false = true := by
  by_cases itself : i = id
  · rw [itself] at parent
    exact begun.top p ((begun.named id rfl).2.symm.trans parent)
  · rw [seen_entered_of_ne itself] at seen
    exact begun.up i p seen parent

include unseen

/-- No child of a node that is entered for the first time was seen before. -/
theorem Begun.child_unseen {child : NodeId} (parent : tree.nodes.parentOf child = some id) :
    (entered findings id).seen[child]?.getD false ≠ true := by
  intro seen
  rw [begun.up_of_entered seen parent] at unseen
  cases unseen

include found named

/-- After a node was entered, the visits of its right subtree begin. -/
theorem Begun.right : Begun tree (some id) here.right (entered findings id) := by
  have inRange : id < findings.seen.size := begun.seenSize ▸ (begun.named id rfl).1
  refine ⟨?_, begun.sumsSize, named .right, fun i link => ?_, fun p top => ?_,
    fun i p seen parent => ?_, fun i link seen => ?_⟩
  · rw [entered, Array.size_setIfInBounds, begun.seenSize]
  · exact (begun.reached id rfl).child ((Arena.childOf_found found .right).trans link)
  · cases top
    exact seen_entered inRange
  · have before := begun.up_of_entered seen parent
    rwa [seen_entered_of_ne (by rintro rfl; rw [unseen] at before; cases before)]
  · exact absurd seen (begun.child_unseen unseen (named .right i link).2)

/-- Those of the left one begin when the right one is walked, and only the right child can be met
again: no other node below it hangs from the node that was entered. -/
theorem Begun.left {r : Shape} {second : Findings}
    (walked : Walked tree.nodes (some id) r (entered findings id) second)
    (root : r.root = here.right) : Begun tree (some id) here.left second := by
  have first := begun.right found unseen named
  refine ⟨walked.seenSize.trans first.seenSize, walked.sumsSize.trans first.sumsSize, named .left,
    fun i link => ?_, fun p top => walked.keepsSeen (first.top p top),
    walked.keepsUp first.top first.up, fun i link seen => ?_⟩
  · exact (begun.reached id rfl).child ((Arena.childOf_found found .left).trans link)
  · have parent := (named .left i link).2
    have inside : i ∈ r.inOrder := by
      apply Classical.byContradiction
      intro outside
      rw [walked.seenRest i outside] at seen
      exact begun.child_unseen unseen parent seen
    rcases walked.wired.root_or_leads inside with top | ⟨holder, inside, side, link'⟩
    · refine ⟨id, begun.reached id rfl, fun side => ?_⟩
      cases side with
      | left => exact (Arena.childOf_found found .left).trans link
      | right => exact (Arena.childOf_found found .right).trans (root.symm.trans top)
    · have hangs := walked.parented.of_link walked.wired inside link'
      cases hangs.symm.trans parent
      exact absurd inside (walked.notMem (first.top _ rfl))

end

/-- A cached size that differs from the weight of a subtree without a flaw. -/
theorem Flawless.sizeMismatch {below : Shape} (flawless : Flawless tree.nodes (some id) below)
    (side : Side) (root : below.root = here.child side)
    (reached : tree.Reaches id) (found : tree.nodes[id]? = some here)
    (other : here.sizeOn side ≠ below.weight tree.nodes.pieceSize) :
    (Violation.sizeMismatch id side (here.sizeOn side)
      (below.weight tree.nodes.pieceSize)).Holds tree := by
  have link := root.trans (Arena.childOf_found found side).symm
  exact ⟨reached, Arena.cachedOf_found found side, other, below, flawless.hasShape link,
    flawless.exact, Arena.weight_eq ..⟩

end

/-- What comes of a run that begins with the visits below a link, when others are to follow. -/
inductive Walks (tree : Tree) (above link : Option NodeId) (fuel : Nat) (visits : List Visit)
    (findings : Findings) (result : Except Fault (Except Violation Findings)) : Prop where
  | violated (violation : Violation) (holds : violation.Holds tree)
    (ended : result = .ok (.error violation))
  | overfull (large : tree.Overfull) (ended : result = .error .sumOverflow)
  | walked (shape : Shape) (after : Findings) (rest : Nat) (root : shape.root = link)
    (walked : Walked tree.nodes above shape findings after) (cost : fuel = rest + 2 * shape.count)
    (goesOn : result = run tree.nodes rest visits after)

/-- Once both subtrees of a node are walked, leaving it ends the run or walks the node. -/
theorem Begun.walks {tree : Tree} {above : Option NodeId} {l r : Shape} {second third : Findings}
    {here : Node} (begun : Begun tree above (some id) findings)
    (walkedr : Walked tree.nodes (some id) r (entered findings id) second)
    (walkedl : Walked tree.nodes (some id) l second third) (found : tree.nodes[id]? = some here)
    (unseen : findings.seen[id]?.getD false = false) (nonempty : 1 ≤ tree.nodes.pieceSize id)
    (left : l.root = here.left) (right : r.root = here.right) (rest : Nat) :
    Walks tree above (some id) (rest + 2 * (Shape.node l id r).count) visits findings
      (run tree.nodes (rest + 1) (.leave id :: visits) third) := by
  obtain ⟨inRange, parent⟩ := begun.named id rfl
  have reached := begun.reached id rfl
  have seenSize := begun.seenSize
  have suml := walkedl.sumBelow third fun _ _ => rfl
  have sumr := walkedr.sumBelow third fun i inside =>
    walkedl.sumsRest i fun inside' => walkedr.apart walkedl i inside' inside
  rw [left] at suml
  rw [right] at sumr
  -- the three sums that are added up are those of the whole shape
  have total : l.weight tree.nodes.pieceSize + here.piece.size + r.weight tree.nodes.pieceSize =
      (Shape.node l id r).weight tree.nodes.pieceSize := by
    rw [Shape.weight_node, Arena.pieceSize_found found]
  have leaving := leave_cases found suml sumr
  rw [total] at leaving
  rw [run]
  rcases leaving with ⟨side, actual, sum, other, leaving⟩ | ⟨lsize, rsize, leaving⟩
  · rw [leaving]
    cases side with
    | left =>
      cases suml.symm.trans sum
      exact .violated _ (walkedl.toFlawless.sizeMismatch .left left reached found other) rfl
    | right =>
      cases sumr.symm.trans sum
      exact .violated _ (walkedr.toFlawless.sizeMismatch .right right reached found other) rfl
  · have hangs : tree.nodes.Hangs above (.node l id r) :=
      walkedl.toHangs.node walkedr.toHangs (walkedr.nodup_node walkedl (seenSize ▸ inRange)) found
        ((Arena.parentOf_found found).symm.trans parent) left.symm right.symm lsize rsize
    rcases leaving with ⟨large, leaving⟩ | ⟨fits, leaving⟩
    · rw [leaving]
      exact .overfull ⟨(Shape.node l id r).inOrder, hangs.nodup, fun i inside =>
        ⟨hangs.inRange i inside, reached.below rfl hangs.wired inside⟩, large⟩ rfl
    · rw [leaving]
      have flawless : Flawless tree.nodes above (.node l id r) :=
        ⟨hangs, Shape.forall_mem_node nonempty walkedl.nonempty walkedr.nonempty, fits⟩
      exact .walked (.node l id r) _ rest rfl
        (walkedr.node walkedl seenSize begun.sumsSize unseen flawless) rfl rfl

/-- Two turns for every place that was not seen and one more are enough for the visits below a
link. -/
theorem Begun.run_walks {tree : Tree} {above link : Option NodeId}
    (fuel : Nat) (visits : List Visit)
    (children : ∀ i side child, tree.nodes.childOf i side = some child → child < tree.nodes.size)
    (begun : Begun tree above link findings) (enough : 2 * findings.unseen < fuel) :
    Walks tree above link fuel visits findings
      (run tree.nodes fuel (link.toList.map .enter ++ visits) findings) := by
  induction fuel using Nat.strongRecOn generalizing link above visits findings with
  | ind fuel ih =>
    cases link with
    | none =>
      exact .walked .empty findings fuel rfl (walked_empty tree.nodes above findings) rfl rfl
    | some id =>
      cases fuel with
      | zero => omega
      | succ fuel =>
        obtain ⟨inRange, parent⟩ := begun.named id rfl
        obtain ⟨here, found⟩ := Arena.exists_found inRange
        obtain ⟨outcome, entering⟩ := exists_enter findings found fun side i child =>
          children id side i ((Arena.childOf_found found side).trans child)
        rw [Option.toList_some, List.map_cons, List.map_nil, List.singleton_append, run, entering,
          ok_bind]
        cases outcome with
        | error violation => exact .violated violation (begun.enter_error entering) rfl
        | ok outcome =>
          obtain ⟨first, more⟩ := outcome
          obtain ⟨same, found', unseen, nonempty, named, rfl, rfl⟩ := enter_eq_ok entering
          obtain rfl : here = same := Option.some.inj (found.symm.trans found')
          have fewer := unseen_entered (begun.seenSize ▸ inRange) unseen
          dsimp only
          rw [List.append_assoc, List.append_assoc, List.singleton_append]
          -- the right subtree is visited first, then the left one with the turns that are left
          cases ih fuel (Nat.lt_succ_self fuel) (here.left.toList.map .enter ++ .leave id :: visits)
            (begun.right found unseen named) (by omega) with
          | violated violation holds ended => exact .violated violation holds ended
          | overfull large ended => exact .overfull large ended
          | walked r second restr rootr walkedr costr goesOn =>
            rw [goesOn]
            have countr := walkedr.count
            cases ih restr (by omega) (.leave id :: visits)
              (begun.left found unseen named walkedr rootr) (by omega) with
            | violated violation holds ended => exact .violated violation holds ended
            | overfull large ended => exact .overfull large ended
            | walked l third restl rootl walkedl costl goesOn =>
              rw [goesOn]
              have countl := walkedl.count
              obtain ⟨rest, rfl⟩ : ∃ rest, restl = rest + 1 := ⟨restl - 1, by omega⟩
              have cost : fuel + 1 = rest + 2 * (Shape.node l id r).count := by
                rw [Shape.count]
                omega
              rw [cost]
              exact begun.walks walkedr walkedl found unseen nonempty rootl rootr rest

theorem unseen_start (count : Nat) : (start count).unseen = count := by
  rw [Findings.unseen, start, Array.count_replicate_self]

end Check

namespace Tree
variable {tree : Tree} {shape : Shape}

/-- What a check ends with. -/
inductive Verdict (tree : Tree) : Prop where
  | violated (violation : Violation) (holds : violation.Holds tree)
    (ended : tree.check = .ok (.error violation))
  | overfull (large : tree.Overfull) (ended : tree.check = .error .sumOverflow)
  | passes (well : tree.WellFormed) (ended : tree.check = .ok (.ok ()))

/-- The check visits what is below the root, and then looks for nodes that are not. -/
theorem InRange.verdict (inRange : tree.InRange) : tree.Verdict := by
  rcases Check.rootVisit_eq inRange.root with ⟨top, above, root, named, visited⟩ | ⟨visited, parent⟩
  · exact .violated (.rootHasParent top above) ⟨root, named⟩
      (by simp only [check, visited, ok_bind, pure_eq_ok])
  · have enough : 2 * (Check.start tree.nodes.size).unseen < 3 * tree.nodes.size + 2 := by
      rw [Check.unseen_start]
      omega
    have walks := (Check.begun_start inRange.root parent).run_walks (3 * tree.nodes.size + 2) []
      inRange.children enough
    rw [List.append_nil, nodeCount] at walks
    cases walks with
    | violated violation holds ended =>
      exact .violated violation holds (by simp only [check, visited, ok_bind, ended, pure_eq_ok])
    | overfull large ended =>
      exact .overfull large (by simp only [check, visited, ok_bind, ended, error_bind])
    | walked shape after rest root walked cost goesOn =>
      rw [Check.run] at goesOn
      cases unseen : Check.firstUnseen after.seen with
      | some id =>
        have reaches (i : NodeId) : tree.Reaches i ↔ i ∈ shape.inOrder :=
          reaches_iff root walked.wired
        obtain ⟨inRange, outside, before⟩ := walked.toDone.outside unseen
        exact .violated (.unreachable id) ⟨inRange, mt (reaches id).mp outside,
          fun earlier lower => (reaches earlier).mpr (before earlier lower)⟩
          (by simp only [check, visited, ok_bind, goesOn, unseen, pure_eq_ok])
      | none =>
        have full := walked.toDone.full unseen
        have well := WellFormedAs.of_stands walked.toHangs full walked.nonempty walked.fits
        rw [root] at well
        exact .passes ⟨shape, well⟩
          (by simp only [check, visited, ok_bind, goesOn, unseen, pure_eq_ok])

theorem Overfull.le_weight (overfull : tree.Overfull) (root : shape.root = tree.root)
    (wired : shape.Wired tree.nodes.childOf) :
    Size.limit ≤ shape.weight tree.nodes.pieceSize := by
  obtain ⟨ids, nodup, reached, large⟩ := overfull
  refine Nat.le_trans large (sizeSum_le_of_subset nodup fun id member => ?_)
  exact (reaches_iff root wired).mp (reached id member).2

theorem WellFormedAs.inRange (well : tree.WellFormedAs shape) : tree.InRange := by
  have stands := well.stands
  constructor
  · intro id root
    exact stands.inRange id (Shape.mem_inOrder_of_root (well.root_eq.symm.trans root))
  · intro id side child link
    have inside := well.full id (Arena.lt_size_of_childOf link)
    exact stands.inRange child (stands.wired.child_mem inside link)

/-- The check finds nothing wrong with a well-formed tree: no violation is there to be told. -/
theorem WellFormedAs.check (well : tree.WellFormedAs shape) : tree.check = .ok (.ok ()) := by
  have stands := well.stands
  cases well.inRange.verdict with
  | violated violation holds _ =>
    rcases holds.of_stands stands well.root_eq.symm with
      ⟨id, inside, bare, -⟩ | ⟨id, inRange, outside, -⟩
    · have := well.nonempty id inside
      omega
    · exact absurd (well.full id inRange) outside
  | overfull large _ =>
    exact absurd well.sizeSum_lt (Nat.not_lt.mpr (large.le_weight well.root_eq.symm stands.wired))
  | passes _ ended => exact ended

/-- The three ends of a check. -/
theorem InRange.check_cases (inRange : tree.InRange) :
    (∃ violation, tree.check = .ok (.error violation)) ∨
    (tree.check = .error .sumOverflow ∧ tree.Overfull) ∨
    (tree.check = .ok (.ok ()) ∧ tree.WellFormed) := by
  cases inRange.verdict with
  | violated violation _ ended => exact .inl ⟨violation, ended⟩
  | overfull large ended => exact .inr (.inl ⟨ended, large⟩)
  | passes well ended => exact .inr (.inr ⟨ended, well⟩)

theorem wellFormed_iff_of_root_eq_none (rootless : tree.root = none) :
    tree.WellFormed ↔ tree.nodeCount = 0 := by
  constructor
  · rintro ⟨shape, well⟩
    have bare := Shape.root_eq_none.mp (well.root_eq.symm.trans rootless)
    cases count : tree.nodeCount with
    | zero => rfl
    | succ n =>
      have first := well.full 0 (by rw [← Tree.nodeCount, count]; omega)
      rw [bare] at first
      cases first
  · intro none
    have bare : tree = .empty := by
      obtain ⟨nodes, root⟩ := tree
      obtain rfl := Array.eq_empty_of_size_eq_zero none
      rw [show root = Option.none from rootless]
      rfl
    rw [bare]
    exact wellFormed_empty

/-- The check ends on every tree whose links stay in the arena, and finds nothing wrong exactly when
the tree is well formed; it stops at a sum that is too large only where pieces of different nodes
below the root have it. -/
theorem check_decides (tree : Tree) (inRange : tree.InRange) :
    ((∃ verdict, tree.check = .ok verdict) ∨
      (tree.check = .error .sumOverflow ∧ tree.Overfull)) ∧
    (tree.check = .ok (.ok ()) ↔ tree.WellFormed) ∧
    (tree.root = none → (tree.check = .ok (.ok ()) ↔ tree.nodeCount = 0)) := by
  have sound : tree.check = .ok (.ok ()) ↔ tree.WellFormed := by
    constructor
    · intro passes
      rcases inRange.check_cases with ⟨violation, ended⟩ | ⟨ended, -⟩ | ⟨-, well⟩
      · rw [ended] at passes
        cases passes
      · rw [ended] at passes
        cases passes
      · exact well
    · rintro ⟨shape, well⟩
      exact well.check
  refine ⟨?_, sound, ?_⟩
  · rcases inRange.check_cases with ⟨violation, ended⟩ | overfull | ⟨ended, -⟩
    · exact .inl ⟨_, ended⟩
    · exact .inr overfull
    · exact .inl ⟨_, ended⟩
  · intro rootless
    rw [sound]
    exact wellFormed_iff_of_root_eq_none rootless

/-- The same node on both sides of the root, with sizes that add up. -/
def doubled : Tree where
  nodes := #[{ piece := .sized 3, lsize := 2, rsize := 2, left := some 1, right := some 1 },
    { piece := .sized 2, parent := some 0 }]
  root := some 0

theorem check_decides_doubled :
    doubled.InRange ∧ doubled.check = .ok (.error (.shared 1)) ∧ ¬ doubled.WellFormed := by
  have inRange : doubled.InRange := by
    constructor
    · rintro id ⟨⟩
      decide
    · intro id side child link
      match id, side with
      | 0, .left | 0, .right =>
        cases link
        decide
      | 1, .left | 1, .right => cases link
      | _ + 2, _ => cases link
  have shared : doubled.check = .ok (.error (.shared 1)) := rfl
  refine ⟨inRange, shared, ?_⟩
  intro well
  have passes := (check_decides doubled inRange).2.1.mpr well
  rw [shared] at passes
  cases passes

/-- Whatever violation ends a check is there: as long as the links stay inside the arena, what is
told of the tree is so. -/
theorem check_diagnoses (tree : Tree) (inRange : tree.InRange) {violation : Violation}
    (ended : tree.check = .ok (.error violation)) : violation.Holds tree := by
  cases inRange.verdict with
  | violated found holds ended' =>
    cases ended.symm.trans ended'
    exact holds
  | overfull _ ended' => cases ended.symm.trans ended'
  | passes _ ended' => cases ended.symm.trans ended'

/-- The left subtree of the root has two pieces, of which the root counts one. A node that nothing
leads to names itself as its parent. -/
def miscounted : Tree where
  nodes := #[{ piece := .sized 4, lsize := 2, rsize := 1, left := some 1, right := some 3 },
    { piece := .sized 2, lsize := 3, left := some 2, parent := some 0 },
    { piece := .sized 3, parent := some 1 },
    { piece := .sized 1, parent := some 0 },
    { piece := .sized 7, parent := some 4 }]
  root := some 0

theorem check_diagnoses_miscounted :
    miscounted.InRange ∧ miscounted.check = .ok (.error (.sizeMismatch 0 .left 2 5)) ∧
      (Violation.sizeMismatch 0 .left 2 5).Holds miscounted := by
  have inRange : miscounted.InRange := by
    constructor
    · rintro id ⟨⟩
      decide
    · intro id side child link
      match id, side with
      | 0, .left | 0, .right | 1, .left =>
        cases link
        decide
      | 1, .right | 2, .left | 2, .right | 3, .left | 3, .right | 4, .left | 4, .right => cases link
      | _ + 5, _ => cases link
  exact ⟨inRange, rfl, check_diagnoses miscounted inRange rfl⟩

end Tree
end PieceIndex
