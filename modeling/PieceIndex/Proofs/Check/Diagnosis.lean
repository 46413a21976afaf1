import Mathlib.Logic.Relation
import PieceIndex.Proofs.Check.Findings

/-!
What the check tells when it ends early. A violation tells where something is wrong, at a node that
some way down from the root leads to, and what it is. Of a tree with right links and sizes only two
can be told: that a piece is empty, and that a node stands beside it. Of a single visit it can be
said at once which violation ends it; the sums that a size is compared with, and the nodes that were
seen before, only mean something when it is known what was visited until then.
-/
namespace PieceIndex

/-- From the top of a shape a way leads down to each of its nodes. -/
theorem Shape.Wired.path {links : NodeId → Side → Option NodeId} {shape : Shape} {top id : NodeId}
    (wired : shape.Wired links) (root : shape.root = some top) (inside : id ∈ shape.inOrder) :
    Relation.ReflTransGen (Leads links) top id := by
  induction shape generalizing top with
  | empty => cases inside
  | node left here right ihl ihr =>
    cases root
    obtain ⟨linkl, linkr, wiredl, wiredr⟩ := wired
    simp only [inOrder, List.mem_append, List.mem_cons] at inside
    rcases inside with inside | rfl | inside
    · obtain ⟨below, root⟩ := exists_root inside
      exact .head ⟨.left, linkl.trans root⟩ (ihl wiredl root inside)
    · exact .refl
    · obtain ⟨below, root⟩ := exists_root inside
      exact .head ⟨.right, linkr.trans root⟩ (ihr wiredr root inside)

namespace Tree
variable {tree : Tree} {shape : Shape} {id next : NodeId} {side : Side}

/-- Some way down from the root leads to the node. -/
def Reaches (tree : Tree) (id : NodeId) : Prop :=
  ∃ top, tree.root = some top ∧ Relation.ReflTransGen (Leads tree.nodes.childOf) top id

theorem Reaches.child (reached : tree.Reaches id)
    (link : tree.nodes.childOf id side = some next) : tree.Reaches next := by
  obtain ⟨top, root, path⟩ := reached
  exact ⟨top, root, path.tail ⟨side, link⟩⟩

/-- From a node that can be reached all nodes of the shape below it can. -/
theorem Reaches.below {top : NodeId} (reached : tree.Reaches top) (root : shape.root = some top)
    (wired : shape.Wired tree.nodes.childOf) (inside : id ∈ shape.inOrder) : tree.Reaches id := by
  obtain ⟨start, start_eq, path⟩ := reached
  exact ⟨start, start_eq, path.trans (wired.path root inside)⟩

/-- The nodes of a shape below the root are those that can be reached. -/
theorem reaches_iff (root : shape.root = tree.root) (wired : shape.Wired tree.nodes.childOf) :
    tree.Reaches id ↔ id ∈ shape.inOrder := by
  constructor
  · rintro ⟨top, top_eq, path⟩
    induction path with
    | refl => exact Shape.mem_inOrder_of_root (root.trans top_eq)
    | tail _ link ih =>
      obtain ⟨side, link⟩ := link
      exact wired.child_mem ih link
  · intro inside
    obtain ⟨top, root'⟩ := Shape.exists_root inside
    exact Reaches.below ⟨top, root.symm.trans root', .refl⟩ root' wired inside

end Tree

/-- What a violation tells of a tree is so. A size that is called actual is that of a subtree in
which no node stands twice and all cached sizes are right. -/
def Violation.Holds (tree : Tree) : Violation → Prop
  | .rootHasParent root parent =>
    tree.root = some root ∧ tree.nodes.parentOf root = some parent
  | .sizeMismatch node side cached actual =>
    tree.Reaches node ∧ tree.nodes.cachedOf node side = cached ∧ cached ≠ actual ∧
      ∃ below, Tree.HasShape ⟨tree.nodes, tree.nodes.childOf node side⟩ below ∧
        tree.nodes.Exact below ∧ tree.nodes.weight below = actual
  | .parentMismatch node child side found =>
    tree.Reaches node ∧ tree.nodes.childOf node side = some child ∧
      tree.nodes.parentOf child = found ∧ found ≠ some node
  | .emptyPiece node =>
    tree.Reaches node ∧ node < tree.nodeCount ∧ tree.nodes.pieceSize node = 0
  | .shared node =>
    ∃ holder, tree.Reaches holder ∧ ∀ side, tree.nodes.childOf holder side = some node
  | .unreachable node =>
    node < tree.nodeCount ∧ ¬ tree.Reaches node ∧ ∀ earlier < node, tree.Reaches earlier

/-- Whatever tree hangs on a side of a node, the node has cached its weight. -/
theorem Arena.Hangs.cachedOf_eq {arena : Arena} {above : Option NodeId} {shape below : Shape}
    {id : NodeId} {side : Side} (hangs : arena.Hangs above shape) (inside : id ∈ shape.inOrder)
    (has : Tree.HasShape ⟨arena, arena.childOf id side⟩ below) :
    arena.cachedOf id side = arena.weight below := by
  obtain ⟨part, root, sub, tallies⟩ := Shape.exists_below inside
  have wired := tallies hangs.wired
  have measured := tallies hangs.measured
  have parts := Shape.exists_sided root side
  rw [parts] at wired measured
  obtain ⟨link, -, inner, -⟩ := (Shape.tallies_sided ..).mp wired
  obtain ⟨size, -⟩ := (Shape.tallies_sided ..).mp measured
  have within (i : NodeId) (h : i ∈ (part.on side).inOrder) : i < arena.size := by
    refine hangs.inRange i (sub.subset ?_)
    rw [parts, Shape.mem_inOrder_sided]
    exact .inl h
  have same := has.links.unique (links_iff.mpr ⟨within, inner⟩) (has.root_eq.symm.trans link)
  rw [same, weight_eq, size]

/-- Of a tree that hangs from nothing no violation can be told but an empty piece of it, or a node
beside it. -/
theorem Violation.Holds.of_stands {tree : Tree} {shape : Shape} {violation : Violation}
    (holds : violation.Holds tree) (stands : tree.nodes.Stands shape)
    (root : shape.root = tree.root) :
    (∃ id ∈ shape.inOrder, tree.nodes.pieceSize id = 0 ∧ violation = .emptyPiece id) ∨
      ∃ id < tree.nodeCount, id ∉ shape.inOrder ∧ violation = .unreachable id := by
  have reaches (i : NodeId) : tree.Reaches i ↔ i ∈ shape.inOrder :=
    Tree.reaches_iff root stands.wired
  cases violation with
  | rootHasParent top parent =>
    obtain ⟨top_eq, named⟩ := holds
    cases named.symm.trans (stands.parented.of_root (root.trans top_eq))
  | sizeMismatch node side cached actual =>
    obtain ⟨reached, rfl, other, below, has, -, rfl⟩ := holds
    exact absurd (stands.cachedOf_eq ((reaches node).mp reached) has) other
  | parentMismatch node child side found =>
    obtain ⟨reached, link, rfl, other⟩ := holds
    exact absurd (stands.parented.of_link stands.wired ((reaches node).mp reached) link) other
  | emptyPiece node =>
    obtain ⟨reached, -, bare⟩ := holds
    exact .inl ⟨node, (reaches node).mp reached, bare, rfl⟩
  | shared node =>
    obtain ⟨holder, reached, links⟩ := holds
    cases stands.wired.side_eq stands.nodup ((reaches holder).mp reached) (links .left)
      (links .right)
  | unreachable node =>
    obtain ⟨inRange, beside, -⟩ := holds
    exact .inr ⟨node, inRange, mt (reaches node).mpr beside, rfl⟩

namespace Check
variable {arena : Arena} {findings after : Findings} {id : NodeId} {visits : List Visit}
  {violation : Violation}

theorem childVisit_eq_ok {side : Side} {child : Option NodeId}
    (h : childVisit arena id side child = .ok (.ok visits)) :
    visits = child.toList.map .enter ∧
      ∀ i, child = some i → i < arena.size ∧ arena.parentOf i = some id := by
  cases child with
  | none =>
    cases h
    exact ⟨rfl, nofun⟩
  | some child =>
    obtain ⟨node, found, h⟩ := bind_eq_ok.mp h
    have found := Arena.node_eq_ok.mp found
    by_cases named : node.parent = some id
    · simp only [named, if_true] at h
      cases h
      refine ⟨rfl, ?_⟩
      rintro i ⟨⟩
      exact ⟨Arena.lt_size_of_found found, (Arena.parentOf_found found).trans named⟩
    · simp only [named, if_false] at h
      cases h

theorem childVisit_eq_error {side : Side} {child : Option NodeId}
    (h : childVisit arena id side child = .ok (.error violation)) :
    ∃ i, child = some i ∧ arena.parentOf i ≠ some id ∧
      violation = .parentMismatch id i side (arena.parentOf i) := by
  cases child with
  | none => cases h
  | some child =>
    obtain ⟨node, found, h⟩ := bind_eq_ok.mp h
    have parent := Arena.parentOf_found (Arena.node_eq_ok.mp found)
    by_cases named : node.parent = some id
    · simp only [named, if_true] at h
      cases h
    · simp only [named, if_false] at h
      cases h
      exact ⟨child, rfl, parent ▸ named, by rw [parent]⟩

/-- A node that could be entered is as it should be, as far as that can be seen on the way down. -/
theorem enter_eq_ok (h : enter arena findings id = .ok (.ok (after, visits))) :
    ∃ node, arena[id]? = some node ∧ findings.seen[id]?.getD false = false ∧
      1 ≤ arena.pieceSize id ∧
      (∀ side i, node.child side = some i → i < arena.size ∧ arena.parentOf i = some id) ∧
      after = entered findings id ∧
      visits = node.right.toList.map .enter ++ (node.left.toList.map .enter ++ [.leave id]) := by
  obtain ⟨node, found, h⟩ := bind_eq_ok.mp h
  have found := Arena.node_eq_ok.mp found
  dsimp only at h
  by_cases unseen : findings.seen[id]?.getD false = true
  · rw [if_pos unseen] at h
    cases h
  rw [if_neg unseen] at h
  by_cases empty : node.piece.size = 0
  · rw [if_pos empty] at h
    cases h
  rw [if_neg empty] at h
  obtain ⟨left, visitl, h⟩ := bind_eq_ok.mp h
  cases left with
  | error violation => cases h
  | ok left =>
    obtain ⟨right, visitr, h⟩ := bind_eq_ok.mp h
    cases right with
    | error violation => cases h
    | ok right =>
      cases h
      obtain ⟨rfl, namedl⟩ := childVisit_eq_ok visitl
      obtain ⟨rfl, namedr⟩ := childVisit_eq_ok visitr
      refine ⟨node, found, by simpa using unseen, ?_, ?_, rfl, rfl⟩
      · rw [Arena.pieceSize_found found]
        omega
      · intro side
        cases side
        · exact namedl
        · exact namedr

/-- What is wrong where a node cannot be entered: it was seen before, its piece is empty, or one of
its children does not name it. -/
theorem enter_eq_error (h : enter arena findings id = .ok (.error violation)) :
    (findings.seen[id]?.getD false = true ∧ violation = .shared id) ∨
    (id < arena.size ∧ arena.pieceSize id = 0 ∧ violation = .emptyPiece id) ∨
    ∃ side child, arena.childOf id side = some child ∧ arena.parentOf child ≠ some id ∧
      violation = .parentMismatch id child side (arena.parentOf child) := by
  obtain ⟨node, found, h⟩ := bind_eq_ok.mp h
  have found := Arena.node_eq_ok.mp found
  dsimp only at h
  by_cases seen : findings.seen[id]?.getD false = true
  · rw [if_pos seen] at h
    cases h
    exact .inl ⟨seen, rfl⟩
  rw [if_neg seen] at h
  by_cases empty : node.piece.size = 0
  · rw [if_pos empty] at h
    cases h
    exact .inr (.inl ⟨Arena.lt_size_of_found found, (Arena.pieceSize_found found).trans empty, rfl⟩)
  rw [if_neg empty] at h
  obtain ⟨left, visitl, h⟩ := bind_eq_ok.mp h
  cases left with
  | error violation =>
    cases h
    obtain ⟨child, link, other, rfl⟩ := childVisit_eq_error visitl
    exact .inr (.inr ⟨.left, child, (Arena.childOf_found found .left).trans link, other, rfl⟩)
  | ok left =>
    obtain ⟨right, visitr, h⟩ := bind_eq_ok.mp h
    cases right with
    | ok right => cases h
    | error violation =>
      cases h
      obtain ⟨child, link, other, rfl⟩ := childVisit_eq_error visitr
      exact .inr (.inr ⟨.right, child, (Arena.childOf_found found .right).trans link, other, rfl⟩)

theorem exists_childVisit (id : NodeId) (side : Side) {child : Option NodeId}
    (inRange : ∀ i, child = some i → i < arena.size) :
    ∃ outcome, childVisit arena id side child = .ok outcome := by
  cases child with
  | none => exact ⟨_, rfl⟩
  | some child =>
    obtain ⟨node, found⟩ := Arena.exists_found (inRange child rfl)
    rw [childVisit, Arena.node_eq_ok.mpr found, ok_bind]
    dsimp only
    split <;> exact ⟨_, rfl⟩

/-- Entering meets no fault as long as the children lie in the arena. -/
theorem exists_enter (findings : Findings) {node : Node} (found : arena[id]? = some node)
    (inRange : ∀ side i, node.child side = some i → i < arena.size) :
    ∃ outcome, enter arena findings id = .ok outcome := by
  obtain ⟨left, visitl⟩ := exists_childVisit id .left (inRange .left)
  obtain ⟨right, visitr⟩ := exists_childVisit id .right (inRange .right)
  change childVisit arena id .left node.left = .ok left at visitl
  change childVisit arena id .right node.right = .ok right at visitr
  simp only [enter, Arena.node_eq_ok.mpr found, ok_bind, visitl, visitr, pure_eq_ok]
  split
  · exact ⟨_, rfl⟩
  · split
    · exact ⟨_, rfl⟩
    · cases left <;> cases right <;> exact ⟨_, rfl⟩

/-- How a node is left once the sums below it are known. -/
theorem leave_cases {node : Node} {lsize rsize : Nat} (found : arena[id]? = some node)
    (suml : sumBelow findings.sums node.left = .ok lsize)
    (sumr : sumBelow findings.sums node.right = .ok rsize) :
    (∃ side actual, sumBelow findings.sums (node.child side) = .ok actual ∧
      node.sizeOn side ≠ actual ∧ leave arena findings id =
        .ok (.error (.sizeMismatch id side (node.sizeOn side) actual))) ∨
    (node.lsize = lsize ∧ node.rsize = rsize ∧
      ((Size.limit ≤ lsize + node.piece.size + rsize ∧
          leave arena findings id = .error .sumOverflow) ∨
        (lsize + node.piece.size + rsize < Size.limit ∧ leave arena findings id =
          .ok (.ok (noted findings id (lsize + node.piece.size + rsize)))))) := by
  by_cases hl : node.lsize = lsize
  · by_cases hr : node.rsize = rsize
    · refine .inr ⟨hl, hr, ?_⟩
      have adding : leave arena findings id =
          (Size.add lsize node.piece.size >>= fun sum => Size.add sum rsize) >>= fun sum =>
            .ok (.ok (noted findings id sum)) := by
        simp only [leave, Arena.node_eq_ok.mpr found, ok_bind, suml, sumr, hl, hr, ne_eq,
          not_true_eq_false, if_false, bind_assoc]
        rfl
      rw [adding, Size.add_bind_add, Nat.add_assoc]
      by_cases fits : lsize + (node.piece.size + rsize) < Size.limit
      · rw [Size.add_of_lt fits, ok_bind]
        exact .inr ⟨fits, rfl⟩
      · have large := Nat.le_of_not_lt fits
        rw [Size.add_of_ge large, error_bind]
        exact .inl ⟨large, rfl⟩
    · refine .inl ⟨.right, rsize, sumr, hr, ?_⟩
      simp only [leave, Arena.node_eq_ok.mpr found, ok_bind, suml, sumr, hl, ne_eq,
        not_true_eq_false, if_false, hr, not_false_eq_true, if_true, pure_eq_ok, Node.sizeOn]
  · refine .inl ⟨.left, lsize, suml, hl, ?_⟩
    simp only [leave, Arena.node_eq_ok.mpr found, ok_bind, suml, sumr, hl, ne_eq,
      not_false_eq_true, if_true, pure_eq_ok, Node.sizeOn]

/-- The check begins with the root, unless a node is named as the parent of it. -/
theorem rootVisit_eq {root : Option NodeId} (inRange : ∀ i, root = some i → i < arena.size) :
    (∃ top parent, root = some top ∧ arena.parentOf top = some parent ∧
      rootVisit arena root = .ok (.error (.rootHasParent top parent))) ∨
    (rootVisit arena root = .ok (.ok (root.toList.map .enter)) ∧
      ∀ i, root = some i → arena.parentOf i = none) := by
  cases root with
  | none => exact .inr ⟨rfl, nofun⟩
  | some root =>
    obtain ⟨node, found⟩ := Arena.exists_found (inRange root rfl)
    rw [rootVisit, Arena.node_eq_ok.mpr found, ok_bind]
    cases parent : node.parent with
    | none =>
      refine .inr ⟨rfl, ?_⟩
      rintro i ⟨⟩
      exact (Arena.parentOf_found found).trans parent
    | some above => exact .inl ⟨root, above, rfl, (Arena.parentOf_found found).trans parent, rfl⟩

end Check
end PieceIndex
