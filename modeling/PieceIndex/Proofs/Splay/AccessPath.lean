import PieceIndex.Proofs.Splay.Travel

/-!
A splay touches only the way from the root down to its target. Every write goes to a node on that
way, or to the parent of a subtree that hangs from one and is moved to another; so a node beside the
way keeps its children and its cached sizes, and all subtrees beside it are carried over as they
were.
-/
namespace PieceIndex

/-- What is kept of a node beside a path. Only a parent that is on the path can be changed, and then
for another one that is. -/
structure Node.KeptBeside (path : List NodeId) (node node' : Node) : Prop where
  piece : node'.piece = node.piece
  left : node'.left = node.left
  right : node'.right = node.right
  lsize : node'.lsize = node.lsize
  rsize : node'.rsize = node.rsize
  parent : (∀ p ∈ path, node.parent ≠ some p) → node'.parent = node.parent
  adopted : ∀ p ∈ path, node.parent = some p → ∃ q ∈ path, node'.parent = some q

theorem Node.KeptBeside.eq {path : List NodeId} {node node' : Node}
    (kept : node.KeptBeside path node')
    (beside : ∀ p ∈ path, node.parent ≠ some p) : node' = node := by
  have parent := kept.parent beside
  obtain ⟨piece, left, right, lsize, rsize, -, -⟩ := kept
  cases node
  cases node'
  simp_all

namespace Shape
variable {shape : Shape} {links : NodeId → Side → Option NodeId} {parent : NodeId → Option NodeId}
  {above : Option NodeId} {side : Side} {i x a child top : NodeId}

/-- The way to a node leads from parent to child. -/
theorem Parented.of_mem_wayTo (parented : shape.Parented parent above) (nodup : shape.inOrder.Nodup)
    (inside : x ∈ shape.inOrder) (on : a ∈ shape.wayTo x) :
    shape.root = some a ∨ ∃ p ∈ shape.wayTo x, parent a = some p := by
  induction shape generalizing above with
  | empty => cases inside
  | node left id right ihl ihr =>
    obtain ⟨-, pl, pr⟩ := parented
    obtain ⟨nodupl, nodupr, -⟩ := (nodup_inOrder_sided .left left right id).mp nodup
    by_cases same : x = id
    · rw [same, wayTo_top nodup rfl, List.mem_singleton] at on
      exact .inl (congrArg some on.symm)
    · obtain ⟨side, inside, way⟩ := exists_on nodup rfl inside same
      rw [way] at on ⊢
      rcases List.mem_cons.mp on with rfl | on
      · exact .inl rfl
      · have below : ((node left id right).on side).root = some a ∨
            ∃ p ∈ ((node left id right).on side).wayTo x, parent a = some p := by
          cases side with
          | left => exact ihl pl nodupl inside on
          | right => exact ihr pr nodupr inside on
        have hangs : ((node left id right).on side).Parented parent (some id) := by
          cases side with
          | left => exact pl
          | right => exact pr
        rcases below with root | ⟨p, higher, named⟩
        · exact .inr ⟨id, List.mem_cons_self, hangs.of_root root⟩
        · exact .inr ⟨p, List.mem_cons_of_mem _ higher, named⟩

/-- No link of a shape leads to its top node. -/
theorem Wired.child_ne_root (wired : shape.Wired links) (nodup : shape.inOrder.Nodup)
    (inside : i ∈ shape.inOrder) (link : links i side = some child) : shape.root ≠ some child := by
  intro root
  cases shape with
  | empty => cases root
  | node left id right =>
    cases root
    obtain ⟨onLeft, onRight, wiredl, wiredr⟩ := wired
    obtain ⟨-, -, notLeft, notRight, -⟩ := (nodup_inOrder_sided .left left right _).mp nodup
    simp only [inOrder, List.mem_append, List.mem_cons] at inside
    rcases inside with inside | rfl | inside
    · exact notLeft (Wired.child_mem wiredl inside link)
    · cases side with
      | left => exact notLeft (mem_inOrder_of_root (onLeft.symm.trans link))
      | right => exact notRight (mem_inOrder_of_root (onRight.symm.trans link))
    · exact notRight (Wired.child_mem wiredr inside link)

/-- What hangs from a node beside a way is beside it too. -/
theorem child_notMem_wayTo (wired : shape.Wired links) (parented : shape.Parented parent above)
    (nodup : shape.inOrder.Nodup) (target : x ∈ shape.inOrder) (inside : i ∈ shape.inOrder)
    (beside : i ∉ shape.wayTo x) (link : links i side = some child) : child ∉ shape.wayTo x := by
  intro on
  rcases parented.of_mem_wayTo nodup target on with root | ⟨p, higher, named⟩
  · exact wired.child_ne_root nodup inside link root
  · rw [parented.of_link wired inside link] at named
    cases named
    exact beside higher

/-- A subtree whose top is beside a way is beside it as a whole; and below its top every node hangs
from another one of it. -/
theorem subtree_beside {sub : Shape} (wired : shape.Wired links)
    (parented : shape.Parented parent above)
    (nodup : shape.inOrder.Nodup) (target : x ∈ shape.inOrder) (wiredSub : sub.Wired links)
    (root : sub.root = some top) (inside : top ∈ shape.inOrder) (beside : top ∉ shape.wayTo x) :
    ∀ i ∈ sub.inOrder, i ∈ shape.inOrder ∧ i ∉ shape.wayTo x ∧
      (i ≠ top → ∃ p, p ∉ shape.wayTo x ∧ parent i = some p) := by
  induction sub generalizing top with
  | empty => cases root
  | node left id right ihl ihr =>
    cases root
    obtain ⟨onLeft, onRight, wiredl, wiredr⟩ := wiredSub
    have below {sub : Shape} {side : Side} (link : links id side = sub.root)
        (ih : ∀ {next}, sub.root = some next → next ∈ shape.inOrder → next ∉ shape.wayTo x →
          ∀ i ∈ sub.inOrder, i ∈ shape.inOrder ∧ i ∉ shape.wayTo x ∧
            (i ≠ next → ∃ p, p ∉ shape.wayTo x ∧ parent i = some p)) :
        ∀ i ∈ sub.inOrder, i ∈ shape.inOrder ∧ i ∉ shape.wayTo x ∧
          ∃ p, p ∉ shape.wayTo x ∧ parent i = some p := by
      intro i member
      obtain ⟨next, root⟩ := exists_root member
      have linked := link.trans root
      obtain ⟨here, apart, hangs⟩ := ih root (wired.child_mem inside linked)
        (child_notMem_wayTo wired parented nodup target inside beside linked) i member
      refine ⟨here, apart, ?_⟩
      by_cases same : i = next
      · rw [same]
        exact ⟨id, beside, parented.of_link wired inside linked⟩
      · exact hangs same
    apply forall_mem_node
    · exact ⟨inside, beside, fun other => absurd rfl other⟩
    · intro i member
      obtain ⟨here, apart, hangs⟩ := below onLeft (fun root => ihl wiredl root) i member
      exact ⟨here, apart, fun _ => hangs⟩
    · intro i member
      obtain ⟨here, apart, hangs⟩ := below onRight (fun root => ihr wiredr root) i member
      exact ⟨here, apart, fun _ => hangs⟩

/-- Where only links from a path are changed, a node beside the path keeps its parent, or it hangs
from the path before and after. -/
theorem parent_beside {shape' : Shape} {links' : NodeId → Side → Option NodeId}
    {parent' : NodeId → Option NodeId} {above' : Option NodeId} {path : List NodeId}
    (wired : shape.Wired links) (wired' : shape'.Wired links')
    (parented : shape.Parented parent above)
    (parented' : shape'.Parented parent' above') (order : shape'.inOrder = shape.inOrder)
    (root : ∀ t, shape.root = some t → t ∈ path) (root' : ∀ t, shape'.root = some t → t ∈ path)
    (same : ∀ i ∉ path, links' i = links i) (inside : i ∈ shape.inOrder) (beside : i ∉ path) :
    ∃ p, parent i = some p ∧ (p ∉ path → parent' i = some p) ∧
      (p ∈ path → ∃ q ∈ path, parent' i = some q) := by
  obtain ⟨p, insidep, side, link⟩ : ∃ p ∈ shape.inOrder, Leads links p i :=
    (wired.root_or_leads inside).resolve_left fun top => beside (root i top)
  obtain ⟨q, insideq, side', link'⟩ : ∃ q ∈ shape'.inOrder, Leads links' q i :=
    (wired'.root_or_leads (order ▸ inside)).resolve_left fun top => beside (root' i top)
  have named := parented.of_link wired insidep link
  have named' := parented'.of_link wired' insideq link'
  refine ⟨p, named, ?_, ?_⟩
  · intro off
    rw [← same p off] at link
    exact parented'.of_link wired' (order ▸ insidep) link
  · intro on
    refine ⟨q, ?_, named'⟩
    by_cases off : q ∈ path
    · exact off
    · rw [same q off] at link'
      cases named.symm.trans (parented.of_link wired (order ▸ insideq) link')
      exact on

end Shape

namespace Tree
variable {tree after : Tree} {shape shape' : Shape} {target top : NodeId} {offset : Nat}

/-- A node beside the way keeps all but its parent, and that only changes from one node on the way
to another. -/
theorem Rearranges.kept_beside {above : Option NodeId} {id : NodeId} (has : tree.HasShape shape)
    (parented : shape.Parented tree.nodes.parentOf above)
    (rearranges : tree.Rearranges after shape shape') (root : shape'.root = some target)
    (inside : target ∈ shape.inOrder) (spares : tree.nodes.Spares after.nodes (shape.wayTo target))
    (here : id ∈ shape.inOrder) (beside : id ∉ shape.wayTo target) :
    ∃ node node', tree.node id = .ok node ∧ after.node id = .ok node' ∧
      node.KeptBeside (shape.wayTo target) node' := by
  obtain ⟨inRange, wired⟩ := Arena.links_iff.mp has.links
  obtain ⟨inRange', wired'⟩ := Arena.links_iff.mp rearranges.links
  obtain ⟨-, parented'⟩ := Arena.parents_iff.mp rearranges.parents
  obtain ⟨node, found⟩ := Arena.exists_found (inRange id here)
  obtain ⟨node', found'⟩ := Arena.exists_found (inRange' id (rearranges.inOrder_eq ▸ here))
  have child (side : Side) : node'.child side = node.child side := by
    rw [← Arena.childOf_found found, ← Arena.childOf_found found', spares.links id beside]
  have size (side : Side) : node'.sizeOn side = node.sizeOn side := by
    rw [← Arena.cachedOf_found found, ← Arena.cachedOf_found found', spares.sizes id beside]
  have piece := rearranges.keeps.piece id
  rw [found, found'] at piece
  have onWay (t : NodeId) (top : shape'.root = some t) : t ∈ shape.wayTo target := by
    rw [root] at top
    cases top
    exact List.mem_append_right _ List.mem_cons_self
  obtain ⟨p, named, keeps, moves⟩ := Shape.parent_beside wired wired' parented parented'
    rearranges.inOrder_eq
      (fun t => Shape.top_mem_wayTo has.nodup inside) onWay spares.links here beside
  rw [Arena.parentOf_found found] at named
  rw [Arena.parentOf_found found'] at keeps moves
  refine ⟨node, node', Arena.node_eq_ok.mpr found, Arena.node_eq_ok.mpr found',
    Option.some.inj piece, child .left, child .right, size .left, size .right, ?_, ?_⟩
  · intro apart
    rw [named]
    exact keeps fun on => apart p on named
  · intro q on parent
    cases named.symm.trans parent
    exact moves on

/-- Whatever sizes are cached, a splay touches only the way from the old root to the node it
returns. Nodes beside it keep their children and cached sizes, and a subtree beside it is carried
over as it was, all but the parent of its top. -/
theorem splay_touches_path (has : tree.HasShape shape)
    (parents : ∃ above, tree.nodes.Parents above shape)
    (splayed : tree.splay offset = .ok (after, some target)) :
    target ∈ shape.inOrder ∧
    (∀ id ∈ shape.inOrder, id ∉ shape.wayTo target →
      ∃ node node', tree.node id = .ok node ∧ after.node id = .ok node' ∧
        node.KeptBeside (shape.wayTo target) node') ∧
    ∀ sub top, tree.nodes.Links sub → sub.root = some top → top ∈ shape.inOrder →
      top ∉ shape.wayTo target →
      after.nodes.Links sub ∧ ∀ id ∈ sub.inOrder, id ≠ top → after.node id = tree.node id := by
  obtain ⟨steps, splayed⟩ := splay_eq_ok.mp splayed
  obtain ⟨root, ahead⟩ : ∃ root, tree.root = some root := by
    cases ahead : tree.root with
    | none => simp [Tree.splayTraced, ahead] at splayed
    | some root => exact ⟨root, rfl⟩
  obtain ⟨course, returned, travels⟩ := has.travels parents (fun _ _ => True) ahead
    (fun _ _ _ _ _ _ _ => trivial) splayed
  cases returned
  obtain ⟨above, parents⟩ := parents
  obtain ⟨-, parented⟩ := Arena.parents_iff.mp parents
  obtain ⟨inRange, wired⟩ := Arena.links_iff.mp has.links
  have inside : course.target ∈ shape.inOrder := travels.whole ▸ course.target_mem
  have beside {id : NodeId} (here : id ∈ shape.inOrder) (off : id ∉ shape.wayTo course.target) :=
    travels.rearranges.kept_beside has parented course.root_outcome inside travels.spares here off
  refine ⟨inside, fun id => beside, ?_⟩
  intro sub top links root here off
  obtain ⟨subRange, wiredSub⟩ := Arena.links_iff.mp links
  have carried := Shape.subtree_beside wired parented has.nodup inside wiredSub root here off
  constructor
  · rw [Arena.links_iff, travels.rearranges.keeps.size]
    exact ⟨subRange,
      wiredSub.congr fun id member => travels.spares.links id (carried id member).2.1⟩
  · intro id member lower
    obtain ⟨inShape, apart, hangs⟩ := carried id member
    obtain ⟨node, node', found, found', kept⟩ := beside inShape apart
    obtain ⟨p, off, named⟩ := hangs lower
    rw [Arena.parentOf_found (Arena.node_eq_ok.mp found)] at named
    rw [found, found', kept.eq]
    intro q on parent
    cases named.symm.trans parent
    exact off on

/-- A tree whose cached sizes are wrong, and a subtree in it that a splay hangs from another
parent. -/
def tall : Tree where
  nodes := #[{ piece := .sized 1, lsize := 9, left := some 1 },
    { piece := .sized 2, lsize := 7, left := some 2, right := some 3, parent := some 0 },
    { piece := .sized 4, parent := some 1 },
    { piece := .sized 8, left := some 4, parent := some 1 },
    { piece := .sized 16, parent := some 3 }]
  root := some 0

theorem splay_touches_path_tall :
    ∃ after node node', tall.splay 3 = .ok (after, some 2) ∧ tall.node 3 = .ok node ∧
      after.node 3 = .ok node' ∧ node.parent = some 1 ∧ node'.parent = some 0 ∧
      node.KeptBeside [0, 1, 2] node' ∧ after.node 4 = tall.node 4 := by
  let sub : Shape := .node (.node .empty 4 .empty) 3 .empty
  let shape : Shape := .node (.node (.node .empty 2 .empty) 1 sub) 0 .empty
  have links : tall.nodes.Links sub :=
    ⟨_, rfl, rfl, rfl, ⟨_, rfl, rfl, rfl, trivial, trivial⟩, trivial⟩
  have has : tall.HasShape shape :=
    ⟨rfl, ⟨_, rfl, rfl, rfl, ⟨_, rfl, rfl, rfl, ⟨_, rfl, rfl, rfl, trivial, trivial⟩, links⟩,
      trivial⟩, by decide⟩
  have parents : tall.nodes.Parents none shape :=
    ⟨⟨_, rfl, rfl⟩, ⟨⟨_, rfl, rfl⟩, ⟨⟨_, rfl, rfl⟩, trivial, trivial⟩, ⟨_, rfl, rfl⟩,
      ⟨⟨_, rfl, rfl⟩, trivial, trivial⟩, trivial⟩, trivial⟩
  obtain ⟨after, splayed⟩ : ∃ after, tall.splay 3 = .ok (after, some 2) := ⟨_, rfl⟩
  have moved : (tall.splay 3 >>= fun result => result.1.node 3).map (·.parent) = .ok (some 0) := rfl
  obtain ⟨-, beside, carried⟩ := splay_touches_path has ⟨none, parents⟩ splayed
  obtain ⟨node, node', found, found', kept⟩ := beside 3 (by decide) (by decide)
  obtain ⟨-, same⟩ := carried sub 3 links rfl (by decide) (by decide)
  rw [splayed, ok_bind, found'] at moved
  refine ⟨after, node, node', splayed, found, found', ?_, ?_, kept, same 4 (by decide) (by decide)⟩
  · cases found
    rfl
  · exact Except.ok.inj moved

end Tree
end PieceIndex
