import Mathlib.Data.List.Chain
import PieceIndex.Proofs.Walk

/-!
Where a piece begins, told from above and from below. A walk adds up cached sizes on its way down;
to climb from a node to the root adds the same sizes in another order, once for every link that
leads to the right. So both tell the same of every node, right or wrong, as long as the walk meets
no sum that is too large. Where the cached sizes are right, a piece begins where the pieces before
it end.
-/
namespace PieceIndex

namespace Shape
variable {size : NodeId → Nat} {cached : NodeId → Side → Nat} {left right : Shape}

/-- Some piece of a shape that begins at `base` ends past the sizes. -/
def Overruns (size : NodeId → Nat) (cached : NodeId → Side → Nat) (base : Nat) (shape : Shape) :
    Prop :=
  ∃ item ∈ shape.edges size cached base, Size.limit ≤ item.2 + size item.1

theorem overruns_node (base : Nat) (id : NodeId) :
    (node left id right).Overruns size cached base ↔
      left.Overruns size cached base ∨ Size.limit ≤ base + cached id .left + size id ∨
        right.Overruns size cached (base + cached id .left + size id) := by
  simp only [Overruns, edges, List.mem_append, List.mem_cons, or_and_right, exists_or,
    exists_eq_left]

end Shape

namespace Walk
variable {arena : Arena} {shape : Shape} {pending : List (NodeId × Nat)} {most : Nat}

/-- The walk meets a sum that is too large once it has given some items, at most so many. -/
def Overflows (arena : Arena) (walk : Walk) (most : Nat) : Prop :=
  ∃ given, Stream.Breaks (next arena) .sumOverflow walk given ∧ given.length ≤ most

/-- Entering a subtree meets a sum that is too large, at once or when the walk goes on. -/
def Fails (arena : Arena) (entered : Except Fault Walk) (most : Nat) : Prop :=
  entered = .error .sumOverflow ∨ ∃ walk, entered = .ok walk ∧ walk.Overflows arena most

/-- A node whose piece ends past the sizes, or whose right side cannot be walked, breaks the
walk. -/
theorem overflows_top {id : NodeId} {node : Node} {first : Nat} (found : arena[id]? = some node)
    (beyond : Size.limit ≤ first + node.piece.size ∨
      Fails arena (enter arena (stepLimit arena.size) node.right (first + node.piece.size) pending)
        most) : Overflows arena ⟨(id, first) :: pending⟩ (most + 1) := by
  have begun : next arena ⟨(id, first) :: pending⟩ = Size.add first node.piece.size >>= fun last =>
      enter arena (stepLimit arena.size) node.right last pending >>= fun walk =>
        .ok (some (id, first), walk) := by
    rw [next]
    dsimp only
    rw [Arena.node_eq_ok.mpr found, ok_bind]
    rfl
  by_cases ends : first + node.piece.size < Size.limit
  · rcases beyond with large | failed | ⟨walk, entered, given, breaks, short⟩
    · exact absurd ends (Nat.not_lt.mpr large)
    · refine ⟨[], .now ?_, Nat.zero_le _⟩
      rw [begun, Size.add_of_lt ends, ok_bind, failed, error_bind]
    · exact ⟨(id, first) :: given, .more (next_eq found ends entered) breaks,
        Nat.succ_le_succ short⟩
  · refine ⟨[], .now ?_, Nat.zero_le _⟩
    rw [begun, Size.add_of_ge (Nat.le_of_not_lt ends), error_bind]

/-- Entering a subtree with a piece that ends past the sizes fails, and so does entering any subtree
when the walk would overflow behind it. -/
theorem enter_fails (inRange : ∀ i ∈ shape.inOrder, i < arena.size)
    (wired : shape.Wired arena.childOf) (small : shape.count ≤ arena.size) (base fuel : Nat)
    (enough : shape.count ≤ fuel)
    (beyond : shape.Overruns arena.pieceSize arena.cachedOf base ∨ Overflows arena ⟨pending⟩ most) :
    Fails arena (enter arena fuel shape.root base pending) (shape.count + most) := by
  induction shape generalizing pending most base fuel with
  | empty =>
    rcases beyond with ⟨item, member, -⟩ | ⟨given, breaks, short⟩
    · cases member
    · exact .inr ⟨⟨pending⟩, by cases fuel <;> rfl, given, breaks, by omega⟩
  | node left id right ihl ihr =>
    obtain ⟨down, across, wiredl, wiredr⟩ := wired
    simp only [Shape.inOrder, List.mem_append, List.mem_cons] at inRange
    rw [Shape.count] at small enough ⊢
    obtain ⟨node, found⟩ := Arena.exists_found (inRange id (.inr (.inl rfl)))
    rw [Arena.childOf_found found] at down across
    rw [Shape.overruns_node, Arena.cachedOf_found found, Arena.pieceSize_found found] at beyond
    have enterRight (beyond : right.Overruns arena.pieceSize arena.cachedOf
        (base + node.lsize + node.piece.size) ∨ Overflows arena ⟨pending⟩ most) :
        Fails arena (enter arena (stepLimit arena.size) node.right
          (base + node.lsize + node.piece.size) pending) (right.count + most) := by
      rw [show node.right = right.root from across]
      exact ihr (fun i h => inRange i (.inr (.inr h))) wiredr (by omega) _ _
        (by dsimp only [stepLimit]; omega) beyond
    -- what overflows lies on the left, or comes up once the node has been given out
    have later : left.Overruns arena.pieceSize arena.cachedOf base ∨
        Overflows arena ⟨(id, base + node.lsize) :: pending⟩ (right.count + most + 1) := by
      rcases beyond with (onLeft | ends | onRight) | behind
      · exact .inl onLeft
      · exact .inr (overflows_top found (.inl ends))
      · exact .inr (overflows_top found (.inr (enterRight (.inl onRight))))
      · exact .inr (overflows_top found (.inr (enterRight (.inr behind))))
    obtain ⟨fuel, rfl⟩ : ∃ n, fuel = n + 1 := ⟨fuel - 1, by omega⟩
    rw [Shape.root, enter, Arena.node_eq_ok.mpr found, ok_bind, Node.leftEdge]
    by_cases begins : base + node.lsize < Size.limit
    · have entered :=
        ihl (fun i h => inRange i (.inl h)) wiredl (by omega) base fuel (by omega) later
      rw [Size.add_of_lt begins, ok_bind, show node.left = left.root from down]
      rwa [show left.count + 1 + right.count + most =
        left.count + (right.count + most + 1) by omega]
    · rw [Size.add_of_ge (Nat.le_of_not_lt begins), error_bind]
      exact .inl rfl

end Walk

namespace Arena
variable {arena : Arena} {shape : Shape} {child parent top : NodeId} {above : Node}

theorem climb_root (alone : arena.parentOf top = none) (inRange : top < arena.size)
    (fuel offset : Nat) : arena.climb (fuel + 1) top offset = .ok offset := by
  obtain ⟨node, found⟩ := exists_found inRange
  rw [parentOf_found found] at alone
  rw [climb, node_eq_ok.mpr found, ok_bind, alone]
  rfl

section
variable (named : arena.parentOf child = some parent) (found : arena[parent]? = some above)
  (inRange : child < arena.size) (fuel offset : Nat)
include named found inRange

theorem climb_left (onLeft : above.right ≠ some child) :
    arena.climb (fuel + 1) child offset = arena.climb fuel parent offset := by
  obtain ⟨node, here⟩ := exists_found inRange
  rw [parentOf_found here] at named
  rw [climb, node_eq_ok.mpr here, ok_bind, named]
  dsimp only
  rw [node_eq_ok.mpr found, ok_bind, if_neg onLeft]

theorem climb_right (onRight : above.right = some child)
    (fits : offset + (above.lsize + above.piece.size) < Size.limit) :
    arena.climb (fuel + 1) child offset =
      arena.climb fuel parent (offset + (above.lsize + above.piece.size)) := by
  have edge : above.rightEdge 0 = .ok (above.lsize + above.piece.size) :=
    Node.rightEdge_eq_ok.mpr ⟨by omega, by omega⟩
  obtain ⟨node, here⟩ := exists_found inRange
  rw [parentOf_found here] at named
  rw [climb, node_eq_ok.mpr here, ok_bind, named]
  dsimp only
  rw [node_eq_ok.mpr found, ok_bind, if_pos onRight, edge, ok_bind, Size.add_of_lt fits, ok_bind]

end

/-- To climb to the top of a shape adds what a walk had added on its way down from there. -/
theorem climb_to_top {above : Option NodeId} (inRange : ∀ i ∈ shape.inOrder, i < arena.size)
    (nodup : shape.inOrder.Nodup) (wired : shape.Wired arena.childOf)
    (parented : shape.Parented arena.parentOf above) (root : shape.root = some top) {base : Nat}
    {item : NodeId × Nat} (member : item ∈ shape.edges arena.pieceSize arena.cachedOf base) :
    ∃ gap steps, item.2 = base + gap + arena.cachedOf item.1 .left ∧ steps < shape.count ∧
      ∀ fuel offset, offset + gap < Size.limit →
        arena.climb (fuel + steps) item.1 offset = arena.climb fuel top (offset + gap) := by
  induction shape generalizing above top base with
  | empty => cases root
  | node left id right ihl ihr =>
    cases root
    obtain ⟨-, across, wiredl, wiredr⟩ := wired
    obtain ⟨-, pl, pr⟩ := parented
    obtain ⟨nodupl, nodupr, -, -, apart⟩ := (Shape.nodup_inOrder_sided .left left right id).mp nodup
    simp only [Shape.inOrder, List.mem_append, List.mem_cons] at inRange
    obtain ⟨node, found⟩ := exists_found (inRange id (.inr (.inl rfl)))
    rw [childOf_found found] at across
    rw [Shape.edges, List.mem_append, List.mem_cons] at member
    rcases member with member | rfl | member
    · obtain ⟨below, root⟩ := Shape.exists_root (Shape.fst_mem_of_mem_edges member)
      have inside := Shape.mem_inOrder_of_root root
      obtain ⟨gap, steps, edge, short, climbs⟩ :=
        ihl (fun i h => inRange i (.inl h)) nodupl wiredl pl root member
      have onLeft : node.right ≠ some below := by
        rw [show node.right = right.root from across]
        exact fun onRight => apart below inside (Shape.mem_inOrder_of_root onRight)
      refine ⟨gap, steps + 1, edge, by rw [Shape.count]; omega, fun fuel offset fits => ?_⟩
      rw [show fuel + (steps + 1) = fuel + 1 + steps by omega, climbs (fuel + 1) offset fits,
        climb_left (pl.of_root root) found (inRange below (.inl inside)) fuel _ onLeft]
    · exact ⟨0, 0, rfl, by rw [Shape.count]; omega, fun fuel offset _ => rfl⟩
    · obtain ⟨below, root⟩ := Shape.exists_root (Shape.fst_mem_of_mem_edges member)
      have inside := Shape.mem_inOrder_of_root root
      obtain ⟨gap, steps, edge, short, climbs⟩ :=
        ihr (fun i h => inRange i (.inr (.inr h))) nodupr wiredr pr root member
      have onRight : node.right = some below := across.trans root
      have lsize : arena.cachedOf id .left = node.lsize := cachedOf_found found .left
      rw [lsize, pieceSize_found found] at edge
      refine ⟨gap + (node.lsize + node.piece.size), steps + 1, by omega, by rw [Shape.count]; omega,
        fun fuel offset fits => ?_⟩
      rw [show fuel + (steps + 1) = fuel + 1 + steps by omega, climbs (fuel + 1) offset (by omega),
        climb_right (pr.of_root root) found (inRange below (.inr (.inr inside))) fuel _ onRight
          (by omega), Nat.add_assoc]

end Arena

section
variable (size : NodeId → Nat)

theorem getElem?_layOut (base : Nat) (before : List NodeId) (id : NodeId) (rest : List NodeId) :
    (layOut size base (before ++ id :: rest))[before.length]? =
      some (id, base + sizeSum size before) := by
  have length (base : Nat) (ids : List NodeId) : (layOut size base ids).length = ids.length := by
    induction ids generalizing base with
    | nil => rfl
    | cons id ids ih => rw [layOut, List.length_cons, ih, List.length_cons]
  rw [layOut_append, List.getElem?_append_right (Nat.le_of_eq (length base before)), length,
    Nat.sub_self]
  rfl

/-- Where one piece ends the next one begins. -/
theorem isChain_layOut (base : Nat) (ids : List NodeId) :
    (layOut size base ids).IsChain fun item next => item.2 + size item.1 = next.2 := by
  induction ids generalizing base with
  | nil => exact .nil
  | cons id ids ih =>
    cases ids with
    | nil => exact .singleton _
    | cons next ids => exact .cons_cons rfl (ih (base + size id))

theorem getLast?_layOut (base : Nat) (ids : List NodeId) (item : NodeId × Nat)
    (last : (layOut size base ids).getLast? = some item) :
    item.2 + size item.1 = base + sizeSum size ids := by
  induction ids generalizing base with
  | nil => cases last
  | cons id ids ih =>
    rw [sizeSum_cons]
    cases ids with
    | nil =>
      cases last
      rfl
    | cons next ids =>
      rw [layOut, layOut, List.getLast?_cons_cons, ← layOut] at last
      rw [ih (base + size id) last, Nat.add_assoc]

end

namespace Tree
variable {tree : Tree} {shape : Shape}

/-- A walk that meets no sum that is too large comes to no piece that ends past the sizes. -/
theorem HasShape.edges_fit (has : tree.HasShape shape) (fits : tree.edges ≠ .error .sumOverflow) :
    ∀ item ∈ shape.edges tree.nodes.pieceSize tree.nodes.cachedOf 0,
      item.2 + tree.nodes.pieceSize item.1 < Size.limit := by
  intro item member
  apply Classical.byContradiction
  intro large
  obtain ⟨inRange, wired⟩ := Arena.links_iff.mp has.links
  have small := has.count_le
  have fails : Walk.Fails tree.nodes tree.walk (shape.count + 0) := by
    rw [Tree.walk, has.root_eq]
    exact Walk.enter_fails inRange wired small 0 (stepLimit tree.nodeCount)
      (by dsimp only [stepLimit, nodeCount]; omega) (.inl ⟨item, member, Nat.le_of_not_lt large⟩)
  apply fits
  rw [edges, collect]
  rcases fails with failed | ⟨walk, entered, given, breaks, short⟩
  · rw [failed, error_bind]
  · rw [entered, ok_bind]
    apply breaks.drainOnto fun item => ⟨item, rfl⟩
    dsimp only [stepLimit, nodeCount]
    omega

/-- To climb from a node tells where a walk has its piece begin. -/
theorem HasShape.offsetOf_eq (has : tree.HasShape shape) (parents : tree.nodes.Parents none shape)
    {item : NodeId × Nat} (member : item ∈ shape.edges tree.nodes.pieceSize tree.nodes.cachedOf 0)
    (fits : item.2 < Size.limit) : tree.offsetOf item.1 = .ok item.2 := by
  obtain ⟨inRange, wired⟩ := Arena.links_iff.mp has.links
  obtain ⟨-, parented⟩ := Arena.parents_iff.mp parents
  have small := has.count_le
  have inside := Shape.fst_mem_of_mem_edges member
  obtain ⟨node, found⟩ := Arena.exists_found (inRange item.1 inside)
  obtain ⟨top, root⟩ := Shape.exists_root inside
  obtain ⟨gap, steps, edge, short, climbs⟩ :=
    Arena.climb_to_top inRange has.nodup wired parented root member
  have lsize : tree.nodes.cachedOf item.1 .left = node.lsize := Arena.cachedOf_found found .left
  rw [lsize] at edge
  obtain ⟨fuel, turns⟩ : ∃ fuel, stepLimit tree.nodeCount = fuel + 1 + steps :=
    ⟨stepLimit tree.nodeCount - 1 - steps, by dsimp only [stepLimit, nodeCount]; omega⟩
  rw [offsetOf, Tree.node, Arena.node_eq_ok.mpr found, ok_bind, turns,
    climbs (fuel + 1) node.lsize (by omega),
    Arena.climb_root (parented.of_root root) (inRange top (Shape.mem_inOrder_of_root root)), edge]
  congr 1
  omega

/-- Over right sizes, with the whole within the sizes, the views lie side by side from the beginning
of the document to its end. -/
theorem HasShape.views_adjoin (has : tree.HasShape shape) (sizes : tree.nodes.Exact shape)
    (fits : ∀ item ∈ shape.edges tree.nodes.pieceSize tree.nodes.cachedOf 0,
      item.2 + tree.nodes.pieceSize item.1 < Size.limit) :
    let views := (shape.edges tree.nodes.pieceSize tree.nodes.cachedOf 0).map tree.nodes.viewAt
    views.IsChain (fun view next => view.rightEdge = next.leftEdge) ∧
      (∀ view, views.head? = some view → view.leftEdge = 0) ∧
      (∀ view, views.getLast? = some view → tree.length = .ok view.rightEdge) := by
  obtain ⟨inRange, measured⟩ := Arena.exact_iff.mp sizes
  rw [Shape.Measured.edges_eq measured] at fits ⊢
  refine ⟨?_, ?_, ?_⟩
  · exact (List.isChain_map tree.nodes.viewAt).mpr
      (isChain_layOut tree.nodes.pieceSize 0 shape.inOrder)
  · intro view first
    cases ids : shape.inOrder with
    | nil =>
      rw [ids] at first
      cases first
    | cons id rest =>
      rw [ids] at first
      cases first
      rfl
  · intro view last
    rw [List.getLast?_map, Option.map_eq_some_iff] at last
    obtain ⟨item, last, rfl⟩ := last
    have ends := getLast?_layOut _ _ _ _ last
    have whole := fits item (List.mem_of_getLast? last)
    rw [ends, Nat.zero_add] at whole
    rw [length, has.root_eq, Arena.subtreeSize_of_measured inRange measured whole, Arena.viewAt,
      ends, Nat.zero_add, Shape.weight]

/-- A walk that meets no sum that is too large gives every node of the tree once, from left to
right, and to climb from a node tells the edge that the walk gives. Where the cached sizes are
right, this is the sum of all pieces before, so that the views lie side by side from the beginning
of the document to its end, and a visitor meets them in this order. -/
theorem edges_match_offsets (has : tree.HasShape shape) (parents : tree.nodes.Parents none shape)
    (fits : tree.edges ≠ .error .sumOverflow) :
    ∃ items, tree.edges = .ok items ∧ items.map (·.1) = shape.inOrder ∧
      (∀ item ∈ items, tree.offsetOf item.1 = .ok item.2) ∧
      (tree.nodes.Exact shape →
        (∀ before id rest, shape.inOrder = before ++ id :: rest →
          items[before.length]? = some (id, sizeSum tree.nodes.pieceSize before)) ∧
        ∃ views, tree.views = .ok views ∧
          views.map (fun view => (view.id, view.leftEdge)) = items ∧
          views.IsChain (fun view next => view.rightEdge = next.leftEdge) ∧
          (∀ view, views.head? = some view → view.leftEdge = 0) ∧
          (∀ view, views.getLast? = some view → tree.length = .ok view.rightEdge) ∧
          ∀ {σ : Type} (look : σ → View → σ) (state : σ),
            tree.visit look state = .ok (views.foldl look state)) := by
  have within := has.edges_fit fits
  refine ⟨shape.edges tree.nodes.pieceSize tree.nodes.cachedOf 0, ?_, Shape.map_fst_edges ..,
    fun item member => ?_, fun sizes => ⟨?_, ?_⟩⟩
  · rw [edges, has.collect_eq within]
    exact (mapM_eq_ok fun item _ => rfl).trans (by rw [List.map_id'])
  · have ends := within item member
    exact has.offsetOf_eq parents member (by omega)
  · intro before id rest split
    rw [Shape.Measured.edges_eq (Arena.exact_iff.mp sizes).2, split, getElem?_layOut, Nat.zero_add]
  · obtain ⟨adjoin, first, last⟩ := has.views_adjoin sizes within
    refine ⟨_, has.views_eq within, ?_, adjoin, first, last, fun look state => ?_⟩
    · rw [List.map_map]
      exact List.map_id' _
    · rw [visit, has.views_eq within]
      rfl

/-- Three pieces with cached sizes that are all wrong. -/
def stale : Tree where
  nodes := #[{ piece := .sized 3, lsize := 7, parent := some 1 },
    { piece := .sized 4, lsize := 1, rsize := 2, left := some 0, right := some 2 },
    { piece := .sized 5, lsize := 6, parent := some 1 }]
  root := some 1

theorem edges_match_offsets_stale :
    stale.edges = .ok [(0, 7), (1, 1), (2, 11)] ∧ stale.offsetOf 2 = .ok 11 ∧
      ∃ views, three.views = .ok views ∧ views.map (·.leftEdge) = [0, 3, 7] ∧
        three.length = .ok 12 ∧
        three.visit (fun ends view => view.rightEdge :: ends) [] = .ok [12, 7, 3] := by
  have has : stale.HasShape (.node (.node .empty 0 .empty) 1 (.node .empty 2 .empty)) := by
    refine ⟨rfl, ⟨_, rfl, rfl, rfl, ⟨_, rfl, rfl, rfl, trivial, trivial⟩, _, rfl, rfl, rfl, trivial,
      trivial⟩, by decide⟩
  have parents :
      stale.nodes.Parents none (.node (.node .empty 0 .empty) 1 (.node .empty 2 .empty)) :=
    ⟨⟨_, rfl, rfl⟩, ⟨⟨_, rfl, rfl⟩, trivial, trivial⟩, ⟨_, rfl, rfl⟩, trivial, trivial⟩
  have walked : stale.edges = .ok [(0, 7), (1, 1), (2, 11)] := rfl
  obtain ⟨items, edges, -, offsets, -⟩ := edges_match_offsets has parents (by rw [walked]; nofun)
  cases walked.symm.trans edges
  have walked' : three.edges = .ok [(0, 0), (1, 3), (2, 7)] := rfl
  obtain ⟨items, edges, -, -, exact⟩ := edges_match_offsets wellFormedAs_three.toHasShape
    wellFormedAs_three.parents (by rw [walked']; nofun)
  cases walked'.symm.trans edges
  obtain ⟨-, views, shown, items, adjoin, -, last, visited⟩ := exact wellFormedAs_three.sizes
  cases (show three.views = .ok _ from rfl).symm.trans shown
  exact ⟨walked, offsets (2, 11) (by decide), _, shown, rfl, last _ rfl, visited _ _⟩

end Tree
end PieceIndex
