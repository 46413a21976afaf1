import PieceIndex.Proofs.Document
import PieceIndex.Proofs.Stream
import PieceIndex.Tree.Walk

/-!
Walking over the pieces of a tree. A walk keeps the nodes it has passed on its way down, each with
its left edge, and enters the right side of a node when it gives the node out. Entering a subtree
puts its nodes before all that was still to come; so what a walk gives follows the shape, and the
cached sizes only tell the edges. With right sizes these are the edges of the pieces laid out one
after the other.
-/
namespace PieceIndex

/-- The nodes of a list one after the other from `base` on, each with where its piece begins. -/
def layOut (size : NodeId → Nat) : Nat → List NodeId → List (NodeId × Nat)
  | _, [] => []
  | base, id :: ids => (id, base) :: layOut size (base + size id) ids

theorem layOut_append (size : NodeId → Nat) (base : Nat) (ids later : List NodeId) :
    layOut size base (ids ++ later) =
      layOut size base ids ++ layOut size (base + sizeSum size ids) later := by
  induction ids generalizing base with
  | nil => rfl
  | cons id ids ih =>
    rw [List.cons_append, layOut, layOut, ih, sizeSum_cons, Nat.add_assoc, List.cons_append]

namespace Shape
variable {size : NodeId → Nat} {cached : NodeId → Side → Nat}

/-- The nodes from left to right of a shape that begins at `base`, each with its left edge by the
cached sizes. -/
def edges (size : NodeId → Nat) (cached : NodeId → Side → Nat) : Nat → Shape → List (NodeId × Nat)
  | _, .empty => []
  | base, .node left id right =>
    edges size cached base left ++
      (id, base + cached id .left) :: edges size cached (base + cached id .left + size id) right

theorem map_fst_edges (size : NodeId → Nat) (cached : NodeId → Side → Nat) (base : Nat)
    (shape : Shape) :
    (shape.edges size cached base).map (·.1) = shape.inOrder := by
  induction shape generalizing base with
  | empty => rfl
  | node left id right ihl ihr =>
    rw [edges, List.map_append, List.map_cons, ihl, ihr, inOrder]

theorem fst_mem_of_mem_edges {base : Nat} {shape : Shape} {item : NodeId × Nat}
    (member : item ∈ shape.edges size cached base) : item.1 ∈ shape.inOrder := by
  rw [← map_fst_edges size cached base shape]
  exact List.mem_map_of_mem member

theorem length_edges (base : Nat) (shape : Shape) :
    (shape.edges size cached base).length = shape.count := by
  rw [← length_inOrder, ← map_fst_edges size cached base shape,
    List.length_map]

/-- No edge in a shape lies before its beginning, whatever the sizes. -/
theorem base_le_edge {base : Nat} {shape : Shape} {item : NodeId × Nat}
    (member : item ∈ shape.edges size cached base) : base ≤ item.2 := by
  induction shape generalizing base with
  | empty => cases member
  | node left id right ihl ihr =>
    rw [edges, List.mem_append, List.mem_cons] at member
    rcases member with member | rfl | member
    · exact ihl member
    · exact Nat.le_add_right ..
    · have := ihr member
      omega

/-- With right sizes the edges are those of the pieces laid out one after the other. -/
theorem Measured.edges_eq {shape : Shape} (measured : shape.Measured size cached) (base : Nat) :
    shape.edges size cached base = layOut size base shape.inOrder := by
  induction shape generalizing base with
  | empty => rfl
  | node left id right ihl ihr =>
    obtain ⟨here, -, ml, mr⟩ := measured
    rw [edges, inOrder, layOut_append, layOut, ihl ml, ihr mr, here, weight]

/-- With right sizes every piece ends within the shape. -/
theorem Measured.edge_le {shape : Shape} {base : Nat} (measured : shape.Measured size cached)
    {item : NodeId × Nat} (member : item ∈ shape.edges size cached base) :
    item.2 + size item.1 ≤ base + shape.weight size := by
  induction shape generalizing base with
  | empty => cases member
  | node left id right ihl ihr =>
    obtain ⟨here, -, ml, mr⟩ := measured
    rw [edges, here, List.mem_append, List.mem_cons] at member
    rw [weight_node]
    rcases member with member | rfl | member
    · have := ihl ml member
      omega
    · dsimp only
      omega
    · have := ihr mr member
      omega

end Shape

namespace Walk
variable {arena : Arena} {shape : Shape}

/-- The next node is the nearest one, and then its right side is entered. -/
theorem next_eq {id : NodeId} {node : Node} {first : Nat} {pending : List (NodeId × Nat)}
    {walk : Walk} (found : arena[id]? = some node) (fits : first + node.piece.size < Size.limit)
    (entered : enter arena (stepLimit arena.size) node.right (first + node.piece.size) pending =
      .ok walk) :
    next arena ⟨(id, first) :: pending⟩ = .ok (some (id, first), walk) := by
  rw [next]
  dsimp only
  rw [Arena.node_eq_ok.mpr found, ok_bind, Size.add_of_lt fits, ok_bind, entered]
  rfl

theorem enter_yields {pending : List (NodeId × Nat)} {later : List (NodeId × Nat)}
    (yields : Stream.Yields (next arena) ⟨pending⟩ later)
    (inRange : ∀ i ∈ shape.inOrder, i < arena.size) (wired : shape.Wired arena.childOf)
    (small : shape.count ≤ arena.size) (base : Nat)
    (fits : ∀ item ∈ shape.edges arena.pieceSize arena.cachedOf base,
      item.2 + arena.pieceSize item.1 < Size.limit)
    (fuel : Nat) (enough : shape.count ≤ fuel) :
    ∃ walk, enter arena fuel shape.root base pending = .ok walk ∧
      Stream.Yields (next arena) walk
        (shape.edges arena.pieceSize arena.cachedOf base ++ later) := by
  induction shape generalizing pending later base fuel with
  | empty => exact ⟨⟨pending⟩, by cases fuel <;> rfl, yields⟩
  | node left id right ihl ihr =>
    obtain ⟨down, across, wiredl, wiredr⟩ := wired
    simp only [Shape.inOrder, List.mem_append, List.mem_cons] at inRange
    simp only [Shape.edges, List.mem_append, List.mem_cons] at fits
    rw [Shape.count] at small enough
    obtain ⟨node, found⟩ := Arena.exists_found (inRange id (.inr (.inl rfl)))
    have edge := fits _ (.inr (.inl rfl))
    rw [Arena.childOf_found found] at down across
    rw [Arena.cachedOf_found found, Arena.pieceSize_found found] at edge fits
    change base + node.lsize + node.piece.size < Size.limit at edge
    -- what is given after this node: its right side, then all that comes later
    obtain ⟨walk, entered, rest⟩ := ihr yields (fun i h => inRange i (.inr (.inr h))) wiredr
      (by omega) (base + node.lsize + node.piece.size)
      (fun item h => fits item (.inr (.inr h)))
      (stepLimit arena.size) (by dsimp only [stepLimit]; omega)
    rw [← show node.right = right.root from across] at entered
    have here := next_eq found edge entered
    obtain ⟨fuel, rfl⟩ : ∃ n, fuel = n + 1 := ⟨fuel - 1, by omega⟩
    obtain ⟨first, descended, yields'⟩ := ihl (.more here rest) (fun i h => inRange i (.inl h))
      wiredl (by omega) base (fun item h => fits item (.inl h)) fuel (by omega)
    refine ⟨first, ?_, ?_⟩
    · have begins : node.leftEdge base = .ok (base + node.lsize) :=
        Size.add_of_lt (Nat.lt_of_le_of_lt (Nat.le_add_right _ _) edge)
      rw [Shape.root, enter, Arena.node_eq_ok.mpr found, ok_bind, begins, ok_bind,
        show node.left = left.root from down, descended]
    · rw [Shape.edges, Arena.cachedOf_found found, Arena.pieceSize_found found, List.append_assoc,
        List.cons_append]
      exact yields'

end Walk

/-- A node as it is shown, with the edge that a walk gives it. -/
def Arena.viewAt (arena : Arena) (item : NodeId × Nat) : View :=
  ⟨item.1, arena[item.1]?.getD { piece := .sized 0 }, item.2, item.2 + arena.pieceSize item.1⟩

/-- The node of a view with its piece. -/
def View.item (view : View) : NodeId × Piece := (view.id, view.node.piece)

theorem Arena.item_viewAt (arena : Arena) (item : NodeId × Nat) :
    (arena.viewAt item).item = arena.held item.1 := by
  rw [View.item, viewAt, held, pieceAt]
  cases arena[item.1]? <;> rfl

namespace Tree
variable {tree : Tree} {shape : Shape}

/-- When no piece ends past the sizes, to collect is to go over the nodes from left to right. -/
theorem HasShape.collect_eq {α : Type} (has : tree.HasShape shape)
    (fits : ∀ item ∈ shape.edges tree.nodes.pieceSize tree.nodes.cachedOf 0,
      item.2 + tree.nodes.pieceSize item.1 < Size.limit) (use : NodeId × Nat → Except Fault α) :
    tree.collect use =
      (shape.edges tree.nodes.pieceSize tree.nodes.cachedOf 0).mapM use := by
  obtain ⟨inRange, wired⟩ := Arena.links_iff.mp has.links
  have small := has.count_le
  have done : Stream.Yields (Walk.next tree.nodes) ⟨[]⟩ [] := .done rfl
  obtain ⟨walk, entered, yields⟩ := Walk.enter_yields done inRange wired small 0 fits
    (stepLimit tree.nodeCount) (by dsimp only [stepLimit, nodeCount]; omega)
  rw [List.append_nil] at yields
  rw [collect, Tree.walk, has.root_eq, entered, ok_bind]
  apply yields.drain
  rw [Shape.length_edges]
  dsimp only [stepLimit, nodeCount]
  omega

/-- The views of a tree show its nodes from left to right. -/
theorem HasShape.views_eq (has : tree.HasShape shape)
    (fits : ∀ item ∈ shape.edges tree.nodes.pieceSize tree.nodes.cachedOf 0,
      item.2 + tree.nodes.pieceSize item.1 < Size.limit) :
    tree.views = .ok ((shape.edges tree.nodes.pieceSize tree.nodes.cachedOf 0).map
      tree.nodes.viewAt) := by
  rw [views, has.collect_eq fits]
  apply mapM_eq_ok
  rintro ⟨id, edge⟩ member
  obtain ⟨node, found⟩ :=
    Arena.exists_found ((Arena.links_iff.mp has.links).1 id (Shape.fst_mem_of_mem_edges member))
  have ends := fits _ member
  rw [Arena.pieceSize_found found] at ends
  change tree.view id edge = _
  rw [view, Tree.node, Arena.node_eq_ok.mpr found, ok_bind, Size.add_of_lt ends, ok_bind,
    Arena.viewAt, Arena.pieceSize_found found, found]
  rfl

/-- No piece of a well-formed tree ends past the sizes. -/
theorem WellFormedAs.edges_fit (well : tree.WellFormedAs shape) :
    ∀ item ∈ shape.edges tree.nodes.pieceSize tree.nodes.cachedOf 0,
      item.2 + tree.nodes.pieceSize item.1 < Size.limit := by
  intro item member
  have inside := Shape.Measured.edge_le well.stands.measured member
  have fits := well.sizeSum_lt
  rw [Shape.weight] at inside
  omega

/-- A tree shows the items of its document. -/
theorem Depicts.exists_views {doc : Document} (depicts : tree.Depicts doc) :
    ∃ views, tree.views = .ok views ∧ views.map View.item = doc.items := by
  obtain ⟨shape, well, rfl⟩ := depicts
  refine ⟨_, well.toHasShape.views_eq well.edges_fit, ?_⟩
  rw [List.map_map, Arena.document,
    ← Shape.map_fst_edges tree.nodes.pieceSize tree.nodes.cachedOf 0 shape, List.map_map]
  exact List.map_congr_left fun item _ => Arena.item_viewAt tree.nodes item

end Tree
end PieceIndex
