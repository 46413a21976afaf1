import PieceIndex.Proofs.Faults
import PieceIndex.Proofs.Sizes
import PieceIndex.Tree.WellFormed

/-!
An arena seen as tables: the child links, the parent links and the cached sizes of its nodes. A
write to one node changes one entry of a table or leaves the table alone. Whether an arena holds a
shape is a matter of the tables alone once all nodes of the shape lie in the arena.
-/
namespace PieceIndex

namespace Node
variable (node : Node) (side s : Side) (child parent : Option NodeId) (size : Nat)

theorem child_withChild_eq :
    (node.withChild side child).child s = if s = side then child else node.child s := by
  cases side <;> cases s <;> rfl

theorem sizeOn_withSize_eq :
    (node.withSize side size).sizeOn s = if s = side then size else node.sizeOn s := by
  cases side <;> cases s <;> rfl

theorem child_hang :
    (node.hang side child size).child s = if s = side then child else node.child s := by
  rw [hang, child_withSize, child_withChild_eq]

theorem sizeOn_hang :
    (node.hang side child size).sizeOn s = if s = side then size else node.sizeOn s := by
  rw [hang, sizeOn_withSize_eq, sizeOn_withChild]

@[simp] theorem parent_hang : (node.hang side child size).parent = node.parent := by
  simp [hang]

@[simp] theorem piece_hang : (node.hang side child size).piece = node.piece := by
  simp [hang]

@[simp] theorem child_withParent : (node.withParent parent).child s = node.child s := by
  cases s <;> rfl

@[simp] theorem sizeOn_withParent : (node.withParent parent).sizeOn s = node.sizeOn s := by
  cases s <;> rfl

@[simp] theorem parent_withParent : (node.withParent parent).parent = parent := rfl

@[simp] theorem piece_withParent : (node.withParent parent).piece = node.piece := rfl

/-- A node is determined by its views. -/
theorem eq_of_views {node node' : Node} (piece : node'.piece = node.piece)
    (child : node'.child = node.child) (sizeOn : node'.sizeOn = node.sizeOn)
    (parent : node'.parent = node.parent) : node' = node := by
  obtain ⟨piece₁, lsize, rsize, left, right, parent₁⟩ := node
  have hl := congrFun child .left
  have hr := congrFun child .right
  have sl := congrFun sizeOn .left
  have sr := congrFun sizeOn .right
  cases node'
  simp_all [Node.child, Node.sizeOn]

theorem total_eq_ok {node : Node} {n : Nat} (side : Side) :
    node.total = .ok n ↔
      n = node.sizeOn side + node.piece.size + node.sizeOn side.other ∧ n < Size.limit := by
  have sum : node.sizeOn side + node.piece.size + node.sizeOn side.other =
      node.lsize + node.piece.size + node.rsize := by
    cases side <;> simp only [sizeOn, Side.other]
    omega
  simp only [total, bind_eq_ok, Size.add_eq_ok, sum]
  constructor
  · rintro ⟨_, ⟨-, rfl⟩, fits, rfl⟩
    exact ⟨rfl, fits⟩
  · rintro ⟨rfl, fits⟩
    exact ⟨_, ⟨by omega, rfl⟩, fits, rfl⟩

theorem total_of_ge {node : Node}
    (large : Size.limit ≤ node.lsize + node.piece.size + node.rsize) :
    node.total = .error .sumOverflow := by
  by_cases half : node.lsize + node.piece.size < Size.limit
  · rw [total, Size.add_of_lt half, ok_bind, Size.add_of_ge large]
  · rw [total, Size.add_of_ge (by omega), error_bind]

theorem rightEdge_eq_ok {node : Node} {base n : Nat} :
    node.rightEdge base = .ok n ↔
      n = base + node.lsize + node.piece.size ∧ n < Size.limit := by
  simp only [rightEdge, leftEdge, bind_eq_ok, Size.add_eq_ok]
  constructor
  · rintro ⟨_, ⟨-, rfl⟩, fits, rfl⟩
    exact ⟨rfl, fits⟩
  · rintro ⟨rfl, fits⟩
    exact ⟨_, ⟨by omega, rfl⟩, fits, rfl⟩

end Node

namespace Arena
variable {arena after : Arena}

def childOf (arena : Arena) (id : NodeId) (side : Side) : Option NodeId :=
  arena[id]?.bind (·.child side)

def parentOf (arena : Arena) (id : NodeId) : Option NodeId := arena[id]?.bind (·.parent)

def cachedOf (arena : Arena) (id : NodeId) (side : Side) : Nat :=
  (arena[id]?.map (·.sizeOn side)).getD 0

section
variable {id : NodeId} {node : Node} (found : arena[id]? = some node)
include found

theorem childOf_found (side : Side) : arena.childOf id side = node.child side := by
  simp [childOf, found]

theorem parentOf_found : arena.parentOf id = node.parent := by
  simp [parentOf, found]

theorem cachedOf_found (side : Side) : arena.cachedOf id side = node.sizeOn side := by
  simp [cachedOf, found]

theorem pieceSize_found : arena.pieceSize id = node.piece.size := by
  simp [pieceSize, found]

theorem lt_size_of_found : id < arena.size := (Array.getElem?_eq_some_iff.mp found).1

end

theorem exists_found {id : NodeId} (h : id < arena.size) : ∃ node, arena[id]? = some node :=
  ⟨arena[id], Array.getElem?_eq_getElem h⟩

theorem lt_size_of_childOf {id child : NodeId} {side : Side}
    (link : arena.childOf id side = some child) : id < arena.size := by
  obtain ⟨node, found, -⟩ := Option.bind_eq_some_iff.mp link
  exact lt_size_of_found found

theorem lt_size_of_parentOf {id parent : NodeId} (named : arena.parentOf id = some parent) :
    id < arena.size := by
  obtain ⟨node, found, -⟩ := Option.bind_eq_some_iff.mp named
  exact lt_size_of_found found

/-- The same nodes with the same pieces, and outside `touched` the same links and sizes too. -/
structure Keeps (before after : Arena) (touched : List NodeId) : Prop where
  size : after.size = before.size
  piece : ∀ id : NodeId, after[id]?.map (·.piece) = before[id]?.map (·.piece)
  rest : ∀ id : NodeId, id ∉ touched → after[id]? = before[id]?

namespace Keeps
variable {before middle : Arena} {touched more : List NodeId}

theorem refl (arena : Arena) (touched : List NodeId) : Keeps arena arena touched :=
  ⟨rfl, fun _ => rfl, fun _ _ => rfl⟩

theorem trans (first : Keeps before middle touched) (second : Keeps middle after touched) :
    Keeps before after touched :=
  ⟨second.size.trans first.size, fun id => (second.piece id).trans (first.piece id),
    fun id h => (second.rest id h).trans (first.rest id h)⟩

theorem mono (keeps : Keeps before after touched) (sub : ∀ id ∈ touched, id ∈ more) :
    Keeps before after more :=
  ⟨keeps.size, keeps.piece, fun id h => keeps.rest id fun t => h (sub id t)⟩

theorem pieceSize (keeps : Keeps before after touched) : after.pieceSize = before.pieceSize := by
  funext id
  have same := congrArg (Option.map Piece.size) (keeps.piece id)
  simp only [Option.map_map] at same
  exact congrArg (Option.getD · 0) same

end Keeps

section update
variable {id : NodeId} {change : Node → Node}

theorem exists_update (arena : Arena) (id : NodeId) (change : Node → Node) (h : id < arena.size) :
    ∃ after, arena.update id change = .ok after := by
  simp [update, h]

theorem exists_updateSome (arena : Arena) (id : Option NodeId) (change : Node → Node)
    (h : ∀ i, id = some i → i < arena.size) : ∃ after, arena.updateSome id change = .ok after := by
  cases id with
  | none => exact ⟨arena, rfl⟩
  | some id => exact exists_update arena id change (h id rfl)

theorem exists_setParent (arena : Arena) (id parent : Option NodeId)
    (h : ∀ i, id = some i → i < arena.size) : ∃ after, arena.setParent id parent = .ok after :=
  exists_updateSome arena id _ h

theorem lt_size_of_update (h : arena.update id change = .ok after) : id < arena.size := by
  unfold update at h
  split at h
  · assumption
  · cases h

theorem update_found (h : arena.update id change = .ok after) {node : Node}
    (found : arena[id]? = some node) : after[id]? = some (change node) := by
  simp [getElem?_update h, found]

theorem update_elsewhere (h : arena.update id change = .ok after) {i : NodeId} (ne : i ≠ id) :
    after[i]? = arena[i]? := by
  simp [getElem?_update h, ne]

variable (h : arena.update id change = .ok after)
include h

theorem keeps_update (piece : ∀ node, (change node).piece = node.piece) :
    Keeps arena after [id] := by
  refine ⟨size_update h, fun i => ?_, fun i ne => update_elsewhere h (by simpa using ne)⟩
  rw [getElem?_update h]
  split
  · rw [Option.map_map]
    exact congrArg (Option.map · _) (funext piece)
  · rfl

theorem childOf_update {table : NodeId → Side → Option NodeId}
    (here : ∀ node, arena[id]? = some node → ∀ s, (change node).child s = table id s)
    (there : ∀ i ≠ id, table i = arena.childOf i) : after.childOf = table := by
  obtain ⟨node, found⟩ := exists_found (lt_size_of_update h)
  funext i s
  by_cases e : i = id
  · rw [e, childOf_found (update_found h found), here node found]
  · rw [there i e, childOf, childOf, update_elsewhere h e]

theorem parentOf_update {table : NodeId → Option NodeId}
    (here : ∀ node, arena[id]? = some node → (change node).parent = table id)
    (there : ∀ i ≠ id, table i = arena.parentOf i) : after.parentOf = table := by
  obtain ⟨node, found⟩ := exists_found (lt_size_of_update h)
  funext i
  by_cases e : i = id
  · rw [e, parentOf_found (update_found h found), here node found]
  · rw [there i e, parentOf, parentOf, update_elsewhere h e]

theorem cachedOf_update {table : NodeId → Side → Nat}
    (here : ∀ node, arena[id]? = some node → ∀ s, (change node).sizeOn s = table id s)
    (there : ∀ i ≠ id, table i = arena.cachedOf i) : after.cachedOf = table := by
  obtain ⟨node, found⟩ := exists_found (lt_size_of_update h)
  funext i s
  by_cases e : i = id
  · rw [e, cachedOf_found (update_found h found), here node found]
  · rw [there i e, cachedOf, cachedOf, update_elsewhere h e]

end update

/-- What an operation makes of an arena: the tables it leaves, and the nodes it touched. -/
structure Becomes (before after : Arena) (touched : List NodeId)
    (links : NodeId → Side → Option NodeId) (parents : NodeId → Option NodeId)
    (sizes : NodeId → Side → Nat) : Prop extends Keeps before after touched where
  links_eq : after.childOf = links
  parents_eq : after.parentOf = parents
  sizes_eq : after.cachedOf = sizes

namespace Becomes
variable {before middle : Arena} {touched more : List NodeId}
  {links links' : NodeId → Side → Option NodeId} {parents parents' : NodeId → Option NodeId}
  {sizes sizes' : NodeId → Side → Nat}

theorem refl (arena : Arena) (touched : List NodeId) :
    Becomes arena arena touched arena.childOf arena.parentOf arena.cachedOf :=
  ⟨.refl arena touched, rfl, rfl, rfl⟩

theorem trans (first : Becomes before middle touched links parents sizes)
    (second : Becomes middle after more links' parents' sizes') :
    Becomes before after (touched ++ more) links' parents' sizes' := by
  refine ⟨Keeps.trans (first.toKeeps.mono ?_) (second.toKeeps.mono ?_), second.links_eq,
    second.parents_eq, second.sizes_eq⟩
  · exact fun id h => List.mem_append_left more h
  · exact fun id h => List.mem_append_right touched h

end Becomes

theorem becomes_setParent {id parent : Option NodeId} (h : arena.setParent id parent = .ok after) :
    Becomes arena after id.toList arena.childOf (reparent arena.parentOf id parent)
      arena.cachedOf := by
  cases id with
  | none =>
    cases h
    refine ⟨.refl _ _, rfl, ?_, rfl⟩
    funext i
    exact (reparent_of_ne _ _ (by simp)).symm
  | some id =>
    refine ⟨keeps_update h (by simp), childOf_update h ?_ fun _ _ => rfl, parentOf_update h ?_ ?_,
      cachedOf_update h ?_ fun _ _ => rfl⟩
    · intro node found s
      simp [childOf_found found]
    · simp
    · exact fun i ne => reparent_of_ne _ _ (by simpa using ne)
    · intro node found s
      simp [cachedOf_found found]

theorem becomes_setChild {id child : Option NodeId} {side : Side}
    (h : arena.updateSome id (·.withChild side child) = .ok after) :
    Becomes arena after id.toList (rewire arena.childOf id side child) arena.parentOf
      arena.cachedOf := by
  cases id with
  | none =>
    cases h
    rw [rewire_none]
    exact .refl _ _
  | some id =>
    refine ⟨keeps_update h (by simp), childOf_update h ?_ ?_, parentOf_update h ?_ fun _ _ => rfl,
      cachedOf_update h ?_ fun _ _ => rfl⟩
    · intro node found s
      simp [Node.child_withChild_eq, rewire, childOf_found found]
    · exact fun i ne => rewire_of_ne _ _ _ (by simpa using ne)
    · intro node found
      simp [parentOf_found found]
    · intro node found s
      simp [cachedOf_found found]

theorem becomes_withSize {id : NodeId} {side : Side} {size : Nat}
    (h : arena.update id (·.withSize side size) = .ok after) :
    Becomes arena after [id] arena.childOf arena.parentOf
      (rewire arena.cachedOf (some id) side size) := by
  refine ⟨keeps_update h (by simp), childOf_update h ?_ fun _ _ => rfl,
    parentOf_update h ?_ fun _ _ => rfl, cachedOf_update h ?_ ?_⟩
  · intro node found s
    simp [childOf_found found]
  · intro node found
    simp [parentOf_found found]
  · intro node found s
    simp [Node.sizeOn_withSize_eq, rewire, cachedOf_found found]
  · exact fun i ne => rewire_of_ne _ _ _ (by simpa using ne)

theorem becomes_hang {id : NodeId} {side : Side} {child parent : Option NodeId} {size : Nat}
    (h : arena.update id (fun node => (node.hang side child size).withParent parent) = .ok after) :
    Becomes arena after [id] (rewire arena.childOf (some id) side child)
      (reparent arena.parentOf (some id) parent) (rewire arena.cachedOf (some id) side size) := by
  refine ⟨keeps_update h (by simp), childOf_update h ?_ ?_, parentOf_update h ?_ ?_,
    cachedOf_update h ?_ ?_⟩
  · intro node found s
    simp [Node.child_hang, rewire, childOf_found found]
  · exact fun i ne => rewire_of_ne _ _ _ (by simpa using ne)
  · simp
  · exact fun i ne => reparent_of_ne _ _ (by simpa using ne)
  · intro node found s
    simp [Node.sizeOn_hang, rewire, cachedOf_found found]
  · exact fun i ne => rewire_of_ne _ _ _ (by simpa using ne)

/-- Both sides of a node set at once, the left one first. -/
theorem becomes_hang_both {id : NodeId} {left right parent : Option NodeId} {lsize rsize : Nat}
    (h : arena.update id (fun node =>
      ((node.hang .left left lsize).hang .right right rsize).withParent parent) = .ok after) :
    Becomes arena after [id]
      (rewire (rewire arena.childOf (some id) .left left) (some id) .right right)
      (reparent arena.parentOf (some id) parent)
      (rewire (rewire arena.cachedOf (some id) .left lsize) (some id) .right rsize) := by
  refine ⟨keeps_update h (by simp), childOf_update h ?_ ?_, parentOf_update h ?_ ?_,
    cachedOf_update h ?_ ?_⟩
  · intro node found s
    simp [Node.child_hang, rewire, childOf_found found]
  · intro i ne
    rw [rewire_of_ne _ _ _ (by simpa using ne), rewire_of_ne _ _ _ (by simpa using ne)]
  · simp
  · exact fun i ne => reparent_of_ne _ _ (by simpa using ne)
  · intro node found s
    simp [Node.sizeOn_hang, rewire, cachedOf_found found]
  · intro i ne
    rw [rewire_of_ne _ _ _ (by simpa using ne), rewire_of_ne _ _ _ (by simpa using ne)]

/-! Holding a shape, by the tables alone. -/

theorem links_iff {shape : Shape} :
    arena.Links shape ↔
      (∀ id ∈ shape.inOrder, id < arena.size) ∧ shape.Wired arena.childOf := by
  induction shape with
  | empty => simp [Links, Shape.inOrder, Shape.Tallies]
  | node left id right ihl ihr =>
    simp only [Links, ihl, ihr, Shape.Tallies, Shape.inOrder, List.mem_append, List.mem_cons]
    constructor
    · rintro ⟨node, found, hl, hr, ⟨inl, wl⟩, inr, wr⟩
      refine ⟨?_, ?_, ?_, wl, wr⟩
      · rintro i (h | rfl | h)
        · exact inl i h
        · exact lt_size_of_found found
        · exact inr i h
      · rw [childOf_found found, Node.child, hl]
      · rw [childOf_found found, Node.child, hr]
    · rintro ⟨inRange, hl, hr, wl, wr⟩
      obtain ⟨node, found⟩ := exists_found (inRange id (.inr (.inl rfl)))
      rw [childOf_found found] at hl hr
      exact ⟨node, found, hl, hr, ⟨fun i h => inRange i (.inl h), wl⟩,
        fun i h => inRange i (.inr (.inr h)), wr⟩

theorem parents_iff {shape : Shape} {above : Option NodeId} :
    arena.Parents above shape ↔
      (∀ id ∈ shape.inOrder, id < arena.size) ∧ shape.Parented arena.parentOf above := by
  induction shape generalizing above with
  | empty => simp [Parents, Shape.inOrder, Shape.Parented]
  | node left id right ihl ihr =>
    simp only [Parents, ihl, ihr, Shape.Parented, Shape.inOrder, List.mem_append, List.mem_cons]
    constructor
    · rintro ⟨⟨node, found, here⟩, ⟨inl, pl⟩, inr, pr⟩
      refine ⟨?_, ?_, pl, pr⟩
      · rintro i (h | rfl | h)
        · exact inl i h
        · exact lt_size_of_found found
        · exact inr i h
      · rw [parentOf_found found, here]
    · rintro ⟨inRange, here, pl, pr⟩
      obtain ⟨node, found⟩ := exists_found (inRange id (.inr (.inl rfl)))
      rw [parentOf_found found] at here
      exact ⟨⟨node, found, here⟩, ⟨fun i h => inRange i (.inl h), pl⟩,
        fun i h => inRange i (.inr (.inr h)), pr⟩

theorem weight_eq (arena : Arena) (shape : Shape) :
    arena.weight shape = shape.weight arena.pieceSize := by
  induction shape with
  | empty => rfl
  | node left id right ihl ihr => rw [weight, ihl, ihr, Shape.weight_node]

theorem exact_iff {shape : Shape} :
    arena.Exact shape ↔
      (∀ id ∈ shape.inOrder, id < arena.size) ∧
        shape.Measured arena.pieceSize arena.cachedOf := by
  induction shape with
  | empty => simp [Exact, Shape.inOrder, Shape.Tallies]
  | node left id right ihl ihr =>
    simp only [Exact, ihl, ihr, Shape.Tallies, Shape.inOrder, List.mem_append, List.mem_cons,
      weight_eq]
    constructor
    · rintro ⟨⟨node, found, hl, hr⟩, ⟨inl, ml⟩, inr, mr⟩
      refine ⟨?_, ?_, ?_, ml, mr⟩
      · rintro i (h | rfl | h)
        · exact inl i h
        · exact lt_size_of_found found
        · exact inr i h
      · rw [cachedOf_found found, Node.sizeOn, hl]
      · rw [cachedOf_found found, Node.sizeOn, hr]
    · rintro ⟨inRange, hl, hr, ml, mr⟩
      obtain ⟨node, found⟩ := exists_found (inRange id (.inr (.inl rfl)))
      rw [cachedOf_found found] at hl hr
      exact ⟨⟨node, found, hl, hr⟩, ⟨fun i h => inRange i (.inl h), ml⟩,
        fun i h => inRange i (.inr (.inr h)), mr⟩

theorem total_of_measured {left right : Shape} {id : NodeId} {node : Node}
    (measured : (Shape.node left id right).Measured arena.pieceSize arena.cachedOf)
    (found : arena[id]? = some node) {n : Nat} :
    node.total = .ok n ↔
      n = (Shape.node left id right).weight arena.pieceSize ∧ n < Size.limit := by
  rw [Node.total_eq_ok .left, ← cachedOf_found found, ← cachedOf_found found,
    ← pieceSize_found found, Shape.weight_node, measured.1, Side.other, measured.2.1]

theorem subtreeSize_eq_ok {shape : Shape} {n : Nat}
    (measured : shape.Measured arena.pieceSize arena.cachedOf)
    (h : arena.subtreeSize shape.root = .ok n) : n = shape.weight arena.pieceSize := by
  cases shape with
  | empty =>
    cases h
    rfl
  | node left id right =>
    obtain ⟨node, found, total⟩ := bind_eq_ok.mp h
    exact ((total_of_measured measured (node_eq_ok.mp found)).mp total).1

theorem subtreeSize_of_measured {shape : Shape} (inRange : ∀ i ∈ shape.inOrder, i < arena.size)
    (measured : shape.Measured arena.pieceSize arena.cachedOf)
    (fits : shape.weight arena.pieceSize < Size.limit) :
    arena.subtreeSize shape.root = .ok (shape.weight arena.pieceSize) := by
  cases shape with
  | empty => rfl
  | node left id right =>
    obtain ⟨node, found⟩ := exists_found (inRange id (Shape.mem_inOrder_of_root rfl))
    rw [Shape.root, subtreeSize, node_eq_ok.mpr found, ok_bind]
    exact (total_of_measured measured found).mpr ⟨rfl, fits⟩

end Arena

/-- A tree has no more nodes than its arena. -/
theorem Tree.HasShape.count_le {tree : Tree} {shape : Shape} (h : tree.HasShape shape) :
    shape.count ≤ tree.nodes.size :=
  Shape.count_le h.nodup (Arena.links_iff.mp h.links).1

end PieceIndex
