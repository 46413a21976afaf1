import PieceIndex.Proofs.Arena.Views
import PieceIndex.Build

/-!
An arena that grows. A new node lies beyond all others and changes none of them; once it is joined
over two subtrees that stand apart, with sizes that are right, the whole stands with right sizes.
-/
namespace PieceIndex
namespace Arena
variable {arena after : Arena}

theorem getElem?_push (arena : Arena) (node : Node) (i : NodeId) :
    (arena.push node)[i]? = if i = arena.size then some node else arena[i]? :=
  Array.getElem?_push

theorem push_elsewhere (node : Node) {i : NodeId} (h : i ≠ arena.size) :
    (arena.push node)[i]? = arena[i]? := by
  rw [getElem?_push, if_neg h]

theorem push_self (node : Node) : (arena.push node)[arena.size]? = some node := by
  rw [getElem?_push, if_pos rfl]

section
variable {i : NodeId} (same : after[i]? = arena[i]?)
include same

theorem childOf_congr : after.childOf i = arena.childOf i := by
  funext side
  rw [childOf, childOf, same]

theorem parentOf_congr : after.parentOf i = arena.parentOf i := by
  rw [parentOf, parentOf, same]

theorem cachedOf_congr : after.cachedOf i = arena.cachedOf i := by
  funext side
  rw [cachedOf, cachedOf, same]

theorem pieceSize_congr : after.pieceSize i = arena.pieceSize i := by
  rw [pieceSize, pieceSize, same]

end

/-- The piece at a place of the arena. -/
def pieceAt (arena : Arena) (id : NodeId) : Option Piece := arena[id]?.map (·.piece)

theorem pieceSize_eq (arena : Arena) (id : NodeId) :
    arena.pieceSize id = ((arena.pieceAt id).map (·.size)).getD 0 := by
  rw [pieceSize, pieceAt, Option.map_map]
  rfl

theorem Keeps.pieceAt {touched : List NodeId} (keeps : arena.Keeps after touched) :
    after.pieceAt = arena.pieceAt :=
  funext keeps.piece

/-- A tree of the given shape hangs from `above`, with right links and sizes. -/
structure Hangs (arena : Arena) (above : Option NodeId) (shape : Shape) : Prop where
  inRange : ∀ id ∈ shape.inOrder, id < arena.size
  nodup : shape.inOrder.Nodup
  wired : shape.Wired arena.childOf
  parented : shape.Parented arena.parentOf above
  measured : shape.Measured arena.pieceSize arena.cachedOf

/-- A tree of the given shape stands by itself in the arena. -/
def Stands (arena : Arena) (shape : Shape) : Prop := arena.Hangs none shape

theorem hangs_empty (arena : Arena) (above : Option NodeId) : arena.Hangs above .empty :=
  ⟨fun _ h => absurd h List.not_mem_nil, List.nodup_nil, trivial, trivial, trivial⟩

theorem Hangs.congr {above : Option NodeId} {shape : Shape} (hangs : arena.Hangs above shape)
    (same : ∀ i ∈ shape.inOrder, after[i]? = arena[i]?) : after.Hangs above shape := by
  refine ⟨fun i h => ?_, hangs.nodup, hangs.wired.congr fun i h => childOf_congr (same i h),
    hangs.parented.congr fun i h => parentOf_congr (same i h), ?_⟩
  · obtain ⟨node, found⟩ := exists_found (hangs.inRange i h)
    exact lt_size_of_found ((same i h).trans found)
  · exact Shape.Measured.congr_size (hangs.measured.congr fun i h => cachedOf_congr (same i h))
      fun i h => pieceSize_congr (same i h)

/-- Two trees that hang from a node hang with it from above, if its own fields are right. -/
theorem Hangs.node {above : Option NodeId} {left right : Shape} {id : NodeId} {here : Node}
    (hl : arena.Hangs (some id) left) (hr : arena.Hangs (some id) right)
    (nodup : (Shape.node left id right).inOrder.Nodup) (found : arena[id]? = some here)
    (parent : here.parent = above) (linkl : here.left = left.root) (linkr : here.right = right.root)
    (lsize : here.lsize = left.weight arena.pieceSize)
    (rsize : here.rsize = right.weight arena.pieceSize) :
    arena.Hangs above (.node left id right) := by
  constructor
  · exact Shape.forall_mem_node (lt_size_of_found found) hl.inRange hr.inRange
  · exact nodup
  · exact ⟨(childOf_found found .left).trans linkl, (childOf_found found .right).trans linkr,
      hl.wired, hr.wired⟩
  · exact ⟨(parentOf_found found).trans parent, hl.parented, hr.parented⟩
  · exact ⟨(cachedOf_found found .left).trans lsize, (cachedOf_found found .right).trans rsize,
      hl.measured, hr.measured⟩

/-- Only the top node of a tree that stands by itself has no parent. -/
theorem Stands.parentOf_eq_none {shape : Shape} {id : NodeId} (stands : arena.Stands shape)
    (inside : id ∈ shape.inOrder) : arena.parentOf id = none ↔ shape.root = some id := by
  constructor
  · intro alone
    rcases Shape.Wired.root_or_leads stands.wired inside with root | ⟨holder, inside, side, link⟩
    · exact root
    · rw [stands.parented.of_link stands.wired inside link] at alone
      cases alone
  · exact stands.parented.of_root

/-- A tree that stands by itself can be given a parent, and has its size in its cached sizes. -/
theorem Stands.adopt {shape : Shape} (stands : arena.Stands shape) (parent : NodeId)
    (fits : shape.weight arena.pieceSize < Size.limit) :
    ∃ after, arena.adopt parent shape.root = .ok (after, shape.weight arena.pieceSize) ∧
      arena.setParent shape.root (some parent) = .ok after := by
  obtain ⟨after, set⟩ := exists_setParent arena shape.root (some parent)
    fun i h => stands.inRange i (Shape.mem_inOrder_of_root h)
  refine ⟨after, ?_, set⟩
  cases shape with
  | empty =>
    cases set
    rfl
  | node left id right =>
    obtain ⟨node, found⟩ := exists_found (stands.inRange id (Shape.mem_inOrder_of_root rfl))
    have top : node.parent = none := (parentOf_found found).symm.trans stands.parented.1
    have total := (total_of_measured stands.measured found).mpr ⟨rfl, fits⟩
    simp only [Shape.root, Arena.adopt, bind_eq_ok, node_eq_ok]
    refine ⟨node, found, ?_⟩
    rw [top]
    exact bind_eq_ok.mpr ⟨_, total, bind_eq_ok.mpr ⟨after, set, rfl⟩⟩

/-- The size of a tree that is too large for a size cannot be told, so nothing adopts it. -/
theorem Stands.adopt_of_ge {shape : Shape} (stands : arena.Stands shape) (parent : NodeId)
    (large : Size.limit ≤ shape.weight arena.pieceSize) :
    arena.adopt parent shape.root = .error .sumOverflow := by
  cases shape with
  | empty => exact absurd large (by simp [Shape.weight, Shape.inOrder, Size.limit])
  | node left id right =>
    obtain ⟨node, found⟩ := exists_found (stands.inRange id (Shape.mem_inOrder_of_root rfl))
    have top : node.parent = none := (parentOf_found found).symm.trans stands.parented.1
    obtain ⟨lsize, rsize, -, -⟩ := stands.measured
    rw [cachedOf_found found] at lsize rsize
    rw [Shape.weight_node, ← lsize, ← rsize, pieceSize_found found] at large
    rw [Shape.root, Arena.adopt, node_eq_ok.mpr found, ok_bind, top,
      Option.isSome_none, if_neg Bool.false_ne_true, Node.total_of_ge large, error_bind]

/-- A tree stands as before once another, apart from it, was given a parent. -/
theorem Stands.setParent {left right : Shape} (hr : arena.Stands right)
    (apart : ∀ i ∈ left.inOrder, i ∉ right.inOrder) {parent : Option NodeId}
    (h : arena.setParent left.root parent = .ok after) : after.Stands right :=
  hr.congr fun i inside => (becomes_setParent h).rest i fun top =>
    apart i (Shape.mem_inOrder_of_root (Option.mem_toList.mp top)) inside

/-- What is left of an arena to which a node was added: all pieces, and the nodes that were not
touched. -/
structure Gains (before after : Arena) (piece : Piece) (touched : List NodeId) : Prop where
  size : after.size = before.size + 1
  added : after.pieceAt before.size = some piece
  pieces : ∀ i < before.size, after.pieceAt i = before.pieceAt i
  rest : ∀ i < before.size, i ∉ touched → after[i]? = before[i]?

/-- A push adds a node to an arena whose nodes were only touched. -/
theorem Keeps.gains {touched : List NodeId} (keeps : arena.Keeps after touched) (node : Node) :
    arena.Gains (after.push node) node.piece touched := by
  have elsewhere {i : NodeId} (h : i < arena.size) : (after.push node)[i]? = after[i]? :=
    push_elsewhere node (by rw [keeps.size]; exact Nat.ne_of_lt h)
  refine ⟨by rw [Array.size_push, keeps.size], ?_, fun i h => ?_, fun i h t => ?_⟩
  · rw [Arena.pieceAt, ← keeps.size, push_self]
    rfl
  · rw [Arena.pieceAt, elsewhere h]
    exact keeps.piece i
  · rw [elsewhere h]
    exact keeps.rest i t

/-- Touching the added node and nodes that count as touched already changes nothing of this. -/
theorem Gains.keeps {middle : Arena} {piece : Piece} {touched : List NodeId}
    (gains : arena.Gains middle piece touched)
    (keeps : middle.Keeps after (arena.size :: touched)) : arena.Gains after piece touched := by
  refine ⟨by rw [keeps.size, gains.size], ?_, fun i h => ?_, fun i h untouched => ?_⟩
  · rw [keeps.pieceAt, gains.added]
  · rw [keeps.pieceAt, gains.pieces i h]
  · rw [keeps.rest i (List.not_mem_cons_of_ne_of_not_mem (Nat.ne_of_lt h) untouched),
      gains.rest i h untouched]

/-- A tree that is given a parent hangs from it. -/
theorem Stands.rehang {shape : Shape} {above : Option NodeId} (stands : arena.Stands shape)
    {touched : List NodeId} {parents : NodeId → Option NodeId}
    (becomes : Becomes arena after touched arena.childOf parents arena.cachedOf)
    (top : ∀ i, shape.root = some i → parents i = above)
    (same : ∀ i ∈ shape.inOrder, some i ≠ shape.root → parents i = arena.parentOf i) :
    after.Hangs above shape := by
  refine ⟨fun i h => ?_, stands.nodup, ?_, ?_, ?_⟩
  · rw [becomes.size]
    exact stands.inRange i h
  · rw [becomes.links_eq]
    exact stands.wired
  · rw [becomes.parents_eq]
    exact stands.parented.rehang stands.nodup top same
  · rw [becomes.sizes_eq, becomes.pieceSize]
    exact stands.measured

/-- Two trees that stand apart can both be hung from the next place. -/
theorem Stands.adopt_both {left right : Shape} (hl : arena.Stands left) (hr : arena.Stands right)
    (apart : ∀ i ∈ left.inOrder, i ∉ right.inOrder)
    (fitsl : left.weight arena.pieceSize < Size.limit)
    (fitsr : right.weight arena.pieceSize < Size.limit) :
    ∃ first second, arena.adopt arena.size left.root = .ok (first, left.weight arena.pieceSize) ∧
      first.adopt arena.size right.root = .ok (second, right.weight arena.pieceSize) ∧
      second.Hangs (some arena.size) left ∧ second.Hangs (some arena.size) right ∧
      arena.Keeps second (left.inOrder ++ right.inOrder) := by
  obtain ⟨first, adoptedl, h1⟩ := hl.adopt arena.size fitsl
  have b1 := becomes_setParent h1
  obtain ⟨second, adoptedr, h2⟩ := (hr.setParent apart h1).adopt arena.size (by rwa [b1.pieceSize])
  have b2 := becomes_setParent h2
  rw [b1.links_eq, b1.parents_eq, b1.sizes_eq] at b2
  have becomes := b1.trans b2
  rw [b1.pieceSize] at adoptedr
  refine ⟨first, second, adoptedl, adoptedr,
    hl.rehang becomes (fun i top => ?_) fun i h lower => ?_,
    hr.rehang becomes (fun i top => ?_) fun i h lower => ?_,
    becomes.toKeeps.mono fun i h => ?_⟩
  · have notRight := apart i (Shape.mem_inOrder_of_root top)
    rw [reparent_of_ne _ _ (Shape.ne_root_of_notMem notRight), top, reparent_self]
  · rw [reparent_of_ne _ _ (Shape.ne_root_of_notMem (apart i h)), reparent_of_ne _ _ lower]
  · rw [top, reparent_self]
  · have notLeft : i ∉ left.inOrder := fun h' => apart i h' h
    rw [reparent_of_ne _ _ lower, reparent_of_ne _ _ (Shape.ne_root_of_notMem notLeft)]
  · simp only [List.mem_append, Option.mem_toList] at h ⊢
    exact h.imp Shape.mem_inOrder_of_root Shape.mem_inOrder_of_root

/-- What hangs from the next place stands once the next node is there, with right links and
sizes. -/
theorem Hangs.push {left right : Shape} (hl : arena.Hangs (some arena.size) left)
    (hr : arena.Hangs (some arena.size) right) (apart : ∀ i ∈ left.inOrder, i ∉ right.inOrder)
    (piece : Piece) :
    Stands (arena.push
      { piece := piece, left := left.root, right := right.root,
        lsize := left.weight arena.pieceSize, rsize := right.weight arena.pieceSize })
      (.node left arena.size right) := by
  obtain ⟨node, hnode⟩ : ∃ node : Node, node =
      { piece := piece, left := left.root, right := right.root,
        lsize := left.weight arena.pieceSize, rsize := right.weight arena.pieceSize } := ⟨_, rfl⟩
  rw [← hnode]
  have newl : arena.size ∉ left.inOrder := fun h => Nat.lt_irrefl _ (hl.inRange _ h)
  have newr : arena.size ∉ right.inOrder := fun h => Nat.lt_irrefl _ (hr.inRange _ h)
  have elsewhere {i : NodeId} (h : i < arena.size) : (arena.push node)[i]? = arena[i]? :=
    push_elsewhere node (Nat.ne_of_lt h)
  have samel (i : NodeId) (h : i ∈ left.inOrder) := elsewhere (hl.inRange i h)
  have samer (i : NodeId) (h : i ∈ right.inOrder) := elsewhere (hr.inRange i h)
  have weightl : left.weight (pieceSize (arena.push node)) = left.weight arena.pieceSize :=
    sizeSum_congr fun i h => pieceSize_congr (samel i h)
  have weightr : right.weight (pieceSize (arena.push node)) = right.weight arena.pieceSize :=
    sizeSum_congr fun i h => pieceSize_congr (samer i h)
  refine (hl.congr samel).node (hr.congr samer) ?_ (push_self node) ?_ ?_ ?_ ?_ ?_
  · exact (Shape.nodup_inOrder_sided .left left right arena.size).mpr
      ⟨hl.nodup, hr.nodup, newl, newr, apart⟩
  · rw [hnode]
  · rw [hnode]
  · rw [hnode]
  · rw [weightl, hnode]
  · rw [weightr, hnode]

/-- Two trees that stand by themselves can be joined, and the whole stands by itself. -/
theorem Stands.join {left right : Shape} (hl : arena.Stands left) (hr : arena.Stands right)
    (apart : ∀ i ∈ left.inOrder, i ∉ right.inOrder) (piece : Piece)
    (room : arena.size < NodeId.limit) (fitsl : left.weight arena.pieceSize < Size.limit)
    (fitsr : right.weight arena.pieceSize < Size.limit) :
    ∃ after, arena.join left.root piece right.root = .ok (after, arena.size) ∧
      after.Stands (.node left arena.size right) ∧
      arena.Gains after piece (left.inOrder ++ right.inOrder) := by
  obtain ⟨first, second, adoptedl, adoptedr, hangl, hangr, keeps⟩ :=
    hl.adopt_both hr apart fitsl fitsr
  rw [← keeps.size] at hangl hangr
  have stands := hangl.push hangr apart piece
  rw [keeps.size, keeps.pieceSize] at stands
  refine ⟨_, ?_, stands, keeps.gains _⟩
  rw [Arena.join, NodeId.ofSlot, if_pos room, ok_bind, adoptedl, ok_bind]
  dsimp only
  rw [adoptedr, ok_bind]
  dsimp only
  rw [append, NodeId.ofSlot, keeps.size, if_pos room, ok_bind]
  rfl

/-- Two trees that stand apart are not joined if one of them is too large for a size. -/
theorem Stands.join_of_ge {left right : Shape} (hl : arena.Stands left) (hr : arena.Stands right)
    (apart : ∀ i ∈ left.inOrder, i ∉ right.inOrder) (piece : Piece)
    (room : arena.size < NodeId.limit)
    (large : Size.limit ≤ left.weight arena.pieceSize ∨ Size.limit ≤ right.weight arena.pieceSize) :
    arena.join left.root piece right.root = .error .sumOverflow := by
  rw [Arena.join, NodeId.ofSlot, if_pos room, ok_bind]
  by_cases fits : left.weight arena.pieceSize < Size.limit
  · obtain ⟨first, adopted, h⟩ := hl.adopt arena.size fits
    have large := large.resolve_left (Nat.not_le.mpr fits)
    rw [← (becomes_setParent h).pieceSize] at large
    rw [adopted, ok_bind]
    dsimp only
    rw [(hr.setParent apart h).adopt_of_ge arena.size large, error_bind]
  · rw [hl.adopt_of_ge arena.size (Nat.le_of_not_lt fits), error_bind]

theorem join_of_full {left right : Option NodeId} {piece : Piece}
    (full : NodeId.limit ≤ arena.size) :
    arena.join left piece right = .error (.noNodeId arena.size) := by
  rw [join, NodeId.ofSlot, if_neg (Nat.not_lt.mpr full), error_bind]

end Arena

namespace Tree
variable {tree : Tree} {shape : Shape}

theorem WellFormedAs.stands (well : tree.WellFormedAs shape) : tree.nodes.Stands shape := by
  obtain ⟨inRange, wired⟩ := Arena.links_iff.mp well.links
  exact ⟨inRange, well.nodup, wired, (Arena.parents_iff.mp well.parents).2,
    (Arena.exact_iff.mp well.sizes).2⟩

theorem WellFormedAs.sizeSum_lt (well : tree.WellFormedAs shape) :
    sizeSum tree.nodes.pieceSize shape.inOrder < Size.limit := by
  have fits := well.fits
  rwa [Arena.weight_eq] at fits

theorem WellFormedAs.length_eq (well : tree.WellFormedAs shape) :
    tree.length = .ok (shape.weight tree.nodes.pieceSize) := by
  rw [length, well.root_eq]
  exact Arena.subtreeSize_of_measured well.stands.inRange well.stands.measured well.sizeSum_lt

/-- A tree is well formed when it stands by itself, fills its arena, and has no piece that is empty
and no sizes that are too large. -/
theorem WellFormedAs.of_stands {arena : Arena} (stands : arena.Stands shape)
    (full : ∀ id < arena.size, id ∈ shape.inOrder)
    (nonempty : ∀ id ∈ shape.inOrder, 1 ≤ arena.pieceSize id)
    (fits : shape.weight arena.pieceSize < Size.limit) :
    WellFormedAs ⟨arena, shape.root⟩ shape := by
  obtain ⟨inRange, nodup, wired, parented, measured⟩ := stands
  refine ⟨⟨rfl, Arena.links_iff.mpr ⟨inRange, wired⟩, nodup⟩,
    Arena.parents_iff.mpr ⟨inRange, parented⟩, Arena.exact_iff.mpr ⟨inRange, measured⟩, full,
    nonempty, ?_⟩
  rwa [Arena.weight_eq]

end Tree
end PieceIndex
