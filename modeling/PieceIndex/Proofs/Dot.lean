import PieceIndex.Proofs.Text.Spelling
import PieceIndex.Proofs.Walk
import PieceIndex.Tree.Dot

/-!
A drawing tells the tree. Its text falls apart into lines, and each line into numbers and words,
which tell what the line is about. Lines to children look alike on both sides of a node; but the
label of the node shows the size on each side where there is no child, so that no doubt is left.
Only the buffers and the capacities of the pieces are not drawn.
-/
namespace PieceIndex

/-- What a drawing shows of a node: all but the buffer and the capacity of its piece. -/
def Node.drawn (node : Node) : Node :=
  { node with piece := { node.piece with buffer := 0, capacity := 0 } }

theorem Node.drawn_inj {node node' : Node} :
    node.drawn = node'.drawn ↔ node.piece.size = node'.piece.size ∧
      node.piece.provenance = node'.piece.provenance ∧ node.lsize = node'.lsize ∧
      node.rsize = node'.rsize ∧ node.left = node'.left ∧ node.right = node'.right ∧
      node.parent = node'.parent := by
  obtain ⟨⟨⟩⟩ := node
  obtain ⟨⟨⟩⟩ := node'
  simp [drawn, and_assoc]

def View.drawn (view : View) : View := { view with node := view.node.drawn }

namespace Dot
open Spelling

/-- What a line of a drawing is about. The label of a node shows the sizes on the sides where it has
no child. -/
inductive Line where
  | node (id : NodeId) (lsize : Option Nat) (size leftEdge rightEdge : Nat) (rsize : Option Nat)
    (provenance : Provenance)
  | child (id child : NodeId) (size : Nat)
  | parent (id parent : NodeId)

namespace Line

/-- The numbers on the line, each with the text between it and the number before it. -/
def words : Line → List (String × Nat)
  | .node id lsize size leftEdge rightEdge rsize _ =>
    ("\"n", id) ::
      ((match lsize with
        | some lsize => [("\" [label=\"", lsize), (":n", id)]
        | none => [("\" [label=\"n", id)]) ++
      [(":", size), (" [", leftEdge), (", ", rightEdge)] ++
      rsize.toList.map fun rsize => ("):", rsize))
  | .child id below size => [("\"n", id), ("\" -> \"n", below), ("\" [label=\"", size)]
  | .parent id above => [("\"n", id), ("\" -> \"n", above)]

def last : Line → String
  | .node _ _ _ _ _ rsize provenance =>
    (if rsize.isNone then ")" else "") ++ "\",color=\"" ++ color provenance ++ "\"];"
  | .child .. => "\"];"
  | .parent .. => "\" [style=\"dotted\"];"

def write (line : Line) : String := spell line.words line.last

theorem readable (line : Line) : Readable line.words line.last := by
  cases line with
  | node id lsize size leftEdge rightEdge rsize provenance =>
    constructor
    · cases lsize <;> cases rsize <;> simp [words, Plain, -Prod.forall]
    · cases rsize <;> cases provenance <;> simp [last, color, Plain]
  | child id child size => constructor <;> simp [words, last, Plain, -Prod.forall]
  | parent id parent => constructor <;> simp [words, last, Plain, -Prod.forall]

/-- What a line is about is told by its text: the word before the second number sets a node apart
from a link, and the number of numbers sets a child apart from a parent. -/
theorem write_unique {line line' : Line} (same : line.write = line'.write) : line = line' := by
  obtain ⟨words, last⟩ := spell_unique line.readable line'.readable (congrArg String.toList same)
  cases line with
  | node id lsize size leftEdge rightEdge rsize provenance =>
    cases line' with
    | node id' lsize' size' leftEdge' rightEdge' rsize' provenance' =>
      have right : rsize = rsize' := by
        cases lsize <;> cases lsize' <;> cases rsize <;> cases rsize' <;> simp_all [Line.words]
      subst right
      have state : provenance = provenance' := by
        cases provenance <;> cases provenance' <;> simp_all [Line.last, color]
      cases lsize <;> cases lsize' <;> simp_all [Line.words]
    | child | parent => cases lsize <;> simp [Line.words] at words
  | child =>
    cases line' with
    | node _ lsize' => cases lsize' <;> simp [Line.words] at words
    | child => simp_all [Line.words]
    | parent => simp [Line.words] at words
  | parent =>
    cases line' with
    | node _ lsize' => cases lsize' <;> simp [Line.words] at words
    | child => simp [Line.words] at words
    | parent => simp_all [Line.words]

def isLink : Line → Bool
  | .node .. => false
  | _ => true

end Line

/-- The size in the label of a node on a side, which is there if no child is. -/
def shown (child : Option NodeId) (size : Nat) : Option Nat :=
  if child.isNone then some size else none

def nodeOf (view : View) : Line :=
  .node view.id (shown view.node.left view.node.lsize) view.node.piece.size view.leftEdge
    view.rightEdge (shown view.node.right view.node.rsize) view.node.piece.provenance

def linksOf (view : View) : List Line :=
  view.node.left.toList.map (.child view.id · view.node.lsize) ++
    (view.node.right.toList.map (.child view.id · view.node.rsize) ++
      view.node.parent.toList.map (.parent view.id ·))

def linesOf (view : View) : List Line := nodeOf view :: linksOf view

theorem childLine_eq (id : NodeId) (child : Option NodeId) (size : Nat) :
    childLine id child size = (child.toList.map (Line.child id · size)).map Line.write := by
  rw [childLine, List.map_map]
  refine List.map_congr_left fun below _ => String.toList_inj.mp ?_
  simp [Line.write, Line.words, Line.last, spell, quoted, NodeId.label]

theorem parentLine_eq (id : NodeId) (parent : Option NodeId) :
    parentLine id parent = (parent.toList.map (Line.parent id ·)).map Line.write := by
  rw [parentLine, List.map_map]
  refine List.map_congr_left fun above _ => String.toList_inj.mp ?_
  simp [Line.write, Line.words, Line.last, spell, quoted, NodeId.label]

/-- The lines that show a view are what it is about, written out. -/
theorem viewLines_eq (view : View) : viewLines view = (linesOf view).map Line.write := by
  rw [viewLines, childLine_eq, childLine_eq, parentLine_eq, linesOf, linksOf, List.map_cons,
    List.map_append, List.map_append, List.append_assoc]
  refine congrArg (· :: _) (String.toList_inj.mp ?_)
  cases left : view.node.left <;> cases right : view.node.right <;>
    simp [nodeOf, shown, label, left, right, Line.write, Line.words, Line.last, spell, quoted,
      NodeId.label]

/-- The lines of a drawing. -/
def allLines (views : List View) : List String :=
  "digraph vine \x7b" :: ((header ++ views.flatMap viewLines).map (indent ++ ·) ++ ["\x7d"])

theorem toList_render (views : List View) :
    (render views).toList = (allLines views).flatMap fun line => line.toList ++ ['\n'] := by
  show ("digraph vine \x7b\n" ++ String.join ((header ++ views.flatMap viewLines).map
    fun line => indent ++ line ++ "\n") ++ "\x7d\n").toList = _
  simp [allLines, String.toList_join, List.flatMap_map]

theorem unbroken {views : List View} : ∀ line ∈ allLines views, '\n' ∉ line.toList := by
  have body {line : String} (inside : line ∈ header ++ views.flatMap viewLines) :
      '\n' ∉ (indent ++ line).toList := by
    have free : '\n' ∉ line.toList := by
      rcases List.mem_append.mp inside with inside | inside
      · simp only [header, List.mem_cons, List.not_mem_nil, or_false] at inside
        rcases inside with rfl | rfl | rfl <;> simp [quoted]
      · obtain ⟨view, -, inside⟩ := List.mem_flatMap.mp inside
        rw [viewLines_eq] at inside
        obtain ⟨line, -, rfl⟩ := List.mem_map.mp inside
        exact line.readable.newline_notMem
    simp [indent, free]
  intro line inside
  rw [allLines, List.mem_cons, List.mem_append, List.mem_map, List.mem_singleton] at inside
  rcases inside with rfl | ⟨line, inside, rfl⟩ | rfl
  · simp
  · exact body inside
  · simp

variable {view view' : View} {views views' : List View}

theorem links_isLink : ∀ line ∈ linksOf view, line.isLink = true := by
  simp only [linksOf, List.mem_append, List.mem_map]
  rintro line (⟨_, -, rfl⟩ | ⟨_, -, rfl⟩ | ⟨_, -, rfl⟩) <;> rfl

/-- A child is told by the line to it, and that there is none by the size in the label. -/
theorem child_unique {id : NodeId} {child child' : Option NodeId} {size size' : Nat}
    {s t : List Line} (label : shown child size = shown child' size')
    (same : child.toList.map (Line.child id · size) ++ s =
      child'.toList.map (Line.child id · size') ++ t) :
    child = child' ∧ size = size' ∧ s = t := by
  cases child <;> cases child' <;> simp_all [shown]

/-- The lines to the children come in order, so the label tells which side each of them is on. -/
theorem linesOf_unique (here : nodeOf view = nodeOf view') (links : linksOf view = linksOf view') :
    view.drawn = view'.drawn := by
  obtain ⟨id, node, leftEdge, rightEdge⟩ := view
  obtain ⟨id', node', leftEdge', rightEdge'⟩ := view'
  simp only [nodeOf, Line.node.injEq] at here
  obtain ⟨rfl, left, size, rfl, rfl, right, provenance⟩ := here
  obtain ⟨left, lsize, links⟩ := child_unique left links
  obtain ⟨right, rsize, links⟩ := child_unique right links
  have parent : node.parent = node'.parent := by
    cases above : node.parent <;> cases above' : node'.parent <;> simp_all
  exact congrArg (View.mk id · leftEdge rightEdge)
    (Node.drawn_inj.mpr ⟨size, provenance, lsize, rsize, left, right, parent⟩)

/-- The lines about one view end where the next node begins. -/
theorem flatMap_linesOf_unique (same : views.flatMap linesOf = views'.flatMap linesOf) :
    views.map View.drawn = views'.map View.drawn := by
  have ends (views : List View) : (views.flatMap linesOf).takeWhile Line.isLink = [] := by
    cases views <;> rfl
  induction views generalizing views' with
  | nil =>
    cases views' with
    | nil => rfl
    | cons view' views' => cases same
  | cons view views ih =>
    cases views' with
    | nil => cases same
    | cons view' views' =>
      obtain ⟨here, same⟩ := List.cons.inj same
      obtain ⟨links, same⟩ := run_unique links_isLink links_isLink (ends views) (ends views') same
      rw [List.map_cons, List.map_cons, linesOf_unique here links, ih same]

/-- A drawing shows its views, and nothing else. -/
theorem render_inj :
    render views = render views' ↔ views.map View.drawn = views'.map View.drawn := by
  rw [← String.toList_inj, toList_render, toList_render]
  constructor
  · intro same
    have all := lines_unique unbroken unbroken same
    -- what stands around and before the views is always the same
    rw [allLines, allLines, List.cons_inj_right, List.append_cancel_right_eq,
      List.map_inj_right fun line line' => (String.append_right_inj indent).mp,
      List.append_cancel_left_eq, funext viewLines_eq, ← List.map_flatMap, ← List.map_flatMap,
      List.map_inj_right fun line line' => Line.write_unique] at all
    exact flatMap_linesOf_unique all
  · intro same
    have drawn (views : List View) :
        views.flatMap viewLines = (views.map View.drawn).flatMap viewLines := by
      rw [List.flatMap_map]
      rfl
    rw [allLines, allLines, drawn views, drawn views', same]

end Dot

namespace Arena
variable {arena after : Arena}

def drawn (arena : Arena) : Arena := arena.map Node.drawn

theorem getElem?_drawn (arena : Arena) (id : NodeId) :
    arena.drawn[id]? = arena[id]?.map Node.drawn :=
  Array.getElem?_map

@[simp] theorem size_drawn (arena : Arena) : arena.drawn.size = arena.size := Array.size_map

@[simp] theorem childOf_drawn (arena : Arena) : arena.drawn.childOf = arena.childOf := by
  funext id side
  rw [childOf, childOf, getElem?_drawn]
  cases arena[id]? <;> cases side <;> rfl

@[simp] theorem parentOf_drawn (arena : Arena) : arena.drawn.parentOf = arena.parentOf := by
  funext id
  rw [parentOf, parentOf, getElem?_drawn]
  cases arena[id]? <;> rfl

@[simp] theorem cachedOf_drawn (arena : Arena) : arena.drawn.cachedOf = arena.cachedOf := by
  funext id side
  rw [cachedOf, cachedOf, getElem?_drawn]
  cases arena[id]? <;> cases side <;> rfl

@[simp] theorem pieceSize_drawn (arena : Arena) : arena.drawn.pieceSize = arena.pieceSize := by
  funext id
  rw [pieceSize, pieceSize, getElem?_drawn]
  cases arena[id]? <;> rfl

theorem viewAt_drawn (arena : Arena) (item : NodeId × Nat) :
    arena.drawn.viewAt item = (arena.viewAt item).drawn := by
  rw [viewAt, viewAt, pieceSize_drawn, getElem?_drawn]
  cases arena[item.1]? <;> rfl

/-- The views of a tree of the given shape, from left to right. -/
def viewsOf (arena : Arena) (shape : Shape) : List View :=
  (shape.edges arena.pieceSize arena.cachedOf 0).map arena.viewAt

theorem viewsOf_drawn (arena : Arena) (shape : Shape) :
    arena.drawn.viewsOf shape = (arena.viewsOf shape).map View.drawn := by
  rw [viewsOf, viewsOf, pieceSize_drawn, cachedOf_drawn, funext (viewAt_drawn arena), List.map_map]
  rfl

theorem map_id_viewsOf (arena : Arena) (shape : Shape) :
    (arena.viewsOf shape).map View.id = shape.inOrder := by
  rw [viewsOf, List.map_map]
  exact Shape.map_fst_edges ..

/-- The views show every node of a shape. -/
theorem viewAt_mem_viewsOf (arena : Arena) {id : NodeId} {shape : Shape}
    (inside : id ∈ shape.inOrder) : ∃ edge, arena.viewAt (id, edge) ∈ arena.viewsOf shape := by
  rw [← Shape.map_fst_edges arena.pieceSize arena.cachedOf 0 shape] at inside
  obtain ⟨⟨_, edge⟩, member, rfl⟩ := List.mem_map.mp inside
  exact ⟨edge, List.mem_map_of_mem member⟩

/-- An arena that is full of a tree is told by the views of it. -/
theorem eq_of_viewsOf {s t : Shape} (full : ∀ id < arena.size, id ∈ s.inOrder)
    (sizes : arena.size = after.size) (same : arena.viewsOf s = after.viewsOf t) :
    arena = after := by
  refine Array.ext sizes fun id inRange inRange' => ?_
  obtain ⟨edge, member⟩ := arena.viewAt_mem_viewsOf (full id inRange)
  rw [same] at member
  obtain ⟨⟨id', edge'⟩, -, view⟩ := List.mem_map.mp member
  obtain rfl : id' = id := congrArg View.id view
  have nodes := congrArg View.node view
  rw [viewAt, viewAt, Array.getElem?_eq_getElem inRange, Array.getElem?_eq_getElem inRange']
    at nodes
  exact nodes.symm

theorem drawn_inj : arena.drawn = after.drawn ↔ arena.size = after.size ∧
    ∀ id < arena.size, ∃ node node', arena[id]? = some node ∧ after[id]? = some node' ∧
      node.drawn = node'.drawn := by
  constructor
  · intro same
    have sizes : arena.size = after.size := by rw [← size_drawn, same, size_drawn]
    refine ⟨sizes, fun id inRange => ?_⟩
    obtain ⟨node, found⟩ := exists_found inRange
    obtain ⟨node', found'⟩ := exists_found (sizes ▸ inRange : id < after.size)
    have here : arena.drawn[id]? = after.drawn[id]? := congrArg (·[id]?) same
    rw [getElem?_drawn, getElem?_drawn, found, found'] at here
    exact ⟨node, node', found, found', Option.some.inj here⟩
  · rintro ⟨sizes, alike⟩
    refine Array.ext (by simpa using sizes) fun id inRange inRange' => ?_
    rw [size_drawn] at inRange
    obtain ⟨node, node', found, found', same⟩ := alike id inRange
    refine Option.some.inj ?_
    rw [← Array.getElem?_eq_getElem, ← Array.getElem?_eq_getElem, getElem?_drawn, getElem?_drawn,
      found, found', Option.map_some, Option.map_some, same]

end Arena

namespace Tree
variable {tree first second : Tree} {shape s t : Shape}

theorem WellFormedAs.toDot_eq (well : tree.WellFormedAs shape) :
    tree.toDot = .ok (Dot.render (tree.nodes.viewsOf shape)) := by
  rw [toDot, well.toHasShape.views_eq well.edges_fit]
  rfl

/-- The root is the only node without a parent. -/
theorem WellFormedAs.root_eq_some_iff {id : NodeId} (well : tree.WellFormedAs shape) :
    tree.root = some id ↔ id < tree.nodes.size ∧ tree.nodes.parentOf id = none := by
  rw [well.root_eq]
  constructor
  · intro root
    have inside := Shape.mem_inOrder_of_root root
    exact ⟨well.stands.inRange id inside, (well.stands.parentOf_eq_none inside).mpr root⟩
  · rintro ⟨inRange, alone⟩
    exact (well.stands.parentOf_eq_none (well.full id inRange)).mp alone

/-- Two trees that fill their arenas have the same views when the arenas look the same and the roots
are the same. The views tell the parents, and with them the root. -/
theorem WellFormedAs.render_inj (well : first.WellFormedAs s) (well' : second.WellFormedAs t) :
    Dot.render (first.nodes.viewsOf s) = Dot.render (second.nodes.viewsOf t) ↔
      first.nodes.drawn = second.nodes.drawn ∧ first.root = second.root := by
  rw [Dot.render_inj, ← Arena.viewsOf_drawn, ← Arena.viewsOf_drawn]
  constructor
  · intro same
    have order : s.inOrder = t.inOrder := by
      rw [← Arena.map_id_viewsOf, same, Arena.map_id_viewsOf]
    have sizes : first.nodes.size = second.nodes.size := by
      rw [← well.count_eq, ← well'.count_eq, ← Shape.length_inOrder, order, Shape.length_inOrder]
    have nodes : first.nodes.drawn = second.nodes.drawn :=
      Arena.eq_of_viewsOf (by simpa using well.full) (by simpa using sizes) same
    refine ⟨nodes, Option.ext fun id => ?_⟩
    rw [well.root_eq_some_iff, well'.root_eq_some_iff, sizes, ← Arena.parentOf_drawn, nodes,
      Arena.parentOf_drawn]
  · rintro ⟨nodes, root⟩
    have links : first.nodes.Links t := by
      obtain ⟨inRange, wired⟩ := Arena.links_iff.mp well'.links
      rw [← Arena.childOf_drawn, ← nodes, Arena.childOf_drawn] at wired
      rw [← Arena.size_drawn, ← nodes, Arena.size_drawn] at inRange
      exact Arena.links_iff.mpr ⟨inRange, wired⟩
    rw [nodes, well.links.unique links (by rw [← well.root_eq, root, well'.root_eq])]

/-- Two well-formed trees have the same drawing when they agree in all but the buffers and the
capacities of their pieces, and not otherwise. -/
theorem toDot_eq_iff (well : first.WellFormed) (well' : second.WellFormed) :
    ∃ text text', first.toDot = .ok text ∧ second.toDot = .ok text' ∧
      (text = text' ↔ first.nodeCount = second.nodeCount ∧ first.root = second.root ∧
        ∀ id < first.nodeCount, ∃ node node',
          first.node id = .ok node ∧ second.node id = .ok node' ∧
          node.piece.size = node'.piece.size ∧ node.piece.provenance = node'.piece.provenance ∧
          node.lsize = node'.lsize ∧ node.rsize = node'.rsize ∧ node.left = node'.left ∧
          node.right = node'.right ∧ node.parent = node'.parent) := by
  obtain ⟨s, well⟩ := well
  obtain ⟨t, well'⟩ := well'
  refine ⟨_, _, well.toDot_eq, well'.toDot_eq, ?_⟩
  rw [well.render_inj well', Arena.drawn_inj]
  simp only [Tree.node, Arena.node_eq_ok, Node.drawn_inj]
  exact and_right_comm.trans and_assoc

/-- Two pieces, the first one on a side of the second. -/
def leaning (side : Side) (buffer : Nat) : Tree where
  nodes := #[{ piece := .frozen buffer 3, parent := some 1 },
    Node.hang { piece := .frozen buffer 4 } side (some 0) 3]
  root := some 1

theorem wellFormed_leaning (side : Side) (buffer : Nat) : (leaning side buffer).WellFormed := by
  have stands :
      (leaning side buffer).nodes.Stands (.sided side (.node .empty 0 .empty) 1 .empty) := by
    refine ⟨by simp [Shape.inOrder, leaning], by cases side <;> decide, ?_, ?_, ?_⟩
    · refine (Shape.tallies_sided ..).mpr ⟨?_, ?_, ⟨rfl, rfl, trivial, trivial⟩, trivial⟩ <;>
        cases side <;> rfl
    · refine (Shape.parented_sided ..).mpr ⟨?_, ⟨rfl, trivial, trivial⟩, trivial⟩
      cases side <;> rfl
    · refine (Shape.tallies_sided ..).mpr ⟨?_, ?_, ⟨rfl, rfl, trivial, trivial⟩, trivial⟩ <;>
        cases side <;> rfl
  have full : ∀ id < 2, id ∈ (Shape.sided side (.node .empty 0 .empty) 1 .empty).inOrder := by
    cases side <;> decide
  have well := WellFormedAs.of_stands stands full
    (by simp [Shape.inOrder, Arena.pieceSize, leaning, Piece.frozen]) (by
      rw [Shape.weight_sided]
      simp [Shape.weight, sizeSum, Arena.pieceSize, leaning, Piece.frozen, Shape.inOrder,
        Size.limit])
  rw [Shape.root_sided] at well
  exact ⟨_, well⟩

/-- Another buffer is not seen, but that the root has its child on the other side is. -/
theorem toDot_eq_iff_leaning :
    ∃ text text', (leaning .left 0).toDot = .ok text ∧ (leaning .left 1).toDot = .ok text ∧
      (leaning .right 0).toDot = .ok text' ∧ text ≠ text' := by
  obtain ⟨text, _, drawn, drawn₁, same⟩ :=
    toDot_eq_iff (wellFormed_leaning .left 0) (wellFormed_leaning .left 1)
  obtain ⟨_, text', drawn₂, drawn', other⟩ :=
    toDot_eq_iff (wellFormed_leaning .left 0) (wellFormed_leaning .right 0)
  rw [drawn] at drawn₂
  cases drawn₂
  refine ⟨text, text', drawn, ?_, drawn', fun equal => ?_⟩
  · rw [drawn₁, same.mpr ⟨rfl, rfl, ?_⟩]
    intro id inRange
    obtain rfl | rfl : id = 0 ∨ id = 1 :=
      Nat.le_one_iff_eq_zero_or_eq_one.mp (Nat.le_of_lt_succ inRange)
    all_goals exact ⟨_, _, rfl, rfl, rfl, rfl, rfl, rfl, rfl, rfl, rfl⟩
  · obtain ⟨-, -, alike⟩ := other.mp equal
    obtain ⟨node, node', found, found', -, -, -, -, left, -⟩ := alike 1 Nat.one_lt_two
    cases found
    cases found'
    cases left

end Tree
end PieceIndex
