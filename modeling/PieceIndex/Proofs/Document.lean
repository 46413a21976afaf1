import Mathlib.Data.List.InsertIdx
import PieceIndex.Proofs.Session
import PieceIndex.Proofs.Splay.Target

/-!
A tree in use as the list of its pieces. Beside the pieces in document order, each with the node
that holds it, only the place of the root in the list counts. On the list a splay moves that place
and an insertion puts a piece beside it. Whatever shape earlier edits have left, an edit does to the
tree what it does to the list, and returns the node at the place where the list then stands.
-/
namespace PieceIndex

/-- The pieces of a document in order, each with the node that holds it, and a place among them. -/
structure Document where
  items : List (NodeId × Piece)
  cursor : Option Nat
  deriving DecidableEq, Repr

namespace Document
variable {doc : Document}

def total (doc : Document) : Nat := sizeSum (fun item => item.2.size) doc.items

/-- The place of the first item whose right edge is not before the offset, where the items begin at
`edge`. -/
def placeOf (offset : Nat) : Nat → List (NodeId × Piece) → Option Nat
  | _, [] => none
  | edge, (_, piece) :: items =>
    if offset ≤ edge + piece.size then some 0
    else (placeOf offset (edge + piece.size) items).map (· + 1)

/-- Where a new item goes that is put directly beside the one at a place. -/
def beside : Side → Nat → Nat
  | .left, place => place
  | .right, place => place + 1

/-- The document after an edit. A new piece is held by the next node. -/
def apply (doc : Document) : Edit → Document
  | .splay offset => { doc with cursor := placeOf offset 0 doc.items }
  | .insert side piece =>
    let added := (doc.items.length, piece)
    match doc.cursor with
    | none => ⟨[added], some 0⟩
    | some place => ⟨doc.items.insertIdx (beside side place) added, some (beside side place)⟩

/-- The node at the cursor. -/
def here (doc : Document) : Option NodeId :=
  doc.cursor.bind fun place => doc.items[place]?.map (·.1)

/-- The offset is within the document; there is room for the piece, which is not empty. -/
def Allows (doc : Document) : Edit → Prop
  | .splay offset => offset ≤ doc.total
  | .insert _ piece =>
    1 ≤ piece.size ∧ doc.items.length < NodeId.limit ∧ doc.total + piece.size < Size.limit

instance (doc : Document) : (edit : Edit) → Decidable (doc.Allows edit)
  | .splay offset => inferInstanceAs (Decidable (offset ≤ doc.total))
  | .insert _ piece => inferInstanceAs (Decidable (1 ≤ piece.size ∧
      doc.items.length < NodeId.limit ∧ doc.total + piece.size < Size.limit))

/-- Makes edits one after the other, and gathers the nodes at the cursor after each. -/
def run (doc : Document) : List Edit → Document × List (Option NodeId)
  | [] => (doc, [])
  | edit :: edits =>
    let (last, nodes) := (doc.apply edit).run edits
    (last, (doc.apply edit).here :: nodes)

/-- Every edit is allowed when its turn comes. -/
def AllowsAll (doc : Document) : List Edit → Prop
  | [] => True
  | edit :: edits => doc.Allows edit ∧ (doc.apply edit).AllowsAll edits

instance decidableAllowsAll : (edits : List Edit) → (doc : Document) →
    Decidable (doc.AllowsAll edits)
  | [], _ => isTrue trivial
  | edit :: edits, doc =>
    have := decidableAllowsAll edits (doc.apply edit)
    inferInstanceAs (Decidable (doc.Allows edit ∧ (doc.apply edit).AllowsAll edits))

theorem AllowsAll.split {done more : List Edit} (allowed : doc.AllowsAll (done ++ more)) :
    doc.AllowsAll done ∧ (doc.run done).1.AllowsAll more := by
  induction done generalizing doc with
  | nil => exact ⟨trivial, allowed⟩
  | cons edit edits ih =>
    obtain ⟨first, rest⟩ := allowed
    exact ⟨⟨first, (ih rest).1⟩, (ih rest).2⟩

end Document

namespace Shape
variable {shape : Shape}

/-- The place of the root among the nodes from left to right. -/
def rootPlace : Shape → Option Nat
  | .empty => none
  | .node left _ _ => some left.count

theorem rootPlace_eq_none : shape.rootPlace = none ↔ shape = .empty := by
  cases shape <;> simp [rootPlace]

theorem rootPlace_insertBeside (side : Side) (id : NodeId) {place : Nat}
    (root : shape.rootPlace = some place) :
    (shape.insertBeside side id).rootPlace = some (Document.beside side place) := by
  cases shape with
  | empty => cases root
  | node left old right =>
    cases root
    cases side <;> rfl

theorem inOrder_insertBeside (side : Side) (id : NodeId) {place : Nat}
    (root : shape.rootPlace = some place) :
    (shape.insertBeside side id).inOrder =
      shape.inOrder.insertIdx (Document.beside side place) id := by
  have between (xs ys : List NodeId) : (xs ++ ys).insertIdx xs.length id = xs ++ id :: ys := by
    induction xs with
    | nil => rfl
    | cons x xs ih => simp [ih]
  cases shape with
  | empty => cases root
  | node left old right =>
    cases root
    cases side with
    | left =>
      have placed := between left.inOrder (old :: right.inOrder)
      rw [length_inOrder] at placed
      exact placed.symm
    | right =>
      have placed := between (left.inOrder ++ [old]) right.inOrder
      rw [List.length_append, length_inOrder, List.append_assoc] at placed
      exact placed.symm

end Shape

namespace Arena
variable {arena after : Arena} {shape : Shape}

/-- A node with its piece. Outside the arena there is no piece, and its place is taken by an empty
one. -/
def held (arena : Arena) (id : NodeId) : NodeId × Piece :=
  (id, (arena.pieceAt id).getD (.sized 0))

theorem size_held (arena : Arena) (id : NodeId) : (arena.held id).2.size = arena.pieceSize id := by
  rw [pieceSize_eq, held]
  cases arena.pieceAt id <;> rfl

/-- The document that a shape in an arena stands for. -/
def document (arena : Arena) (shape : Shape) : Document :=
  ⟨shape.inOrder.map arena.held, shape.rootPlace⟩

theorem total_document (arena : Arena) (shape : Shape) :
    (arena.document shape).total = shape.weight arena.pieceSize := by
  rw [Document.total, document, sizeSum_map, Shape.weight]
  exact sizeSum_congr fun id _ => arena.size_held id

theorem here_document (arena : Arena) (shape : Shape) :
    (arena.document shape).here = shape.root := by
  cases shape with
  | empty => rfl
  | node left id right =>
    simp [Document.here, document, Shape.rootPlace, Shape.inOrder, Shape.root, held]

/-- The first item to reach an offset is found behind those that end before it. -/
theorem placeOf_append {offset edge : Nat} {before : List NodeId} {id : NodeId}
    (reaches : offset ≤ edge + sizeSum arena.pieceSize before + arena.pieceSize id)
    (first : ∀ earlier node later, before = earlier ++ node :: later →
      edge + sizeSum arena.pieceSize earlier + arena.pieceSize node < offset) (rest : List NodeId) :
    Document.placeOf offset edge ((before ++ id :: rest).map arena.held) = some before.length := by
  induction before generalizing edge with
  | nil =>
    have inside : offset ≤ edge + (arena.held id).2.size := by
      rw [size_held]
      exact reaches
    exact if_pos inside
  | cons node before ih =>
    have short := first [] node before rfl
    have outside : ¬ offset ≤ edge + (arena.held node).2.size := by
      rw [size_held]
      rw [sizeSum_nil] at short
      omega
    have found : Document.placeOf offset (edge + (arena.held node).2.size)
        ((before ++ id :: rest).map arena.held) = some before.length := by
      rw [size_held]
      apply ih
      · rw [sizeSum_cons] at reaches
        omega
      · rintro earlier next later rfl
        have ends := first (node :: earlier) next later rfl
        rw [sizeSum_cons] at ends
        omega
    have step : Document.placeOf offset edge ((node :: before ++ id :: rest).map arena.held) =
        (Document.placeOf offset (edge + (arena.held node).2.size)
          ((before ++ id :: rest).map arena.held)).map (· + 1) := if_neg outside
    rw [step, found]
    rfl

theorem placeOf_covers {offset : Nat} {ids before : List NodeId} {id : NodeId}
    (covers : Covers arena.pieceSize offset ids before id) :
    Document.placeOf offset 0 (ids.map arena.held) = some before.length := by
  obtain ⟨rest, rfl⟩ := covers.stands
  apply placeOf_append
  · simpa using covers.reaches
  · simpa using covers.first

/-- A new node with its piece, beside the root or alone. -/
theorem Gains.document {piece : Piece} {touched : List NodeId}
    (gains : arena.Gains after piece touched) (inRange : ∀ id ∈ shape.inOrder, id < arena.size)
    (count : shape.count = arena.size) (side : Side) :
    after.document (shape.insertBeside side arena.size) =
      (arena.document shape).apply (.insert side piece) := by
  have added : after.held arena.size = (arena.size, piece) := by
    rw [held, gains.added]
    rfl
  have old : shape.inOrder.map after.held = shape.inOrder.map arena.held := by
    apply List.map_congr_left
    intro id inside
    rw [held, gains.pieces id (inRange id inside), held]
  cases root : shape.rootPlace with
  | none =>
    obtain rfl := Shape.rootPlace_eq_none.mp root
    rw [← count] at added ⊢
    have first : after.held 0 = (0, piece) := added
    simp [Arena.document, Document.apply, Shape.insertBeside, Shape.inOrder, Shape.rootPlace, first,
      Shape.count]
  | some place =>
    have before : arena.document shape = ⟨shape.inOrder.map arena.held, some place⟩ := by
      rw [Arena.document, root]
    rw [before, Document.apply, Arena.document, Shape.inOrder_insertBeside side _ root,
      Shape.rootPlace_insertBeside side _ root, List.map_insertIdx, added, old]
    dsimp only
    rw [List.length_map, Shape.length_inOrder, count]

end Arena

/-- Makes an edit and returns the node that is then the root; only the empty tree has none. -/
def Edit.perform (tree : Tree) : Edit → Except Fault (Tree × Option NodeId)
  | .splay offset => tree.splay offset
  | .insert side piece => do
    let (tree, id) ← tree.insertBeside side piece
    return (tree, some id)

theorem Edit.apply_eq (tree : Tree) (edit : Edit) :
    edit.apply tree = (edit.perform tree).map (·.1) := by
  cases edit with
  | splay offset =>
    rw [apply, perform]
    cases tree.splay offset <;> rfl
  | insert side piece =>
    rw [apply, perform]
    cases tree.insertBeside side piece <;> rfl

namespace Tree
variable {tree after : Tree} {shape : Shape} {doc : Document} {offset : Nat}

/-- The tree holds the pieces of the document in order, and its root is at the cursor. -/
def Depicts (tree : Tree) (doc : Document) : Prop :=
  ∃ shape, tree.WellFormedAs shape ∧ doc = tree.nodes.document shape

/-- Nodes are only added, and their pieces stay as they are. -/
structure Preserves (before after : Tree) : Prop where
  nodeCount : before.nodeCount ≤ after.nodeCount
  pieceAt : ∀ id < before.nodeCount, after.nodes.pieceAt id = before.nodes.pieceAt id

theorem Preserves.refl (tree : Tree) : tree.Preserves tree := ⟨Nat.le_refl _, fun _ _ => rfl⟩

theorem Preserves.trans {middle : Tree} (first : tree.Preserves middle)
    (second : middle.Preserves after) : tree.Preserves after := by
  constructor
  · exact Nat.le_trans first.nodeCount second.nodeCount
  · intro id inRange
    rw [second.pieceAt id (Nat.lt_of_lt_of_le inRange first.nodeCount), first.pieceAt id inRange]

/-- A splay moves the cursor and leaves the list alone. -/
theorem WellFormedAs.document_splay (well : tree.WellFormedAs shape)
    (rearranges : tree.Rearranges after shape (shape.splay tree.nodes.pieceSize offset))
    (within : offset ≤ shape.weight tree.nodes.pieceSize) :
    after.nodes.document (shape.splay tree.nodes.pieceSize offset) =
      (tree.nodes.document shape).apply (.splay offset) := by
  have held : after.nodes.held = tree.nodes.held := by
    funext id
    rw [Arena.held, rearranges.keeps.pieceAt, Arena.held]
  -- what covers the offset comes up, and all that stands before it comes to its left
  have cursor : (shape.splay tree.nodes.pieceSize offset).rootPlace =
      Document.placeOf offset 0 (shape.inOrder.map tree.nodes.held) := by
    by_cases ahead : shape = .empty
    · subst ahead
      have nothing := congrArg List.length rearranges.inOrder_eq
      rw [Shape.length_inOrder] at nothing
      rw [Shape.count_eq_zero.mp nothing]
      rfl
    · obtain ⟨left, id, right, splay, covers⟩ := Shape.exists_splay_eq ahead within well.nonempty
      rw [splay, Shape.rootPlace, ← Shape.length_inOrder, Arena.placeOf_covers covers]
  rw [Arena.document, Arena.document, Document.apply, cursor, rearranges.inOrder_eq, held]

theorem WellFormedAs.count_eq (well : tree.WellFormedAs shape) : shape.count = tree.nodes.size :=
  Shape.count_eq well.nodup well.stands.inRange well.full

theorem WellFormedAs.here_eq (well : tree.WellFormedAs shape) :
    (tree.nodes.document shape).here = tree.root := by
  rw [Arena.here_document, well.root_eq]

/-- No edit drops an item or changes one. -/
theorem Depicts.sublist (depicts : tree.Depicts doc) (edit : Edit) :
    doc.items.Sublist (doc.apply edit).items := by
  obtain ⟨shape, well, rfl⟩ := depicts
  cases edit with
  | splay offset => exact List.Sublist.refl _
  | insert side piece =>
    cases root : shape.rootPlace with
    | none =>
      obtain rfl := Shape.rootPlace_eq_none.mp root
      exact List.nil_sublist _
    | some place =>
      rw [Document.apply, Arena.document, root]
      exact List.sublist_insertIdx _ _ _

/-- An edit that the document allows does to the tree what it does to the document. -/
theorem Depicts.perform (depicts : tree.Depicts doc) {edit : Edit} (allowed : doc.Allows edit) :
    ∃ after, edit.perform tree = .ok (after, (doc.apply edit).here) ∧
      after.Depicts (doc.apply edit) ∧ tree.Preserves after := by
  obtain ⟨shape, well, rfl⟩ := depicts
  cases edit with
  | splay offset =>
    have within : offset ≤ shape.weight tree.nodes.pieceSize := by
      rw [← Arena.total_document]
      exact allowed
    obtain ⟨after, steps, splayed, well', rearranges⟩ := well.splayTraced within
    have same := well.document_splay rearranges within
    refine ⟨after, ?_, ⟨_, well', same.symm⟩, ?_, ?_⟩
    · rw [← same, well'.here_eq]
      exact splay_eq_ok.mpr ⟨steps, splayed⟩
    · exact Nat.le_of_eq rearranges.keeps.size.symm
    · intro id inRange
      rw [rearranges.keeps.pieceAt]
  | insert side piece =>
    obtain ⟨nonempty, room, fits⟩ := allowed
    have count := well.count_eq
    rw [Arena.total_document] at fits
    have space : tree.nodes.size < NodeId.limit := by
      rw [Arena.document, List.length_map, Shape.length_inOrder, count] at room
      exact room
    obtain ⟨after, inserted, well', gains⟩ := well.insertBeside side nonempty space fits
    have same := gains.document well.stands.inRange count side
    refine ⟨after, ?_, ⟨_, well', same.symm⟩, ?_, ?_⟩
    · rw [← same, Arena.here_document, Shape.root_insertBeside, Edit.perform, inserted]
      rfl
    · rw [nodeCount, nodeCount, gains.size]
      exact Nat.le_succ _
    · exact gains.pieces

/-- Makes edits one after the other, and gathers the nodes that they return. -/
def performed (tree : Tree) : List Edit → Except Fault (Tree × List (Option NodeId))
  | [] => .ok (tree, [])
  | edit :: edits => do
    let (tree, node) ← edit.perform tree
    let (tree, nodes) ← performed tree edits
    return (tree, node :: nodes)

theorem edited_eq (tree : Tree) (edits : List Edit) :
    tree.edited edits = (tree.performed edits).map (·.1) := by
  induction edits generalizing tree with
  | nil => rfl
  | cons edit edits ih =>
    rw [edited, performed, Edit.apply_eq]
    cases edit.perform tree with
    | error fault => rfl
    | ok result =>
      obtain ⟨middle, node⟩ := result
      refine (ih middle).trans ?_
      dsimp only [ok_bind]
      cases middle.performed edits <;> rfl

theorem edited_of_performed {edits : List Edit} {nodes : List (Option NodeId)}
    (performed : tree.performed edits = .ok (after, nodes)) : tree.edited edits = .ok after := by
  rw [edited_eq, performed]
  rfl

theorem Depicts.performed (depicts : tree.Depicts doc) {edits : List Edit}
    (allowed : doc.AllowsAll edits) :
    ∃ after, tree.performed edits = .ok (after, (doc.run edits).2) ∧
      after.Depicts (doc.run edits).1 ∧ tree.Preserves after ∧
      doc.items.Sublist (doc.run edits).1.items := by
  induction edits generalizing tree doc with
  | nil => exact ⟨tree, rfl, depicts, .refl tree, .refl _⟩
  | cons edit edits ih =>
    obtain ⟨first, rest⟩ := allowed
    obtain ⟨middle, performed, depicts', preserves⟩ := depicts.perform first
    obtain ⟨after, h, depicts'', preserves', sublist⟩ := ih depicts' rest
    refine ⟨after, ?_, depicts'', preserves.trans preserves', (depicts.sublist edit).trans sublist⟩
    rw [Tree.performed, performed, ok_bind]
    dsimp only
    rw [h]
    rfl

theorem Depicts.length_eq (depicts : tree.Depicts doc) : tree.length = .ok doc.total := by
  obtain ⟨shape, well, rfl⟩ := depicts
  rw [well.length_eq, Arena.total_document]

theorem Depicts.nodeCount_eq (depicts : tree.Depicts doc) : tree.nodeCount = doc.items.length := by
  obtain ⟨shape, well, rfl⟩ := depicts
  rw [Arena.document, List.length_map, Shape.length_inOrder, well.count_eq, nodeCount]

/-- A tree is but one document. -/
theorem Depicts.unique (depicts : tree.Depicts doc) {other : Document} (same : tree.Depicts other) :
    doc = other := by
  obtain ⟨shape, well, rfl⟩ := depicts
  obtain ⟨shape', well', rfl⟩ := same
  rw [well.toHasShape.unique well'.toHasShape]

/-- Every well-formed tree is a document, and edits do to it what they do to the document: they meet
no fault where the document allows them, return the nodes at its cursor, and leave all nodes that
were there before with their pieces. -/
theorem session_refines (well : tree.WellFormed) :
    ∃ start, tree.Depicts start ∧ ∀ done more, start.AllowsAll (done ++ more) →
      ∃ middle, tree.performed done = .ok (middle, (start.run done).2) ∧
        tree.edited done = .ok middle ∧ middle.Depicts (start.run done).1 ∧
        middle.length = .ok (start.run done).1.total ∧
        middle.nodeCount = (start.run done).1.items.length ∧
        ∃ after, middle.performed more = .ok (after, ((start.run done).1.run more).2) ∧
          after.Depicts ((start.run done).1.run more).1 ∧ middle.Preserves after ∧
          (start.run done).1.items.Sublist ((start.run done).1.run more).1.items := by
  obtain ⟨shape, well⟩ := well
  have depicts : tree.Depicts (tree.nodes.document shape) := ⟨shape, well, rfl⟩
  refine ⟨_, depicts, ?_⟩
  intro done more allowed
  obtain ⟨first, rest⟩ := allowed.split
  obtain ⟨middle, performed, depicts', -, -⟩ := depicts.performed first
  obtain ⟨after, performed', depicts'', preserves, sublist⟩ := depicts'.performed rest
  exact ⟨middle, performed, edited_of_performed performed, depicts', depicts'.length_eq,
    depicts'.nodeCount_eq, after, performed', depicts'', preserves, sublist⟩

theorem session_refines_three :
    ∃ middle after,
      three.performed [.splay 8, .insert .left (.sized 2)] = .ok (middle, [some 2, some 3]) ∧
      middle.Depicts ⟨[(0, .sized 3), (1, .sized 4), (3, .sized 2), (2, .sized 5)], some 2⟩ ∧
      middle.length = .ok 14 ∧ middle.performed [.splay 7] = .ok (after, [some 1]) ∧
      after.Depicts ⟨[(0, .sized 3), (1, .sized 4), (3, .sized 2), (2, .sized 5)], some 1⟩ := by
  have depicts : three.Depicts ⟨[(0, .sized 3), (1, .sized 4), (2, .sized 5)], some 1⟩ :=
    ⟨_, wellFormedAs_three, by decide⟩
  obtain ⟨start, depicts', runs⟩ := session_refines ⟨_, wellFormedAs_three⟩
  obtain rfl := depicts.unique depicts'
  obtain ⟨middle, performed, -, depicts, length, -, after, performed', depicts', -, -⟩ :=
    runs [.splay 8, .insert .left (.sized 2)] [.splay 7] (by decide)
  exact ⟨middle, after, performed, depicts, length, performed', depicts'⟩

end Tree
end PieceIndex
