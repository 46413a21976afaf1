import PieceIndex.Proofs.Arena.Growth
import PieceIndex.Proofs.Build.Recursion
import PieceIndex.Sample

/-!
What is built stands by itself. Nodes are added one by one, each after all nodes below it, so that
their ids follow one another in post-order; and from left to right the tree holds the pieces as they
were given. With picks from the ranges only two limits can stop the building, that of the sizes and
that of the ids.
-/
namespace PieceIndex

namespace Shape

/-- The nodes, each after all nodes below it. -/
def postOrder : Shape → List NodeId
  | .empty => []
  | .node left id right => left.postOrder ++ (right.postOrder ++ [id])

/-- The places that each subtree holds, from `low` on, each range before those of the two sides. -/
def ranges (low : Nat) : Shape → List (Nat × Nat)
  | .empty => []
  | .node left _ right =>
    (low, low + (left.count + 1 + right.count)) ::
      (left.ranges low ++ right.ranges (low + left.count + 1))

theorem mem_postOrder {shape : Shape} {id : NodeId} :
    id ∈ shape.postOrder ↔ id ∈ shape.inOrder := by
  induction shape with
  | empty => simp [postOrder, inOrder]
  | node left top right ihl ihr =>
    simp only [postOrder, inOrder, List.mem_append, List.mem_cons, ihl, ihr]
    grind

theorem length_ranges (low : Nat) (shape : Shape) : (shape.ranges low).length = shape.count := by
  induction shape generalizing low with
  | empty => rfl
  | node left top right ihl ihr =>
    rw [ranges, List.length_cons, List.length_append, ihl, ihr, count]
    omega

/-- The two shapes have the same form: they differ only in the nodes that stand in them. -/
def Alike : Shape → Shape → Prop
  | .empty, .empty => True
  | .node left _ right, .node left' _ right' => Alike left left' ∧ Alike right right'
  | _, _ => False

/-- Where the left side ends can be told from the ranges: those of the left side, if there are any,
come first and begin where the whole does, and those of the right side begin later. -/
theorem count_eq_of_ranges {low : Nat} {left left' right right' : Shape}
    (same : left.ranges low ++ right.ranges (low + left.count + 1) =
      left'.ranges low ++ right'.ranges (low + left'.count + 1)) : left.count = left'.count := by
  -- beside nothing on the left, the ranges on the right begin beyond `low`
  have later (shape : Shape) (high : Nat) (ranges : List (Nat × Nat)) :
      shape.ranges (low + 1) ≠ (low, high) :: ranges := by
    intro equal
    cases shape with
    | empty => cases equal
    | node l id r =>
      have first := congrArg Prod.fst (List.cons.inj equal).1
      dsimp only at first
      omega
  cases left with
  | empty =>
    cases left' with
    | empty => rfl
    | node l id r => exact absurd same (later right _ _)
  | node l id r =>
    cases left' with
    | empty => exact absurd same.symm (later right' _ _)
    | node l' id' r' =>
      have ends := congrArg Prod.snd (List.cons.inj same).1
      dsimp only at ends
      rw [count, count]
      omega

/-- The ranges tell the form of a shape. -/
theorem alike_of_ranges {low : Nat} {s t : Shape} (same : s.ranges low = t.ranges low) :
    s.Alike t := by
  induction s generalizing t low with
  | empty =>
    cases t with
    | empty => trivial
    | node l id r => cases same
  | node left top right ihl ihr =>
    cases t with
    | empty => cases same
    | node left' top' right' =>
      have below := (List.cons.inj same).2
      have count := count_eq_of_ranges below
      obtain ⟨samel, samer⟩ :=
        List.append_inj below (by rw [length_ranges, length_ranges, count])
      rw [count] at samer
      exact ⟨ihl samel, ihr samer⟩

end Shape

/-- `after` is `before` with nodes added that hold the pieces in a tree of the given shape. -/
structure Built (before after : Arena) (pieces : List Piece) (shape : Shape) : Prop where
  stands : after.Stands shape
  size : after.size = before.size + pieces.length
  old : ∀ i < before.size, after[i]? = before[i]?
  ids : shape.postOrder = List.range' before.size pieces.length
  pieces : shape.inOrder.map after.pieceAt = pieces.map some

namespace Built
variable {before middle after : Arena} {pieces lefts rights : List Piece} {shape left right : Shape}

theorem empty (arena : Arena) : Built arena arena [] .empty :=
  ⟨Arena.hangs_empty arena none, rfl, fun _ _ => rfl, rfl, rfl⟩

theorem mem_inOrder (built : Built before after pieces shape) {id : Nat} :
    id ∈ shape.inOrder ↔ before.size ≤ id ∧ id < after.size := by
  rw [← Shape.mem_postOrder, built.ids, List.mem_range'_1, built.size]

theorem count_eq (built : Built before after pieces shape) : shape.count = pieces.length := by
  rw [← Shape.length_inOrder, ← List.length_map (f := after.pieceAt), built.pieces, List.length_map]

theorem hasShape (built : Built before after pieces shape) :
    Tree.HasShape ⟨after, shape.root⟩ shape :=
  ⟨rfl, Arena.links_iff.mpr ⟨built.stands.inRange, built.stands.wired⟩, built.stands.nodup⟩

/-- From left to right the nodes have the sizes of the pieces. -/
theorem sizes_eq (built : Built before after pieces shape) :
    shape.inOrder.map after.pieceSize = pieces.map Piece.size := by
  let sizeAt (piece : Option Piece) : Nat := (piece.map (·.size)).getD 0
  calc shape.inOrder.map after.pieceSize
      = (shape.inOrder.map after.pieceAt).map sizeAt := by
        rw [List.map_map]
        exact List.map_congr_left fun i _ => Arena.pieceSize_eq after i
    _ = (pieces.map some).map sizeAt := by rw [built.pieces]
    _ = pieces.map Piece.size := by
        rw [List.map_map]
        rfl

theorem sizes_of_sized {sizes : List Nat}
    (built : Built before after (sizes.map Piece.sized) shape) :
    shape.inOrder.map after.pieceSize = sizes := by
  rw [built.sizes_eq, List.map_map]
  exact List.map_id sizes

theorem weight_eq (built : Built before after pieces shape) :
    shape.weight after.pieceSize = sizeSum Piece.size pieces := by
  calc sizeSum after.pieceSize shape.inOrder
      = sizeSum id (shape.inOrder.map after.pieceSize) := by
        rw [sizeSum_map]
        rfl
    _ = sizeSum id (pieces.map Piece.size) := by rw [built.sizes_eq]
    _ = sizeSum Piece.size pieces := sizeSum_map Piece.size pieces

section
variable (first : Built before middle lefts left) (second : Built middle after rights right)
include first second

/-- What was built first stands while more is built. -/
theorem stands_after : after.Stands left :=
  first.stands.congr fun i h => second.old i (first.mem_inOrder.mp h).2

theorem weight_after : left.weight after.pieceSize = sizeSum Piece.size lefts := by
  rw [← first.weight_eq, Shape.weight, Shape.weight]
  exact sizeSum_congr fun i h => Arena.pieceSize_congr (second.old i (first.mem_inOrder.mp h).2)

theorem apart : ∀ i ∈ left.inOrder, i ∉ right.inOrder := fun i h h' => by
  have := (first.mem_inOrder.mp h).2
  have := (second.mem_inOrder.mp h').1
  omega

/-- Two trees built one after the other are joined around a piece that stands between theirs. -/
theorem join (piece : Piece) (room : after.size < NodeId.limit)
    (fitsl : sizeSum Piece.size lefts < Size.limit)
    (fitsr : sizeSum Piece.size rights < Size.limit) :
    ∃ last, after.join left.root piece right.root = .ok (last, after.size) ∧
      Built before last (lefts ++ piece :: rights) (.node left after.size right) := by
  have grown := second.size
  have inLeft {i : Nat} (h : i ∈ left.inOrder) := first.mem_inOrder.mp h
  have inRight {i : Nat} (h : i ∈ right.inOrder) := second.mem_inOrder.mp h
  obtain ⟨last, joined, stands, gains⟩ := (first.stands_after second).join second.stands
    (first.apart second) piece room (by rwa [first.weight_after second])
    (by rwa [second.weight_eq])
  have size : last.size = before.size + (lefts ++ piece :: rights).length := by
    rw [gains.size, second.size, first.size, List.length_append, List.length_cons]
    omega
  refine ⟨last, joined, stands, size, fun i h => ?_, ?_, ?_⟩
  · have inMiddle : i < middle.size := by rw [first.size]; omega
    have inAfter : i < after.size := by rw [second.size]; omega
    rw [gains.rest i inAfter, second.old i inMiddle, first.old i h]
    rw [List.mem_append]
    rintro (h' | h')
    · exact absurd (inLeft h').1 (by omega)
    · exact absurd (inRight h').1 (by omega)
  · rw [Shape.postOrder, first.ids, second.ids, grown, first.size, List.length_append,
      List.length_cons, ← List.range'_append_1, List.range'_1_concat]
  · have keptl : left.inOrder.map last.pieceAt = left.inOrder.map middle.pieceAt := by
      refine List.map_congr_left fun i h => ?_
      have := (inLeft h).2
      rw [gains.pieces i (by omega), Arena.pieceAt, Arena.pieceAt, second.old i this]
    have keptr : right.inOrder.map last.pieceAt = right.inOrder.map after.pieceAt :=
      List.map_congr_left fun i h => gains.pieces i (inRight h).2
    rw [Shape.inOrder, List.map_append, List.map_cons, keptl, keptr, gains.added, first.pieces,
      second.pieces, List.map_append, List.map_cons]

theorem join_of_ge (piece : Piece) (room : after.size < NodeId.limit)
    (large : Size.limit ≤ sizeSum Piece.size lefts ∨ Size.limit ≤ sizeSum Piece.size rights) :
    after.join left.root piece right.root = .error .sumOverflow := by
  rw [← first.weight_after second, ← second.weight_eq] at large
  exact (first.stands_after second).join_of_ge second.stands (first.apart second) piece room large

end

end Built

namespace Build
variable {σ : Type}

theorem extract_of_le {α : Type} (items : List α) {low high : Nat} (nothing : high ≤ low) :
    items.extract low high = [] := by
  rw [List.extract_eq_take_drop, Nat.sub_eq_zero_of_le nothing, List.take_zero]

theorem extract_whole {α : Type} (items : List α) : items.extract 0 items.length = items := by
  rw [List.extract_eq_take_drop, List.drop_zero, Nat.sub_zero, List.take_length]

theorem extract_around {α : Type} {items : List α} {low index high : Nat} (hlow : low ≤ index)
    (hhigh : index < high) {item : α} (found : items[index]? = some item) :
    items.extract low high =
      items.extract low index ++ item :: items.extract (index + 1) high := by
  obtain ⟨inside, rfl⟩ := List.getElem?_eq_some_iff.mp found
  simp only [List.extract_eq_take_drop]
  have width : high - low = (index - low) + (high - (index + 1) + 1) := by omega
  rw [width, List.take_add, List.drop_drop, Nat.add_sub_cancel' hlow,
    List.drop_eq_getElem_cons inside, List.take_succ_cons]

theorem length_extract {pieces : List Piece} (low : Nat) {high : Nat}
    (hhigh : high ≤ pieces.length) :
    (pieces.extract low high).length = high - low := by
  rw [List.extract_eq_take_drop, List.length_take, List.length_drop]
  omega

/-- What comes of building the pieces from place `low` on: a tree over them, whose subtrees hold the
ranges that were asked for, or one of the two limits is met. -/
inductive Outcome (before : Arena) (pieces : List Piece) (low : Nat) (ranges : List (Nat × Nat))
    (last : σ) : Except Fault (Arena × σ × Option NodeId) → Prop
  | built {after : Arena} {shape : Shape} (built : Built before after pieces shape)
      (asked : ranges = shape.ranges low) : Outcome before pieces low ranges last
      (.ok (after, last, shape.root))
  | overfull (large : Size.limit ≤ sizeSum Piece.size pieces) :
      Outcome before pieces low ranges last (.error .sumOverflow)
  | crowded (slot : Nat) (full : NodeId.limit < before.size + pieces.length) :
      Outcome before pieces low ranges last (.error (.noNodeId slot))

/-- The two sides are built one after the other, so what stops one of them stops the whole. -/
theorem Asks.outcome {pick : Pick σ} {pieces : List Piece} {low high : Nat} {picking last : σ}
    {ranges : List (Nat × Nat)} (asks : Asks pick low high picking ranges last)
    (hhigh : high ≤ pieces.length) (arena : Arena) :
    Outcome arena (pieces.extract low high) low ranges last
      (recurse pick pieces low high picking arena) := by
  induction asks generalizing arena with
  | @empty low high nothing picking =>
    rw [recurse_empty pick pieces nothing, extract_of_le pieces nothing]
    exact .built (Built.empty arena) rfl
  | @split low index high picking first second last lefts rights picked least most left right ihl
      ihr =>
    have inside : index < pieces.length := by omega
    have around := extract_around least most (List.getElem?_eq_getElem inside)
    have lengthl := length_extract low (Nat.le_of_lt inside)
    have lengthr := length_extract (index + 1) hhigh
    have length := length_extract low hhigh
    have sum := congrArg (sizeSum Piece.size) around
    rw [sizeSum_append, sizeSum_cons] at sum
    rw [recurse_split picked least most (List.getElem?_eq_getElem inside)]
    have outcomel := ihl (Nat.le_of_lt inside) arena
    generalize recurse pick pieces low index first arena = leftResult at outcomel ⊢
    cases outcomel with
    | overfull large => exact .overfull (by omega)
    | crowded slot full => exact .crowded slot (by omega)
    | @built middle shapel builtl askedl =>
      rw [ok_bind]
      dsimp only
      have sizel := builtl.size
      have countl := builtl.count_eq
      have outcomer := ihr hhigh middle
      generalize recurse pick pieces (index + 1) high second middle = rightResult at outcomer ⊢
      cases outcomer with
      | overfull large => exact .overfull (by omega)
      | crowded slot full => exact .crowded slot (by omega)
      | @built after shaper builtr askedr =>
        rw [ok_bind]
        dsimp only
        have sizer := builtr.size
        have countr := builtr.count_eq
        by_cases room : after.size < NodeId.limit
        · by_cases fits : sizeSum Piece.size (pieces.extract low index) < Size.limit ∧
            sizeSum Piece.size (pieces.extract (index + 1) high) < Size.limit
          · obtain ⟨whole, joined, built⟩ := builtl.join builtr pieces[index] room fits.1 fits.2
            rw [joined, ok_bind]
            refine .built (around ▸ built) ?_
            have middle : low + shapel.count + 1 = index + 1 := by omega
            have end_eq : low + (shapel.count + 1 + shaper.count) = high := by omega
            rw [Shape.ranges, middle, end_eq, askedl, askedr]
          · rw [builtl.join_of_ge builtr pieces[index] room (by omega), error_bind]
            exact .overfull (by omega)
        · rw [Arena.join_of_full (Nat.le_of_not_lt room), error_bind]
          exact .crowded _ (by omega)

/-- What comes of building over all pieces. -/
theorem Asks.outcome_splitWith {pick : Pick σ} {pieces : List Piece} {picking last : σ}
    {ranges : List (Nat × Nat)} (asks : Asks pick 0 pieces.length picking ranges last)
    (arena : Arena) :
    Outcome arena pieces 0 ranges last (arena.splitWith pieces pick picking) := by
  have outcome := asks.outcome (Nat.le_refl _) arena
  rwa [extract_whole, ← Arena.splitWith_eq] at outcome

/-- Where the pieces fit together and there are ids for them, building meets no fault. -/
theorem Asks.builds {pick : Pick σ} {pieces : List Piece} {picking last : σ}
    {ranges : List (Nat × Nat)} (asks : Asks pick 0 pieces.length picking ranges last)
    (fits : sizeSum Piece.size pieces < Size.limit) {arena : Arena}
    (room : arena.size + pieces.length ≤ NodeId.limit) :
    ∃ after shape, arena.splitWith pieces pick picking = .ok (after, last, shape.root) ∧
      Built arena after pieces shape ∧ ranges = shape.ranges 0 := by
  have outcome := asks.outcome_splitWith arena
  generalize arena.splitWith pieces pick picking = result at outcome ⊢
  cases outcome with
  | built built asked => exact ⟨_, _, rfl, built, asked⟩
  | overfull large => exact absurd large (Nat.not_le.mpr fits)
  | crowded slot full => exact absurd full (Nat.not_lt.mpr room)

/-- With fair picks the recursion meets no fault and builds the pieces of its range. -/
theorem recurse_builds {pick : Pick σ} (fair : Fair pick) {pieces : List Piece}
    (fits : sizeSum Piece.size pieces < Size.limit) (picking : σ) (arena : Arena)
    (room : arena.size + pieces.length ≤ NodeId.limit) :
    ∃ after picking' shape,
      recurse pick pieces 0 pieces.length picking arena = .ok (after, picking', shape.root) ∧
        Built arena after pieces shape := by
  obtain ⟨ranges, last, asks⟩ := fair.asks 0 pieces.length picking
  obtain ⟨after, shape, h, built, -⟩ := asks.builds fits room
  exact ⟨after, last, shape, Arena.splitWith_eq .. ▸ h, built⟩

end Build
end PieceIndex
