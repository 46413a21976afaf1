import PieceIndex.Proofs.Build.Starts

/-!
Trees whose form is told by a list of choices. Whatever the choices are, the tree that comes out
holds the sizes in their order. Every form can be asked for: with the offset of each subtree's root
in the range that the subtree holds, from the top one on and left before right, each choice is taken
once and roots its range as the form does.
-/
namespace PieceIndex

namespace Shape

/-- How far into its range each subtree has its root, each before those of the two sides. -/
def offsets : Shape → List Nat
  | .empty => []
  | .node left _ right => left.count :: (left.offsets ++ right.offsets)

@[simp] theorem length_offsets (shape : Shape) : shape.offsets.length = shape.count := by
  induction shape with
  | empty => rfl
  | node left id right ihl ihr =>
    rw [offsets, List.length_cons, List.length_append, ihl, ihr, count]
    omega

end Shape

namespace Build

/-- A choice that has not been reached before is the next one to be taken. -/
theorem pickChoice_of_found {choices : List Nat} {taken choice : Nat}
    (found : choices[taken]? = some choice) (low high : Nat) :
    Tree.pickChoice choices.toArray taken low high =
      .ok (low + choice % (high - low), taken + 1) := by
  obtain ⟨inside, -⟩ := List.getElem?_eq_some_iff.mp found
  simp only [Tree.pickChoice, List.size_toArray, Nat.mod_eq_of_lt inside, List.getElem?_toArray,
    found]

/-- Where the offsets of a form are the choices that come next, the ranges asked for are those of
the form. -/
theorem asks_offsets {choices rest : List Nat} (form : Shape) {taken : Nat}
    (ahead : choices.drop taken = form.offsets ++ rest) (low : Nat) :
    Asks (Tree.pickChoice choices.toArray) low (low + form.count) taken (form.ranges low)
      (taken + form.count) := by
  induction form generalizing taken rest low with
  | empty => exact .empty (Nat.le_refl low) taken
  | node left id right ihl ihr =>
    rw [Shape.offsets, List.cons_append, List.append_assoc] at ahead
    have next : choices[taken]? = some left.count := by
      rw [← List.head?_drop, ahead, List.head?_cons]
    have further : choices.drop (taken + 1) = left.offsets ++ (right.offsets ++ rest) := by
      rw [← List.drop_drop, ahead, List.drop_succ_cons, List.drop_zero]
    have beyond : choices.drop (taken + 1 + left.count) = right.offsets ++ rest := by
      rw [← List.drop_drop, further, ← left.length_offsets, List.drop_left]
    have first := ihl further low
    have second := ihr beyond (low + left.count + 1)
    have width : low + (Shape.node left id right).count = low + left.count + 1 + right.count := by
      rw [Shape.count]
      omega
    have used : taken + (Shape.node left id right).count =
        taken + 1 + left.count + right.count := by
      rw [Shape.count]
      omega
    have picked := pickChoice_of_found next low (low + (Shape.node left id right).count)
    rw [Nat.add_sub_cancel_left, Nat.mod_eq_of_lt (by rw [Shape.count]; omega)] at picked
    have parts : (Shape.node left id right).ranges low =
        (low, low + (Shape.node left id right).count) ::
          (left.ranges low ++ right.ranges (low + left.count + 1)) := rfl
    rw [width] at picked
    rw [parts, width, used]
    exact .split picked (by omega) (by omega) first second

end Build

namespace Tree

/-- The tree of a list of choices, once the ranges that they ask for are known. -/
theorem shaped_of_asks {sizes choices : List Nat} {ranges : List (Nat × Nat)} {last : Nat}
    (fits : sizeSum id sizes < Size.limit) (room : sizes.length ≤ NodeId.limit)
    (asks : Build.Asks (pickChoice choices.toArray) 0 sizes.length 0 ranges last) :
    ∃ tree shape, shaped sizes choices = .ok tree ∧ tree.HasShape shape ∧
      shape.inOrder.map tree.nodes.pieceSize = sizes ∧ ranges = shape.ranges 0 := by
  have fits' : sizeSum Piece.size (sizes.map Piece.sized) < Size.limit := by rwa [sizeSum_sized]
  have room' : (#[] : Arena).size + (sizes.map Piece.sized).length ≤ NodeId.limit := by
    simpa using room
  rw [← List.length_map Piece.sized] at asks
  obtain ⟨arena, shape, split, built, asked⟩ := asks.builds fits' room'
  refine ⟨⟨arena, shape.root⟩, shape, ?_, built.hasShape, built.sizes_of_sized, asked⟩
  rw [shaped, ofSplit, split]
  rfl

/-- Whatever is chosen, the tree holds the sizes in their order, and every form over so many nodes
is made by the choices that are its offsets. -/
theorem shaped_reaches {sizes : List Nat} (fits : sizeSum id sizes < Size.limit)
    (room : sizes.length ≤ NodeId.limit) :
    (∀ choices, ∃ tree shape, shaped sizes choices = .ok tree ∧ tree.HasShape shape ∧
      shape.inOrder.map tree.nodes.pieceSize = sizes) ∧
    ∀ form : Shape, form.count = sizes.length →
      form.offsets.length = sizes.length ∧
        ∃ tree shape, shaped sizes form.offsets = .ok tree ∧
          tree.HasShape shape ∧ shape.Alike form := by
  constructor
  · intro choices
    obtain ⟨ranges, last, asks⟩ := (Build.fair_pickChoice choices.toArray).asks 0 sizes.length 0
    obtain ⟨tree, shape, h, hasShape, held, -⟩ := shaped_of_asks fits room asks
    exact ⟨tree, shape, h, hasShape, held⟩
  · intro form count
    have ahead : form.offsets.drop 0 = form.offsets ++ [] := by rw [List.drop_zero, List.append_nil]
    have asks := Build.asks_offsets form ahead 0
    rw [Nat.zero_add, count] at asks
    obtain ⟨tree, shape, h, hasShape, -, asked⟩ := shaped_of_asks fits room asks
    exact ⟨by rw [Shape.length_offsets, count], tree, shape, h, hasShape,
      Shape.alike_of_ranges asked.symm⟩

/-- A root with a bent side: the last node stands above the first, which stands above the second. -/
def bent : Shape := .node (.node .empty 0 (.node .empty 0 .empty)) 0 .empty

theorem shaped_reaches_bent :
    (sizeSum id [5, 0, 8] < Size.limit ∧ [5, 0, 8].length ≤ NodeId.limit ∧ bent.count = 3) ∧
      (∃ tree shape, shaped [5, 0, 8] [7, 2] = .ok tree ∧ tree.HasShape shape ∧
        shape.inOrder.map tree.nodes.pieceSize = [5, 0, 8]) ∧
      ∃ tree shape, shaped [5, 0, 8] [2, 0, 0] = .ok tree ∧
        tree.HasShape shape ∧ shape.Alike bent := by
  have fits : sizeSum id [5, 0, 8] < Size.limit := by decide
  have room : [5, 0, 8].length ≤ NodeId.limit := by decide
  obtain ⟨ordered, reached⟩ := shaped_reaches fits room
  exact ⟨⟨fits, room, rfl⟩, ordered [7, 2], (reached bent rfl).2⟩

end Tree
end PieceIndex
