import PieceIndex.Proofs.Build.Shapes

/-!
The trees that can be made from nothing. Each maker is the recursion with its own way of picking, or
a chain of joins; so over pieces that are not empty and fit together it gives a well-formed tree
that holds them in order.
-/
namespace PieceIndex

/-- A tree made from nothing over pieces that are not empty is well formed. -/
theorem Built.wellFormed {arena : Arena} {pieces : List Piece} {shape : Shape}
    (built : Built #[] arena pieces shape) (nonempty : ∀ piece ∈ pieces, 1 ≤ piece.size)
    (fits : sizeSum Piece.size pieces < Size.limit) :
    Tree.WellFormedAs ⟨arena, shape.root⟩ shape := by
  refine .of_stands built.stands (fun id h => built.mem_inOrder.mpr ⟨Nat.zero_le _, h⟩)
    (fun id h => ?_) (by rwa [built.weight_eq])
  have held : arena.pieceAt id ∈ pieces.map some := built.pieces ▸ List.mem_map_of_mem h
  obtain ⟨piece, member, found⟩ := List.mem_map.mp held
  rw [Arena.pieceSize_eq, ← found]
  exact nonempty piece member

namespace Build

theorem fair_pickMiddle : Fair pickMiddle := fun state low high h =>
  ⟨middle low high, (), rfl, by simp only [middle]; omega, by simp only [middle]; omega⟩

theorem fair_pickChoice (choices : Array Nat) : Fair (Tree.pickChoice choices) := by
  intro taken low high h
  rw [Tree.pickChoice]
  cases choices[taken % choices.size]? with
  | none => exact ⟨_, _, rfl, by simp only [middle]; omega, by simp only [middle]; omega⟩
  | some choice =>
    have := Nat.mod_lt choice (show high - low > 0 by omega)
    exact ⟨_, _, rfl, by omega, by omega⟩

end Build

namespace Dice
variable {σ : Type}

/-- The dice give a number from every range that is not empty. -/
def Fair (dice : Dice σ) : Prop :=
  ∀ state low high, low ≤ high →
    ∃ value state', dice.between state low high = .ok (value, state') ∧ low ≤ value ∧ value ≤ high

theorem Fair.pick {dice : Dice σ} (fair : dice.Fair) :
    Build.Fair fun state low high => dice.between state low (high - 1) := by
  intro state low high h
  obtain ⟨index, state', drawn, hlow, hhigh⟩ := fair state low (high - 1) (by omega)
  exact ⟨index, state', drawn, hlow, by omega⟩

theorem Fair.drawPieces {dice : Dice σ} (fair : dice.Fair) {largest : Nat} (count : Nat)
    (room : count = 0 ∨ 1 ≤ largest) (pieces : List Piece) (state : σ) :
    ∃ drawn state', Tree.drawPieces dice largest count pieces state =
      .ok (pieces.reverse ++ drawn, state') ∧ drawn.length = count ∧
      ∀ piece ∈ drawn, 1 ≤ piece.size ∧ piece.size ≤ largest := by
  induction count generalizing pieces state with
  | zero => exact ⟨[], state, by simp [Tree.drawPieces], rfl, nofun⟩
  | succ count ih =>
    obtain ⟨size, state, drawn, least, most⟩ := fair state 1 largest (by omega)
    obtain ⟨rest, state', h, length, sizes⟩ := ih (by omega) (Piece.sized size :: pieces) state
    refine ⟨Piece.sized size :: rest, state', ?_, by simp [length],
      List.forall_mem_cons.mpr ⟨⟨least, most⟩, sizes⟩⟩
    rw [Tree.drawPieces, drawn, ok_bind]
    simpa using h

end Dice

namespace Tree

theorem ofSplit_builds {σ : Type} {pick : Build.Pick σ} (fair : Build.Fair pick)
    {pieces : List Piece} (fits : sizeSum Piece.size pieces < Size.limit)
    (room : pieces.length ≤ NodeId.limit) (picking : σ) :
    ∃ arena picking' shape, ofSplit pieces pick picking = .ok (⟨arena, shape.root⟩, picking') ∧
      Built #[] arena pieces shape := by
  obtain ⟨arena, picking', shape, h, built⟩ :=
    Build.recurse_builds fair fits picking #[] (by simpa using room)
  refine ⟨arena, picking', shape, ?_, built⟩
  rw [ofSplit, Arena.splitWith_eq, h]
  rfl

/-- Whatever pieces are drawn, the random tree holds them if they fit together. -/
theorem random_builds {σ : Type} {dice : Dice σ} (fair : dice.Fair) {count largest : Nat}
    {state drawnState : σ} {pieces : List Piece}
    (drawn : drawPieces dice largest count [] state = .ok (pieces, drawnState))
    (fits : sizeSum Piece.size pieces < Size.limit) (room : pieces.length ≤ NodeId.limit) :
    ∃ arena last shape, random dice count largest state = .ok (⟨arena, shape.root⟩, last) ∧
      Built #[] arena pieces shape := by
  obtain ⟨arena, last, shape, h, built⟩ := ofSplit_builds fair.pick fits room drawnState
  refine ⟨arena, last, shape, ?_, built⟩
  rw [random, drawn, ok_bind]
  exact h

theorem ofPieces_builds {pieces : List Piece} (fits : sizeSum Piece.size pieces < Size.limit)
    (room : pieces.length ≤ NodeId.limit) :
    ∃ arena shape, ofPieces pieces = .ok ⟨arena, shape.root⟩ ∧ Built #[] arena pieces shape := by
  obtain ⟨arena, picking', shape, h, built⟩ :=
    Build.recurse_builds Build.fair_pickMiddle fits () #[] (by simpa using room)
  refine ⟨arena, shape, ?_, built⟩
  rw [ofPieces, Arena.balanced, Arena.splitWith_eq, h]
  rfl

theorem sizeSum_sized (sizes : List Nat) :
    sizeSum Piece.size (sizes.map Piece.sized) = sizeSum id sizes :=
  sizeSum_map Piece.sized sizes

/-- The pieces of a chain in their order. Going on to the left adds pieces at the end of the
document, going on to the right at its beginning. -/
def chained (side : Side) (sizes : List Nat) (pieces : List Piece) : List Piece :=
  match side with
  | .left => pieces ++ sizes.map Piece.sized
  | .right => (sizes.map Piece.sized).reverse ++ pieces

theorem sizeSum_chained (side : Side) (sizes : List Nat) (pieces : List Piece) :
    sizeSum Piece.size (chained side sizes pieces) =
      sizeSum Piece.size pieces + sizeSum id sizes := by
  cases side with
  | left => rw [chained, sizeSum_append, sizeSum_sized]
  | right => rw [chained, sizeSum_append, sizeSum_reverse, sizeSum_sized, Nat.add_comm]

theorem chain_builds (side : Side) (sizes : List Nat) {arena : Arena} {pieces : List Piece}
    {shape : Shape} (built : Built #[] arena pieces shape)
    (room : arena.size + sizes.length ≤ NodeId.limit)
    (fits : sizeSum Piece.size pieces + sizeSum id sizes < Size.limit) :
    ∃ after shape', chain side sizes arena shape.root = .ok ⟨after, shape'.root⟩ ∧
      Built #[] after (chained side sizes pieces) shape' := by
  induction sizes generalizing arena pieces shape with
  | nil => exact ⟨arena, shape, rfl, by cases side <;> simpa [chained] using built⟩
  | cons size sizes ih =>
    rw [List.length_cons] at room
    rw [sizeSum_cons] at fits
    have nothing : sizeSum Piece.size [] < Size.limit := by simp [Size.limit]
    cases side with
    | left =>
      obtain ⟨last, joined, grown⟩ :=
        built.join (Built.empty arena) (Piece.sized size) (by omega) (by omega) nothing
      have count : last.size = arena.size + 1 := by simpa [built.size] using grown.size
      obtain ⟨after, shape', h, built'⟩ :=
        ih grown (by omega) (by simp [Piece.sized, Piece.frozen] at fits ⊢; omega)
      refine ⟨after, shape', ?_, by simpa [chained] using built'⟩
      rw [chain, show arena.join shape.root (Piece.sized size) none = _ from joined, ok_bind]
      exact h
    | right =>
      obtain ⟨last, joined, grown⟩ :=
        (Built.empty #[]).join built (Piece.sized size) (by omega) nothing (by omega)
      have count : last.size = arena.size + 1 := by simpa [built.size] using grown.size
      obtain ⟨after, shape', h, built'⟩ :=
        ih grown (by omega) (by simp [Piece.sized, Piece.frozen] at fits ⊢; omega)
      refine ⟨after, shape', ?_, by simpa [chained] using built'⟩
      rw [chain, show arena.join none (Piece.sized size) shape.root = _ from joined, ok_bind]
      exact h

end Tree
end PieceIndex
