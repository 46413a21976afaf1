import PieceIndex.Proofs.Build.Starts
import PieceIndex.Proofs.Check.Verdict
import PieceIndex.Proofs.Insert
import PieceIndex.Proofs.Splay.Exact

/-!
Trees in use. A tree is made from nothing and then edited step by step, by splays to offsets within
the document and by insertions for which there is room. No step meets a fault, and the tree is well
formed at the start and after every step.
-/
namespace PieceIndex

/-- The ways to make a tree from nothing. -/
inductive Start (σ : Type) where
  | empty
  | ofPieces (pieces : List Piece)
  | ofSizes (sizes : List Nat)
  | complete (depth : Nat) (sizeOf : Nat → Nat)
  | leftChain (sizes : List Nat)
  | rightChain (sizes : List Nat)
  | shaped (sizes choices : List Nat)
  | random (dice : Dice σ) (count largest : Nat) (state : σ)

namespace Start
variable {σ : Type}

def build : Start σ → Except Fault Tree
  | .empty => .ok Tree.empty
  | .ofPieces pieces => Tree.ofPieces pieces
  | .ofSizes sizes => Tree.ofSizes sizes
  | .complete depth sizeOf => Tree.complete depth sizeOf
  | .leftChain sizes => Tree.leftChain sizes
  | .rightChain sizes => Tree.rightChain sizes
  | .shaped sizes choices => Tree.shaped sizes choices
  | .random dice count largest state => do
    let (tree, _) ← Tree.random dice count largest state
    return tree

/-- The sizes of the pieces that the tree is to hold; those of a random tree are drawn. -/
def given : Start σ → List Nat
  | .empty => []
  | .ofPieces pieces => pieces.map (·.size)
  | .ofSizes sizes => sizes
  | .complete depth sizeOf => (List.range (Nat.pow 2 depth - 1)).map sizeOf
  | .leftChain sizes => sizes
  | .rightChain sizes => sizes
  | .shaped sizes _ => sizes
  | .random dice count largest state =>
    match Tree.drawPieces dice largest count [] state with
    | .ok (pieces, _) => pieces.map (·.size)
    | .error _ => []

/-- What is drawn lies in the range asked for, and no range is empty. -/
def Fair : Start σ → Prop
  | .random dice count largest _ => dice.Fair ∧ (count = 0 ∨ 1 ≤ largest)
  | _ => True

/-- No piece is empty, and all fit together. -/
structure Admissible (start : Start σ) : Prop where
  nonempty : ∀ size ∈ start.given, 1 ≤ size
  fits : sizeSum id start.given < Size.limit
  room : start.given.length ≤ NodeId.limit
  fair : start.Fair

theorem depth_lt {depth : Nat} (room : Nat.pow 2 depth - 1 ≤ NodeId.limit) : depth < 64 := by
  apply Nat.lt_of_not_le
  intro deep
  have : 2 ^ 64 ≤ Nat.pow 2 depth := Nat.pow_le_pow_right (by omega) deep
  simp only [NodeId.limit] at room
  omega

theorem ofPieces_wellFormed {pieces : List Piece} (nonempty : ∀ piece ∈ pieces, 1 ≤ piece.size)
    (fits : sizeSum Piece.size pieces < Size.limit) (room : pieces.length ≤ NodeId.limit) :
    ∃ tree, Tree.ofPieces pieces = .ok tree ∧ tree.WellFormed := by
  obtain ⟨arena, shape, h, built⟩ := Tree.ofPieces_builds fits room
  exact ⟨_, h, shape, built.wellFormed nonempty fits⟩

theorem sized_nonempty {sizes : List Nat} (nonempty : ∀ size ∈ sizes, 1 ≤ size) :
    ∀ piece ∈ sizes.map Piece.sized, 1 ≤ piece.size := by
  intro piece member
  obtain ⟨size, inside, rfl⟩ := List.mem_map.mp member
  exact nonempty size inside

/-- Whatever way it is made, a tree over pieces that fit together is well formed. -/
theorem Admissible.build {start : Start σ} (admissible : start.Admissible) :
    ∃ tree, start.build = .ok tree ∧ tree.WellFormed := by
  obtain ⟨nonempty, fits, room, fair⟩ := admissible
  cases start with
  | empty => exact ⟨_, rfl, Tree.wellFormed_empty⟩
  | ofPieces pieces =>
    rw [given, sizeSum_map] at fits
    exact ofPieces_wellFormed (fun piece member => nonempty _ (List.mem_map_of_mem member)) fits
      (by simpa [given] using room)
  | ofSizes sizes =>
    exact ofPieces_wellFormed (sized_nonempty nonempty) (by rwa [Tree.sizeSum_sized])
      (by simpa [given] using room)
  | complete depth sizeOf =>
    have shallow := depth_lt (by simpa [given] using room)
    have pieces : (List.range (Nat.pow 2 depth - 1)).map (fun i => Piece.sized (sizeOf i)) =
        (given (.complete depth sizeOf : Start σ)).map Piece.sized := by
      rw [given, List.map_map]
      rfl
    simp only [Start.build, Tree.complete, if_pos shallow, pieces]
    exact ofPieces_wellFormed (sized_nonempty nonempty) (by rwa [Tree.sizeSum_sized])
      (by simpa using room)
  | leftChain sizes =>
    obtain ⟨arena, shape, h, built⟩ := Tree.chain_builds .left sizes (Built.empty #[])
      (by simpa [given] using room) (by simpa [given] using fits)
    exact ⟨_, h, shape, built.wellFormed
      (by simpa [Tree.chained, given] using sized_nonempty nonempty)
      (by rw [Tree.sizeSum_chained]; simpa [given] using fits)⟩
  | rightChain sizes =>
    obtain ⟨arena, shape, h, built⟩ := Tree.chain_builds .right sizes.reverse (Built.empty #[])
      (by simpa [given] using room) (by simpa [given] using fits)
    exact ⟨_, h, shape, built.wellFormed
      (by simpa [Tree.chained, given] using sized_nonempty nonempty)
      (by rw [Tree.sizeSum_chained]; simpa [given] using fits)⟩
  | shaped sizes choices =>
    rw [given] at nonempty fits room
    obtain ⟨arena, taken, shape, h, built⟩ := Tree.ofSplit_builds
      (Build.fair_pickChoice choices.toArray)
      (by rwa [Tree.sizeSum_sized]) (by simpa using room) 0
    refine ⟨⟨arena, shape.root⟩, ?_, shape, built.wellFormed (sized_nonempty nonempty)
      (by rwa [Tree.sizeSum_sized])⟩
    rw [Start.build, Tree.shaped, h]
    rfl
  | random dice count largest state =>
    obtain ⟨fair, some⟩ := fair
    obtain ⟨pieces, drawnState, drawn, -, -⟩ := fair.drawPieces count some [] state
    rw [List.reverse_nil, List.nil_append] at drawn
    have sizes : (Start.random dice count largest state).given = pieces.map (·.size) := by
      rw [given, drawn]
    rw [sizes] at nonempty fits room
    rw [sizeSum_map] at fits
    obtain ⟨arena, last, shape, h, built⟩ :=
      Tree.random_builds fair drawn fits (by simpa using room)
    refine ⟨⟨arena, shape.root⟩, ?_, shape, built.wellFormed
      (fun piece member => nonempty _ (List.mem_map_of_mem member)) fits⟩
    rw [Start.build, h]
    rfl

end Start

/-- A condition on what a computation gives, which holds if it meets a fault. -/
instance decidableOfResult {α : Type} {p : α → Prop} [∀ a, Decidable (p a)] :
    (x : Except Fault α) → Decidable (∀ a, x = .ok a → p a)
  | .error _ => isTrue nofun
  | .ok a => decidable_of_iff (p a) ⟨fun h _ same => by cases same; exact h, fun h => h a rfl⟩

/-- A change to a tree in use. -/
inductive Edit where
  | splay (offset : Nat)
  | insert (side : Side) (piece : Piece)
  deriving DecidableEq, Repr

namespace Edit

def apply (tree : Tree) : Edit → Except Fault Tree
  | .splay offset => do
    let (tree, _) ← tree.splay offset
    return tree
  | .insert side piece => do
    let (tree, _) ← tree.insertBeside side piece
    return tree

/-- The offset is within the document; there is room for the piece, which is not empty. -/
def Allowed (tree : Tree) : Edit → Prop
  | .splay offset => ∀ length, tree.length = .ok length → offset ≤ length
  | .insert _ piece =>
    1 ≤ piece.size ∧ tree.nodeCount < NodeId.limit ∧
      ∀ length, tree.length = .ok length → length + piece.size < Size.limit

instance (tree : Tree) : (edit : Edit) → Decidable (edit.Allowed tree)
  | .splay offset =>
    inferInstanceAs (Decidable (∀ length, tree.length = .ok length → offset ≤ length))
  | .insert _ piece => inferInstanceAs (Decidable (1 ≤ piece.size ∧ tree.nodeCount < NodeId.limit ∧
      ∀ length, tree.length = .ok length → length + piece.size < Size.limit))

end Edit

namespace Tree
variable {tree : Tree}

/-- An edit that is allowed meets no fault and keeps a tree well formed. -/
theorem WellFormed.apply (well : tree.WellFormed) {edit : Edit} (allowed : edit.Allowed tree) :
    ∃ after, edit.apply tree = .ok after ∧ after.WellFormed := by
  obtain ⟨shape, well⟩ := well
  have length := well.length_eq
  cases edit with
  | splay offset =>
    obtain ⟨after, steps, h, well', -⟩ := well.splayTraced (allowed _ length)
    refine ⟨after, ?_, _, well'⟩
    rw [Edit.apply, splay_eq_ok.mpr ⟨steps, h⟩]
    rfl
  | insert side piece =>
    obtain ⟨nonempty, room, fits⟩ := allowed
    obtain ⟨after, h, well', -⟩ := well.insertBeside side nonempty room (fits _ length)
    refine ⟨after, ?_, _, well'⟩
    rw [Edit.apply, h]
    rfl

/-- Makes edits one after the other. -/
def edited (tree : Tree) : List Edit → Except Fault Tree
  | [] => .ok tree
  | edit :: edits => do
    let tree ← edit.apply tree
    edited tree edits

/-- Every edit is allowed when its turn comes. -/
def AllAllowed (tree : Tree) : List Edit → Prop
  | [] => True
  | edit :: edits =>
    edit.Allowed tree ∧ ∀ after, edit.apply tree = .ok after → AllAllowed after edits

instance decidableAllAllowed : (edits : List Edit) → (tree : Tree) →
    Decidable (tree.AllAllowed edits)
  | [], _ => isTrue trivial
  | edit :: edits, tree =>
    have (after : Tree) : Decidable (after.AllAllowed edits) := decidableAllAllowed edits after
    inferInstanceAs (Decidable (edit.Allowed tree ∧
      ∀ after, edit.apply tree = .ok after → after.AllAllowed edits))

theorem WellFormed.edited (well : tree.WellFormed) {edits : List Edit}
    (allowed : tree.AllAllowed edits) :
    ∃ after, tree.edited edits = .ok after ∧ after.WellFormed := by
  induction edits generalizing tree with
  | nil => exact ⟨tree, rfl, well⟩
  | cons edit edits ih =>
    obtain ⟨middle, applied, well'⟩ := well.apply allowed.1
    obtain ⟨after, h, well''⟩ := ih well' (allowed.2 middle applied)
    exact ⟨after, by rw [Tree.edited, applied, ok_bind, h], well''⟩

theorem AllAllowed.take {edits rest : List Edit} (allowed : tree.AllAllowed (edits ++ rest)) :
    tree.AllAllowed edits := by
  induction edits generalizing tree with
  | nil => trivial
  | cons edit edits ih => exact ⟨allowed.1, fun after h => ih (allowed.2 after h)⟩

/-- From any start over pieces that fit together, edits that are allowed when their turn comes meet
no fault; the tree is well formed after each of them, and the check then finds nothing wrong. -/
theorem session_wellFormed {σ : Type} {start : Start σ} (admissible : start.Admissible) :
    ∃ tree, start.build = .ok tree ∧ tree.WellFormed ∧ tree.check = .ok (.ok ()) ∧
      ∀ edits, tree.AllAllowed edits → ∀ done rest, edits = done ++ rest →
        ∃ after, tree.edited done = .ok after ∧ after.WellFormed ∧ after.check = .ok (.ok ()) := by
  obtain ⟨tree, built, well⟩ := admissible.build
  refine ⟨tree, built, well, ?_, ?_⟩
  · obtain ⟨shape, well⟩ := well
    exact well.check
  · rintro edits allowed done rest rfl
    obtain ⟨after, h, shape, well'⟩ := well.edited allowed.take
    exact ⟨after, h, ⟨shape, well'⟩, well'.check⟩

theorem session_wellFormed_three :
    ∃ tree, (Start.ofSizes [3, 4, 5] : Start Unit).build = .ok tree ∧
      ∃ after, tree.edited [.splay 5, .insert .left (.sized 2), .splay 14] = .ok after ∧
        after.WellFormed ∧ after.check = .ok (.ok ()) := by
  have admissible : (Start.ofSizes [3, 4, 5] : Start Unit).Admissible :=
    ⟨by decide, by decide, by decide, trivial⟩
  obtain ⟨tree, built, -, -, runs⟩ := session_wellFormed admissible
  refine ⟨tree, built, runs [.splay 5, .insert .left (.sized 2), .splay 14] ?_ _ [] rfl⟩
  cases built.symm.trans rfl
  decide

end Tree
end PieceIndex
