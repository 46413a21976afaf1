import PieceIndex.Build
import PieceIndex.Random.Dice

/-!
Trees made up for trials: complete ones, chains that lean to one side, shapes given by a list of
choices and shapes drawn at random. Only the sizes of their pieces matter.
-/
namespace PieceIndex
namespace Tree

def ofSizes (sizes : List Nat) : Except Fault Tree := ofPieces (sizes.map Piece.sized)

/-- A complete tree of `depth` levels; the piece at place `i` of the document has size `sizeOf
i`. -/
def complete (depth : Nat) (sizeOf : Nat → Nat) : Except Fault Tree :=
  if depth < 64 then
    ofPieces ((List.range (Nat.pow 2 depth - 1)).map fun i => Piece.sized (sizeOf i))
  else
    throw .shiftOverflow

/-- The deepest complete tree whose right edges can be all powers of two up to its length. -/
def powersDepth : Nat := 6

/-- A complete tree whose right edges are the powers of two: its sizes are 1, 1, 2, 4, 8, … -/
def powersOfTwo (depth : Nat) : Except Fault Tree :=
  if depth ≤ powersDepth then
    complete depth fun i => if i = 0 then 1 else Nat.pow 2 (i - 1)
  else
    throw (.tooDeep depth powersDepth)

/-- Joins node over node, each below the next on the given side. -/
def chain (side : Side) : List Nat → Arena → Option NodeId → Except Fault Tree
  | [], arena, top => .ok ⟨arena, top⟩
  | size :: sizes, arena, top => do
    let (arena, id) ← match side with
      | .left => arena.join top (Piece.sized size) none
      | .right => arena.join none (Piece.sized size) top
    chain side sizes arena (some id)

/-- The root holds the last piece, and each node is the left child of the next. -/
def leftChain (sizes : List Nat) : Except Fault Tree := chain .left sizes #[] none

/-- The root holds the first piece, and each node is the right child of the one before. -/
def rightChain (sizes : List Nat) : Except Fault Tree := chain .right sizes.reverse #[] none

/-- Roots a range as far from its start as the next choice says, modulo its width. The choices are
taken in turn and over again; the state counts how many have been taken. -/
def pickChoice (choices : Array Nat) : Build.Pick Nat := fun taken low high =>
  match choices[taken % choices.size]? with
  | some choice => .ok (low + choice % (high - low), taken + 1)
  | none => .ok (Build.middle low high, taken)

def shaped (sizes choices : List Nat) : Except Fault Tree := do
  let (tree, _) ← ofSplit (sizes.map Piece.sized) (pickChoice choices.toArray) 0
  return tree

variable {σ : Type}

def drawPieces (dice : Dice σ) (largest : Nat) :
    Nat → List Piece → σ → Except Fault (List Piece × σ)
  | 0, pieces, state => .ok (pieces.reverse, state)
  | count + 1, pieces, state => do
    let (size, state) ← dice.between state 1 largest
    drawPieces dice largest count (Piece.sized size :: pieces) state

/-- A tree of random shape over `count` pieces of sizes from 1 to `largest`. All sizes are drawn
before the shape is. -/
def random (dice : Dice σ) (count largest : Nat) (state : σ) : Except Fault (Tree × σ) := do
  let (pieces, state) ← drawPieces dice largest count [] state
  ofSplit pieces (fun state low high => dice.between state low (high - 1)) state

end Tree
end PieceIndex
