import PieceIndex.Tree

/-!
Building from the bottom up. A node is joined over subtrees that are already there, which fills in
its sizes; so whatever is built is a forest with exact sizes. Building over a whole list of pieces
asks `pick` for the root of each range of them, outer ranges before inner and left before right, and
keeps the ranges still to do on a list of its own.
-/
namespace PieceIndex

namespace Arena

/-- Gives a parentless node its parent, and returns the size of its subtree. -/
def adopt (arena : Arena) (parent : NodeId) : Option NodeId → Except Fault (Arena × Nat)
  | none => .ok (arena, 0)
  | some child => do
    let node ← arena.node child
    if node.parent.isSome then
      throw (.joinedTwice child)
    else
      let size ← node.total
      let arena ← arena.update child (·.withParent (some parent))
      return (arena, size)

/-- Adds a node over the given subtrees. -/
def join (arena : Arena) (left : Option NodeId) (piece : Piece) (right : Option NodeId) :
    Except Fault (Arena × NodeId) := do
  let id ← NodeId.ofSlot arena.size
  let (arena, lsize) ← arena.adopt id left
  let (arena, rsize) ← Arena.adopt arena id right
  Arena.append arena
    { piece := piece, lsize := lsize, rsize := rsize, left := left, right := right }

def leaf (arena : Arena) (piece : Piece) : Except Fault (Arena × NodeId) :=
  arena.join none piece none

end Arena

namespace Build

/-- A way to choose the root of a range, with a state that runs along. -/
abbrev Pick (σ : Type) := σ → Nat → Nat → Except Fault (Nat × σ)

def middle (low high : Nat) : Nat := low + (high - low) / 2

def pickMiddle : Pick Unit := fun _ low high => .ok (middle low high, ())

inductive Task where
  /-- Build the pieces of a range. -/
  | range (low high : Nat)
  /-- Join the two subtrees built last around a piece. -/
  | around (index : Nat)
  deriving DecidableEq, Repr

structure Progress (σ : Type) where
  picking : σ
  /-- The pieces that are not yet in a node. -/
  pieces : Array (Option Piece)
  /-- Subtrees that wait for their parent, latest first. -/
  built : List (Option NodeId) := []

variable {σ : Type}

/-- Works off the tasks. A piece that is wanted a second time ends the work with no root. -/
def run (pick : Pick σ) : Nat → List Task → Progress σ → Arena →
    Except Fault (Arena × σ × Option NodeId)
  | _, [], progress, arena => .ok (arena, progress.picking, progress.built.headD none)
  | 0, _ :: _, _, _ => .error .endless
  | fuel + 1, .range low high :: tasks, progress, arena =>
    if low < high then do
      let ⟨picking, pieces, built⟩ := progress
      let (index, picking) ← pick picking low high
      if low ≤ index ∧ index < high then
        run pick fuel (.range low index :: .range (index + 1) high :: .around index :: tasks)
          ⟨picking, pieces, built⟩ arena
      else
        throw (.pickOutside index low high)
    else
      run pick fuel tasks { progress with built := none :: progress.built } arena
  | fuel + 1, .around index :: tasks, ⟨picking, pieces, built⟩, arena =>
    let right := built.headD none
    let left := built.tail.headD none
    match pieces[index]? with
    | none => .error (.badIndex index pieces.size)
    | some none => .ok (arena, picking, none)
    | some (some piece) => do
      let pieces := pieces.setIfInBounds index none
      let (arena, id) ← arena.join left piece right
      run pick fuel tasks ⟨picking, pieces, some id :: built.tail.tail⟩ arena

end Build

namespace Arena

variable {σ : Type}

/-- Adds a subtree over `pieces`, in their order, and returns its root. A range of `n` pieces makes
`n` joins and `2 * n + 1` ranges, the empty ones included. -/
def splitWith (arena : Arena) (pieces : List Piece) (pick : Build.Pick σ) (picking : σ) :
    Except Fault (Arena × σ × Option NodeId) :=
  let pieces := (pieces.map some).toArray
  Build.run pick (3 * pieces.size + 2) [.range 0 pieces.size]
    { picking := picking, pieces := pieces } arena

/-- Adds a subtree with every range halved. -/
def balanced (arena : Arena) (pieces : List Piece) : Except Fault (Arena × Option NodeId) := do
  let (arena, _, root) ← arena.splitWith pieces Build.pickMiddle ()
  return (arena, root)

end Arena

namespace Tree

/-- A tree of its own over `pieces`, with the ranges rooted where `pick` says. -/
def ofSplit {σ : Type} (pieces : List Piece) (pick : Build.Pick σ) (picking : σ) :
    Except Fault (Tree × σ) := do
  let (arena, picking, root) ← Arena.splitWith #[] pieces pick picking
  return (⟨arena, root⟩, picking)

def ofPieces (pieces : List Piece) : Except Fault Tree := do
  let (arena, root) ← Arena.balanced #[] pieces
  return ⟨arena, root⟩

end Tree
end PieceIndex
