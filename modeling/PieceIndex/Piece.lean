import PieceIndex.Fault

/-!
A piece names a run of document text in some buffer kept elsewhere. The index reads its size; the
buffer, the provenance and the capacity are carried along for the owner of the buffers.
-/
namespace PieceIndex

inductive Provenance where
  | frozen
  | growing
  deriving DecidableEq, Repr

def Provenance.label : Provenance → String
  | .frozen => "Const"
  | .growing => "Mutable"

structure Piece where
  buffer : Nat
  size : Nat
  provenance : Provenance
  capacity : Nat
  deriving DecidableEq, Repr

namespace Piece

def frozen (buffer size : Nat) : Piece := ⟨buffer, size, .frozen, size⟩

/-- A piece that may still grow into its spare capacity. -/
def growing (buffer size capacity : Nat) : Except Fault Piece :=
  if size ≤ capacity then .ok ⟨buffer, size, .growing, capacity⟩ else .error .capacityBelowSize

def sized (size : Nat) : Piece := frozen 0 size

def isGrowing (piece : Piece) : Bool := piece.provenance == .growing

end Piece
end PieceIndex
