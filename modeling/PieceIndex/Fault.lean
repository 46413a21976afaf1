/-!
The ids of nodes, and what stops an operation. A size that no longer fits its word, a link that
leads out of the arena and a request outside its range all end the operation that meets them;
nothing is resumed after a fault, so it carries only what its message tells.
-/
namespace PieceIndex

/-- A node's place in the arena. -/
abbrev NodeId := Nat

def NodeId.label (id : NodeId) : String := "n" ++ toString id

inductive Fault where
  | sumOverflow
  | shiftOverflow
  | badIndex (index length : Nat)
  | pastEnd (offset length : Nat)
  | capacityBelowSize
  | joinedTwice (node : NodeId)
  | pickOutside (pick low high : Nat)
  | tooDeep (depth limit : Nat)
  | noNodeId (slot : Nat)
  | emptyRange
  | endless
  deriving DecidableEq, Repr

def Fault.message : Fault → String
  | .sumOverflow => "attempt to add with overflow"
  | .shiftOverflow => "attempt to shift left with overflow"
  | .badIndex index length =>
    "index out of bounds: the len is " ++ toString length ++ " but the index is " ++ toString index
  | .pastEnd offset length => "offset " ++ toString offset ++ " past end " ++ toString length
  | .capacityBelowSize => "assertion failed: capacity >= size"
  | .joinedTwice node => node.label ++ " already has a parent"
  | .pickOutside pick low high =>
    "pick returned " ++ toString pick ++ " outside " ++ toString low ++ ".." ++ toString high
  | .tooDeep depth limit =>
    "depth " ++ toString depth ++ " overflows usize (max " ++ toString limit ++ ")"
  | .noNodeId slot => "arena slot " ++ toString slot ++ " does not fit a node id"
  | .emptyRange => "cannot sample empty range"
  | .endless => "the links never end"

/-- Node ids are 32 bits wide, so an arena has no place for a node after that many. -/
def NodeId.limit : Nat := 4294967296

def NodeId.ofSlot (slot : Nat) : Except Fault NodeId :=
  if slot < NodeId.limit then .ok slot else .error (.noNodeId slot)

/-- How many turns a walk along the links of `count` nodes may take. Links may be shared or lead
back, so no bound in `count` alone serves every walk that ends; this one lies beyond any that could
be carried out. -/
def stepLimit (count : Nat) : Nat := count + 4611686018427387904

end PieceIndex
