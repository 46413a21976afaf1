import PieceIndex.Node

/-!
All nodes of a document lie in one arena, and a link is a place in it. Reading or writing through a
link that leads out of the arena is a fault. Nodes are only ever added at the end.
-/
namespace PieceIndex

abbrev Arena := Array Node

namespace Arena

def node (arena : Arena) (id : NodeId) : Except Fault Node :=
  match arena[id]? with
  | some node => .ok node
  | none => .error (.badIndex id arena.size)

def update (arena : Arena) (id : NodeId) (change : Node → Node) : Except Fault Arena :=
  if id < arena.size then .ok (arena.modify id change) else .error (.badIndex id arena.size)

def updateSome (arena : Arena) (id : Option NodeId) (change : Node → Node) : Except Fault Arena :=
  match id with
  | some id => arena.update id change
  | none => .ok arena

def setParent (arena : Arena) (id parent : Option NodeId) : Except Fault Arena :=
  arena.updateSome id (·.withParent parent)

/-- The size of the subtree behind a link, by the cached sizes of its top node. -/
def subtreeSize (arena : Arena) : Option NodeId → Except Fault Nat
  | some id => do (← arena.node id).total
  | none => .ok 0

/-- Adds a node at the end and returns its place. -/
def append (arena : Arena) (node : Node) : Except Fault (Arena × NodeId) := do
  let id ← NodeId.ofSlot arena.size
  return (arena.push node, id)

theorem node_eq_ok {arena : Arena} {id : NodeId} {n : Node} :
    arena.node id = .ok n ↔ arena[id]? = some n := by
  unfold node
  split <;> simp_all

theorem size_update {arena after : Arena} {id : NodeId} {change : Node → Node}
    (h : arena.update id change = .ok after) : after.size = arena.size := by
  unfold update at h
  split at h
  · cases h
    simp
  · cases h

theorem getElem?_update {arena after : Arena} {id : NodeId} {change : Node → Node}
    (h : arena.update id change = .ok after) (i : NodeId) :
    after[i]? = if i = id then arena[i]?.map change else arena[i]? := by
  unfold update at h
  split at h
  · cases h
    rw [Array.getElem?_modify]
    by_cases hi : id = i
    · subst hi
      simp
    · have : ¬ i = id := fun e => hi e.symm
      simp [hi, this]
  · cases h

end Arena
end PieceIndex
