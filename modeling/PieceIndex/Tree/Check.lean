import PieceIndex.Tree
import PieceIndex.Text.Record

/-!
Checking a whole arena. From the root down every node must be met once only, hold a piece that is
not empty and be named as parent by its children; from the leaves up the cached sizes must be those
of the subtrees; and at the end no node of the arena may be left over. The first violation met ends
the check. A node is visited when it is met and again when both its subtrees are done, so the work
to do is a list of visits; each first visit to a node adds at most three.
-/
namespace PieceIndex

inductive Violation where
  | rootHasParent (root parent : NodeId)
  | sizeMismatch (node : NodeId) (side : Side) (cached actual : Nat)
  | parentMismatch (node child : NodeId) (side : Side) (found : Option NodeId)
  | emptyPiece (node : NodeId)
  | shared (node : NodeId)
  | unreachable (node : NodeId)
  deriving DecidableEq, Repr

namespace Check

inductive Visit where
  | enter (node : NodeId)
  | leave (node : NodeId)
  deriving DecidableEq, Repr

/-- What is known of each place of the arena: whether it was entered, and what was added up below
it. -/
structure Findings where
  seen : Array Bool
  sums : Array Nat

def start (count : Nat) : Findings := ⟨Array.replicate count false, Array.replicate count 0⟩

def sumBelow (sums : Array Nat) : Option NodeId → Except Fault Nat
  | none => .ok 0
  | some id =>
    match sums[id]? with
    | some sum => .ok sum
    | none => .error (.badIndex id sums.size)

/-- Whether a child names its parent. -/
def childVisit (arena : Arena) (id : NodeId) (side : Side) (child : Option NodeId) :
    Except Fault (Except Violation (List Visit)) :=
  match child with
  | none => .ok (.ok [])
  | some child => do
    let found := (← arena.node child).parent
    if found = some id then
      return .ok [.enter child]
    else
      return .error (.parentMismatch id child side found)

def enter (arena : Arena) (findings : Findings) (id : NodeId) :
    Except Fault (Except Violation (Findings × List Visit)) := do
  let node ← arena.node id
  let ⟨seen, sums⟩ := findings
  if seen[id]?.getD false then
    return .error (.shared id)
  let seen := seen.setIfInBounds id true
  if node.piece.size = 0 then
    return .error (.emptyPiece id)
  match ← childVisit arena id .left node.left with
  | .error violation => return .error violation
  | .ok left =>
    match ← childVisit arena id .right node.right with
    | .error violation => return .error violation
    | .ok right => return .ok (⟨seen, sums⟩, right ++ (left ++ [.leave id]))

def leave (arena : Arena) (findings : Findings) (id : NodeId) :
    Except Fault (Except Violation Findings) := do
  let node ← arena.node id
  let ⟨seen, sums⟩ := findings
  let left ← sumBelow sums node.left
  let right ← sumBelow sums node.right
  if node.lsize ≠ left then
    return .error (.sizeMismatch id .left node.lsize left)
  if node.rsize ≠ right then
    return .error (.sizeMismatch id .right node.rsize right)
  let sum ← Size.add (← Size.add left node.piece.size) right
  return .ok ⟨seen, sums.setIfInBounds id sum⟩

def run (arena : Arena) : Nat → List Visit → Findings → Except Fault (Except Violation Findings)
  | _, [], findings => .ok (.ok findings)
  | 0, _ :: _, _ => .error .endless
  | fuel + 1, .enter id :: visits, findings => do
    match ← enter arena findings id with
    | .error violation => return .error violation
    | .ok (findings, more) => run arena fuel (more ++ visits) findings
  | fuel + 1, .leave id :: visits, findings => do
    match ← leave arena findings id with
    | .error violation => return .error violation
    | .ok findings => run arena fuel visits findings

def firstUnseen (seen : Array Bool) : Option NodeId := seen.findIdx? (! ·)

/-- The first visit of all, unless the root has a parent. -/
def rootVisit (arena : Arena) : Option NodeId → Except Fault (Except Violation (List Visit))
  | none => .ok (.ok [])
  | some root => do
    match (← arena.node root).parent with
    | some parent => return .error (.rootHasParent root parent)
    | none => return .ok [.enter root]

end Check

def Tree.check (tree : Tree) : Except Fault (Except Violation Unit) := do
  let arena := tree.nodes
  match ← Check.rootVisit arena tree.root with
  | .error violation => return .error violation
  | .ok visits =>
    match ← Check.run arena (3 * arena.size + 2) visits (Check.start arena.size) with
    | .error violation => return .error violation
    | .ok findings =>
      match Check.firstUnseen findings.seen with
      | some id => return .error (.unreachable id)
      | none => return .ok ()

namespace Violation

def message : Violation → String
  | .rootHasParent root parent =>
    "root " ++ root.label ++ " still points at parent " ++ parent.label
  | .sizeMismatch node side cached actual =>
    node.label ++ ": cached " ++ side.label ++ " size is " ++ toString cached ++
      " but the subtree holds " ++ toString actual
  | .parentMismatch node child side found =>
    child.label ++ " is the " ++ side.label ++ " child of " ++ node.label ++
      " but its parent link is " ++ Record.optional NodeId.label found
  | .emptyPiece node => node.label ++ " holds an empty piece"
  | .shared node => node.label ++ " is reachable along more than one path"
  | .unreachable node => node.label ++ " is not reachable from the root"

def name : Violation → String
  | .rootHasParent .. => "RootHasParent"
  | .sizeMismatch .. => "SizeMismatch"
  | .parentMismatch .. => "ParentMismatch"
  | .emptyPiece .. => "EmptyPiece"
  | .shared .. => "Shared"
  | .unreachable .. => "Unreachable"

def sideName : Side → String
  | .left => "Left"
  | .right => "Right"

def dump (violation : Violation) : String :=
  match violation with
  | .rootHasParent root parent =>
    Record.record violation.name [("root", root.label), ("parent", parent.label)]
  | .sizeMismatch node side cached actual =>
    Record.record violation.name [("node", node.label), ("side", sideName side),
      ("cached", toString cached), ("actual", toString actual)]
  | .parentMismatch node child side found =>
    Record.record violation.name [("node", node.label), ("child", child.label),
      ("side", sideName side), ("found", Record.optional NodeId.label found)]
  | .emptyPiece node => Record.wrapped violation.name node.label
  | .shared node => Record.wrapped violation.name node.label
  | .unreachable node => Record.wrapped violation.name node.label

end Violation
end PieceIndex
