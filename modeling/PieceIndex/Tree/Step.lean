import PieceIndex.Node
import PieceIndex.Text.Record

/-!
The steps of a splay, as an observer is told of them and as they are logged. A pass that heads left
rotates right and leaves nodes on the right of the target, and the other way round.
-/
namespace PieceIndex

inductive Step where
  /-- The pass went on past `child`, which was rotated above `node`. -/
  | rotate (heading : Side) (node child : NodeId)
  /-- The pass went on below `node`, which was left on the other side of the target. -/
  | link (heading : Side) (node : NodeId)
  | target (node : NodeId) (depth : Nat)
  deriving DecidableEq, Repr

namespace Step

def name : Step → String
  | .rotate .left _ _ => "RotateRight"
  | .rotate .right _ _ => "RotateLeft"
  | .link .left _ => "LinkRight"
  | .link .right _ => "LinkLeft"
  | .target _ _ => "Target"

def dump (step : Step) : String :=
  Record.record step.name <| match step with
    | .rotate _ node child => [("node", node.label), ("child", child.label)]
    | .link _ node => [("node", node.label)]
    | .target node depth => [("node", node.label), ("depth", toString depth)]

end Step

inductive LogLevel where
  | trace
  | debug
  deriving DecidableEq, Repr

def LogLevel.label : LogLevel → String
  | .trace => "TRACE"
  | .debug => "DEBUG"

structure LogEntry where
  level : LogLevel
  topic : String
  message : String
  deriving DecidableEq, Repr

namespace LogEntry

def splayTopic : String := "vine::splay"

/-- What a splay to `offset` logs for one of its steps. -/
def ofStep (offset : Nat) (step : Step) : List LogEntry :=
  let traced : LogEntry :=
    ⟨.trace, splayTopic, "splay(" ++ toString offset ++ "): " ++ step.dump⟩
  match step with
  | .target node depth =>
    [traced, ⟨.debug, splayTopic, "splay(" ++ toString offset ++ ") -> " ++ node.label ++
      " at depth " ++ toString depth⟩]
  | _ => [traced]

def ofSteps (offset : Nat) (steps : List Step) : List LogEntry := steps.flatMap (ofStep offset)

end LogEntry
end PieceIndex
