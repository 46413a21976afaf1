import PieceIndex.Decimal
import PieceIndex.Random.ChaCha
import PieceIndex.Sample
import PieceIndex.Text.Quoted
import PieceIndex.Tree.Check
import PieceIndex.Tree.Dot
import PieceIndex.Tree.Splay

/-!
A trial draws a random tree and splays it again and again, mostly near the last offset, and checks
the whole tree after every splay. It ends early when a check fails, and then says which offsets led
there; otherwise it tells how deep the passes went on average. All that is drawn comes from one pair
of dice, so the seed decides the run.
-/
namespace PieceIndex
namespace Trial

structure Settings where
  seed : Nat := 0
  pieces : Nat := 64
  splays : Nat := 1000
  /-- Where the last tree is to be drawn. -/
  drawing : Option String := none
  deriving DecidableEq, Repr

/-- An argument that is not a number, with its place. -/
structure BadArgument where
  place : Nat
  text : String
  deriving DecidableEq, Repr

def BadArgument.message (bad : BadArgument) : String :=
  "could not parse argument " ++ toString bad.place ++ ": " ++ Quoted.encode bad.text

/-- The number at a place, counted from 1, or the default where there is none. -/
def number (arguments : List String) (place otherwise : Nat) : Except BadArgument Nat :=
  match arguments[place - 1]? with
  | none => .ok otherwise
  | some text =>
    match Decimal.parse? text with
    | some value => .ok value
    | none => .error ⟨place, text⟩

def Settings.ofArguments (arguments : List String) : Except BadArgument Settings := do
  let usual : Settings := {}
  let seed ← number arguments 1 usual.seed
  let pieces ← number arguments 2 usual.pieces
  let splays ← number arguments 3 usual.splays
  return ⟨seed, pieces, splays, arguments[3]?⟩

/-- Eight words in ten. -/
def nearWeight : Nat := 14757395258967642112

/-- Every other word. -/
def backWeight : Nat := 9223372036854775808

def greatestMove : Nat := 8

def largestPiece : Nat := 16

/-- A trial under way. -/
structure Progress (σ : Type) where
  state : σ
  tree : Tree
  /-- The offsets splayed to, the latest first. -/
  offsets : List Nat := []
  depths : Nat := 0

variable {σ : Type}

/-- An offset not far from the last one, inside the document. -/
def drawNear (dice : Dice σ) (total last : Nat) (state : σ) : Except Fault (Nat × σ) := do
  let (move, state) ← dice.between state 0 greatestMove
  let (back, state) := dice.chance state backWeight
  if back then
    return (last - move, state)
  else
    return (min (← Size.add last move) total, state)

def drawOffset (dice : Dice σ) (total : Nat) (last : Option Nat) (state : σ) :
    Except Fault (Nat × σ) :=
  match last with
  | none => dice.between state 0 total
  | some last =>
    let (near, state) := dice.chance state nearWeight
    if near then drawNear dice total last state else dice.between state 0 total

/-- The depth told with the last step of a splay. -/
def depthOf (steps : List Step) : Nat :=
  match steps.getLast? with
  | some (.target _ depth) => depth
  | _ => 0

def splayOnce (dice : Dice σ) (total : Nat) (progress : Progress σ) :
    Except Fault (Progress σ × Except Violation Unit) := do
  let ⟨state, tree, offsets, depths⟩ := progress
  let (offset, state) ← drawOffset dice total offsets.head? state
  let (tree, _, steps) ← tree.splayTraced offset
  let depths ← Size.add depths (depthOf steps)
  let checked ← tree.check
  return (⟨state, tree, offset :: offsets, depths⟩, checked)

/-- Splays until the count is reached or a check fails. -/
def splayAll (dice : Dice σ) (total : Nat) :
    Nat → Progress σ → Except Fault (Progress σ × Except Violation Unit)
  | 0, progress => .ok (progress, .ok ())
  | count + 1, progress => do
    match ← splayOnce dice total progress with
    | (progress, .ok ()) => splayAll dice total count progress
    | (progress, .error violation) => return (progress, .error violation)

/-- What a trial found. -/
structure Result where
  settings : Settings
  total : Nat
  tree : Tree
  /-- The offsets splayed to, the first one first. -/
  offsets : List Nat
  depths : Nat
  checked : Except Violation Unit

def runWith (dice : Dice σ) (settings : Settings) (state : σ) : Except Fault Result := do
  let (tree, state) ← Tree.random dice settings.pieces largestPiece state
  let total ← tree.length
  let (progress, checked) ← splayAll dice total settings.splays { state := state, tree := tree }
  return ⟨settings, total, progress.tree, progress.offsets.reverse, progress.depths, checked⟩

def run (settings : Settings) : Except Fault Result :=
  runWith ChaCha.Stream.dice settings (.ofSeed (UInt64.ofNat settings.seed))

namespace Result

def heading (result : Result) : String :=
  "seed " ++ toString result.settings.seed ++ ": " ++ toString result.settings.pieces ++
    " pieces, " ++ toString result.total ++ " units, " ++ toString result.settings.splays ++
      " splays"

def complaint (result : Result) : List String :=
  match result.checked with
  | .ok () => []
  | .error violation =>
    ["invariant violated after " ++ toString result.offsets.length ++ " splays: " ++
        violation.message,
      "offsets: " ++ Record.listing toString result.offsets]

def meanDepth (result : Result) : Decimal.Fraction :=
  .div (.ofNat result.depths) (.ofNat (max result.offsets.length 1))

def conclusion (result : Result) : List String :=
  match result.checked with
  | .ok () => ["ok: mean access depth " ++ result.meanDepth.twoPlaces]
  | .error _ => []

def exitCode (result : Result) : Nat :=
  match result.checked with
  | .ok () => 0
  | .error _ => 1

end Result

/-- All that a run leaves behind. The heading is written before the drawing is made, the ending
after. -/
structure Transcript where
  exitCode : Nat
  heading : List String := []
  complaint : List String := []
  drawing : Option (String × String) := none
  ending : List String := []
  deriving DecidableEq, Repr

namespace Transcript

def lines (texts : List String) : String := String.join (texts.map (· ++ "\n"))

def output (transcript : Transcript) : String :=
  lines transcript.heading ++ lines transcript.ending

def errors (transcript : Transcript) : String := lines transcript.complaint

def ofResult (result : Result) : Except Fault Transcript := do
  let plain : Transcript :=
    { exitCode := result.exitCode, heading := [result.heading], complaint := result.complaint,
      ending := result.conclusion }
  match result.settings.drawing with
  | none => return plain
  | some path =>
    let text ← result.tree.toDot
    return { plain with
      drawing := some (path, text), ending := ("wrote " ++ path) :: result.conclusion }

def ofArguments (arguments : List String) : Except Fault Transcript :=
  match Settings.ofArguments arguments with
  | .ok settings => do ofResult (← run settings)
  | .error bad => .ok { exitCode := 2, complaint := [bad.message] }

end Transcript
end Trial
end PieceIndex
