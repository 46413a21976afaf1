import PieceIndex.Trial

/-!
The command line of a trial: seed, number of pieces, number of splays and a path for a drawing of
the last tree, each of which may be left out.
-/
namespace PieceIndex
namespace Main

/-- Whether the drawing, if there is one, could be written. -/
def draw : Option (String × String) → IO Bool
  | none => return true
  | some (path, text) => do
    try
      IO.FS.writeFile path text
      return true
    catch error =>
      IO.eprintln ("could not write " ++ path ++ ": " ++ toString error)
      return false

def report (transcript : Trial.Transcript) : IO UInt32 := do
  IO.print (Trial.Transcript.lines transcript.heading)
  IO.eprint transcript.errors
  if ← draw transcript.drawing then
    IO.print (Trial.Transcript.lines transcript.ending)
    return UInt32.ofNat transcript.exitCode
  else
    return 2

end Main
end PieceIndex

def main (arguments : List String) : IO UInt32 :=
  match PieceIndex.Trial.Transcript.ofArguments arguments with
  | .ok transcript => PieceIndex.Main.report transcript
  | .error fault => do
    IO.eprintln fault.message
    return 101
