import PieceIndex.KeyMap
import PieceIndex.Text.Record

/-!
The bindings of a map in ascending order of their keys, and a map written out in full.
-/
namespace PieceIndex
namespace KeyMap

variable {V : Type}

/-- Enters a subtree, down to its first entry, keeping those passed on the way. -/
def enter (entries : Entries V) : Nat → Option Nat → List Nat → Except Fault (List Nat)
  | _, none, pending => .ok pending
  | 0, some _, _ => .error .endless
  | fuel + 1, some index, pending => do
    enter entries fuel (← entry entries index).left (index :: pending)

def next (entries : Entries V) :
    List Nat → Except Fault (Option (Nat × V) × List Nat)
  | [] => .ok (none, [])
  | index :: pending => do
    let here ← entry entries index
    let pending ← enter entries (stepLimit entries.size) here.right pending
    return (some (here.key, here.value), pending)

def start (map : KeyMap V) : Except Fault (List Nat) :=
  enter map.entries (stepLimit map.size) map.root []

def toList (map : KeyMap V) : Except Fault (List (Nat × V)) := do
  Stream.drain (next map.entries) pure (stepLimit map.size) (← map.start)

/-- The first `count` bindings at most. -/
def take (map : KeyMap V) (count : Nat) : Except Fault (List (Nat × V)) := do
  let (bindings, _) ← Stream.take (next map.entries) count (← map.start)
  return bindings

def dump (write : V → String) (map : KeyMap V) : String :=
  let link := Record.optional (toString : Nat → String)
  let writeEntry (entry : Entry V) : String :=
    Record.record "Entry" [("key", toString entry.key), ("value", write entry.value),
      ("left", link entry.left), ("right", link entry.right)]
  Record.record "SplayMap" [("entries", Record.listing writeEntry map.entries.toList),
    ("root", link map.root)]

end KeyMap
end PieceIndex
