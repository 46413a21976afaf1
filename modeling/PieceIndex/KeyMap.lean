import PieceIndex.Node
import PieceIndex.Stream

/-!
A map from 64-bit keys that splays like the document tree, but by key, and without sizes or parent
links. Its entries lie in an array without gaps: a new entry is added at the end, and when one is
removed the last entry moves to its place. Every access brings the key it asks for to the root, or
else the last entry on the way to where the key would be.
-/
namespace PieceIndex

structure Entry (V : Type) where
  key : Nat
  value : V
  left : Option Nat := none
  right : Option Nat := none
  deriving DecidableEq, Repr

namespace Entry

variable {V : Type}

def child (entry : Entry V) : Side → Option Nat
  | .left => entry.left
  | .right => entry.right

def withChild (entry : Entry V) (side : Side) (child : Option Nat) : Entry V :=
  match side with
  | .left => { entry with left := child }
  | .right => { entry with right := child }

end Entry

/-- Where `key` lies from `other`; `none` at `other` itself. -/
def sideOf (key other : Nat) : Option Side :=
  if key < other then some .left else if other < key then some .right else none

structure KeyMap (V : Type) where
  entries : Array (Entry V) := #[]
  root : Option Nat := none
  deriving DecidableEq, Repr

namespace KeyMap

variable {V : Type}

abbrev Entries (V : Type) := Array (Entry V)

def empty : KeyMap V := {}

def size (map : KeyMap V) : Nat := map.entries.size

def isEmpty (map : KeyMap V) : Bool := map.entries.isEmpty

def entry (entries : Entries V) (index : Nat) : Except Fault (Entry V) :=
  match entries[index]? with
  | some entry => .ok entry
  | none => .error (.badIndex index entries.size)

def update (entries : Entries V) (index : Nat) (change : Entry V → Entry V) :
    Except Fault (Entries V) :=
  if index < entries.size then .ok (entries.modify index change)
  else .error (.badIndex index entries.size)

def updateSome (entries : Entries V) (index : Option Nat) (change : Entry V → Entry V) :
    Except Fault (Entries V) :=
  match index with
  | some index => update entries index change
  | none => .ok entries

/-- Places are numbered with 32 bits, and the numbering starts over where they run out. -/
def place (count : Nat) : Nat := count % 4294967296

/-- A splay in progress, with the spines kept from the inner end outwards. -/
structure Pass where
  here : Nat
  leftSpine : List Nat := []
  rightSpine : List Nat := []
  deriving DecidableEq, Repr

namespace Pass

def spine (pass : Pass) : Side → List Nat
  | .left => pass.leftSpine
  | .right => pass.rightSpine

def grow (pass : Pass) (side : Side) (index : Nat) : Pass :=
  match side with
  | .left => { pass with leftSpine := index :: pass.leftSpine }
  | .right => { pass with rightSpine := index :: pass.rightSpine }

end Pass

/-- Rotates the child on the given side of an entry above it. -/
def rotate (entries : Entries V) (side : Side) (index child : Nat) : Except Fault (Entries V) := do
  let middle := (← entry entries child).child side.other
  let entries ← update entries index (·.withChild side middle)
  update entries child (·.withChild side.other (some index))

/-- Rotates where the key lies past the child, which the pass then stands on. -/
def fold (key : Nat) (side : Side) (entries : Entries V) (pass : Pass) (child : Nat) :
    Except Fault (Entries V × Pass) := do
  if sideOf key (← entry entries child).key = some side then
    let entries ← rotate entries side pass.here child
    return (entries, { pass with here := child })
  else
    return (entries, pass)

/-- Leaves the entry the pass stands on at the end of its spine and goes on to `next`. -/
def link (side : Side) (entries : Entries V) (pass : Pass) (next : Nat) :
    Except Fault (Entries V × Pass) := do
  let entries ← updateSome entries (pass.spine side.other).head? (·.withChild side (some pass.here))
  return (entries, { pass.grow side.other pass.here with here := next })

/-- One turn of the pass, and whether it goes on. -/
def advance (key : Nat) (entries : Entries V) (pass : Pass) :
    Except Fault (Entries V × Pass × Bool) := do
  let here ← entry entries pass.here
  match sideOf key here.key with
  | none => return (entries, pass, false)
  | some side =>
    match here.child side with
    | none => return (entries, pass, false)
    | some child =>
      let (entries, pass) ← fold key side entries pass child
      match (← entry entries pass.here).child side with
      | none => return (entries, pass, false)
      | some next =>
        let (entries, pass) ← link side entries pass next
        return (entries, pass, true)

def descend (key : Nat) : Nat → Entries V → Pass → Except Fault (Entries V × Pass)
  | 0, _, _ => .error .endless
  | fuel + 1, entries, pass => do
    let (entries, pass, goesOn) ← advance key entries pass
    if goesOn then descend key fuel entries pass else return (entries, pass)

/-- Closes the spines with the subtrees of the entry reached and puts them under it. -/
def reassemble (entries : Entries V) (pass : Pass) : Except Fault (Entries V) := do
  let here ← entry entries pass.here
  let entries ← updateSome entries pass.leftSpine.head? (·.withChild .right here.left)
  let entries ← updateSome entries pass.rightSpine.head? (·.withChild .left here.right)
  update entries pass.here fun entry =>
    { entry with
      left := pass.leftSpine.getLast?.or here.left
      right := pass.rightSpine.getLast?.or here.right }

/-- Splays the subtree at `index` for `key`, and returns its new root. -/
def splay (entries : Entries V) (index key : Nat) : Except Fault (Entries V × Nat) := do
  let (entries, pass) ← descend key (stepLimit entries.size) entries { here := index }
  let entries ← reassemble entries pass
  return (entries, pass.here)

def splayRoot (map : KeyMap V) (key : Nat) : Except Fault (KeyMap V × Option Nat) := do
  let ⟨entries, root⟩ := map
  match root with
  | none => return (⟨entries, none⟩, none)
  | some root =>
    let (entries, root) ← splay entries root key
    return (⟨entries, some root⟩, some root)

/-- Splays for `key`, and returns the place it is at. -/
def find (map : KeyMap V) (key : Nat) : Except Fault (KeyMap V × Option (Nat × V)) := do
  match ← map.splayRoot key with
  | (map, none) => return (map, none)
  | (map, some root) =>
    let here ← entry map.entries root
    return (map, if here.key = key then some (root, here.value) else none)

def get (map : KeyMap V) (key : Nat) : Except Fault (KeyMap V × Option V) := do
  let (map, found) ← map.find key
  return (map, found.map (·.2))

def contains (map : KeyMap V) (key : Nat) : Except Fault (KeyMap V × Bool) := do
  let (map, found) ← map.find key
  return (map, found.isSome)

/-- Stores a value under a key that is there, and returns the old value. -/
def set (map : KeyMap V) (key : Nat) (value : V) : Except Fault (KeyMap V × Option V) := do
  match ← map.find key with
  | (map, none) => return (map, none)
  | (⟨entries, top⟩, some (index, old)) =>
    let entries ← update entries index ({ · with value := value })
    return (⟨entries, top⟩, some old)

/-- Adds a key, which becomes the root. A key that is there already keeps its value. -/
def insert (map : KeyMap V) (key : Nat) (value : V) : Except Fault (KeyMap V × Bool) := do
  let index := place map.size
  match ← map.splayRoot key with
  | (⟨entries, _⟩, none) => return (⟨entries.push { key := key, value := value }, some index⟩, true)
  | (⟨entries, top⟩, some root) =>
    let here ← entry entries root
    match sideOf key here.key with
    | none => return (⟨entries, top⟩, false)
    | some side =>
      let added := ({ key := key, value := value } : Entry V).withChild side (here.child side)
      let entries ← update entries root (·.withChild side none)
      return (⟨entries.push (added.withChild side.other (some root)), some index⟩, true)

/-- Follows the search path of `key` to the link that leads to `old`, and turns it to `new`. -/
def redirect (key old new : Nat) : Nat → Entries V → Option Nat → Except Fault (Entries V)
  | _, entries, none => .ok entries
  | 0, _, some _ => .error .endless
  | fuel + 1, entries, some index => do
    let here ← entry entries index
    let side := if key < here.key then Side.left else Side.right
    let next := here.child side
    if next = some old then
      update entries index (·.withChild side (some new))
    else
      redirect key old new fuel entries next

/-- Makes good the link to an entry that has moved. -/
def repoint (map : KeyMap V) (old new : Nat) : Except Fault (KeyMap V) := do
  let ⟨entries, root⟩ := map
  if root = some old then
    return ⟨entries, some new⟩
  let key := (← entry entries new).key
  let entries ← redirect key old new (stepLimit entries.size) entries root
  return ⟨entries, root⟩

/-- Moves the last entry to `index` and drops the entry there. -/
def swapRemove (entries : Entries V) (index : Nat) : Entries V :=
  (entries.swapIfInBounds index (entries.size - 1)).pop

/-- Joins the subtrees of a removed root. All keys on the left are smaller than its key, so that
splaying them for it brings up their greatest, which has nothing on its right. -/
def joinBelow (entries : Entries V) (key : Nat) (left right : Option Nat) :
    Except Fault (KeyMap V) := do
  match left with
  | none => return ⟨entries, right⟩
  | some left =>
    let (entries, top) ← splay entries left key
    let entries ← update entries top (·.withChild .right right)
    return ⟨entries, some top⟩

def remove (map : KeyMap V) (key : Nat) : Except Fault (KeyMap V × Option V) := do
  match ← map.find key with
  | (map, none) => return (map, none)
  | (⟨entries, _⟩, some (index, value)) =>
    let here ← entry entries index
    let ⟨entries, root⟩ ← joinBelow entries key here.left here.right
    let last := place (entries.size - 1)
    let map : KeyMap V := ⟨swapRemove entries index, root⟩
    if index = last then
      return (map, some value)
    else
      return (← map.repoint last index, some value)

end KeyMap
end PieceIndex
