import PieceIndex.Size

/-!
What a program that draws at random asks for: a number from a range, and a yes or no with a given
chance. Dice made from a source of 64-bit words draw from a range without bias. A word times the
width of the range is a number of 128 bits whose high half lies in the range; words whose low half
falls into the zone where some results would be one word ahead of others are passed over.
-/
namespace PieceIndex

structure Dice (σ : Type) where
  /-- A number from the range, both ends included. -/
  between : σ → (low high : Nat) → Except Fault (Nat × σ)
  /-- True for `weight` out of all words. -/
  chance : σ → (weight : Nat) → Bool × σ

namespace Dice

variable {σ : Type}

abbrev Source (σ : Type) := σ → UInt64 × σ

/-- The greatest low half that is taken: the width shifted up to the top of the word, less one. -/
def zone (width : Nat) : Nat := width <<< (63 - Nat.log2 width) - 1

def scaled (next : Source σ) (width : Nat) : Nat → σ → Except Fault (Nat × σ)
  | 0, _ => .error .endless
  | fuel + 1, state =>
    let (word, state) := next state
    let product := word.toNat * width
    if product % Size.limit ≤ zone width then
      .ok (product / Size.limit, state)
    else
      scaled next width fuel state

def drawBetween (next : Source σ) (state : σ) (low high : Nat) : Except Fault (Nat × σ) := do
  let width := high - low + 1
  if high < low then
    throw .emptyRange
  else if width = Size.limit then
    let (word, state) := next state
    return (word.toNat, state)
  else
    let (above, state) ← scaled next width (stepLimit 0) state
    return (low + above, state)

def drawChance (next : Source σ) (state : σ) (weight : Nat) : Bool × σ :=
  let (word, state) := next state
  (word.toNat < weight, state)

def ofSource (next : Source σ) : Dice σ := ⟨drawBetween next, drawChance next⟩

end Dice
end PieceIndex
