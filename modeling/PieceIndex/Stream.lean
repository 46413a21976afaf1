import PieceIndex.Fault

/-!
Taking items from a lazy sequence. A sequence is a state with a function `next` that gives either an
item or nothing, with the state that follows; each call may meet a fault. What is taken is gathered
latest first and turned round at the end.
-/
namespace PieceIndex
namespace Stream

variable {σ α β : Type}

abbrev Next (σ α : Type) := σ → Except Fault (Option α × σ)

/-- Takes items until there are none, and what `use` makes of each. -/
def drainOnto (next : Next σ α) (use : α → Except Fault β) :
    Nat → σ → List β → Except Fault (List β)
  | 0, _, _ => .error .endless
  | fuel + 1, state, taken => do
    match ← next state with
    | (none, _) => return taken.reverse
    | (some item, state) => drainOnto next use fuel state ((← use item) :: taken)

def drain (next : Next σ α) (use : α → Except Fault β) (fuel : Nat) (state : σ) :
    Except Fault (List β) :=
  drainOnto next use fuel state []

def takeOnto (next : Next σ α) : Nat → σ → List α → Except Fault (List α × σ)
  | 0, state, taken => .ok (taken.reverse, state)
  | count + 1, state, taken => do
    match ← next state with
    | (none, state) => return (taken.reverse, state)
    | (some item, state) => takeOnto next count state (item :: taken)

/-- Takes at most `count` items, asking for no more than it takes. -/
def take (next : Next σ α) (count : Nat) (state : σ) : Except Fault (List α × σ) :=
  takeOnto next count state []

end Stream
end PieceIndex
