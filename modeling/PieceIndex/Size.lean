import PieceIndex.Fault

/-!
Sizes and offsets count text units in 64-bit words. They are kept as natural numbers, and the
addition that does not fit is a fault. A sum of several terms is a fault exactly when the whole
does not fit, in whatever order the terms are added.
-/
namespace PieceIndex
namespace Size

/-- How many values a word of 64 bits has. -/
def limit : Nat := 18446744073709551616

def add (a b : Nat) : Except Fault Nat :=
  if a + b < limit then .ok (a + b) else .error .sumOverflow

theorem add_eq_ok {a b c : Nat} : add a b = .ok c ↔ a + b < limit ∧ c = a + b := by
  unfold add
  split
  · next h => simp [h, eq_comm]
  · next h => simp [h]

theorem add_of_lt {a b : Nat} (h : a + b < limit) : add a b = .ok (a + b) := by
  simp [add, h]

theorem add_of_ge {a b : Nat} (h : limit ≤ a + b) : add a b = .error .sumOverflow := by
  simp [add, Nat.not_lt.mpr h]

end Size
end PieceIndex
