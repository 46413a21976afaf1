import PieceIndex.Proofs.Faults
import PieceIndex.Build

/-!
Building over a list of pieces, told as a recursion: the root of a range is picked, the ranges on
its two sides are built, the left one first, and the two subtrees are joined around its piece. The
list of tasks works this off step by step, three steps for each piece and one more, and takes each
piece out of its slot when it is joined. What the recursion asks of `pick` does not depend on the
arena.
-/
namespace PieceIndex
namespace Build
variable {σ : Type}

/-- Builds the pieces from place `low` up to `high`. -/
def recurse (pick : Pick σ) (pieces : List Piece) (low high : Nat) (picking : σ) (arena : Arena) :
    Except Fault (Arena × σ × Option NodeId) :=
  if low < high then do
    let (index, picking) ← pick picking low high
    if _ : low ≤ index ∧ index < high then
      let (arena, picking, left) ← recurse pick pieces low index picking arena
      let (arena, picking, right) ← recurse pick pieces (index + 1) high picking arena
      match pieces[index]? with
      | none => throw (.badIndex index pieces.length)
      | some piece =>
        let (arena, id) ← arena.join left piece right
        return (arena, picking, some id)
    else
      throw (.pickOutside index low high)
  else
    return (arena, picking, none)
termination_by high - low

theorem recurse_empty (pick : Pick σ) (pieces : List Piece) {low high : Nat} (nothing : high ≤ low)
    (picking : σ) (arena : Arena) :
    recurse pick pieces low high picking arena = .ok (arena, picking, none) := by
  rw [recurse, if_neg (Nat.not_lt.mpr nothing), pure_eq_ok]

/-- Once a place of the range has been picked, only its two sides and the join can meet a fault. -/
theorem recurse_split {pick : Pick σ} {pieces : List Piece} {low index high : Nat}
    {picking first : σ} {piece : Piece} (picked : pick picking low high = .ok (index, first))
    (least : low ≤ index) (most : index < high) (found : pieces[index]? = some piece)
    (arena : Arena) :
    recurse pick pieces low high picking arena = (do
      let (arena, second, left) ← recurse pick pieces low index first arena
      let (arena, last, right) ← recurse pick pieces (index + 1) high second arena
      let (arena, id) ← arena.join left piece right
      return (arena, last, some id)) := by
  rw [recurse, if_pos (Nat.lt_of_le_of_lt least most), picked, ok_bind]
  dsimp only
  rw [dif_pos ⟨least, most⟩]
  simp only [found]

/-- What the recursion over a range asks of `pick`, as long as the answers lie in the ranges: each
range that is not empty, before those on its two sides, and these from left to right. The state of
`pick` runs along, from the first to the last. -/
inductive Asks (pick : Pick σ) : Nat → Nat → σ → List (Nat × Nat) → σ → Prop
  | empty {low high : Nat} (nothing : high ≤ low) (picking : σ) :
      Asks pick low high picking [] picking
  | split {low index high : Nat} {picking first second last : σ} {lefts rights : List (Nat × Nat)}
      (picked : pick picking low high = .ok (index, first)) (least : low ≤ index)
      (most : index < high) (left : Asks pick low index first lefts second)
      (right : Asks pick (index + 1) high second rights last) :
      Asks pick low high picking ((low, high) :: (lefts ++ rights)) last

/-- A range is asked for each of its places. -/
theorem Asks.length_eq {pick : Pick σ} {low high : Nat} {picking last : σ}
    {ranges : List (Nat × Nat)} (asks : Asks pick low high picking ranges last) :
    ranges.length = high - low := by
  induction asks with
  | empty nothing => exact (Nat.sub_eq_zero_of_le nothing).symm
  | split _ least most _ _ ihl ihr =>
    rw [List.length_cons, List.length_append, ihl, ihr]
    omega

/-- The way of picking always picks from the range. -/
def Fair (pick : Pick σ) : Prop :=
  ∀ state low high, low < high →
    ∃ index state', pick state low high = .ok (index, state') ∧ low ≤ index ∧ index < high

theorem Fair.asks {pick : Pick σ} (fair : Fair pick) (low high : Nat) (picking : σ) :
    ∃ ranges last, Asks pick low high picking ranges last := by
  induction hwidth : high - low using Nat.strongRecOn generalizing low high picking with
  | ind width ih =>
    by_cases nonempty : low < high
    · obtain ⟨index, first, picked, least, most⟩ := fair picking low high nonempty
      obtain ⟨lefts, second, left⟩ := ih (index - low) (by omega) low index first rfl
      obtain ⟨rights, last, right⟩ := ih (high - (index + 1)) (by omega) (index + 1) high second rfl
      exact ⟨_, last, .split picked least most left right⟩
    · exact ⟨[], picking, .empty (Nat.le_of_not_lt nonempty) picking⟩

/-- The slots of a range hold its pieces. -/
structure Holds (slots : Array (Option Piece)) (pieces : List Piece) (low high : Nat) : Prop where
  size : slots.size = pieces.length
  held : ∀ i, low ≤ i → i < high → slots[i]? = pieces[i]?.map some

/-- The slots with those of a range emptied. -/
def clear (slots : Array (Option Piece)) (low high : Nat) : Array (Option Piece) :=
  slots.mapIdx fun i slot => if low ≤ i ∧ i < high then none else slot

section
variable {slots : Array (Option Piece)} {pieces : List Piece} {low index high : Nat}

theorem getElem?_clear (slots : Array (Option Piece)) (low high i : Nat) :
    (clear slots low high)[i]? =
      if low ≤ i ∧ i < high then slots[i]?.map fun _ => none else slots[i]? := by
  rw [clear, Array.getElem?_mapIdx]
  split <;> simp [*]

theorem clear_of_le (h : high ≤ low) : clear slots low high = slots := by
  apply Array.ext_getElem?
  intro i
  rw [getElem?_clear, if_neg (by omega)]

/-- Both sides of a range emptied, and then the slot between them. -/
theorem clear_around (hlow : low ≤ index) (hhigh : index < high) :
    (clear (clear slots low index) (index + 1) high).setIfInBounds index none =
      clear slots low high := by
  apply Array.ext_getElem?
  intro i
  rw [Array.getElem?_setIfInBounds, getElem?_clear, getElem?_clear, getElem?_clear]
  simp only [clear, Array.size_mapIdx]
  by_cases here : index = i
  · subst here
    by_cases inside : index < slots.size <;> simp [inside, hlow, hhigh]
  · rw [if_neg here]
    by_cases left : low ≤ i ∧ i < index
    · rw [if_neg (by omega), if_pos left, if_pos (by omega)]
    · by_cases right : index + 1 ≤ i ∧ i < high
      · rw [if_pos right, if_neg left, if_pos (by omega)]
      · rw [if_neg right, if_neg left, if_neg (by omega)]

theorem Holds.clear_left (holds : Holds slots pieces low high) (hlow : low ≤ index) :
    Holds (clear slots low index) pieces index high := by
  refine ⟨by simpa [clear] using holds.size, fun i h1 h2 => ?_⟩
  rw [getElem?_clear, if_neg (by omega), holds.held i (by omega) h2]

theorem Holds.mono (holds : Holds slots pieces low high) {low' high' : Nat} (hlow : low ≤ low')
    (hhigh : high' ≤ high) : Holds slots pieces low' high' :=
  ⟨holds.size, fun i h1 h2 => holds.held i (by omega) (by omega)⟩

end

/-- The tasks of a range come to what the recursion comes to, faults included. -/
theorem run_range (pick : Pick σ) {pieces : List Piece} {slots : Array (Option Piece)}
    {low high : Nat} (holds : Holds slots pieces low high) (rest : Nat) (tasks : List Task)
    (picking : σ) (built : List (Option NodeId)) (arena : Arena) :
    run pick (rest + (3 * (high - low) + 1)) (.range low high :: tasks) ⟨picking, slots, built⟩
        arena =
      (recurse pick pieces low high picking arena >>= fun (arena, picking, root) =>
        run pick rest tasks ⟨picking, clear slots low high, root :: built⟩ arena) := by
  induction hwidth : high - low using Nat.strongRecOn generalizing slots low high rest tasks picking
    built arena with
  | ind width ih =>
    rw [recurse, ← Nat.add_assoc, run]
    by_cases nonempty : low < high
    · rw [if_pos nonempty, if_pos nonempty]
      dsimp only
      cases pick picking low high with
      | error fault => rfl
      | ok picked =>
        obtain ⟨index, picking⟩ := picked
        simp only [ok_bind]
        by_cases inside : low ≤ index ∧ index < high
        · obtain ⟨hlow, hhigh⟩ := inside
          have fuel : rest + 3 * width =
              rest + 1 + (3 * (high - (index + 1)) + 1) + (3 * (index - low) + 1) := by omega
          rw [if_pos ⟨hlow, hhigh⟩, dif_pos ⟨hlow, hhigh⟩, fuel,
            ih (index - low) (by omega) (holds.mono (Nat.le_refl _) (by omega)) _ _ _ _ _ rfl]
          cases recurse pick pieces low index picking arena with
          | error fault => rfl
          | ok left =>
            obtain ⟨arena, picking, left⟩ := left
            simp only [ok_bind]
            rw [ih (high - (index + 1)) (by omega)
              ((holds.clear_left hlow).mono (by omega) (Nat.le_refl _)) _ _ _ _ _ rfl]
            cases recurse pick pieces (index + 1) high picking arena with
            | error fault => rfl
            | ok right =>
              obtain ⟨arena, picking, right⟩ := right
              simp only [ok_bind]
              have slot : (clear (clear slots low index) (index + 1) high)[index]? =
                  pieces[index]?.map some := by
                rw [getElem?_clear, if_neg (by omega), getElem?_clear, if_neg (by omega),
                  holds.held index hlow hhigh]
              have size :
                  (clear (clear slots low index) (index + 1) high).size = pieces.length := by
                simpa [clear] using holds.size
              rw [run, slot]
              cases pieces[index]? with
              | none =>
                dsimp only [Option.map_none]
                rw [size]
                rfl
              | some piece =>
                dsimp only [Option.map_some]
                rw [clear_around hlow hhigh]
                simp only [List.tail_cons, List.headD_cons]
                cases arena.join left piece right <;> rfl
        · rw [if_neg inside, dif_neg inside]
          rfl
    · obtain rfl : width = 0 := by omega
      rw [if_neg nonempty, if_neg nonempty, clear_of_le (by omega)]
      rfl

end Build

/-- Building over all pieces is the recursion over their whole range. -/
theorem Arena.splitWith_eq {σ : Type} (arena : Arena) (pieces : List Piece) (pick : Build.Pick σ)
    (picking : σ) :
    arena.splitWith pieces pick picking =
      Build.recurse pick pieces 0 pieces.length picking arena := by
  have holds : Build.Holds (pieces.map some).toArray pieces 0 pieces.length :=
    ⟨by simp, fun i _ _ => by simp⟩
  rw [splitWith]
  simp only [List.size_toArray, List.length_map]
  rw [show 3 * pieces.length + 2 = 1 + (3 * (pieces.length - 0) + 1) by omega,
    Build.run_range pick holds]
  cases Build.recurse pick pieces 0 pieces.length picking arena <;> rfl

end PieceIndex
