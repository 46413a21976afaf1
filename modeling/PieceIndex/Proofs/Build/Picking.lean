import PieceIndex.Proofs.Build.Shapes

/-!
What `pick` is asked while a list of pieces is built over. A way of picking can note the ranges that
it is given, and picks as it would without; so the notes of a build tell every call there was. They
are the ranges of the subtrees that come out, each before those on its two sides.
-/
namespace PieceIndex
namespace Build
variable {σ τ : Type}

/-- Notes each range that is asked for, the latest at the end. -/
def noting (pick : Pick σ) : Pick (σ × List (Nat × Nat)) := fun (picking, asked) low high => do
  let (index, picking) ← pick picking low high
  return (index, picking, asked ++ [(low, high)])

theorem noting_of_ok {pick : Pick σ} {picking next : σ} {low high index : Nat}
    (picked : pick picking low high = .ok (index, next)) (asked : List (Nat × Nat)) :
    noting pick (picking, asked) low high = .ok (index, next, asked ++ [(low, high)]) := by
  simp only [noting, picked, ok_bind, pure_eq_ok]

/-- The ranges that are noted are those that are asked for. -/
theorem Asks.noting {pick : Pick σ} {low high : Nat} {picking last : σ}
    {ranges : List (Nat × Nat)} (asks : Asks pick low high picking ranges last)
    (asked : List (Nat × Nat)) :
    Asks (noting pick) low high (picking, asked) ranges (last, asked ++ ranges) := by
  induction asks generalizing asked with
  | empty nothing picking =>
    rw [List.append_nil]
    exact .empty nothing (picking, asked)
  | @split low index high picking first second last lefts rights picked least most _ _ ihl ihr =>
    have notes : asked ++ (low, high) :: (lefts ++ rights) =
        asked ++ [(low, high)] ++ lefts ++ rights := by simp
    rw [notes]
    exact .split (noting_of_ok picked asked) least most (ihl _) (ihr _)

/-- Whatever a way of picking keeps beside the state that it goes by, the same is built. -/
theorem recurse_map {pick : Pick σ} {more : Pick τ} (state : τ → σ)
    (picks : ∀ picking low high, (more picking low high).map (Prod.map id state) =
      pick (state picking) low high) (pieces : List Piece) (low high : Nat) (picking : τ)
    (arena : Arena) :
    (recurse more pieces low high picking arena).map (Prod.map id (Prod.map state id)) =
      recurse pick pieces low high (state picking) arena := by
  induction hwidth : high - low using Nat.strongRecOn generalizing low high picking arena with
  | ind width ih =>
    have here := picks picking low high
    rw [recurse, recurse, ← here]
    by_cases nonempty : low < high
    · rw [if_pos nonempty, if_pos nonempty]
      cases more picking low high with
      | error fault => rfl
      | ok picked =>
        obtain ⟨index, first⟩ := picked
        simp only [Except.map, Prod.map, id, ok_bind]
        by_cases inside : low ≤ index ∧ index < high
        · have left := ih (index - low) (by omega) low index first arena rfl
          rw [dif_pos inside, dif_pos inside, ← left]
          cases recurse more pieces low index first arena with
          | error fault => rfl
          | ok built =>
            obtain ⟨middle, second, left⟩ := built
            have right := ih (high - (index + 1)) (by omega) (index + 1) high second middle rfl
            simp only [Except.map, Prod.map, id, ok_bind]
            rw [← right]
            cases recurse more pieces (index + 1) high second middle with
            | error fault => rfl
            | ok built =>
              obtain ⟨after, last, right⟩ := built
              simp only [Except.map, Prod.map, id, ok_bind]
              cases pieces[index]? with
              | none => rfl
              | some piece =>
                dsimp only
                cases after.join left piece right <;> rfl
        · rw [dif_neg inside, dif_neg inside]
          rfl
    · rw [if_neg nonempty, if_neg nonempty]
      rfl

theorem map_noting (pick : Pick σ) (picking : σ × List (Nat × Nat)) (low high : Nat) :
    (noting pick picking low high).map (Prod.map id Prod.fst) = pick picking.1 low high := by
  obtain ⟨picking, asked⟩ := picking
  dsimp only [noting]
  cases pick picking low high <;> rfl

/-- What comes of building over all pieces when the calls are noted. -/
theorem Asks.outcome_noting {pick : Pick σ} {pieces : List Piece} {picking last : σ}
    {ranges : List (Nat × Nat)} (asks : Asks pick 0 pieces.length picking ranges last)
    (arena : Arena) :
    Outcome arena pieces 0 ranges (last, ranges)
      (arena.splitWith pieces (Build.noting pick) (picking, [])) :=
  (asks.noting []).outcome_splitWith arena

end Build

namespace Arena
variable {σ : Type}

/-- To note the calls changes nothing else. -/
theorem splitWith_noting (arena : Arena) (pieces : List Piece) (pick : Build.Pick σ) (picking : σ) :
    arena.splitWith pieces pick picking =
      (arena.splitWith pieces (Build.noting pick) (picking, [])).map
        (Prod.map id (Prod.map Prod.fst id)) := by
  rw [splitWith_eq, splitWith_eq, Build.recurse_map Prod.fst (Build.map_noting pick)]

/-- Building over all pieces is the recursion over their whole range: as long as the answers of
`pick` lie in the ranges and neither limit is met, it builds what the recursion builds. Every range
that is not empty is asked for once, before those on its two sides; the new nodes follow one another
in post-order and hold the pieces from left to right; and nothing that was there changes. There is
no root only where there are no pieces, so no piece is ever wanted a second time. -/
theorem splitWith_recurses {pick : Build.Pick σ} {pieces : List Piece} {picking last : σ}
    {ranges : List (Nat × Nat)} (arena : Arena)
    (asks : Build.Asks pick 0 pieces.length picking ranges last)
    (sums : arena.splitWith pieces pick picking ≠ .error .sumOverflow)
    (ids : ∀ slot, arena.splitWith pieces pick picking ≠ .error (.noNodeId slot)) :
    arena.splitWith pieces pick picking = Build.recurse pick pieces 0 pieces.length picking arena ∧
      ranges.length = pieces.length ∧
      ∃ after shape,
        arena.splitWith pieces pick picking = .ok (after, last, shape.root) ∧
        arena.splitWith pieces (Build.noting pick) (picking, []) =
          .ok (after, (last, ranges), shape.root) ∧
        ranges = shape.ranges 0 ∧
        Tree.HasShape ⟨after, shape.root⟩ shape ∧
        after.size = arena.size + pieces.length ∧
        shape.postOrder = List.range' arena.size pieces.length ∧
        shape.inOrder.map after.pieceAt = pieces.map some ∧
        (∀ id < arena.size, after[id]? = arena[id]?) ∧
        (shape.root = none ↔ pieces = []) := by
  refine ⟨splitWith_eq .., asks.length_eq, ?_⟩
  have outcome := asks.outcome_noting arena
  rw [splitWith_noting] at sums ids ⊢
  generalize arena.splitWith pieces (Build.noting pick) (picking, []) = result at outcome sums ids ⊢
  cases outcome with
  | overfull large => exact absurd rfl sums
  | crowded slot full => exact absurd rfl (ids slot)
  | @built after shape built asked =>
    refine ⟨after, shape, rfl, rfl, asked, built.hasShape, built.size, built.ids, built.pieces,
      built.old, ?_⟩
    rw [Shape.root_eq_none, ← List.length_eq_zero_iff, ← built.count_eq]
    cases shape <;> simp [Shape.count]

/-- Picks the places of a list, one after the other. -/
def scripted : Build.Pick (List Nat) := fun script low _ => .ok (script.headD low, script.tail)

theorem splitWith_recurses_scripted :
    let arena : Arena := #[{ piece := .sized 9 }]
    let pieces : List Piece := [.sized 2, .sized 3, .sized 4, .sized 5]
    let ranges : List (Nat × Nat) := [(0, 4), (0, 2), (1, 2), (3, 4)]
    Build.Asks scripted 0 4 [2, 0, 1, 3] ranges [] ∧
      ∃ (after : Arena) (shape : Shape),
        arena.splitWith pieces (Build.noting scripted) ([2, 0, 1, 3], []) =
          .ok (after, ([], ranges), shape.root) ∧
        shape.root = some 4 ∧ ranges = shape.ranges 0 ∧ shape.postOrder = [1, 2, 3, 4] ∧
        shape.inOrder.map after.pieceAt = pieces.map some ∧ after[0]? = arena[0]? := by
  intro arena pieces ranges
  have asks : Build.Asks scripted 0 4 [2, 0, 1, 3] ranges [] :=
    .split rfl (by decide) (by decide)
      (.split rfl (by decide) (by decide) (.empty (by decide) _)
        (.split rfl (by decide) (by decide) (.empty (by decide) _) (.empty (by decide) _)))
      (.split rfl (by decide) (by decide) (.empty (by decide) _) (.empty (by decide) _))
  obtain ⟨_, ran⟩ :
    ∃ after, arena.splitWith pieces scripted [2, 0, 1, 3] = .ok (after, [], some 4) := ⟨_, rfl⟩
  obtain ⟨-, -, after, shape, built, noted, asked, -, -, ids, held, old, -⟩ :=
    splitWith_recurses arena asks (by rw [ran]; nofun) (by rw [ran]; nofun)
  have top : shape.root = some 4 :=
    (congrArg (·.2.2) (Except.ok.inj (ran.symm.trans built))).symm
  exact ⟨asks, after, shape, noted, top, asked, ids, held, old 0 (by decide)⟩

end Arena
end PieceIndex
