import Mathlib.Algebra.Group.Nat.Defs
import Mathlib.Data.Nat.Log
import PieceIndex.Proofs.Build.Starts
import PieceIndex.Proofs.Trail

/-!
Building in halves. The middle of a range leaves as many places before it as behind it, or one more;
so at every node of the tree the two sides are as nearly of one size as they can be. Such a tree has
no more levels than its number of nodes asks for, and where this number is one less than a power of
two, all its levels are full.
-/
namespace PieceIndex

namespace Shape
variable {shape other : Shape} {levels : Nat}

/-- At every node there stand as many nodes on the left as on the right, or one more. -/
def Halved : Shape → Prop
  | .empty => True
  | .node left _ right =>
    (left.count = right.count ∨ left.count = right.count + 1) ∧ Halved left ∧ Halved right

theorem Alike.count_eq (alike : shape.Alike other) : shape.count = other.count := by
  induction shape generalizing other with
  | empty =>
    cases other with
    | empty => rfl
    | node => cases alike
  | node left id right ihl ihr =>
    cases other with
    | empty => cases alike
    | node => rw [count, count, ihl alike.1, ihr alike.2]

theorem Alike.halved (alike : shape.Alike other) (halved : other.Halved) : shape.Halved := by
  induction shape generalizing other with
  | empty => trivial
  | node left id right ihl ihr =>
    cases other with
    | empty => cases alike
    | node =>
      obtain ⟨even, halvedl, halvedr⟩ := halved
      rw [← alike.1.count_eq, ← alike.2.count_eq] at even
      exact ⟨even, ihl alike.1 halvedl, ihr alike.2 halvedr⟩

/-! How many levels so many nodes take. -/

theorem count_lt_two_pow (shape : Shape) : shape.count < 2 ^ shape.levels := by
  induction shape with
  | empty => exact Nat.one_pos
  | node left id right ihl ihr =>
    have widel : 2 ^ left.levels ≤ 2 ^ max left.levels right.levels :=
      Nat.pow_le_pow_right Nat.two_pos (Nat.le_max_left ..)
    have wider : 2 ^ right.levels ≤ 2 ^ max left.levels right.levels :=
      Nat.pow_le_pow_right Nat.two_pos (Nat.le_max_right ..)
    rw [count, Shape.levels, Nat.pow_succ]
    omega

/-- A halved tree fills all levels but the lowest one, on which it has a node. -/
theorem Halved.two_pow_le (halved : shape.Halved) (nonempty : shape ≠ .empty) :
    2 ^ shape.levels ≤ 2 * shape.count := by
  induction shape with
  | empty => exact absurd rfl nonempty
  | node left id right ihl ihr =>
    obtain ⟨even, halvedl, halvedr⟩ := halved
    have half (side : Shape) (less : side.count ≤ left.count)
        (ih : side ≠ .empty → 2 ^ side.levels ≤ 2 * side.count) :
        2 ^ side.levels ≤ left.count + 1 + right.count := by
      by_cases nothing : side = .empty
      · rw [nothing, Shape.levels]
        omega
      · have := ih nothing
        omega
    have lower : 2 ^ max left.levels right.levels ≤ left.count + 1 + right.count := by
      rcases Nat.le_total right.levels left.levels with high | high
      · rw [Nat.max_eq_left high]
        exact half left (Nat.le_refl _) (ihl halvedl)
      · rw [Nat.max_eq_right high]
        exact half right (by omega) (ihr halvedr)
    rw [Shape.levels, count, Nat.pow_succ]
    omega

theorem count_ne_zero (nonempty : shape ≠ .empty) : shape.count ≠ 0 :=
  fun none => nonempty (count_eq_zero.mp none)

theorem log2_count_lt (nonempty : shape ≠ .empty) : Nat.log2 shape.count < shape.levels :=
  (Nat.log2_lt (count_ne_zero nonempty)).mpr shape.count_lt_two_pow

theorem Halved.levels_eq (halved : shape.Halved) (nonempty : shape ≠ .empty) :
    shape.levels = Nat.log2 shape.count + 1 := by
  have least := log2_count_lt nonempty
  have lower := halved.two_pow_le nonempty
  have filled : 2 ^ (shape.levels - 1) ≤ shape.count := by
    rw [← Nat.sub_add_cancel (Nat.one_le_of_lt least), Nat.pow_succ] at lower
    omega
  have most := (Nat.le_log2 (count_ne_zero nonempty)).mpr filled
  omega

/-! Full levels. -/

/-- So many levels, all of them full. -/
def Perfect : Nat → Shape → Prop
  | 0, shape => shape = .empty
  | _ + 1, .empty => False
  | levels + 1, .node left _ right => Perfect levels left ∧ Perfect levels right

theorem Halved.perfect (halved : shape.Halved) (full : shape.count = 2 ^ levels - 1) :
    Perfect levels shape := by
  induction levels generalizing shape with
  | zero => exact count_eq_zero.mp full
  | succ levels ih =>
    have wide := Nat.one_le_two_pow (n := levels)
    rw [Nat.pow_succ] at full
    cases shape with
    | empty =>
      rw [count] at full
      omega
    | node left id right =>
      obtain ⟨even, halvedl, halvedr⟩ := halved
      rw [count] at full
      exact ⟨ih halvedl (by omega), ih halvedr (by omega)⟩

theorem Perfect.isSome_root (perfect : Perfect levels shape) :
    shape.root.isSome = true ↔ 0 < levels := by
  cases levels with
  | zero =>
    rw [show shape = .empty from perfect]
    simp [root]
  | succ levels =>
    cases shape with
    | empty => cases perfect
    | node => simp [root]

/-- Every node above the lowest level has two children, and those on it have none. -/
theorem Perfect.isSome_link {links : NodeId → Side → Option NodeId} (perfect : Perfect levels shape)
    (nodup : shape.inOrder.Nodup) (wired : shape.Wired links) :
    ∀ id ∈ shape.inOrder, shape.depth id < levels ∧
      ∀ side, (links id side).isSome = true ↔ shape.depth id + 1 < levels := by
  induction levels generalizing shape with
  | zero =>
    rw [show shape = .empty from perfect]
    intro id inside
    cases inside
  | succ levels ih =>
    cases shape with
    | empty => cases perfect
    | node left top right =>
      obtain ⟨perfectl, perfectr⟩ := perfect
      obtain ⟨linkl, linkr, wiredl, wiredr⟩ := wired
      have whole : (sided .left left top right).inOrder.Nodup := nodup
      obtain ⟨nodupl, nodupr, -⟩ := (nodup_inOrder_sided ..).mp whole
      have lower {id depth : Nat} (deeper : (node left top right).depth id = depth + 1)
          (below : depth < levels ∧ ∀ side, (links id side).isSome = true ↔ depth + 1 < levels) :
          (node left top right).depth id < levels + 1 ∧ ∀ side, (links id side).isSome = true ↔
            (node left top right).depth id + 1 < levels + 1 := by
        rw [deeper]
        exact ⟨Nat.succ_lt_succ below.1, fun side => (below.2 side).trans Nat.succ_lt_succ_iff.symm⟩
      refine forall_mem_node ?_ (fun id inside => ?_) (fun id inside => ?_)
      · have here : (node left top right).depth top = 0 := depth_sided_self whole
        rw [here]
        refine ⟨Nat.succ_pos _, fun side => ?_⟩
        cases side with
        | left =>
          rw [linkl, perfectl.isSome_root]
          omega
        | right =>
          rw [linkr, perfectr.isSome_root]
          omega
      · exact lower (depth_sided whole inside) (ih perfectl nodupl wiredl id inside)
      · exact lower (depth_sided_other whole inside) (ih perfectr nodupr wiredr id inside)

/-- The shape is halved, over so many nodes, on the least number of levels that takes them. -/
structure Lowest (shape : Shape) (count : Nat) : Prop where
  count_eq : shape.count = count
  levels_eq : shape.levels = Nat.log2 count + 1
  least : ∀ other : Shape, other.count = count → shape.levels ≤ other.levels
  halved : shape.Halved

theorem Halved.lowest (halved : shape.Halved) (nonempty : shape ≠ .empty) :
    shape.Lowest shape.count := by
  have levels := halved.levels_eq nonempty
  refine ⟨rfl, levels, fun other same => ?_, halved⟩
  have taken : Nat.log2 other.count < other.levels := by
    apply log2_count_lt
    rintro rfl
    exact count_ne_zero nonempty same.symm
  rw [same] at taken
  omega

end Shape

namespace Build

/-- Asking for the middle of each range asks for the ranges of a halved form. -/
theorem Asks.halves {low high : Nat} {picking last : Unit} {ranges : List (Nat × Nat)}
    (asks : Asks pickMiddle low high picking ranges last) :
    ∃ form : Shape, form.Halved ∧ form.count = high - low ∧ ranges = form.ranges low := by
  induction asks with
  | empty nothing => exact ⟨.empty, trivial, (Nat.sub_eq_zero_of_le nothing).symm, rfl⟩
  | @split low index high picking first second last lefts rights picked least most _ _ ihl ihr =>
    obtain ⟨left, halvedl, countl, rfl⟩ := ihl
    obtain ⟨right, halvedr, countr, rfl⟩ := ihr
    have halfway : index = low + (high - low) / 2 := by
      cases picked
      rfl
    have begins : low + left.count + 1 = index + 1 := by omega
    have ends : low + (left.count + 1 + right.count) = high := by omega
    refine ⟨.node left 0 right, ⟨by omega, halvedl, halvedr⟩, ?_, ?_⟩
    · rw [Shape.count]
      omega
    · rw [Shape.ranges, begins, ends]

end Build

namespace Arena
variable {arena after : Arena} {pieces : List Piece} {root : Option NodeId}

/-- What is built in halves is halved. -/
theorem built_of_balanced (halved : arena.balanced pieces = .ok (after, root)) :
    ∃ shape : Shape, root = shape.root ∧ Built arena after pieces shape ∧ shape.Halved := by
  obtain ⟨⟨arena', picking, root'⟩, split, h⟩ := bind_eq_ok.mp halved
  cases h
  obtain ⟨ranges, last, asks⟩ := Build.fair_pickMiddle.asks 0 pieces.length ()
  obtain ⟨form, even, -, rfl⟩ := asks.halves
  have outcome := asks.outcome_splitWith arena
  rw [split] at outcome
  cases outcome with
  | built built asked => exact ⟨_, rfl, built, (Shape.alike_of_ranges asked.symm).halved even⟩

theorem exists_balanced (fits : sizeSum Piece.size pieces < Size.limit)
    (room : arena.size + pieces.length ≤ NodeId.limit) :
    ∃ after root, arena.balanced pieces = .ok (after, root) := by
  obtain ⟨ranges, last, asks⟩ := Build.fair_pickMiddle.asks 0 pieces.length ()
  obtain ⟨after, shape, split, -⟩ := asks.builds fits room
  refine ⟨after, shape.root, ?_⟩
  rw [balanced, split]
  rfl

/-- Building in halves gives a tree that is as low as any over so many nodes. -/
theorem exists_lowest (some : pieces ≠ []) (fits : sizeSum Piece.size pieces < Size.limit)
    (room : arena.size + pieces.length ≤ NodeId.limit) :
    ∃ after shape, arena.balanced pieces = .ok (after, shape.root) ∧
      Tree.HasShape ⟨after, shape.root⟩ shape ∧ shape.Lowest pieces.length := by
  obtain ⟨after, root, h⟩ := exists_balanced fits room
  obtain ⟨shape, rfl, built, halved⟩ := built_of_balanced h
  have nonempty : shape ≠ .empty := by
    rintro rfl
    exact some (List.length_eq_zero_iff.mp built.count_eq.symm)
  exact ⟨after, shape, h, built.hasShape, built.count_eq ▸ halved.lowest nonempty⟩

end Arena

namespace Tree

theorem built_of_ofPieces {pieces : List Piece} {tree : Tree} (h : ofPieces pieces = .ok tree) :
    ∃ shape : Shape, tree.root = shape.root ∧ Built #[] tree.nodes pieces shape ∧ shape.Halved := by
  obtain ⟨⟨arena, root⟩, balanced, made⟩ := bind_eq_ok.mp h
  cases made
  exact Arena.built_of_balanced balanced

/-- All levels of a complete tree are full. -/
theorem complete_full {depth : Nat} {sizeOf : Nat → Nat} {tree : Tree}
    (h : complete depth sizeOf = .ok tree) :
    ∃ shape, tree.HasShape shape ∧ shape.count = 2 ^ depth - 1 ∧
      ∀ id ∈ shape.inOrder, shape.depth id < depth ∧
        ∀ side, (tree.nodes.childOf id side).isSome = true ↔ shape.depth id + 1 < depth := by
  rw [complete] at h
  split at h
  · obtain ⟨shape, root, built, halved⟩ := built_of_ofPieces h
    have count : shape.count = 2 ^ depth - 1 := by
      rw [built.count_eq, List.length_map, List.length_range]
      rfl
    have hasShape := built.hasShape
    rw [← root] at hasShape
    exact ⟨shape, hasShape, count,
      (halved.perfect count).isSome_link built.stands.nodup built.stands.wired⟩
  · cases h

/-- A complete tree of so few levels that there are ids for its nodes is made if its sizes fit. -/
theorem exists_complete {depth : Nat} {sizeOf : Nat → Nat} (few : depth ≤ 32)
    (fits : sizeSum sizeOf (List.range (2 ^ depth - 1)) < Size.limit) :
    ∃ tree, complete depth sizeOf = .ok tree := by
  have fits' : sizeSum Piece.size
      ((List.range (Nat.pow 2 depth - 1)).map fun i => Piece.sized (sizeOf i)) < Size.limit := by
    rw [sizeSum_map]
    exact fits
  have room : (#[] : Arena).size +
      ((List.range (Nat.pow 2 depth - 1)).map fun i => Piece.sized (sizeOf i)).length ≤
        NodeId.limit := by
    have most : 2 ^ depth ≤ 2 ^ 32 := Nat.pow_le_pow_right Nat.two_pos few
    rw [List.length_map, List.length_range, Nat.pow_eq, NodeId.limit]
    simp only [Array.size_empty]
    omega
  obtain ⟨after, root, h⟩ := Arena.exists_balanced fits' room
  refine ⟨⟨after, root⟩, ?_⟩
  rw [complete, if_pos (by omega), ofPieces, h]
  rfl

/-- Over any pieces that fit, the tree built in halves stands on the fewest levels there can be,
with as many nodes on the left of each node as on its right, or one more; and so a complete tree has
two children at each node above the lowest level, and none there. -/
theorem balanced_lowest :
    (∀ pieces : List Piece, pieces ≠ [] → sizeSum Piece.size pieces < Size.limit →
      pieces.length ≤ NodeId.limit →
      ∃ tree shape, ofPieces pieces = .ok tree ∧ tree.HasShape shape ∧
        shape.Lowest pieces.length) ∧
    (∀ (arena : Arena) (pieces : List Piece), pieces ≠ [] →
      sizeSum Piece.size pieces < Size.limit → arena.size + pieces.length ≤ NodeId.limit →
      ∃ after shape, arena.balanced pieces = .ok (after, shape.root) ∧
        HasShape ⟨after, shape.root⟩ shape ∧ shape.Lowest pieces.length) ∧
    ∀ (depth : Nat) (sizeOf : Nat → Nat),
      (depth ≤ 32 → sizeSum sizeOf (List.range (2 ^ depth - 1)) < Size.limit →
        ∃ tree, complete depth sizeOf = .ok tree) ∧
      ∀ tree, complete depth sizeOf = .ok tree →
        ∃ shape, tree.HasShape shape ∧ shape.count = 2 ^ depth - 1 ∧
          ∀ id ∈ shape.inOrder, shape.depth id < depth ∧
            ∀ side, (tree.nodes.childOf id side).isSome = true ↔ shape.depth id + 1 < depth := by
  refine ⟨?_, ?_, ?_⟩
  · intro pieces some fits room
    have room' : (#[] : Arena).size + pieces.length ≤ NodeId.limit := by simpa using room
    obtain ⟨after, shape, h, hasShape, lowest⟩ := Arena.exists_lowest some fits room'
    refine ⟨⟨after, shape.root⟩, shape, ?_, hasShape, lowest⟩
    rw [ofPieces, h]
    rfl
  · intro arena pieces some fits room
    exact Arena.exists_lowest some fits room
  · intro depth sizeOf
    exact ⟨exists_complete, fun tree => complete_full⟩

theorem balanced_lowest_six :
    let pieces : List Piece := [.sized 3, .sized 0, .sized 2, .sized 7, .sized 1, .sized 4]
    (∃ tree shape, ofPieces pieces = .ok tree ∧ tree.HasShape shape ∧ shape.levels = 3) ∧
      (∃ (after : Arena) (shape : Shape),
        Arena.balanced #[{ piece := .sized 9 }] pieces = .ok (after, shape.root) ∧
          shape.count = 6 ∧ shape.Halved) ∧
      ∃ tree shape, complete 2 (fun i => 5 * i) = .ok tree ∧ tree.HasShape shape ∧
        shape.count = 3 := by
  intro pieces
  obtain ⟨alone, among, full⟩ := balanced_lowest
  have some : pieces ≠ [] := List.cons_ne_nil _ _
  obtain ⟨tree, shape, h, hasShape, lowest⟩ := alone pieces some (by decide) (by decide)
  obtain ⟨after, shape', h', -, lowest'⟩ :=
    among #[{ piece := .sized 9 }] pieces some (by decide) (by decide)
  obtain ⟨made, filled⟩ := full 2 fun i => 5 * i
  obtain ⟨perfect, accepted⟩ := made (by decide) (by decide)
  obtain ⟨shape'', hasShape'', count, -⟩ := filled perfect accepted
  refine ⟨⟨tree, shape, h, hasShape, lowest.levels_eq.trans (by decide)⟩,
    ⟨after, shape', h', lowest'.count_eq, lowest'.halved⟩,
    ⟨perfect, shape'', accepted, hasShape'', count⟩⟩

end Tree
end PieceIndex
