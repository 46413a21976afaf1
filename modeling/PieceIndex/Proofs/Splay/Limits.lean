import PieceIndex.Proofs.Splay.Exact

/-!
When a splay over right sizes meets a fault. The pieces may be empty, and all together larger than
any size. Then the length cannot be told, which is asked for first; if it can, an offset past the
end is refused, and nothing that is added up later, on the way down or when the spines are made
good, is more than the whole.
-/
namespace PieceIndex

namespace Tree
variable {tree : Tree} {shape : Shape} {root : NodeId} {node : Node} {offset : Nat}

theorem length_of_root (top : tree.root = some root) (found : tree.node root = .ok node) :
    tree.length = node.total := by
  rw [length, top, Arena.subtreeSize, show tree.nodes.node root = _ from found, ok_bind]

theorem splay_of_length_error {fault : Fault} (offset : Nat) (top : tree.root = some root)
    (measured : tree.length = .error fault) : tree.splay offset = .error fault := by
  rw [splay, splayTraced, top]
  dsimp only
  rw [measured, error_bind, error_bind]

theorem splay_of_length_lt {length : Nat} (top : tree.root = some root)
    (measured : tree.length = .ok length) (beyond : length < offset) :
    tree.splay offset = .error (.pastEnd offset length) := by
  rw [splay, splayTraced, top]
  dsimp only
  rw [measured, ok_bind, if_pos beyond, throw_eq_error, error_bind]

/-- The cached sizes at the root of a tree with right sizes make up the whole. -/
theorem HasShape.total_eq (has : tree.HasShape shape) (sizes : tree.nodes.Exact shape)
    (top : tree.root = some root) (found : tree.node root = .ok node) :
    shape.weight tree.nodes.pieceSize = node.lsize + node.piece.size + node.rsize := by
  have here := has.root_eq.symm.trans top
  cases shape with
  | empty => cases here
  | node left id right =>
    cases here
    have found := Arena.node_eq_ok.mp found
    obtain ⟨hl, hr, -⟩ := (Arena.exact_iff.mp sizes).2
    rw [Arena.cachedOf_found found] at hl hr
    rw [Shape.weight_node, ← hl, ← hr, Arena.pieceSize_found found]
    rfl

/-- Over links that form a tree and right sizes a splay meets a fault exactly when the whole is too
large for a size, or the offset lies past the end of it. -/
theorem splay_faults_iff (has : tree.HasShape shape)
    (parents : ∃ above, tree.nodes.Parents above shape) (sizes : tree.nodes.Exact shape)
    (top : tree.root = some root) (found : tree.node root = .ok node) (offset : Nat) :
    ((∃ fault, tree.splay offset = .error fault) ↔
      Size.limit ≤ node.lsize + node.piece.size + node.rsize ∨
        node.lsize + node.piece.size + node.rsize < offset) ∧
    ∀ fault, tree.splay offset = .error fault ↔
      (Size.limit ≤ node.lsize + node.piece.size + node.rsize ∧ fault = .sumOverflow) ∨
      (node.lsize + node.piece.size + node.rsize < Size.limit ∧
        node.lsize + node.piece.size + node.rsize < offset ∧
        fault = .pastEnd offset (node.lsize + node.piece.size + node.rsize)) := by
  have measured := length_of_root top found
  have whole := has.total_eq sizes top found
  by_cases fits : node.lsize + node.piece.size + node.rsize < Size.limit
  · rw [(Node.total_eq_ok .left).mpr ⟨rfl, fits⟩] at measured
    change tree.length = .ok (node.lsize + node.piece.size + node.rsize) at measured
    have small := Nat.not_le.mpr fits
    by_cases within : offset ≤ node.lsize + node.piece.size + node.rsize
    · rw [← whole] at fits within
      obtain ⟨after, steps, splayed, -, -⟩ := has.splayTraced parents sizes fits within
      have splayed := splay_eq_ok.mpr ⟨steps, splayed⟩
      rw [whole] at within
      simp [splayed, small, Nat.not_lt.mpr within]
    · have refused := splay_of_length_lt top measured (Nat.lt_of_not_le within)
      simp [refused, small, fits, Nat.lt_of_not_le within, eq_comm]
  · rw [Node.total_of_ge (Nat.le_of_not_lt fits)] at measured
    have refused := splay_of_length_error offset top measured
    simp [refused, fits, Nat.le_of_not_lt fits, eq_comm]

/-- A document so long that only the greatest offset lies past its end, with an empty piece at the
root. -/
def brimful : Tree where
  nodes := #[{ piece := .sized 9223372036854775808, parent := some 1 },
    { piece := .sized 0, lsize := 9223372036854775808, rsize := 9223372036854775806,
      left := some 0, right := some 2 },
    { piece := .sized 9223372036854775806, parent := some 1 }]
  root := some 1

theorem splay_faults_iff_brimful :
    (¬ ∃ fault, brimful.splay 18446744073709551614 = .error fault) ∧
      brimful.splay 18446744073709551615 =
        .error (.pastEnd 18446744073709551615 18446744073709551614) := by
  let shape : Shape := .node (.node .empty 0 .empty) 1 (.node .empty 2 .empty)
  have has : brimful.HasShape shape :=
    ⟨rfl, ⟨_, rfl, rfl, rfl, ⟨_, rfl, rfl, rfl, trivial, trivial⟩, _, rfl, rfl, rfl, trivial,
      trivial⟩, by decide⟩
  have parents : ∃ above, brimful.nodes.Parents above shape :=
    ⟨none, ⟨_, rfl, rfl⟩, ⟨⟨_, rfl, rfl⟩, trivial, trivial⟩, ⟨_, rfl, rfl⟩, trivial, trivial⟩
  have sizes : brimful.nodes.Exact shape :=
    ⟨⟨_, rfl, rfl, rfl⟩, ⟨⟨_, rfl, rfl, rfl⟩, trivial, trivial⟩, ⟨_, rfl, rfl, rfl⟩, trivial,
      trivial⟩
  have faults := splay_faults_iff has parents sizes rfl rfl
  constructor
  · rw [(faults 18446744073709551614).1]
    decide
  · rw [(faults 18446744073709551615).2]
    decide

end Tree
end PieceIndex
