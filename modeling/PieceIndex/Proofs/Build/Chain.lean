import PieceIndex.Proofs.Build.Picking
import PieceIndex.Proofs.Build.Starts

/-!
Chains as splits. A chain goes up from its lowest node, one join for each size; a split that roots
every range at its end comes down to the same lowest node first, and then makes the same joins on
its way back. So the two meet the same fault or none, and number the same nodes alike.
-/
namespace PieceIndex

namespace Build

/-- The place of a range with all the others on the given side of it. -/
def endOf : Side → Nat → Nat → Nat
  | .left, _, high => high - 1
  | .right, low, _ => low

theorem endOf_inside (side : Side) {low high : Nat} (nonempty : low < high) :
    low ≤ endOf side low high ∧ endOf side low high < high := by
  cases side with
  | left =>
    dsimp only [endOf]
    omega
  | right => exact ⟨Nat.le_refl low, nonempty⟩

def pickEnd (side : Side) : Pick Unit := fun _ low high => .ok (endOf side low high, ())

theorem fair_pickEnd (side : Side) : Fair (pickEnd side) := fun _ _ _ nonempty =>
  ⟨_, (), rfl, endOf_inside side nonempty⟩

/-- A choice of zero roots every range at its first place, as often as it is taken. -/
theorem map_pickChoice_zero (taken low high : Nat) :
    (Tree.pickChoice #[0] taken low high).map (Prod.map id fun _ => ()) =
      pickEnd .right () low high := by
  have found : (#[0] : Array Nat)[taken % (#[0] : Array Nat).size]? = some 0 := by
    rw [show (#[0] : Array Nat).size = 1 from rfl, Nat.mod_one]
    rfl
  simp only [Tree.pickChoice, found, Nat.zero_mod, Nat.add_zero]
  rfl

end Build

namespace Tree
variable {σ τ : Type}

/-- Whatever a way of picking keeps beside the state that it goes by, the same tree is made. -/
theorem ofSplit_map {pick : Build.Pick σ} {more : Build.Pick τ} (state : τ → σ)
    (picks : ∀ picking low high, (more picking low high).map (Prod.map id state) =
      pick (state picking) low high) (pieces : List Piece) (picking : τ) :
    (ofSplit pieces more picking).map Prod.fst =
      (ofSplit pieces pick (state picking)).map Prod.fst := by
  rw [ofSplit, ofSplit, Arena.splitWith_eq, Arena.splitWith_eq,
    ← Build.recurse_map state picks pieces 0 pieces.length picking #[]]
  cases Build.recurse more pieces 0 pieces.length picking #[] <;> rfl

/-- The order in which a chain takes up the sizes of a document, from its lowest node to its
root. -/
def upward : Side → List Nat → List Nat
  | .left, sizes => sizes
  | .right, sizes => sizes.reverse

/-- A chain goes on from where another one ends. -/
theorem chain_append (side : Side) (first second : List Nat) (arena : Arena)
    (top : Option NodeId) :
    chain side (first ++ second) arena top =
      (chain side first arena top >>= fun tree => chain side second tree.nodes tree.root) := by
  induction first generalizing arena top with
  | nil => rfl
  | cons size sizes ih => cases side <;> simp only [List.cons_append, chain, bind_assoc, ih]

end Tree

namespace Build

/-- A range that is rooted at its end is a chain over the rest of it and one node more. The
induction is on the number of places in the range; the empty range beside the end adds nothing to
the arena. -/
theorem recurse_pickEnd (side : Side) (sizes : List Nat) (low : Nat) {high : Nat}
    (inside : high ≤ sizes.length) (arena : Arena) :
    recurse (pickEnd side) (sizes.map Piece.sized) low high () arena =
      (Tree.chain side (Tree.upward side (sizes.extract low high)) arena none).map
        fun tree => (tree.nodes, (), tree.root) := by
  induction hwidth : high - low generalizing low high with
  | zero =>
    have nothing : high ≤ low := Nat.le_of_sub_eq_zero hwidth
    rw [recurse_empty _ _ nothing, extract_of_le sizes nothing]
    cases side <;> rfl
  | succ width ih =>
    obtain ⟨least, most⟩ := endOf_inside side (Nat.lt_of_sub_eq_succ hwidth)
    obtain ⟨size, found⟩ : ∃ size, sizes[endOf side low high]? = some size :=
      ⟨_, List.getElem?_eq_getElem (Nat.lt_of_lt_of_le most inside)⟩
    have piece : (sizes.map Piece.sized)[endOf side low high]? = some (Piece.sized size) := by
      rw [List.getElem?_map, found, Option.map_some]
    rw [recurse_split rfl least most piece, extract_around least most found]
    cases side with
    | left =>
      dsimp only [endOf]
      have beside : high ≤ high - 1 + 1 := by omega
      rw [ih _ (by omega) (by omega), extract_of_le sizes beside]
      dsimp only [Tree.upward]
      rw [Tree.chain_append]
      cases Tree.chain .left (sizes.extract low (high - 1)) arena none with
      | error fault => rfl
      | ok tree =>
        simp only [Except.map, ok_bind, recurse_empty _ _ beside, Tree.chain]
        cases tree.nodes.join tree.root (Piece.sized size) none <;> rfl
    | right =>
      dsimp only [endOf, Tree.upward]
      rw [recurse_empty _ _ (Nat.le_refl low), ok_bind, extract_of_le sizes (Nat.le_refl low),
        List.nil_append, List.reverse_cons, Tree.chain_append]
      dsimp only
      rw [ih _ (by omega) (by omega)]
      dsimp only [Tree.upward]
      cases Tree.chain .right (sizes.extract (low + 1) high).reverse arena none with
      | error fault => rfl
      | ok tree =>
        simp only [Except.map, ok_bind, Tree.chain]
        cases tree.nodes.join none (Piece.sized size) tree.root <;> rfl

end Build

namespace Tree
variable {σ : Type}

/-- A chain is what a split comes to that roots every range at its end, faults included. -/
theorem chain_eq_ofSplit (side : Side) (sizes : List Nat) :
    chain side (upward side sizes) #[] none =
      (ofSplit (sizes.map Piece.sized) (Build.pickEnd side) ()).map Prod.fst := by
  have split := Build.recurse_pickEnd side sizes 0 (Nat.le_refl sizes.length) #[]
  rw [Build.extract_whole] at split
  rw [ofSplit, Arena.splitWith_eq, List.length_map, split]
  cases chain side (upward side sizes) #[] none <;> rfl

/-- What a maker comes to: a tree with the sizes in their order, or a fault for one of the two
limits, of the sums or of the ids. -/
inductive Settled (sizes : List Nat) : Except Fault Tree → Prop
  | made {tree : Tree} {shape : Shape} (hasShape : tree.HasShape shape)
      (held : shape.inOrder.map tree.nodes.pieceSize = sizes) : Settled sizes (.ok tree)
  | overfull (large : Size.limit ≤ sizeSum id sizes) : Settled sizes (.error .sumOverflow)
  | crowded (slot : Nat) (many : NodeId.limit < sizes.length) :
      Settled sizes (.error (.noNodeId slot))

theorem settled_ofSplit {pick : Build.Pick σ} (fair : Build.Fair pick) (sizes : List Nat)
    (picking : σ) :
    Settled sizes ((ofSplit (sizes.map Piece.sized) pick picking).map Prod.fst) := by
  obtain ⟨ranges, last, asks⟩ := fair.asks 0 (sizes.map Piece.sized).length picking
  have outcome := asks.outcome_splitWith #[]
  rw [ofSplit]
  generalize Arena.splitWith #[] (sizes.map Piece.sized) pick picking = result at outcome ⊢
  cases outcome with
  | built built asked => exact .made built.hasShape built.sizes_of_sized
  | overfull large => exact .overfull (by rwa [sizeSum_sized] at large)
  | crowded slot full => exact .crowded slot (by simpa using full)

/-- The chains are splits: the one to the right is made by choosing zero over and over, the one to
the left by rooting every range at its last place, each with the same nodes in the same slots or
with the same fault, for a sum or an id that is too large. -/
theorem chains_split (sizes : List Nat) :
    (rightChain sizes = shaped sizes [0] ∧ Settled sizes (rightChain sizes)) ∧
      leftChain sizes =
          (ofSplit (sizes.map Piece.sized) (fun _ _ high => .ok (high - 1, ())) ()).map Prod.fst ∧
        Settled sizes (leftChain sizes) := by
  have right : rightChain sizes = _ := chain_eq_ofSplit .right sizes
  have left : leftChain sizes = _ := chain_eq_ofSplit .left sizes
  have settled (side : Side) := settled_ofSplit (Build.fair_pickEnd side) sizes ()
  refine ⟨⟨?_, right ▸ settled .right⟩, left, left ▸ settled .left⟩
  have zeros := ofSplit_map (fun _ => ()) Build.map_pickChoice_zero (sizes.map Piece.sized) 0
  calc rightChain sizes
      = (ofSplit (sizes.map Piece.sized) (Build.pickEnd .right) ()).map Prod.fst := right
    _ = (ofSplit (sizes.map Piece.sized) (pickChoice #[0]) 0).map Prod.fst := zeros.symm
    _ = shaped sizes [0] := by
        rw [shaped]
        cases ofSplit (sizes.map Piece.sized) (pickChoice #[0]) 0 <;> rfl

end Tree
end PieceIndex
