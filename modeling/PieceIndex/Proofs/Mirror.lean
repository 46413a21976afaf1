import Mathlib.Data.Set.Function
import PieceIndex.Proofs.KeyMap.Access
import PieceIndex.Proofs.Splay.Keyed

/-!
The two splay trees side by side. A map mirrors a document tree when its entries are the nodes under
other names, linked in the same way and keyed with the right edges of their pieces. A splay of the
tree to an offset and a look-up in the map, for the key of the piece that covers the offset, leave
them mirroring each other under the same names.
-/
namespace PieceIndex
variable {V : Type} {f : NodeId → Nat}

/-- Links follow a renaming exactly when the renamed shape is wired as the shape is. -/
theorem Shape.wired_map {links links' : Nat → Side → Option Nat} {shape : Shape}
    (wired : shape.Wired links) :
    (shape.map f).Wired links' ↔
      ∀ id ∈ shape.inOrder, ∀ side, links' (f id) side = (links id side).map f := by
  induction shape with
  | empty => exact ⟨fun _ _ inside => absurd inside List.not_mem_nil, fun _ => trivial⟩
  | node left id right ihl ihr =>
    obtain ⟨hl, hr, wiredl, wiredr⟩ := wired
    simp only [Shape.map, Tallies, ihl wiredl, ihr wiredr, root_map, ← hl, ← hr, inOrder,
      List.mem_append, List.mem_cons]
    constructor
    · rintro ⟨here, there, inLeft, inRight⟩ i (inside | rfl | inside) side
      · exact inLeft i inside side
      · cases side with
        | left => exact here
        | right => exact there
      · exact inRight i inside side
    · intro follows
      refine ⟨follows id (.inr (.inl rfl)) .left, follows id (.inr (.inl rfl)) .right, ?_, ?_⟩
      · exact fun i inside => follows i (.inl inside)
      · exact fun i inside => follows i (.inr (.inr inside))

/-- The entries of the map are the nodes of the tree under other names: each is keyed with the right
edge of its piece, and root and links lead from name to name. -/
structure Mirrors (f : NodeId → Nat) (tree : Tree) (shape : Shape) (map : KeyMap V) : Prop where
  bijective : Set.BijOn f {id | id < tree.nodeCount} {index | index < map.size}
  root : map.root = tree.root.map f
  links : ∀ id < tree.nodeCount, ∀ side,
    KeyMap.childOf map.entries (f id) side = (tree.nodes.childOf id side).map f
  edges : Edges tree.nodes.pieceSize (fun id => KeyMap.keyAt map.entries (f id)) shape.inOrder

namespace Mirrors
variable {tree : Tree} {map : KeyMap V} {shape : Shape}

/-- A map that mirrors a well-formed tree is well formed. -/
theorem wellFormedAs (mirrors : Mirrors f tree shape map) (well : tree.WellFormedAs shape) :
    map.WellFormedAs (shape.map f) := by
  have inRange := well.stands.inRange
  have links : KeyMap.Links map.entries (shape.map f) := by
    rw [KeyMap.links_iff, Shape.inOrder_map, Shape.wired_map well.stands.wired]
    constructor
    · intro index inside
      obtain ⟨id, here, rfl⟩ := List.mem_map.mp inside
      exact mirrors.bijective.mapsTo (inRange id here)
    · exact fun id inside => mirrors.links id (inRange id inside)
  have ascending : KeyMap.Ascending (KeyMap.keyAt map.entries) (shape.map f).inOrder := by
    rw [Shape.inOrder_map, KeyMap.Ascending, List.pairwise_map]
    exact mirrors.edges.ascending well.nonempty
  have nodup : (shape.map f).inOrder.Nodup := by
    rw [Shape.inOrder_map, List.Nodup, List.pairwise_map]
    apply List.Pairwise.imp_of_mem _ well.nodup
    intro i j hi hj different same
    exact different (mirrors.bijective.injOn (inRange i hi) (inRange j hj) same)
  have full : ∀ index < map.entries.size, index ∈ (shape.map f).inOrder := by
    intro index inside
    obtain ⟨id, here, rfl⟩ := mirrors.bijective.surjOn inside
    rw [Shape.inOrder_map]
    exact List.mem_map_of_mem (well.full id here)
  have top : map.root = (shape.map f).root := by
    rw [mirrors.root, well.root_eq, Shape.root_map]
  have well' := KeyMap.WellFormedAs.of_links map.entries links ascending nodup full
  rw [← top] at well'
  exact well'

/-- A well-formed map mirrors a well-formed tree when it has the shape of the tree, renamed. -/
theorem of_wellFormedAs (well : tree.WellFormedAs shape) (well' : map.WellFormedAs (shape.map f))
    (bijective : Set.BijOn f {id | id < tree.nodeCount} {index | index < map.size})
    (edges : Edges tree.nodes.pieceSize (fun id => KeyMap.keyAt map.entries (f id)) shape.inOrder) :
    Mirrors f tree shape map := by
  constructor
  · exact bijective
  · rw [well'.root_eq, Shape.root_map, well.root_eq]
  · intro id inside
    have wired := (KeyMap.links_iff.mp well'.links).2
    exact (Shape.wired_map well.stands.wired).mp wired id (well.full id inside)
  · exact edges

/-- A look-up for the key of a node finds it, and splays the map as the shape is splayed for the
key. -/
theorem get (mirrors : Mirrors f tree shape map) (well : tree.WellFormedAs shape) {id : NodeId}
    (inside : id ∈ shape.inOrder) :
    ∃ after value, map.get (KeyMap.keyAt map.entries (f id)) = .ok (after, some value) ∧
      after.WellFormedAs ((shape.seek (fun id => KeyMap.keyAt map.entries (f id))
        (KeyMap.keyAt map.entries (f id))).map f) ∧
      KeyMap.pairs after.entries = KeyMap.pairs map.entries := by
  obtain ⟨after, found, looked, well', kept, exact⟩ :=
    (mirrors.wellFormedAs well).get (KeyMap.keyAt map.entries (f id))
  rw [Shape.seek_map] at well'
  have range : f id < map.size := mirrors.bijective.mapsTo (well.stands.inRange id inside)
  obtain ⟨entry, here⟩ := KeyMap.exists_found (show f id < map.entries.size from range)
  have bound : (KeyMap.keyAt map.entries (f id), entry.value) ∈ KeyMap.pairs map.entries := by
    rw [KeyMap.keyAt_found here, Array.mem_iff_getElem?]
    exact ⟨f id, KeyMap.pairs_found here⟩
  obtain rfl := (exact entry.value).mpr bound
  exact ⟨after, entry.value, looked, well', kept⟩

end Mirrors

namespace Tree
variable {tree : Tree} {map : KeyMap V} {shape : Shape}

/-- Splayed to an offset and looked up at the right edge of the piece that covers it, a well-formed
tree and a map that mirrors it still mirror each other under the same names. -/
theorem splay_mirrors (well : tree.WellFormedAs shape) (mirrors : Mirrors f tree shape map)
    {offset length : Nat} (measured : tree.length = .ok length) (within : offset ≤ length) :
    (tree.isEmpty = false →
      ∃ before owner, Covers tree.nodes.pieceSize offset shape.inOrder before owner) ∧
    ∀ before owner, Covers tree.nodes.pieceSize offset shape.inOrder before owner →
      ∃ tree' map' value shape', tree.splay offset = .ok (tree', some owner) ∧
        map.get (sizeSum tree.nodes.pieceSize before + tree.nodes.pieceSize owner) =
          .ok (map', some value) ∧
        tree'.WellFormedAs shape' ∧ Mirrors f tree' shape' map' := by
  rw [well.length_eq] at measured
  cases measured
  constructor
  · intro nonempty
    obtain ⟨-, left, owner, -, -, -, -, covers⟩ := well.exists_covers nonempty within
    exact ⟨left.inOrder, owner, covers⟩
  · intro before owner covers
    obtain ⟨rest, stands⟩ := covers.stands
    have inside : owner ∈ shape.inOrder := by simp [stands]
    have edges := mirrors.edges
    have edge := edges before owner rest stands
    obtain ⟨tree', steps, splayed, well', rearranges⟩ := well.splayTraced within
    have same := Shape.seek_eq_splay covers edges well.nonempty
    have top := Shape.root_seek_of_mem (edges.ascending well.nonempty) inside
    rw [same, ← well'.root_eq] at top
    rw [top] at splayed
    obtain ⟨map', value, looked, wellMap, kept⟩ := mirrors.get well inside
    rw [same] at wellMap
    refine ⟨tree', map', value, _, splay_eq_ok.mpr ⟨steps, splayed⟩, ?_, well',
      .of_wellFormedAs well' wellMap ?_ ?_⟩
    · rw [← edge]
      exact looked
    · rw [nodeCount, rearranges.keeps.size, KeyMap.size, KeyMap.size_congr kept]
      exact mirrors.bijective
    · rw [rearranges.keeps.pieceSize, rearranges.inOrder_eq, KeyMap.keyAt_congr kept]
      exact edges

/-- The tree `three` by right edges, its last piece in the middle of the entries. -/
def threeKeyed : KeyMap Nat where
  entries := #[{ key := 7, value := 40, left := some 2, right := some 1 },
    { key := 12, value := 50 }, { key := 3, value := 30 }]
  root := some 0

theorem mirrors_three : Mirrors (fun id => (id + 2) % 3) three
    (.node (.node .empty 0 .empty) 1 (.node .empty 2 .empty)) threeKeyed := by
  constructor
  · refine ⟨?_, ?_, ?_⟩
    · intro id inside
      exact Nat.mod_lt _ (by decide)
    · have apart : ∀ i < 3, ∀ j < 3, (i + 2) % 3 = (j + 2) % 3 → i = j := by decide
      exact fun i hi j hj same => apart i hi j hj same
    · have named : ∀ index < 3, ((index + 1) % 3 + 2) % 3 = index := by decide
      exact fun index inside => ⟨(index + 1) % 3, Nat.mod_lt _ (by decide), named index inside⟩
  · rfl
  · intro id inside side
    revert id
    cases side with
    | left => decide
    | right => decide
  · have bindings : KeyMap.pairs threeKeyed.entries = #[(7, 40), (12, 50), (3, 30)] := by
      simp [KeyMap.pairs, threeKeyed, Entry.binding]
    intro before id rest split
    rcases before with _ | ⟨first, _ | ⟨second, _ | ⟨third, before⟩⟩⟩
    · cases split
      simp only [KeyMap.keyAt, bindings]
      rfl
    · cases split
      simp only [KeyMap.keyAt, bindings]
      rfl
    · cases split
      simp only [KeyMap.keyAt, bindings]
      rfl
    · simp [Shape.inOrder] at split

theorem splay_mirrors_three :
    ∃ tree' map' value shape', three.splay 0 = .ok (tree', some 0) ∧
      threeKeyed.get 3 = .ok (map', some value) ∧ tree'.WellFormedAs shape' ∧
      Mirrors (fun id => (id + 2) % 3) tree' shape' map' := by
  have covers : Covers three.nodes.pieceSize 0 [0, 1, 2] [] 0 := by
    refine ⟨⟨[1, 2], rfl⟩, by decide, ?_⟩
    intro earlier node later split
    cases earlier <;> cases split
  obtain ⟨-, agrees⟩ := splay_mirrors wellFormedAs_three mirrors_three rfl (Nat.zero_le 12)
  exact agrees [] 0 covers

end Tree
end PieceIndex
