import PieceIndex.KeyMap.Walk
import PieceIndex.Proofs.KeyMap.Access
import PieceIndex.Proofs.Stream

/-!
Walking through a map. A walk keeps the places it has passed on its way down; each is still to be
given out, and so is the subtree on its right. Entering a subtree puts its bindings before all that
was still to come.
-/
namespace PieceIndex
namespace KeyMap
variable {V : Type} {entries : Entries V} {shape : Shape}

theorem bindings_node {left right : Shape} {id : Nat} {entry : Entry V}
    (found : entries[id]? = some entry) :
    bindings entries (.node left id right) =
      bindings entries left ++ entry.binding :: bindings entries right := by
  simp only [bindings, Shape.inOrder, List.filterMap_append]
  rw [List.filterMap_cons_some (by rw [found]; rfl)]
  rfl

theorem enter_yields {pending : List Nat} {later : List (Nat × V)}
    (yields : Stream.Yields (next entries) pending later)
    (inRange : ∀ i ∈ shape.inOrder, i < entries.size) (wired : shape.Wired (childOf entries))
    (small : shape.count ≤ entries.size) (fuel : Nat) (enough : shape.count ≤ fuel) :
    ∃ walk, enter entries fuel shape.root pending = .ok walk ∧
      Stream.Yields (next entries) walk (bindings entries shape ++ later) := by
  induction shape generalizing pending later fuel with
  | empty => exact ⟨pending, by cases fuel <;> rfl, yields⟩
  | node left id right ihl ihr =>
    obtain ⟨down, across, wiredl, wiredr⟩ := wired
    simp only [Shape.inOrder, List.mem_append, List.mem_cons] at inRange
    rw [Shape.count] at small enough
    obtain ⟨entry, found⟩ := exists_found (inRange id (.inr (.inl rfl)))
    rw [childOf_found found] at down across
    -- what is given after this entry: its right side, then all that comes later
    obtain ⟨walk, entered, rest⟩ := ihr yields (fun i h => inRange i (.inr (.inr h))) wiredr
      (by omega) (stepLimit entries.size) (by dsimp only [stepLimit]; omega)
    have here : next entries (id :: pending) = .ok (some entry.binding, walk) := by
      rw [KeyMap.next, entry_eq_ok.mpr found, ok_bind, show entry.right = right.root from across,
        entered]
      rfl
    obtain ⟨fuel, rfl⟩ : ∃ n, fuel = n + 1 := ⟨fuel - 1, by omega⟩
    obtain ⟨first, descended, yields'⟩ := ihl (.more here rest) (fun i h => inRange i (.inl h))
      wiredl (by omega) fuel (by omega)
    refine ⟨first, ?_, ?_⟩
    · rw [Shape.root, enter, entry_eq_ok.mpr found, ok_bind, show entry.left = left.root from down,
        descended]
    · rw [bindings_node found, List.append_assoc, List.cons_append]
      exact yields'

/-- A walk through a map gives the bindings that the links from its root lead to. -/
theorem toList_of_links {map : KeyMap V} (root : map.root = shape.root)
    (links : Links map.entries shape) (nodup : shape.inOrder.Nodup) :
    map.toList = .ok (bindings map.entries shape) := by
  obtain ⟨inRange, wired⟩ := links_iff.mp links
  have small : shape.count ≤ map.entries.size := Shape.count_le nodup inRange
  have done : Stream.Yields (next map.entries) [] [] := .done rfl
  obtain ⟨walk, entered, yields⟩ := enter_yields done inRange wired small (stepLimit map.size)
    (by dsimp only [stepLimit, size]; omega)
  have short : (bindings map.entries shape).length ≤ shape.count := by
    rw [bindings, ← Shape.length_inOrder]
    exact List.length_filterMap_le _ _
  rw [List.append_nil] at yields
  rw [KeyMap.toList, start, root, entered, ok_bind,
    yields.drain pure _ (by dsimp only [stepLimit, size]; omega), List.mapM_pure, List.map_id']
  rfl

/-- A walk through a well-formed map gives its bindings from left to right. -/
theorem WellFormedAs.toList {map : KeyMap V} (well : map.WellFormedAs shape) :
    map.toList = .ok (bindings map.entries shape) :=
  toList_of_links well.root_eq well.links well.nodup

/-- The bindings from left to right are those that lie in the entries. -/
theorem WellFormedAs.mem_bindings {map : KeyMap V} (well : map.WellFormedAs shape)
    (binding : Nat × V) : binding ∈ bindings map.entries shape ↔ binding ∈ pairs map.entries := by
  rw [bindings_eq, List.mem_filterMap, Array.mem_iff_getElem?]
  constructor
  · rintro ⟨index, -, here⟩
    exact ⟨index, here⟩
  · rintro ⟨index, here⟩
    exact ⟨index, well.full index (lt_size_of_pairs here), here⟩

theorem WellFormedAs.length_bindings {map : KeyMap V} (well : map.WellFormedAs shape) :
    (bindings map.entries shape).length = map.size := by
  have keys := congrArg List.length (keys_bindings well.inRange)
  rw [List.length_map, List.length_map, Shape.length_inOrder] at keys
  rw [keys, Shape.count_eq well.nodup well.inRange well.full, size]

end KeyMap
end PieceIndex
