import PieceIndex.Proofs.KeyMap.Refinement

/-!
A map in use keeps its entries without gaps. Whatever was asked of it before, the links from the
root lead to every place of the array exactly once, and nowhere else, in the order of the keys. What
a call does to the bindings as they lie is told by its answer: only a new key, a store and a removal
change them, each in one way.
-/
namespace PieceIndex
namespace Shape

/-- At every node the keys on the left are smaller and those on the right are greater. -/
def Ordered (key : Nat → Nat) : Shape → Prop
  | .empty => True
  | .node left id right =>
    (∀ i ∈ left.inOrder, key i < key id) ∧ (∀ i ∈ right.inOrder, key id < key i) ∧
      Ordered key left ∧ Ordered key right

theorem ordered_of_ascending {key : Nat → Nat} {shape : Shape}
    (ascending : KeyMap.Ascending key shape.inOrder) : shape.Ordered key := by
  induction shape with
  | empty => trivial
  | node left id right ihl ihr =>
    simp only [KeyMap.Ascending, inOrder, List.pairwise_append, List.pairwise_cons, List.mem_cons]
      at ascending
    obtain ⟨ascl, ⟨after, ascr⟩, across⟩ := ascending
    exact ⟨fun i inside => across i inside id (.inl rfl), after, ihl ascl, ihr ascr⟩

end Shape

namespace KeyMap
variable {V : Type} {map : KeyMap V} {shape : Shape}

/-- The entries lie without gaps and the links from the root lead to each of them in one way. -/
structure Dense (map : KeyMap V) (shape : Shape) : Prop where
  bare : map.root = none ↔ map.entries = #[]
  rootInRange : ∀ index, map.root = some index → index < map.size
  childInRange : ∀ index side child, childOf map.entries index side = some child → child < map.size
  root_eq : map.root = shape.root
  links : Links map.entries shape
  once : shape.inOrder.Perm (List.range map.size)
  ordered : shape.Ordered (keyAt map.entries)

theorem WellFormedAs.child_lt (well : map.WellFormedAs shape) {index child : Nat} {side : Side}
    (link : childOf map.entries index side = some child) : child < map.entries.size := by
  have here : index < map.entries.size := by
    obtain ⟨entry, found, -⟩ := Option.bind_eq_some_iff.mp link
    exact lt_size_of_found found
  have wired := (links_iff.mp well.links).2
  exact well.inRange child (Shape.Wired.child_mem wired (well.full index here) link)

theorem WellFormedAs.dense (well : map.WellFormedAs shape) : Dense map shape := by
  constructor
  · constructor
    · intro bare
      obtain ⟨entries, root⟩ := map
      obtain rfl : root = none := bare
      exact well.eq_empty
    · intro bare
      cases top : map.root with
      | none => rfl
      | some index =>
        have inRange := well.inRange index (Shape.mem_inOrder_of_root (well.root_eq.symm.trans top))
        rw [bare] at inRange
        cases inRange
  · intro index top
    exact well.inRange index (Shape.mem_inOrder_of_root (well.root_eq.symm.trans top))
  · intro index side child link
    exact well.child_lt link
  · exact well.root_eq
  · exact well.links
  · rw [List.perm_ext_iff_of_nodup well.nodup List.nodup_range]
    intro index
    rw [List.mem_range]
    exact ⟨well.inRange index, well.full index⟩
  · exact Shape.ordered_of_ascending well.keys_ascending

/-- What a call with this answer does to the bindings as they lie. -/
inductive Evolves (before after : Array (Nat × V)) : Call V → Answer V → Prop where
  | insert {key : Nat} {value : V} {added : Bool} (adds : Adds key value before after added) :
      Evolves before after (.insert key value) (.flag added)
  | set {key : Nat} {value : V} {old : Option V} (stores : Stores key value before after old) :
      Evolves before after (.set key value) (.value old)
  | remove {key : Nat} {old : Option V} (removes : Removes key before after old) :
      Evolves before after (.remove key) (.value old)
  | get {key : Nat} {found : Option V} (same : after = before)
      (exact : ∀ value, found = some value ↔ (key, value) ∈ before) :
      Evolves before after (.get key) (.value found)
  | contains {key : Nat} {present : Bool} (same : after = before)
      (exact : present = true ↔ ∃ value, (key, value) ∈ before) :
      Evolves before after (.contains key) (.flag present)
  | size (same : after = before) : Evolves before after .size (.count before.size)
  | isEmpty (same : after = before) : Evolves before after .isEmpty (.flag before.isEmpty)
  | toList {bindings : List (Nat × V)} (same : after = before)
      (exact : ∀ binding, binding ∈ bindings ↔ binding ∈ before) :
      Evolves before after .toList (.bindings bindings)

/-- One call to a well-formed map meets no fault and changes the bindings as its answer tells; the
map stays well formed as long as there is room. -/
theorem WellFormed.call_evolves (well : map.WellFormed) (fits : map.size ≤ NodeId.limit)
    (call : Call V) :
    ∃ after answer, map.call call = .ok (after, answer) ∧
      Evolves (pairs map.entries) (pairs after.entries) call answer ∧
      (after.size ≤ NodeId.limit → after.WellFormed) := by
  obtain ⟨shape, well⟩ := well
  cases call with
  | insert key value =>
    obtain ⟨after, added, h, adds, -, well'⟩ := well.exists_insert key value
    refine ⟨after, .flag added, by rw [KeyMap.call, h]; rfl, .insert adds, ?_⟩
    intro fits'
    -- a key that is refused needs no room, and for a new one the bound after the call leaves some
    apply well'
    cases adds with
    | present here same => exact .inr rfl
    | absent missing grown =>
      have grew := congrArg Array.size grown
      rw [size_pairs, Array.size_push, size_pairs] at grew
      left
      rw [KeyMap.size] at fits' ⊢
      omega
  | get key =>
    obtain ⟨after, found, h, well', same, exact⟩ := well.get key
    exact ⟨after, .value found, by rw [KeyMap.call, h]; rfl, .get same exact, fun _ => ⟨_, well'⟩⟩
  | set key value =>
    obtain ⟨after, old, h, well', stores⟩ := well.set key value
    exact ⟨after, .value old, by rw [KeyMap.call, h]; rfl, .set stores, fun _ => well'⟩
  | contains key =>
    obtain ⟨after, present, h, well', same, exact⟩ := well.contains key
    exact ⟨after, .flag present, by rw [KeyMap.call, h]; rfl, .contains same exact, fun _ => well'⟩
  | remove key =>
    obtain ⟨after, old, h, well', removes⟩ := well.remove key fits
    exact ⟨after, .value old, by rw [KeyMap.call, h]; rfl, .remove removes, fun _ => well'⟩
  | size =>
    refine ⟨map, .count map.size, rfl, ?_, fun _ => ⟨shape, well⟩⟩
    rw [KeyMap.size, ← size_pairs]
    exact .size rfl
  | isEmpty =>
    refine ⟨map, .flag map.isEmpty, rfl, ?_, fun _ => ⟨shape, well⟩⟩
    have same : map.isEmpty = (pairs map.entries).isEmpty := by
      rw [KeyMap.isEmpty, Array.isEmpty, Array.isEmpty, size_pairs]
    rw [same]
    exact .isEmpty rfl
  | toList =>
    refine ⟨map, .bindings (bindings map.entries shape), by rw [KeyMap.call, well.toList]; rfl, ?_,
      fun _ => ⟨shape, well⟩⟩
    exact .toList rfl well.mem_bindings

/-- What a map that is empty at first can become as long as there is room for all bindings. -/
inductive Reachable : KeyMap V → Prop where
  | empty : Reachable empty
  | call {before after : KeyMap V} {call : Call V} {answer : Answer V} (reached : Reachable before)
      (called : before.call call = .ok (after, answer)) (fits : after.size ≤ NodeId.limit) :
      Reachable after

theorem Reachable.wellFormed (reached : Reachable map) :
    map.WellFormed ∧ map.size ≤ NodeId.limit := by
  induction reached with
  | empty => exact ⟨wellFormed_empty, Nat.zero_le _⟩
  | call reached called fits ih =>
    obtain ⟨well, fits'⟩ := ih
    obtain ⟨after, answer, called', -, well'⟩ := well.call_evolves fits' _
    rw [called] at called'
    cases called'
    exact ⟨well' fits, fits⟩

/-- In all that a map can become its entries lie without gaps, and every further call meets no fault
and changes the bindings only as its answer tells. -/
theorem reachable_dense (reached : Reachable map) :
    (∃ shape, Dense map shape) ∧
    ∀ call, ∃ after answer, map.call call = .ok (after, answer) ∧
      Evolves (pairs map.entries) (pairs after.entries) call answer := by
  obtain ⟨well, fits⟩ := reached.wellFormed
  constructor
  · obtain ⟨shape, well⟩ := well
    exact ⟨shape, well.dense⟩
  · intro call
    obtain ⟨after, answer, h, evolves, -⟩ := well.call_evolves fits call
    exact ⟨after, answer, h, evolves⟩

/-- Two bindings that are left of three: the last one has moved to the place of the first, which was
removed. -/
def movedUp : KeyMap Nat where
  entries := #[{ key := 8, value := 80 }, { key := 2, value := 20, right := some 0 }]
  root := some 1

theorem reachable_movedUp : Reachable movedUp := by
  have first : empty.call (.insert 5 50) =
      .ok (⟨#[{ key := 5, value := 50 }], some 0⟩, .flag true) := rfl
  have second : KeyMap.call ⟨#[{ key := 5, value := 50 }], some 0⟩ (.insert 2 20) =
      .ok (⟨#[{ key := 5, value := 50 }, { key := 2, value := 20, right := some 0 }], some 1⟩,
        .flag true) := rfl
  have third : KeyMap.call
      ⟨#[{ key := 5, value := 50 }, { key := 2, value := 20, right := some 0 }], some 1⟩
      (.insert 8 80) =
      .ok (⟨#[{ key := 5, value := 50, left := some 1 }, { key := 2, value := 20 },
        { key := 8, value := 80, left := some 0 }], some 2⟩, .flag true) := rfl
  have removed : KeyMap.call
      ⟨#[{ key := 5, value := 50, left := some 1 }, { key := 2, value := 20 },
        { key := 8, value := 80, left := some 0 }], some 2⟩ (.remove 5) =
      .ok (movedUp, .value (some 50)) := rfl
  exact .call (.call (.call (.call .empty first (by decide)) second (by decide)) third (by decide))
    removed (by decide)

theorem reachable_dense_movedUp :
    Reachable movedUp ∧ (∃ shape, Dense movedUp shape) ∧
      ∃ after answer, movedUp.call (.remove 8) = .ok (after, answer) ∧
        Evolves #[(8, 80), (2, 20)] (pairs after.entries) (.remove 8) answer := by
  obtain ⟨dense, evolves⟩ := reachable_dense reachable_movedUp
  have bindings : pairs movedUp.entries = #[(8, 80), (2, 20)] := by
    simp [pairs, movedUp, Entry.binding]
  rw [← bindings]
  exact ⟨reachable_movedUp, dense, evolves (.remove 8)⟩

end KeyMap
end PieceIndex
