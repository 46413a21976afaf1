import PieceIndex.KeyMap.WellFormed
import PieceIndex.Proofs.Faults
import PieceIndex.Proofs.Layout

/-!
The entries of a map seen as two things apart: the bindings in the order in which they lie, and the
links between them. Most of what the map does to its entries turns links and leaves every binding
where it is. Whether entries hold a shape is a matter of the links alone once all of the shape lies
among them, and whether keys ascend over it is a matter of the bindings alone.
-/
namespace PieceIndex

namespace Entry
variable {V : Type} (entry : Entry V) (side s : Side) (child : Option Nat)

def binding : Nat × V := (entry.key, entry.value)

theorem child_withChild_eq :
    (entry.withChild side child).child s = if s = side then child else entry.child s := by
  cases side <;> cases s <;> rfl

@[simp] theorem binding_withChild : (entry.withChild side child).binding = entry.binding := by
  cases side <;> rfl

end Entry

namespace KeyMap
variable {V : Type} {entries after : Entries V}

/-- The bindings in the order in which they lie. -/
def pairs (entries : Entries V) : Array (Nat × V) := entries.map Entry.binding

def keyAt (entries : Entries V) (index : Nat) : Nat := ((pairs entries)[index]?.map (·.1)).getD 0

def childOf (entries : Entries V) (index : Nat) (side : Side) : Option Nat :=
  entries[index]?.bind (·.child side)

@[simp] theorem size_pairs (entries : Entries V) : (pairs entries).size = entries.size := by
  simp [pairs]

theorem getElem?_pairs (entries : Entries V) (index : Nat) :
    (pairs entries)[index]? = entries[index]?.map Entry.binding := by
  simp [pairs]

theorem entry_eq_ok {index : Nat} {entry : Entry V} :
    KeyMap.entry entries index = .ok entry ↔ entries[index]? = some entry := by
  unfold KeyMap.entry
  split <;> simp_all

section
variable {index : Nat} {entry : Entry V} (found : entries[index]? = some entry)
include found

theorem childOf_found (side : Side) : childOf entries index side = entry.child side := by
  simp [childOf, found]

theorem pairs_found : (pairs entries)[index]? = some entry.binding := by
  simp [getElem?_pairs, found]

theorem keyAt_found : keyAt entries index = entry.key := by
  simp [keyAt, pairs_found found, Entry.binding]

theorem lt_size_of_found : index < entries.size := (Array.getElem?_eq_some_iff.mp found).1

end

theorem exists_found {index : Nat} (h : index < entries.size) :
    ∃ entry, entries[index]? = some entry :=
  ⟨entries[index], Array.getElem?_eq_getElem h⟩

section
variable (same : pairs after = pairs entries)
include same

theorem size_congr : after.size = entries.size := by
  rw [← size_pairs, same, size_pairs]

theorem keyAt_congr : keyAt after = keyAt entries := by
  funext index
  rw [keyAt, same, keyAt]

end

/-- The same bindings in the same places, and outside `touched` the same links too. -/
structure Keeps (before after : Entries V) (touched : List Nat) : Prop where
  pairs_eq : pairs after = pairs before
  rest : ∀ index, index ∉ touched → after[index]? = before[index]?

namespace Keeps
variable {before middle : Entries V} {touched more : List Nat}

theorem refl (entries : Entries V) (touched : List Nat) : Keeps entries entries touched :=
  ⟨rfl, fun _ _ => rfl⟩

theorem trans (first : Keeps before middle touched) (second : Keeps middle after touched) :
    Keeps before after touched :=
  ⟨second.pairs_eq.trans first.pairs_eq,
    fun index h => (second.rest index h).trans (first.rest index h)⟩

theorem mono (keeps : Keeps before after touched) (sub : ∀ index ∈ touched, index ∈ more) :
    Keeps before after more :=
  ⟨keeps.pairs_eq, fun index h => keeps.rest index fun t => h (sub index t)⟩

theorem size (keeps : Keeps before after touched) : after.size = before.size :=
  size_congr keeps.pairs_eq

theorem keyAt (keeps : Keeps before after touched) : keyAt after = keyAt before :=
  keyAt_congr keeps.pairs_eq

theorem childOf (keeps : Keeps before after touched) {index : Nat} (h : index ∉ touched) :
    childOf after index = childOf before index := by
  funext side
  rw [KeyMap.childOf, keeps.rest index h, KeyMap.childOf]

end Keeps

/-- What turning links makes of entries: the links it leaves, and the entries it touched. -/
structure Becomes (before after : Entries V) (touched : List Nat)
    (links : Nat → Side → Option Nat) : Prop extends Keeps before after touched where
  links_eq : childOf after = links

namespace Becomes
variable {before middle : Entries V} {touched more : List Nat}
  {links links' : Nat → Side → Option Nat}

theorem refl (entries : Entries V) (touched : List Nat) :
    Becomes entries entries touched (childOf entries) :=
  ⟨.refl entries touched, rfl⟩

theorem trans (first : Becomes before middle touched links)
    (second : Becomes middle after more links') :
    Becomes before after (touched ++ more) links' := by
  refine ⟨Keeps.trans (first.toKeeps.mono ?_) (second.toKeeps.mono ?_), second.links_eq⟩
  · exact fun index h => List.mem_append_left more h
  · exact fun index h => List.mem_append_right touched h

end Becomes

theorem getElem?_modify_entry (entries : Entries V) (index : Nat) (change : Entry V → Entry V)
    (i : Nat) :
    (entries.modify index change)[i]? =
      if i = index then entries[i]?.map change else entries[i]? := by
  rw [Array.getElem?_modify]
  by_cases h : index = i
  · subst h
    simp
  · have : i ≠ index := fun e => h e.symm
    simp [h, this]

/-- A change to the links of one entry. -/
theorem exists_relink (entries : Entries V) (index : Nat) (change : Entry V → Entry V)
    (table : Nat → Side → Option Nat) (inRange : index < entries.size)
    (binding : ∀ entry, (change entry).binding = entry.binding)
    (here : ∀ entry, entries[index]? = some entry → ∀ s, (change entry).child s = table index s)
    (there : ∀ i ≠ index, table i = childOf entries i) :
    ∃ after, update entries index change = .ok after ∧ Becomes entries after [index] table := by
  obtain ⟨entry, found⟩ := exists_found inRange
  refine ⟨entries.modify index change, if_pos inRange, ⟨?_, fun i ne => ?_⟩, ?_⟩
  · apply Array.ext_getElem?
    intro i
    rw [getElem?_pairs, getElem?_pairs, getElem?_modify_entry]
    by_cases e : i = index
    · rw [if_pos e, e, found, Option.map_some, Option.map_some, Option.map_some, binding]
    · rw [if_neg e]
  · rw [getElem?_modify_entry, if_neg (by simpa using ne)]
  · funext i s
    rw [childOf, getElem?_modify_entry]
    by_cases e : i = index
    · rw [if_pos e, e, found, ← here entry found s]
      rfl
    · rw [if_neg e, there i e, childOf]

theorem exists_setChild (entries : Entries V) (index : Option Nat) (side : Side)
    (child : Option Nat) (inRange : ∀ i, index = some i → i < entries.size) :
    ∃ after, updateSome entries index (·.withChild side child) = .ok after ∧
      Becomes entries after index.toList (rewire (childOf entries) index side child) := by
  cases index with
  | none =>
    refine ⟨entries, rfl, ?_⟩
    rw [rewire_none]
    exact .refl _ _
  | some index =>
    refine exists_relink entries index (·.withChild side child) _ (inRange index rfl)
      (by simp) ?_ ?_
    · intro entry found s
      simp [Entry.child_withChild_eq, rewire, childOf_found found]
    · exact fun i ne => rewire_of_ne _ _ _ (by simpa using ne)

/-! Holding a shape, by the tables alone. -/

theorem links_iff {shape : Shape} :
    Links entries shape ↔
      (∀ index ∈ shape.inOrder, index < entries.size) ∧ shape.Wired (childOf entries) := by
  induction shape with
  | empty => simp [Links, Shape.inOrder, Shape.Tallies]
  | node left index right ihl ihr =>
    simp only [Links, ihl, ihr, Shape.Tallies, Shape.inOrder, List.mem_append, List.mem_cons]
    constructor
    · rintro ⟨entry, found, hl, hr, ⟨inl, wl⟩, inr, wr⟩
      refine ⟨?_, ?_, ?_, wl, wr⟩
      · rintro i (h | rfl | h)
        · exact inl i h
        · exact lt_size_of_found found
        · exact inr i h
      · rw [childOf_found found, Entry.child, hl]
      · rw [childOf_found found, Entry.child, hr]
    · rintro ⟨inRange, hl, hr, wl, wr⟩
      obtain ⟨entry, found⟩ := exists_found (inRange index (.inr (.inl rfl)))
      rw [childOf_found found] at hl hr
      exact ⟨entry, found, hl, hr, ⟨fun i h => inRange i (.inl h), wl⟩,
        fun i h => inRange i (.inr (.inr h)), wr⟩

theorem bindings_eq (entries : Entries V) (shape : Shape) :
    bindings entries shape = shape.inOrder.filterMap fun index => (pairs entries)[index]? := by
  simp only [bindings, getElem?_pairs]
  rfl

/-- The keys ascend over the shape from left to right. -/
def Ascending (key : Nat → Nat) (indices : List Nat) : Prop :=
  indices.Pairwise fun i j => key i < key j

theorem keys_bindings {shape : Shape} (inRange : ∀ index ∈ shape.inOrder, index < entries.size) :
    (bindings entries shape).map (·.1) = shape.inOrder.map (keyAt entries) := by
  rw [bindings_eq]
  generalize shape.inOrder = indices at inRange
  induction indices with
  | nil => rfl
  | cons index indices ih =>
    obtain ⟨entry, found⟩ := exists_found (inRange index List.mem_cons_self)
    rw [List.filterMap_cons_some (pairs_found found), List.map_cons, List.map_cons,
      ih fun i h => inRange i (List.mem_cons_of_mem _ h), keyAt_found found]
    rfl

theorem ascending_iff {shape : Shape} (inRange : ∀ index ∈ shape.inOrder, index < entries.size) :
    ((bindings entries shape).Pairwise fun x y => x.1 < y.1) ↔
      Ascending (keyAt entries) shape.inOrder := by
  have keys := congrArg (List.Pairwise (· < ·)) (keys_bindings inRange)
  rwa [List.pairwise_map, List.pairwise_map, eq_iff_iff] at keys

theorem Ascending.nodup {keyAt : Nat → Nat} {indices : List Nat}
    (ascending : Ascending keyAt indices) : indices.Nodup := by
  refine List.Pairwise.imp ?_ ascending
  rintro i j less rfl
  exact Nat.lt_irrefl _ less

theorem SearchTree.inRange {shape : Shape} (tree : SearchTree entries shape) :
    ∀ index ∈ shape.inOrder, index < entries.size :=
  (links_iff.mp tree.links).1

theorem SearchTree.keys_ascending {shape : Shape} (tree : SearchTree entries shape) :
    Ascending (keyAt entries) shape.inOrder :=
  (ascending_iff tree.inRange).mp tree.ascending

/-- The root of a shape links to its subtrees. -/
theorem Links.childOf_root {shape : Shape} (links : Links entries shape) {root : Nat}
    (top : shape.root = some root) (side : Side) :
    childOf entries root side = (shape.on side).root := by
  have wired := (links_iff.mp links).2
  rw [Shape.exists_sided top side] at wired
  exact ((Shape.tallies_sided ..).mp wired).1

end KeyMap
end PieceIndex
