import Mathlib
import PieceIndex.Proofs.KeyMap.Removal
import PieceIndex.Proofs.KeyMap.Walk

/-!
Maps in use. Whatever is asked of a map, it answers as a finite map from keys to values does, and it
then holds what the finite map holds. A map and a finite map agree when they have the same bindings;
one call keeps them in agreement, and so does any number of calls after which there is room for all
bindings.
-/
namespace PieceIndex
namespace KeyMap
variable {V : Type}

section
variable {before after : Array (Nat × V)} {key : Nat} {value : V}

/-- No key is bound in two places. -/
def Distinct (bindings : Array (Nat × V)) : Prop :=
  ∀ (i j key : Nat) (v w : V), bindings[i]? = some (key, v) → bindings[j]? = some (key, w) → i = j

theorem Adds.mem_iff {added : Bool} (adds : Adds key value before after added) (k : Nat) (v : V) :
    (k, v) ∈ after ↔ (k, v) ∈ before ∨ added = true ∧ k = key ∧ v = value := by
  cases adds with
  | present here same => simp [same]
  | absent missing grown => simp [grown]

theorem Stores.mem_iff {old : Option V} (distinct : Distinct before)
    (stores : Stores key value before after old) (k : Nat) (v : V) :
    (k, v) ∈ after ↔ k ≠ key ∧ (k, v) ∈ before ∨ k = key ∧ old.isSome ∧ v = value := by
  cases stores with
  | absent missing same =>
    rw [same]
    constructor
    · intro inside
      refine .inl ⟨?_, inside⟩
      rintro rfl
      exact missing v inside
    · rintro (⟨-, inside⟩ | ⟨-, nothing, -⟩)
      · exact inside
      · cases nothing
  | @present old index here replaced =>
    have inRange := (Array.getElem?_eq_some_iff.mp here).1
    rw [Array.mem_iff_getElem?, Array.mem_iff_getElem?, replaced]
    constructor
    · rintro ⟨i, found⟩
      rw [Array.getElem?_setIfInBounds] at found
      by_cases e : index = i
      · rw [if_pos e, if_pos inRange] at found
        cases found
        exact .inr ⟨rfl, rfl, rfl⟩
      · rw [if_neg e] at found
        refine .inl ⟨?_, i, found⟩
        rintro rfl
        exact e (distinct _ _ _ _ _ here found)
    · rintro (⟨other, i, found⟩ | ⟨rfl, -, rfl⟩)
      · refine ⟨i, ?_⟩
        rw [Array.getElem?_setIfInBounds, if_neg, found]
        rintro rfl
        rw [here] at found
        cases found
        exact other rfl
      · refine ⟨index, ?_⟩
        rw [Array.getElem?_setIfInBounds, if_pos rfl, if_pos inRange]

theorem Removes.mem_iff {old : Option V} (distinct : Distinct before)
    (removes : Removes key before after old) (k : Nat) (v : V) :
    (k, v) ∈ after ↔ k ≠ key ∧ (k, v) ∈ before := by
  cases removes with
  | absent missing same =>
    rw [same]
    constructor
    · intro inside
      refine ⟨?_, inside⟩
      rintro rfl
      exact missing v inside
    · exact And.right
  | @present old index here dropped =>
    have inRange := (Array.getElem?_eq_some_iff.mp here).1
    rw [Array.mem_iff_getElem?, Array.mem_iff_getElem?, dropped]
    constructor
    · rintro ⟨i, found⟩
      rw [getElem?_swap_pop before inRange] at found
      obtain ⟨j, other, there⟩ : ∃ j, j ≠ index ∧ before[j]? = some (k, v) := by
        by_cases inside : i < before.size - 1
        · rw [if_pos inside] at found
          by_cases e : i = index
          · rw [if_pos e] at found
            exact ⟨_, by omega, found⟩
          · rw [if_neg e] at found
            exact ⟨_, e, found⟩
        · rw [if_neg inside] at found
          cases found
      refine ⟨?_, j, there⟩
      rintro rfl
      exact other (distinct _ _ _ _ _ there here)
    · rintro ⟨other, j, there⟩
      refine ⟨_, (getElem?_swap_pop_moved before inRange
        (Array.getElem?_eq_some_iff.mp there).1 ?_).trans there⟩
      rintro rfl
      rw [here] at there
      cases there
      exact other rfl

end

/-- What can be asked of a map. -/
inductive Call (V : Type) where
  | insert (key : Nat) (value : V)
  | get (key : Nat)
  | set (key : Nat) (value : V)
  | contains (key : Nat)
  | remove (key : Nat)
  | size
  | isEmpty
  | toList
  deriving DecidableEq, Repr

inductive Answer (V : Type) where
  | flag (flag : Bool)
  | value (value : Option V)
  | count (count : Nat)
  | bindings (bindings : List (Nat × V))
  deriving DecidableEq, Repr

/-- A call to the map. -/
def call (map : KeyMap V) : Call V → Except Fault (KeyMap V × Answer V)
  | .insert key value => do
    let (map, added) ← map.insert key value
    return (map, .flag added)
  | .get key => do
    let (map, value) ← map.get key
    return (map, .value value)
  | .set key value => do
    let (map, old) ← map.set key value
    return (map, .value old)
  | .contains key => do
    let (map, present) ← map.contains key
    return (map, .flag present)
  | .remove key => do
    let (map, old) ← map.remove key
    return (map, .value old)
  | .size => return (map, .count map.size)
  | .isEmpty => return (map, .flag map.isEmpty)
  | .toList => do
    let bindings ← map.toList
    return (map, .bindings bindings)

/-- The finite map that a call leaves, and its answer. A key that is there keeps its value when it
is inserted, and one that is not there gets none when a value is stored. -/
def Call.apply (table : Std.TreeMap Nat V) : Call V → Std.TreeMap Nat V × Answer V
  | .insert key value => (table.insertIfNew key value, .flag (!table.contains key))
  | .get key => (table, .value table[key]?)
  | .set key value => (if key ∈ table then table.insert key value else table, .value table[key]?)
  | .contains key => (table, .flag (table.contains key))
  | .remove key => (table.erase key, .value table[key]?)
  | .size => (table, .count table.size)
  | .isEmpty => (table, .flag table.isEmpty)
  | .toList => (table, .bindings table.toList)

/-- The map and the finite map have the same bindings. -/
structure Agrees (map : KeyMap V) (table : Std.TreeMap Nat V) : Prop where
  well : map.WellFormed
  same : ∀ key value, (key, value) ∈ pairs map.entries ↔ table[key]? = some value

namespace Agrees
variable {map after : KeyMap V} {table table' : Std.TreeMap Nat V}

theorem bindings_eq (agrees : Agrees map table) {shape : Shape} (well : map.WellFormedAs shape) :
    bindings map.entries shape = table.toList := by
  have ordered : table.toList.Pairwise fun x y => x.1 < y.1 :=
    Std.TreeMap.ordered_keys_toList.imp fun h => Nat.compare_eq_lt.mp h
  have irrefl : Std.Irrefl fun x y : Nat × V => x.1 < y.1 := ⟨fun x => Nat.lt_irrefl x.1⟩
  have asymm : Std.Asymm fun x y : Nat × V => x.1 < y.1 := ⟨fun x y => Nat.lt_asymm⟩
  refine List.Pairwise.eq_of_mem_iff well.ascending ordered fun binding => ?_
  rw [well.mem_bindings, agrees.same, Std.TreeMap.mem_toList_iff_getElem?_eq_some]

theorem size_eq (agrees : Agrees map table) : map.size = table.size := by
  obtain ⟨shape, well⟩ := agrees.well
  rw [← well.length_bindings, agrees.bindings_eq well, Std.TreeMap.length_toList]

theorem mem_iff (agrees : Agrees map table) (key : Nat) :
    key ∈ table ↔ ∃ value, (key, value) ∈ pairs map.entries := by
  simp only [agrees.same, Std.TreeMap.mem_iff_isSome_getElem?, Option.isSome_iff_exists]

theorem lookup_eq (agrees : Agrees map table) {key : Nat} {found : Option V}
    (exact : ∀ value, found = some value ↔ (key, value) ∈ pairs map.entries) :
    found = table[key]? := by
  apply Option.ext
  intro value
  rw [exact, agrees.same]

theorem distinct (agrees : Agrees map table) : Distinct (pairs map.entries) := by
  obtain ⟨shape, well⟩ := agrees.well
  exact fun i j key v w hi hj => well.index_unique hi hj

theorem of_pairs_eq (agrees : Agrees map table) (well : after.WellFormed)
    (kept : pairs after.entries = pairs map.entries) : Agrees after table :=
  ⟨well, by rw [kept]; exact agrees.same⟩

theorem insert (agrees : Agrees map table) (key : Nat) (value : V)
    (room : (table.insertIfNew key value).size ≤ NodeId.limit) :
    ∃ after, map.insert key value = .ok (after, !table.contains key) ∧
      Agrees after (table.insertIfNew key value) := by
  obtain ⟨shape, well⟩ := agrees.well
  have space : map.size < NodeId.limit ∨ ∃ old, (key, old) ∈ pairs map.entries := by
    by_cases present : key ∈ table
    · exact .inr ((agrees.mem_iff key).mp present)
    · rw [Std.TreeMap.size_insertIfNew, if_neg present] at room
      rw [agrees.size_eq]
      exact .inl (by omega)
  obtain ⟨after, added, h, well', adds, -⟩ := well.insert key value space
  have fresh : added = !table.contains key := by
    cases adds with
    | @present old here same =>
      have inside := (agrees.mem_iff key).mpr ⟨old, here⟩
      rw [Std.TreeMap.contains_iff_mem.mpr inside]
      rfl
    | absent missing grown =>
      have outside : key ∉ table := fun inside => by
        obtain ⟨old, here⟩ := (agrees.mem_iff key).mp inside
        exact missing old here
      rw [← Std.TreeMap.contains_iff_mem, Bool.not_eq_true] at outside
      rw [outside]
      rfl
  rw [← fresh]
  refine ⟨after, h, well', fun k v => ?_⟩
  rw [adds.mem_iff, agrees.same, Std.TreeMap.getElem?_insertIfNew, fresh]
  by_cases e : key = k
  · subst e
    cases present : table.contains key with
    | true => simp [Std.TreeMap.mem_iff_contains, present]
    | false =>
      have nothing : table[key]? = none :=
        Std.TreeMap.getElem?_eq_none (by simp [Std.TreeMap.mem_iff_contains, present])
      simp only [Std.TreeMap.mem_iff_contains, present, nothing]
      simp [eq_comm]
  · simp [e, Ne.symm e]

theorem set (agrees : Agrees map table) (key : Nat) (value : V) :
    ∃ after, map.set key value = .ok (after, table[key]?) ∧
      Agrees after (if key ∈ table then table.insert key value else table) := by
  obtain ⟨shape, well⟩ := agrees.well
  obtain ⟨after, old, h, well', stores⟩ := well.set key value
  have found : old = table[key]? := by
    cases stores with
    | absent missing same =>
      refine (Std.TreeMap.getElem?_eq_none fun inside => ?_).symm
      obtain ⟨old, here⟩ := (agrees.mem_iff key).mp inside
      exact missing old here
    | @present old index here replaced =>
      exact ((agrees.same key old).mp (Array.mem_iff_getElem?.mpr ⟨index, here⟩)).symm
  rw [← found]
  refine ⟨after, h, well', fun k v => ?_⟩
  rw [stores.mem_iff agrees.distinct, agrees.same, found, ← Std.TreeMap.mem_iff_isSome_getElem?]
  by_cases present : key ∈ table
  · rw [if_pos present, Std.TreeMap.getElem?_insert]
    by_cases e : key = k
    · subst e
      simp [present, eq_comm]
    · simp [e, Ne.symm e]
  · rw [if_neg present]
    by_cases e : k = key
    · subst e
      simp [present]
    · simp [e]

theorem remove (agrees : Agrees map table) (key : Nat) (fits : table.size ≤ NodeId.limit) :
    ∃ after, map.remove key = .ok (after, table[key]?) ∧ Agrees after (table.erase key) := by
  obtain ⟨shape, well⟩ := agrees.well
  obtain ⟨after, old, h, well', removes⟩ := well.remove key (by rwa [agrees.size_eq])
  have found : old = table[key]? := by
    cases removes with
    | absent missing same =>
      refine (Std.TreeMap.getElem?_eq_none fun inside => ?_).symm
      obtain ⟨old, here⟩ := (agrees.mem_iff key).mp inside
      exact missing old here
    | @present old index here dropped =>
      exact ((agrees.same key old).mp (Array.mem_iff_getElem?.mpr ⟨index, here⟩)).symm
  rw [← found]
  refine ⟨after, h, well', fun k v => ?_⟩
  rw [removes.mem_iff agrees.distinct, agrees.same, Std.TreeMap.getElem?_erase]
  by_cases e : key = k
  · simp [e]
  · simp [e, Ne.symm e]

/-- One call to a map in agreement with a finite map meets no fault, gives the answer of the finite
map, and keeps the two in agreement. -/
theorem call (agrees : Agrees map table) (call : Call V) (fits : table.size ≤ NodeId.limit)
    (room : (call.apply table).1.size ≤ NodeId.limit) :
    ∃ after, map.call call = .ok (after, (call.apply table).2) ∧
      Agrees after (call.apply table).1 := by
  obtain ⟨shape, well⟩ := agrees.well
  cases call with
  | insert key value =>
    obtain ⟨after, h, agrees'⟩ := agrees.insert key value room
    exact ⟨after, by rw [KeyMap.call, h]; rfl, agrees'⟩
  | get key =>
    obtain ⟨after, found, h, well', kept, exact⟩ := well.get key
    refine ⟨after, ?_, agrees.of_pairs_eq ⟨_, well'⟩ kept⟩
    rw [KeyMap.call, h, agrees.lookup_eq exact]
    rfl
  | set key value =>
    obtain ⟨after, h, agrees'⟩ := agrees.set key value
    exact ⟨after, by rw [KeyMap.call, h]; rfl, agrees'⟩
  | contains key =>
    obtain ⟨after, present, h, well', kept, exact⟩ := well.contains key
    refine ⟨after, ?_, agrees.of_pairs_eq well' kept⟩
    have same : present = table.contains key := by
      rw [Bool.eq_iff_iff, exact, ← agrees.mem_iff, Std.TreeMap.contains_iff_mem]
    rw [KeyMap.call, h, same]
    rfl
  | remove key =>
    obtain ⟨after, h, agrees'⟩ := agrees.remove key fits
    exact ⟨after, by rw [KeyMap.call, h]; rfl, agrees'⟩
  | size => exact ⟨map, by rw [KeyMap.call, agrees.size_eq]; rfl, agrees⟩
  | isEmpty =>
    refine ⟨map, ?_, agrees⟩
    have same : map.isEmpty = table.isEmpty := by
      rw [Std.TreeMap.isEmpty_eq_size_eq_zero, ← agrees.size_eq, isEmpty, size, Array.isEmpty]
      rfl
    rw [KeyMap.call, same]
    rfl
  | toList =>
    refine ⟨map, ?_, agrees⟩
    rw [KeyMap.call, well.toList, agrees.bindings_eq well]
    rfl

end Agrees

theorem agrees_empty : Agrees (empty : KeyMap V) ∅ :=
  ⟨wellFormed_empty, fun key value => by simp [empty, pairs]⟩

/-- Makes calls one after the other and gathers the answers. -/
def run (map : KeyMap V) : List (Call V) → Except Fault (KeyMap V × List (Answer V))
  | [] => .ok (map, [])
  | call :: calls => do
    let (map, answer) ← map.call call
    let (map, answers) ← map.run calls
    return (map, answer :: answers)

def Call.applyAll (table : Std.TreeMap Nat V) :
    List (Call V) → Std.TreeMap Nat V × List (Answer V)
  | [] => (table, [])
  | call :: calls =>
    let (table, answer) := call.apply table
    let (table, answers) := applyAll table calls
    (table, answer :: answers)

/-- After every call there is room for all bindings. -/
def Call.Roomy (table : Std.TreeMap Nat V) : List (Call V) → Prop
  | [] => True
  | call :: calls =>
    (call.apply table).1.size ≤ NodeId.limit ∧ Roomy (call.apply table).1 calls

instance Call.decidableRoomy : (calls : List (Call V)) → (table : Std.TreeMap Nat V) →
    Decidable (Roomy table calls)
  | [], _ => isTrue trivial
  | call :: calls, table =>
    have := decidableRoomy calls (call.apply table).1
    inferInstanceAs (Decidable ((call.apply table).1.size ≤ NodeId.limit ∧
      Roomy (call.apply table).1 calls))

theorem Call.Roomy.take {table : Std.TreeMap Nat V} {calls rest : List (Call V)}
    (roomy : Roomy table (calls ++ rest)) : Roomy table calls := by
  induction calls generalizing table with
  | nil => trivial
  | cons call calls ih => exact ⟨roomy.1, ih roomy.2⟩

theorem Agrees.run {map : KeyMap V} {table : Std.TreeMap Nat V} (agrees : Agrees map table)
    (fits : table.size ≤ NodeId.limit) {calls : List (Call V)} (roomy : Call.Roomy table calls) :
    ∃ after, map.run calls = .ok (after, (Call.applyAll table calls).2) ∧
      Agrees after (Call.applyAll table calls).1 := by
  induction calls generalizing map table with
  | nil => exact ⟨map, rfl, agrees⟩
  | cons call calls ih =>
    obtain ⟨middle, answered, agrees'⟩ := agrees.call call fits roomy.1
    obtain ⟨after, h, agrees''⟩ := ih agrees' roomy.1 roomy.2
    refine ⟨after, ?_, agrees''⟩
    rw [KeyMap.run, answered, ok_bind]
    dsimp only
    rw [h]
    rfl

/-- Any calls to a map that is empty at first meet no fault and get the answers of a finite map, as
long as there is room; and after each of them a walk through the map gives exactly the bindings of
the finite map, with keys that ascend. -/
theorem run_agrees {calls : List (Call V)} (roomy : Call.Roomy ∅ calls) (done rest : List (Call V))
    (split : calls = done ++ rest) :
    ∃ map bindings, run empty done = .ok (map, (Call.applyAll ∅ done).2) ∧ map.WellFormed ∧
      map.toList = .ok bindings ∧ bindings = (Call.applyAll ∅ done).1.toList ∧
      (bindings.Pairwise fun x y => x.1 < y.1) ∧
      ∀ key value, (key, value) ∈ bindings ↔ (Call.applyAll ∅ done).1[key]? = some value := by
  subst split
  obtain ⟨map, h, agrees⟩ := agrees_empty.run (by simp [NodeId.limit]) roomy.take
  obtain ⟨shape, well⟩ := agrees.well
  refine ⟨map, _, h, agrees.well, well.toList, agrees.bindings_eq well, well.ascending,
    fun key value => ?_⟩
  rw [well.mem_bindings, agrees.same]

/-- Calls of every kind: a key is inserted again, stored anew and removed, and others are missed. -/
def Call.mixed : List (Call Nat) :=
  [.insert 7 70, .insert 3 30, .insert 9 90, .insert 3 31, .set 9 91, .get 3, .get 4, .remove 7,
    .contains 7, .size, .isEmpty, .toList]

theorem run_agrees_mixed :
    ∃ map, run empty Call.mixed = .ok (map, [.flag true, .flag true, .flag true, .flag false,
        .value (some 90), .value (some 30), .value none, .value (some 70), .flag false, .count 2,
        .flag false, .bindings [(3, 30), (9, 91)]]) ∧
      map.WellFormed ∧ map.toList = .ok [(3, 30), (9, 91)] := by
  have roomy : Call.Roomy ∅ Call.mixed := by decide
  obtain ⟨map, bindings, h, well, listed, same, -, -⟩ := run_agrees roomy Call.mixed [] rfl
  have answers : (Call.applyAll ∅ Call.mixed).2 = [.flag true, .flag true, .flag true, .flag false,
      .value (some 90), .value (some 30), .value none, .value (some 70), .flag false, .count 2,
      .flag false, .bindings [(3, 30), (9, 91)]] := by decide
  have left : (Call.applyAll ∅ Call.mixed).1.toList = [(3, 30), (9, 91)] := by decide
  exact ⟨map, by rw [h, answers], well, by rw [listed, same, left]⟩

end KeyMap
end PieceIndex
