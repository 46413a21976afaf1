import PieceIndex.Proofs.KeyMap.Dense

/-!
How many bindings a map can hold. Places are numbered with 32 bits, and an insertion takes the
number of the new entry for the root without asking whether it still names its place. No other link
leads to the new entry; so where the numbers have run out it is cut off, and an entry that was there
before stands as the root. Everything else about the insertion goes well at any size.
-/
namespace PieceIndex
namespace KeyMap
variable {V : Type} {map after : KeyMap V} {shape : Shape}

theorem place_eq_self_iff (count : Nat) : place count = count ↔ count < NodeId.limit := by
  constructor
  · intro same
    rw [← same]
    exact Nat.mod_lt _ (by decide)
  · exact Nat.mod_eq_of_lt

/-- After an insertion every link leads to an entry that was there before. -/
theorem WellFormedAs.insert_child_lt (well : map.WellFormedAs shape) {key : Nat} {value : V}
    (inserted : map.insert key value = .ok (after, true)) {index child : Nat} {side : Side}
    (link : childOf after.entries index side = some child) : child < map.size := by
  obtain ⟨⟨entries, top⟩, splayed, well', same⟩ := well.splayRoot key
  have count : entries.size = map.size := size_congr same
  cases top with
  | none =>
    cases (insert_of_empty splayed value).symm.trans inserted
    obtain rfl := well'.eq_empty
    rw [childOf_push] at link
    split at link
    · cases side <;> cases link
    · cases link
  | some root =>
    have top := well'.root_eq.symm
    have inside := well'.inRange root (Shape.mem_inOrder_of_root top)
    obtain ⟨here, found⟩ := exists_found inside
    cases heading : sideOf key here.key with
    | none =>
      have present := insert_of_present splayed found (sideOf_eq_none.mp heading) value
      cases present.symm.trans inserted
    | some towards =>
      obtain ⟨updated, turned, becomes⟩ := exists_setChild entries (some root) towards none
        fun i h => Option.some.inj h ▸ inside
      cases (insert_of_absent splayed found heading turned value).symm.trans inserted
      -- the link is one of the new entry's, to what it took over or to the old root, or an old one
      rw [← childOf_found found, childOf_push_hung value _ becomes, insertTable, rewire, rewire,
        rewire] at link
      rw [← count]
      split at link
      · cases link
        exact inside
      · split at link
        · exact well'.child_lt link
        · split at link
          · cases link
          · exact well'.child_lt link

/-- An insertion that leaves a well-formed map has numbered the new entry by its place. -/
theorem WellFormedAs.numbered_of_insert (well : map.WellFormedAs shape) {key : Nat} {value : V}
    (inserted : map.insert key value = .ok (after, true)) (grown : after.size = map.size + 1)
    (kept : after.WellFormed) : after.root = some map.size := by
  obtain ⟨shape', well'⟩ := kept
  have new : map.size < after.entries.size := by
    rw [← KeyMap.size, grown]
    exact Nat.lt_succ_self _
  have wired := (links_iff.mp well'.links).2
  rcases wired.root_or_leads (well'.full map.size new) with top | ⟨index, -, side, link⟩
  · exact well'.root_eq.trans top
  · exact absurd (well.insert_child_lt inserted link) (Nat.lt_irrefl _)

/-- A new key is always taken in, with its binding at the end. The map stays well formed and has the
new entry at its root exactly as long as the place of the entry has a number of its own. -/
theorem insert_keeps_iff (well : map.WellFormed) {key : Nat}
    (absent : ∀ old, (key, old) ∉ pairs map.entries) (value : V) :
    ∃ after, map.insert key value = .ok (after, true) ∧
      pairs after.entries = (pairs map.entries).push (key, value) ∧
      (after.WellFormed ↔ map.size < NodeId.limit) ∧
      (after.root = some map.size ↔ map.size < NodeId.limit) := by
  obtain ⟨shape, well⟩ := well
  obtain ⟨after, added, inserted, adds, top, kept⟩ := well.exists_insert key value
  cases adds with
  | present here same => exact absurd here (absent _)
  | absent missing grown =>
    have size : after.size = map.size + 1 := by
      rw [KeyMap.size, ← size_pairs, grown, Array.size_push, size_pairs, KeyMap.size]
    have numbered : after.root = some map.size ↔ map.size < NodeId.limit := by
      rw [top rfl, Option.some.injEq, place_eq_self_iff]
    refine ⟨after, inserted, grown, ⟨fun wellAfter => ?_, fun space => kept (.inl space)⟩, numbered⟩
    exact numbered.mp (well.numbered_of_insert inserted size wellAfter)

theorem insert_keeps_iff_movedUp :
    (∀ old, (5, old) ∉ pairs movedUp.entries) ∧ ∃ after, movedUp.insert 5 50 = .ok (after, true) ∧
      pairs after.entries = #[(8, 80), (2, 20), (5, 50)] ∧ after.WellFormed ∧
      after.root = some 2 := by
  have absent : ∀ old, (5, old) ∉ pairs movedUp.entries := by
    simp [pairs, movedUp, Entry.binding]
  obtain ⟨after, inserted, grown, kept, top⟩ :=
    insert_keeps_iff reachable_movedUp.wellFormed.1 absent 50
  refine ⟨absent, after, inserted, ?_, kept.mpr (by decide), top.mpr (by decide)⟩
  rw [grown]
  simp [pairs, movedUp, Entry.binding]

/-! Keys in ascending order fill a map up to its last number. -/

/-- What the keys below `count` leave when they are inserted one after the other: each has the one
before on its left. -/
def ascending : Nat → KeyMap Unit
  | 0 => empty
  | count + 1 =>
    ⟨(ascending count).entries.push { key := count, value := (), left := (ascending count).root },
      some count⟩

@[simp] theorem size_ascending (count : Nat) : (ascending count).entries.size = count := by
  induction count with
  | zero => rfl
  | succ count ih => rw [ascending, Array.size_push, ih]

theorem last_ascending (count : Nat) :
    (ascending (count + 1)).entries[count]? =
      some { key := count, value := (), left := (ascending count).root } := by
  rw [ascending, Array.getElem?_push, if_pos (size_ascending count).symm]

theorem first_ascending (count : Nat) :
    (ascending (count + 1)).entries[0]? = some { key := 0, value := () } := by
  induction count with
  | zero => rfl
  | succ count ih =>
    rw [ascending, Array.getElem?_push, size_ascending, if_neg (Nat.succ_ne_zero count).symm]
    exact ih

theorem key_lt_of_mem_ascending {count key : Nat} {value : Unit}
    (inside : (key, value) ∈ pairs (ascending count).entries) : key < count := by
  induction count with
  | zero => simp [ascending, empty, pairs] at inside
  | succ count ih =>
    rw [ascending, pairs_push, Array.mem_push] at inside
    rcases inside with inside | same
    · exact Nat.lt_succ_of_lt (ih inside)
    · cases same
      exact Nat.lt_succ_self _

theorem modify_eq_self {entries : Entries V} {index : Nat} {here : Entry V}
    {change : Entry V → Entry V} (found : entries[index]? = some here) (same : change here = here) :
    entries.modify index change = entries := by
  apply Array.ext_getElem?
  intro i
  rw [getElem?_modify_entry]
  by_cases e : i = index
  · rw [if_pos e, e, found, Option.map_some, same]
  · rw [if_neg e]

/-- A splay for a key past the greatest turns nothing when the greatest is at the root. -/
theorem splayRoot_of_past {entries : Entries V} {index key : Nat} {here : Entry V}
    (found : entries[index]? = some here) (past : here.key < key) (greatest : here.right = none) :
    splayRoot ⟨entries, some index⟩ key = .ok (⟨entries, some index⟩, some index) := by
  have heading : sideOf key here.key = some .right := sideOf_eq_right.mpr past
  have stops : advance key entries { here := index } = .ok (entries, { here := index }, false) := by
    rw [advance, entry_eq_ok.mpr found, ok_bind, heading]
    dsimp only
    rw [Entry.child, greatest]
    rfl
  have rests : reassemble entries { here := index } = .ok entries := by
    rw [reassemble, entry_eq_ok.mpr found, ok_bind]
    dsimp only [List.head?_nil, updateSome]
    rw [ok_bind, ok_bind, update, if_pos (lt_size_of_found found), modify_eq_self found]
    rfl
  have turns : stepLimit entries.size = entries.size + 4611686018427387903 + 1 := rfl
  rw [splayRoot, splay, turns, descend, stops, ok_bind]
  dsimp only
  rw [if_neg Bool.false_ne_true, pure_eq_ok, ok_bind]
  dsimp only
  rw [rests]
  rfl

/-- The next key in order comes to the end, and the number of its place is taken for the root. -/
theorem insert_ascending (count : Nat) :
    (ascending count).insert count () =
      .ok (⟨(ascending (count + 1)).entries, some (place count)⟩, true) := by
  cases count with
  | zero => rfl
  | succ count =>
    have found := last_ascending count
    have past : count < count + 1 := Nat.lt_succ_self count
    have turned : update (ascending (count + 1)).entries count (·.withChild .right none) =
        .ok (ascending (count + 1)).entries := by
      rw [update, if_pos (lt_size_of_found found), modify_eq_self found rfl]
    have inserted := insert_of_absent (splayRoot_of_past found past rfl) found
      (sideOf_eq_right.mpr past) turned ()
    rw [KeyMap.size, size_ascending] at inserted
    exact inserted

theorem reachable_ascending {count : Nat} (fits : count ≤ NodeId.limit) :
    Reachable (ascending count) := by
  induction count with
  | zero => exact .empty
  | succ count ih =>
    have called : (ascending count).call (.insert count ()) =
        .ok (ascending (count + 1), .flag true) := by
      rw [KeyMap.call, insert_ascending, (place_eq_self_iff count).mpr fits]
      rfl
    refine .call (ih (Nat.le_of_succ_le fits)) called ?_
    rwa [KeyMap.size, size_ascending]

/-- A map with all numbers in use takes in one more key, and then only its first binding is left
within reach. -/
theorem insert_overruns :
    Reachable (ascending NodeId.limit) ∧ (ascending NodeId.limit).WellFormed ∧
      (∀ old, (NodeId.limit, old) ∉ pairs (ascending NodeId.limit).entries) ∧
      ∃ after, (ascending NodeId.limit).insert NodeId.limit () = .ok (after, true) ∧
        after.size = NodeId.limit + 1 ∧ ¬ after.WellFormed ∧ after.root = some 0 ∧
        after.toList = .ok [(0, ())] := by
  have reachable := reachable_ascending (Nat.le_refl NodeId.limit)
  obtain ⟨well, -⟩ := reachable.wellFormed
  have first := first_ascending NodeId.limit
  have wrapped : place NodeId.limit = 0 := by decide
  have inserted := insert_ascending NodeId.limit
  rw [wrapped] at inserted
  have grown := size_ascending (NodeId.limit + 1)
  refine ⟨reachable, well, fun old inside => ?_, _, inserted, grown, fun kept => ?_, rfl, ?_⟩
  · exact Nat.lt_irrefl _ (key_lt_of_mem_ascending inside)
  · obtain ⟨shape, well⟩ := well
    have numbered := well.numbered_of_insert inserted
      (grown.trans (by rw [KeyMap.size, size_ascending])) kept
    rw [KeyMap.size, size_ascending] at numbered
    cases numbered
  · have links : Links (ascending (NodeId.limit + 1)).entries (.node .empty 0 .empty) :=
      ⟨_, first, rfl, rfl, trivial, trivial⟩
    have walked : KeyMap.toList ⟨(ascending (NodeId.limit + 1)).entries, some 0⟩ = _ :=
      toList_of_links rfl links (List.nodup_singleton 0)
    rw [walked, bindings_node first]
    rfl

end KeyMap
end PieceIndex
