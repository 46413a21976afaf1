import PieceIndex.Proofs.KeyMap.Renaming

/-!
Removing a key. Its entry is brought to the root; the subtrees of the root are joined, which leaves
its place out of the shape; and the last entry moves to that place.
-/
namespace PieceIndex

/-- Two shapes joined below the last node of the left one, which a key beyond it brings up. -/
def Shape.join (keyAt : Nat → Nat) (key : Nat) (left right : Shape) : Shape :=
  match left.seek keyAt key with
  | .empty => right
  | .node below top _ => .node below top right

/-- What a shape splayed for a key beyond it looks like. -/
theorem Shape.exists_seek_eq {keyAt : Nat → Nat} {key root : Nat} {shape : Shape}
    (ascending : KeyMap.Ascending keyAt shape.inOrder)
    (below : ∀ x ∈ shape.inOrder, keyAt x < key) (top : (shape.seek keyAt key).root = some root) :
    ∃ left, shape.seek keyAt key = .node left root .empty ∧
      shape.inOrder = left.inOrder ++ [root] := by
  have nonempty : shape ≠ .empty := by
    rintro rfl
    rw [seek_empty] at top
    cases top
  have nothing := seek_right_eq_empty ascending below nonempty
  have parts := exists_sided top .left
  rw [Side.other, nothing] at parts
  refine ⟨_, parts, ?_⟩
  rw [← inOrder_seek keyAt key nonempty, parts]
  rfl

theorem Shape.inOrder_join {keyAt : Nat → Nat} {key : Nat} {left : Shape} (right : Shape)
    (ascending : KeyMap.Ascending keyAt left.inOrder) (below : ∀ x ∈ left.inOrder, keyAt x < key) :
    (left.join keyAt key right).inOrder = left.inOrder ++ right.inOrder := by
  cases top : (left.seek keyAt key).root with
  | none =>
    have nothing := root_eq_none.mp top
    have empty : left = .empty := by
      by_cases nonempty : left = .empty
      · exact nonempty
      · have order := inOrder_seek keyAt key nonempty
        rw [nothing] at order
        cases left with
        | empty => rfl
        | node l id r => simp [inOrder] at order
    rw [join, nothing, empty]
    rfl
  | some root =>
    obtain ⟨l, parts, order⟩ := exists_seek_eq ascending below top
    rw [join, parts, order]
    simp [inOrder]

namespace KeyMap
variable {V : Type} {entries : Entries V}

/-- A tree can be hung on the right of a root that has nothing there. -/
theorem exists_hangRight {left right : Shape} {top : Nat}
    (links : Links entries (.node left top .empty)) (linksr : Links entries right)
    (notLeft : top ∉ left.inOrder) (notRight : top ∉ right.inOrder) :
    ∃ after, update entries top (·.withChild .right right.root) = .ok after ∧
      Links after (.node left top right) ∧ Keeps entries after [top] := by
  obtain ⟨inRange, wired⟩ := links_iff.mp links
  obtain ⟨inRight, wiredr⟩ := links_iff.mp linksr
  obtain ⟨after, updated, becomes⟩ := exists_setChild entries (some top) .right right.root
    fun i h => Option.some.inj h ▸ inRange top (Shape.mem_inOrder_of_root rfl)
  have elsewhere {i : Nat} (ne : i ≠ top) : childOf after i = childOf entries i := by
    rw [becomes.links_eq, rewire_of_ne _ _ _ (by simpa using ne)]
  refine ⟨after, updated, links_iff.mpr ⟨fun i h => ?_, ?_, ?_, wired.2.2.1.congr fun i h => ?_,
    wiredr.congr fun i h => ?_⟩, becomes.toKeeps⟩
  · rw [becomes.size]
    simp only [Shape.inOrder, List.mem_append, List.mem_cons] at h
    rcases h with h | rfl | h
    · exact inRange i (List.mem_append_left _ h)
    · exact inRange i (Shape.mem_inOrder_of_root rfl)
    · exact inRight i h
  · rw [becomes.links_eq, ← wired.1]
    simp [rewire]
  · rw [becomes.links_eq, rewire_self]
  · exact elsewhere (by rintro rfl; exact notLeft h)
  · exact elsewhere (by rintro rfl; exact notRight h)

/-- Joining two search trees one after the other meets no fault. -/
theorem exists_joinBelow {left right : Shape} (linksl : Links entries left)
    (linksr : Links entries right) (nodup : (left.inOrder ++ right.inOrder).Nodup)
    (ascending : Ascending (keyAt entries) left.inOrder) {key : Nat}
    (below : ∀ x ∈ left.inOrder, keyAt entries x < key) :
    ∃ after, joinBelow entries key left.root right.root =
        .ok ⟨after, (left.join (keyAt entries) key right).root⟩ ∧
      Links after (left.join (keyAt entries) key right) ∧ Keeps entries after left.inOrder := by
  cases top : left.root with
  | none =>
    obtain rfl := Shape.root_eq_none.mp top
    rw [Shape.join, Shape.seek_empty]
    exact ⟨entries, rfl, linksr, .refl _ _⟩
  | some root =>
    obtain ⟨nodupl, nodupr, apart⟩ := List.nodup_append.mp nodup
    obtain ⟨inRight, wiredr⟩ := links_iff.mp linksr
    obtain ⟨middle, top', splayed, topSeek, links, keeps⟩ := exists_splay linksl nodupl top key
    obtain ⟨l, parts, order⟩ := Shape.exists_seek_eq ascending below topSeek
    have inLeft : top' ∈ left.inOrder := by
      rw [order]
      exact List.mem_append_right _ List.mem_cons_self
    have linksr' : Links middle right := by
      refine links_iff.mpr ⟨fun i h => by rw [keeps.size]; exact inRight i h, ?_⟩
      exact wiredr.congr fun i h => keeps.childOf fun h' => apart i h' i h rfl
    rw [order, List.nodup_append] at nodupl
    obtain ⟨after, hung, joined, kept⟩ := exists_hangRight (parts ▸ links) linksr'
      (fun h => nodupl.2.2 top' h top' List.mem_cons_self rfl)
      (fun h => apart top' inLeft top' h rfl)
    rw [Shape.join, parts]
    refine ⟨after, ?_, joined, keeps.trans (kept.mono fun i h => ?_)⟩
    · rw [joinBelow]
      dsimp only
      rw [splayed, ok_bind]
      exact bind_eq_ok.mpr ⟨after, hung, rfl⟩
    · rw [List.mem_singleton.mp h]
      exact inLeft

/-! The last entry moves to the place of the one that goes. -/

theorem getElem?_swap_pop {α : Type} (xs : Array α) {index : Nat} (h : index < xs.size) (i : Nat) :
    (xs.swapIfInBounds index (xs.size - 1)).pop[i]? =
      if i < xs.size - 1 then (if i = index then xs[xs.size - 1]? else xs[i]?) else none := by
  have last : xs.size - 1 < xs.size := by omega
  rw [Array.getElem?_pop, Array.size_swapIfInBounds]
  by_cases inside : i < xs.size - 1
  · rw [if_pos inside, if_pos inside, Array.swapIfInBounds_def, dif_pos h, dif_pos last,
      Array.getElem?_swap, if_neg (by omega)]
    by_cases here : index = i
    · rw [if_pos here, if_pos here.symm, Array.getElem?_eq_getElem last]
    · rw [if_neg here, if_neg (Ne.symm here)]
  · rw [if_neg inside, if_neg inside]

theorem getElem?_swap_pop_moved {α : Type} (xs : Array α) {index i : Nat} (h : index < xs.size)
    (inRange : i < xs.size) (ne : i ≠ index) :
    (xs.swapIfInBounds index (xs.size - 1)).pop[moved (xs.size - 1) index i]? = xs[i]? := by
  rw [getElem?_swap_pop xs h]
  by_cases e : i = xs.size - 1
  · rw [e, moved_self, if_pos (by omega), if_pos rfl]
  · rw [moved_of_ne e, if_pos (by omega), if_neg ne]

@[simp] theorem size_swapRemove (entries : Entries V) (index : Nat) :
    (swapRemove entries index).size = entries.size - 1 := by
  simp [swapRemove]

theorem pairs_swapRemove {index : Nat} (h : index < entries.size) :
    pairs (swapRemove entries index) =
      ((pairs entries).swapIfInBounds index ((pairs entries).size - 1)).pop := by
  apply Array.ext_getElem?
  intro i
  rw [getElem?_pairs, swapRemove, getElem?_swap_pop _ h, getElem?_swap_pop _ (by simpa using h),
    size_pairs]
  by_cases inside : i < entries.size - 1
  · rw [if_pos inside, if_pos inside]
    by_cases here : i = index
    · rw [if_pos here, if_pos here, getElem?_pairs]
    · rw [if_neg here, if_neg here, getElem?_pairs]
  · rw [if_neg inside, if_neg inside]
    rfl

/-- Everything but one entry makes up a search tree. -/
structure Spares (entries : Entries V) (index : Nat) (shape : Shape) : Prop
    extends SearchTree entries shape where
  nodup : shape.inOrder.Nodup
  here : index < entries.size
  spared : index ∉ shape.inOrder
  full : ∀ i < entries.size, i ≠ index → i ∈ shape.inOrder

namespace Spares
variable {index : Nat} {shape : Shape}

theorem misses (spares : Spares entries index shape) :
    Misses (swapRemove entries index) (entries.size - 1) index shape := by
  obtain ⟨inRange, wired⟩ := links_iff.mp spares.links
  have ascending := (ascending_iff inRange).mp spares.ascending
  have same (i : Nat) (h : i ∈ shape.inOrder) :
      (swapRemove entries index)[moved (entries.size - 1) index i]? = entries[i]? := by
    refine getElem?_swap_pop_moved entries spares.here (inRange i h) ?_
    rintro rfl
    exact spares.spared h
  have sameKey (i : Nat) (h : i ∈ shape.inOrder) :
      keyAt (swapRemove entries index) (moved (entries.size - 1) index i) = keyAt entries i := by
    rw [keyAt, getElem?_pairs, same i h, ← getElem?_pairs, keyAt]
  refine ⟨spares.nodup, spares.spared, fun i h => ?_, wired.congr fun i h => ?_,
    ascending.imp_of_mem fun hi hj less => ?_⟩
  · obtain ⟨entry, found⟩ := exists_found (inRange i h)
    exact lt_size_of_found ((same i h).trans found)
  · funext side
    rw [childOf, same i h, childOf]
  · dsimp only
    rwa [sameKey _ hi, sameKey _ hj]

theorem last_mem (spares : Spares entries index shape) (other : index ≠ entries.size - 1) :
    entries.size - 1 ∈ shape.inOrder := by
  have := spares.here
  exact spares.full _ (by omega) (Ne.symm other)

/-- The links and bindings with the last entry moved are those of a well-formed map. -/
theorem wellFormedAs (spares : Spares entries index shape) {after : Entries V}
    (wired : (shape.map (moved (entries.size - 1) index)).Wired (childOf after))
    (same : pairs after = pairs (swapRemove entries index)) :
    WellFormedAs ⟨after, (shape.map (moved (entries.size - 1) index)).root⟩
      (shape.map (moved (entries.size - 1) index)) := by
  have misses := spares.misses
  have count : after.size = entries.size - 1 := by
    rw [size_congr same, size_swapRemove]
  refine WellFormedAs.of_links after (links_iff.mpr ⟨fun i h => ?_, wired⟩) ?_ misses.nodup_map
    fun i h => ?_
  · rw [count, ← size_swapRemove entries index]
    exact misses.map_lt i h
  · rw [keyAt_congr same, Shape.inOrder_map, Ascending, List.pairwise_map]
    exact misses.ascending
  · rw [count] at h
    rw [Shape.inOrder_map, List.mem_map]
    by_cases e : i = index
    · refine ⟨entries.size - 1, spares.last_mem (by omega), ?_⟩
      rw [moved_self, e]
    · exact ⟨i, spares.full i (by omega) e, moved_of_ne (by omega)⟩

/-- Dropping the entry that is left out meets no fault. -/
theorem exists_drop (spares : Spares entries index shape) :
    ∃ after : KeyMap V,
      (if index = entries.size - 1 then .ok ⟨swapRemove entries index, shape.root⟩
        else repoint ⟨swapRemove entries index, shape.root⟩ (entries.size - 1) index) = .ok after ∧
      after.WellFormed ∧ pairs after.entries = pairs (swapRemove entries index) := by
  have misses := spares.misses
  by_cases last : index = entries.size - 1
  · have away : entries.size - 1 ∉ shape.inOrder := last ▸ spares.spared
    have wired := misses.wired.moved_of_root misses.nodup fun _ _ inside => absurd inside away
    have well := spares.wellFormedAs wired rfl
    rw [Shape.map_moved_of_notMem away] at well
    exact ⟨_, if_pos last, ⟨_, well⟩, rfl⟩
  · obtain ⟨after, repointed, wired, keeps⟩ := misses.exists_repoint (spares.last_mem last)
    exact ⟨_, by rw [if_neg last, repointed], ⟨_, spares.wellFormedAs wired keeps.pairs_eq⟩,
      keeps.pairs_eq⟩

end Spares

/-- What removing a key does to the bindings: the last one takes the place of the one with the key,
if there is one. -/
inductive Removes (key : Nat) (before after : Array (Nat × V)) : Option V → Prop where
  | absent (missing : ∀ old, (key, old) ∉ before) (same : after = before) :
      Removes key before after none
  | present {old : V} (index : Nat) (here : before[index]? = some (key, old))
      (dropped : after = (before.swapIfInBounds index (before.size - 1)).pop) :
      Removes key before after (some old)

/-- The root of a search tree can be left out when its subtrees are joined. -/
theorem WellFormedAs.exists_spare {index : Nat} {shape : Shape}
    (well : WellFormedAs ⟨entries, some index⟩ shape) :
    ∃ after joined, joinBelow entries (keyAt entries index) (shape.on .left).root
        (shape.on .right).root = .ok ⟨after, joined.root⟩ ∧
      Spares after index joined ∧ pairs after = pairs entries := by
  obtain ⟨inRange, wired⟩ := links_iff.mp well.links
  have root : shape.root = some index := well.root_eq.symm
  have parts := Shape.exists_sided root .left
  obtain ⟨left, hleft⟩ : ∃ left, left = shape.on .left := ⟨_, rfl⟩
  obtain ⟨right, hright⟩ : ∃ right, right = shape.on .right := ⟨_, rfl⟩
  rw [Side.other, ← hleft, ← hright] at parts
  rw [← hleft, ← hright]
  subst parts
  have ascending := well.keys_ascending
  have nodup := well.nodup
  have full := well.full
  simp only [Shape.sided, Shape.inOrder, Ascending, List.pairwise_append, List.pairwise_cons,
    List.mem_append, List.mem_cons] at inRange ascending full
  simp only [Shape.sided, Shape.inOrder, List.nodup_append, List.nodup_cons, List.mem_cons] at nodup
  obtain ⟨-, -, wiredl, wiredr⟩ := wired
  have linksl : Links entries left := links_iff.mpr ⟨fun i h => inRange i (.inl h), wiredl⟩
  have linksr : Links entries right := links_iff.mpr ⟨fun i h => inRange i (.inr (.inr h)), wiredr⟩
  obtain ⟨ascl, ⟨-, ascr⟩, across⟩ := ascending
  have below (x : Nat) (h : x ∈ left.inOrder) : keyAt entries x < keyAt entries index :=
    across x h index (.inl rfl)
  have nodupBoth : (left.inOrder ++ right.inOrder).Nodup := by
    rw [List.nodup_append]
    exact ⟨nodup.1, nodup.2.1.2, fun i h j h' => nodup.2.2 i h j (.inr h')⟩
  have both : Ascending (keyAt entries) (left.inOrder ++ right.inOrder) := by
    rw [Ascending, List.pairwise_append]
    exact ⟨ascl, ascr, fun i h j h' => across i h j (.inr h')⟩
  obtain ⟨after, joinedOk, links, keeps⟩ := exists_joinBelow linksl linksr nodupBoth ascl below
  have order := Shape.inOrder_join right ascl below
  refine ⟨after, _, joinedOk, ⟨⟨links, ?_⟩, ?_, ?_, fun h => ?_, fun i h ne => ?_⟩, keeps.pairs_eq⟩
  · rw [ascending_iff (links_iff.mp links).1, keeps.keyAt, order]
    exact both
  · rw [order]
    exact nodupBoth
  · rw [keeps.size]
    exact inRange index (.inr (.inl rfl))
  · rw [order, List.mem_append] at h
    rcases h with h | h
    · exact nodup.2.2 index h index (.inl rfl) rfl
    · exact nodup.2.1.1 h
  · rw [keeps.size] at h
    rw [order, List.mem_append]
    rcases full i h with h | h | h
    · exact .inl h
    · exact absurd h ne
    · exact .inr h

theorem WellFormedAs.remove {map : KeyMap V} {shape : Shape} (well : map.WellFormedAs shape)
    (key : Nat) (fits : map.size ≤ NodeId.limit) :
    ∃ after result, map.remove key = .ok (after, result) ∧ after.WellFormed ∧
      Removes key (pairs map.entries) (pairs after.entries) result := by
  obtain ⟨⟨entries, top⟩, found, h, well', same, exact⟩ := well.find key
  cases found with
  | none =>
    refine ⟨⟨entries, top⟩, none, ?_, ⟨_, well'⟩, .absent (fun old inside => ?_) same⟩
    · rw [KeyMap.remove, h]
      rfl
    · obtain ⟨index, here⟩ := Array.mem_iff_getElem?.mp inside
      cases (exact index old).mpr here
  | some found =>
    obtain ⟨index, old⟩ := found
    have here := (exact index old).mp rfl
    have root :=
      Shape.root_seek_of_mem well.keys_ascending (well.full index (lt_size_of_pairs here))
    rw [keyAt_of_pairs here] at root
    obtain rfl : top = some index := well'.root_eq.trans root
    rw [← same] at here
    obtain ⟨entry, foundEntry⟩ := exists_found (lt_size_of_pairs here)
    obtain ⟨middle, joined, joinedOk, spares, kept⟩ := well'.exists_spare
    obtain ⟨after, dropped, well'', pairsAfter⟩ := spares.exists_drop
    have children := well'.child_root root foundEntry
    have last : place (middle.size - 1) = middle.size - 1 := by
      have count : middle.size = map.size := size_congr (kept.trans same)
      have some := spares.here
      exact Nat.mod_eq_of_lt (by simp only [NodeId.limit] at fits; omega)
    refine ⟨after, some old, ?_, well'', .present index (same ▸ here) ?_⟩
    · rw [keyAt_of_pairs here] at joinedOk
      rw [KeyMap.remove, h, ok_bind]
      dsimp only
      rw [entry_eq_ok.mpr foundEntry, ok_bind, show entry.left = _ from children .left,
        show entry.right = _ from children .right, joinedOk, ok_bind]
      dsimp only
      rw [last]
      by_cases e : index = middle.size - 1
      · rw [if_pos e] at dropped ⊢
        cases dropped
        rfl
      · rw [if_neg e] at dropped ⊢
        rw [dropped]
        rfl
    · rw [pairsAfter, pairs_swapRemove spares.here, kept, same]

end KeyMap
end PieceIndex
