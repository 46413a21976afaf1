import PieceIndex.Proofs.KeyMap.Search

/-!
Which entry a splay by key brings to the root. A plain search visits one entry after the other, each
below the last on the side where the key lies, until it has found the key or has nothing ahead. The
pass rotates and links on its way, but the entry at which the plain search ends is always the last
one to be visited in what lies ahead of it; so that is where it stops. In a search tree this entry
has the key, or else no other one lies between it and the key.
-/
namespace PieceIndex

section
variable {keyAt : Nat → Nat} {key : Nat} {side : Side}

namespace Shape
variable {outer inner shape : Shape} {id : Nat}

/-- The entries that a plain search for the key visits, from the top one on. -/
def searchPath (keyAt : Nat → Nat) (key : Nat) : Shape → List Nat
  | .empty => []
  | .node left id right =>
    id :: match sideOf key (keyAt id) with
      | none => []
      | some .left => searchPath keyAt key left
      | some .right => searchPath keyAt key right

theorem searchPath_sided (past : sideOf key (keyAt id) = some side) :
    (sided side outer id inner).searchPath keyAt key = id :: outer.searchPath keyAt key := by
  cases side with
  | left => simp only [sided, searchPath, past]
  | right => simp only [sided, searchPath, past]

theorem searchPath_ne_nil (keyAt : Nat → Nat) (key : Nat) (nonempty : shape ≠ .empty) :
    shape.searchPath keyAt key ≠ [] := by
  cases shape with
  | empty => exact absurd rfl nonempty
  | node left id right =>
    intro nothing
    cases nothing

/-- What is visited last below an entry is visited last from it on. -/
theorem getLast?_searchPath_sided (inner : Shape) (past : sideOf key (keyAt id) = some side)
    (nonempty : outer ≠ .empty) :
    ((sided side outer id inner).searchPath keyAt key).getLast? =
      (outer.searchPath keyAt key).getLast? := by
  have further := searchPath_ne_nil keyAt key nonempty
  obtain ⟨next, rest, path⟩ := List.exists_cons_of_ne_nil further
  rw [searchPath_sided past, path, List.getLast?_cons_cons]

end Shape

namespace Zipper
variable {z : Zipper}

/-- The entry at which a plain search of what lies ahead would end. -/
def goal (keyAt : Nat → Nat) (key : Nat) (z : Zipper) : Option Nat :=
  (z.focus.searchPath keyAt key).getLast?

/-- A rotation that the keys ask for takes an entry out of the way that is not the last one on
it. -/
theorem Heads.goal_foldIf (heads : z.Heads keyAt key side) :
    (z.foldIf ((z.focus.on side).root.any fun child => sideOf key (keyAt child) = some side)
      side).goal keyAt key = z.goal keyAt key := by
  obtain ⟨top, here, past⟩ := heads
  cases ahead : (z.focus.on side).root with
  | none => rfl
  | some child =>
    rw [Option.any_some]
    by_cases further : sideOf key (keyAt child) = some side
    · have focus := Shape.exists_sided here side
      have below := Shape.exists_sided ahead side
      have nonempty : z.focus.on side ≠ .empty := by
        intro nothing
        rw [nothing] at ahead
        cases ahead
      rw [Zipper.foldIf, if_pos (by simpa using further), goal, fold, goal]
      calc ((z.focus.rotate side).searchPath keyAt key).getLast?
          = (child :: ((z.focus.on side).on side).searchPath keyAt key).getLast? := by
            rw [focus, Shape.on_sided, below, Shape.rotate_sided, Shape.searchPath_sided further,
              Shape.on_sided]
        _ = ((z.focus.on side).searchPath keyAt key).getLast? := by
            rw [← Shape.searchPath_sided further, ← below]
        _ = (z.focus.searchPath keyAt key).getLast? := by
            rw [focus, Shape.on_sided, Shape.getLast?_searchPath_sided _ past nonempty]
    · rw [Zipper.foldIf, if_neg (by simpa using further)]

theorem Heads.goal_link (heads : z.Heads keyAt key side) (more : z.focus.on side ≠ .empty) :
    (z.link side).goal keyAt key = z.goal keyAt key := by
  obtain ⟨top, here, past⟩ := heads
  have lower := Shape.getLast?_searchPath_sided (z.focus.on side.other) past more
  rw [← Shape.exists_sided here side] at lower
  rw [goal, focus_link more, goal, lower]

theorem goal_turn (z : Zipper) :
    (z.turn (z.seek keyAt key)).1.goal keyAt key = z.goal keyAt key := by
  cases choice : z.seek keyAt key with
  | none => rfl
  | some choice =>
    obtain ⟨top, here, chosen⟩ := Option.bind_eq_some_iff.mp choice
    obtain ⟨side, past, rfl⟩ := Option.map_eq_some_iff.mp chosen
    have heads : z.Heads keyAt key side := ⟨top, here, past⟩
    have folded := heads.goal_foldIf
    have heads' := heads.foldIf
    generalize (z.focus.on side).root.any _ = rotates at folded heads' ⊢
    by_cases more : (z.foldIf rotates side).focus.on side = .empty
    · rw [turn_stuck more]
      exact folded
    · rw [turn_link more]
      exact (heads'.goal_link more).trans folded

theorem goal_descend (z : Zipper) :
    (z.descend (seek keyAt key)).goal keyAt key = z.goal keyAt key := by
  induction z using descend.induct (seek keyAt key) with
  | case1 z goesOn ih =>
    rw [descend_of_goesOn goesOn]
    exact ih.trans z.goal_turn
  | case2 z stops =>
    rw [descend_of_stops stops]
    exact z.goal_turn

/-- A pass that has arrived stands where a plain search would end. -/
theorem Arrived.goal_eq (arrived : z.Arrived keyAt key) : z.goal keyAt key = z.focus.root := by
  obtain ⟨top, here, nothing⟩ := arrived
  have focus := Shape.exists_sided here
  cases heading : sideOf key (keyAt top) with
  | none =>
    rw [goal, focus .left, Shape.sided, Shape.searchPath, heading]
    rfl
  | some side =>
    rw [goal, focus side, Shape.searchPath_sided heading, nothing side heading, Shape.root_sided]
    rfl

end Zipper

/-- An entry that has the key or, where none has it, has the greatest key below it or the least key
above it. -/
inductive Nearest (keyAt : Nat → Nat) (key : Nat) (indices : List Nat) (index : Nat) : Prop where
  | found (here : keyAt index = key)
  | below (missing : ∀ i ∈ indices, keyAt i ≠ key) (less : keyAt index < key)
      (greatest : ∀ i ∈ indices, keyAt i < key → keyAt i ≤ keyAt index)
  | above (missing : ∀ i ∈ indices, keyAt i ≠ key) (greater : key < keyAt index)
      (least : ∀ i ∈ indices, key < keyAt i → keyAt index ≤ keyAt i)

namespace Shape
variable {shape : Shape}

/-- A splay by key brings up the entry that a plain search visits last. -/
theorem root_seek (ascending : KeyMap.Ascending keyAt shape.inOrder) (key : Nat) :
    (shape.seek keyAt key).root = (shape.searchPath keyAt key).getLast? := by
  by_cases nonempty : shape = .empty
  · subst nonempty
    rw [seek_empty]
    rfl
  · have start : KeyMap.Ascending keyAt ({ focus := shape } : Zipper).inOrder := by
      rwa [Zipper.inOrder_start]
    have cut : ({ focus := shape } : Zipper).Cut keyAt key := Zipper.cut_start shape
    obtain ⟨-, arrived⟩ := cut.descend start nonempty
    have same := (Zipper.goal_descend { focus := shape }).symm.trans arrived.goal_eq
    obtain ⟨top, here, -⟩ := arrived
    rw [seek, Zipper.root_close here, ← here, ← same]
    rfl

/-- An entry that parts all others into those before the key and those after it is nearest to it. -/
theorem nearest_of_cut {left right : Shape} {top : Nat}
    (ascending : KeyMap.Ascending keyAt (node left top right).inOrder)
    (before : ∀ i ∈ left.inOrder, keyAt i < key) (after : ∀ i ∈ right.inOrder, key < keyAt i) :
    Nearest keyAt key (node left top right).inOrder top := by
  simp only [KeyMap.Ascending, inOrder, List.pairwise_append, List.pairwise_cons, List.mem_cons]
    at ascending
  obtain ⟨-, ⟨above, -⟩, across⟩ := ascending
  have below (i : Nat) (inside : i ∈ left.inOrder) : keyAt i < keyAt top :=
    across i inside top (Or.inl rfl)
  rcases Nat.lt_trichotomy (keyAt top) key with less | here | greater
  · refine .below (forall_mem_node ?_ ?_ ?_) less (forall_mem_node ?_ ?_ ?_)
    · exact Nat.ne_of_lt less
    · intro i inside
      exact Nat.ne_of_lt (before i inside)
    · intro i inside
      exact Nat.ne_of_gt (after i inside)
    · intro _
      exact Nat.le_refl _
    · intro i inside _
      exact Nat.le_of_lt (below i inside)
    · intro i inside lower
      exact absurd lower (Nat.lt_asymm (after i inside))
  · exact .found here
  · refine .above (forall_mem_node ?_ ?_ ?_) greater (forall_mem_node ?_ ?_ ?_)
    · exact Nat.ne_of_gt greater
    · intro i inside
      exact Nat.ne_of_lt (before i inside)
    · intro i inside
      exact Nat.ne_of_gt (after i inside)
    · intro _
      exact Nat.le_refl _
    · intro i inside higher
      exact absurd higher (Nat.lt_asymm (before i inside))
    · intro i inside _
      exact Nat.le_of_lt (above i inside)

theorem nearest_seek (ascending : KeyMap.Ascending keyAt shape.inOrder) {last : Nat}
    (root : (shape.seek keyAt key).root = some last) : Nearest keyAt key shape.inOrder last := by
  have nonempty : shape ≠ .empty := by
    rintro rfl
    rw [seek_empty] at root
    cases root
  have order := inOrder_seek keyAt key nonempty
  have cut := seek_cut ascending key
  have parts := exists_sided root .left
  rw [← order] at ascending ⊢
  rw [parts] at ascending ⊢
  exact nearest_of_cut ascending (fun i inside => sideOf_eq_right.mp (cut .left i inside))
    (fun i inside => sideOf_eq_left.mp (cut .right i inside))

end Shape

/-- Nothing is greater than what is nearest to a key beyond all others. -/
theorem Nearest.le_of_beyond {indices : List Nat} {index : Nat}
    (nearest : Nearest keyAt key indices index) (inside : index ∈ indices)
    (beyond : ∀ i ∈ indices, keyAt i < key) : ∀ i ∈ indices, keyAt i ≤ keyAt index := by
  intro i within
  cases nearest with
  | found here => exact absurd (beyond index inside) (by omega)
  | below _ _ greatest => exact greatest i within (beyond i within)
  | above _ greater _ => exact absurd (beyond index inside) (Nat.lt_asymm greater)

end

namespace KeyMap
variable {V : Type} {entries : Entries V} {shape : Shape}

/-- A splay of a search tree for any key meets no fault and brings up the entry that a plain search
visits last: the one with the key or else one that is nearest to it. It becomes the root of a search
tree over the same entries in the same order; all keys and values stay, and so does every entry
outside the tree. If the key lies beyond all others, the greatest of them comes up, and there is
nothing on its right. -/
theorem splay_brings_last (tree : SearchTree entries shape) {index : Nat}
    (top : shape.root = some index) (key : Nat) :
    ∃ after last, splay entries index key = .ok (after, last) ∧
      (shape.searchPath (keyAt entries) key).getLast? = some last ∧
      (∀ i ∈ shape.inOrder, keyAt entries i = key → i = last) ∧
      Nearest (keyAt entries) key shape.inOrder last ∧
      (∃ splayed, SearchTree after splayed ∧ splayed.root = some last ∧
        splayed.inOrder = shape.inOrder) ∧
      pairs after = pairs entries ∧
      (∀ i ∉ shape.inOrder, after[i]? = entries[i]?) ∧
      ((∀ i ∈ shape.inOrder, keyAt entries i < key) →
        (∀ i ∈ shape.inOrder, keyAt entries i ≤ keyAt entries last) ∧
          childOf after last .right = none) := by
  have ascending := tree.keys_ascending
  obtain ⟨after, last, splayed, root, links, keeps⟩ :=
    exists_splay tree.links ascending.nodup top key
  have nonempty : shape ≠ .empty := by
    rintro rfl
    cases top
  have order := Shape.inOrder_seek (keyAt entries) key nonempty
  have nearest := Shape.nearest_seek ascending root
  refine ⟨after, last, splayed, ?_, ?_, nearest, ⟨_, ⟨links, ?_⟩, root, order⟩, keeps.pairs_eq,
    keeps.rest, ?_⟩
  · rw [← Shape.root_seek ascending, root]
  · rintro i inside rfl
    exact Option.some.inj ((Shape.root_seek_of_mem ascending inside).symm.trans root)
  · rw [ascending_iff (links_iff.mp links).1, keeps.keyAt, order]
    exact ascending
  · intro beyond
    have inside : last ∈ shape.inOrder := order ▸ Shape.mem_inOrder_of_root root
    refine ⟨nearest.le_of_beyond inside beyond, ?_⟩
    rw [links.childOf_root root, Shape.seek_right_eq_empty ascending beyond nonempty]
    rfl

/-- A map of six keys, whose left subtree lies below the entry at place 1. -/
def sixKeys : Entries Unit :=
  #[{ key := 50, value := (), left := some 1, right := some 2 },
    { key := 20, value := (), left := some 3, right := some 4 },
    { key := 70, value := () },
    { key := 10, value := () },
    { key := 30, value := (), right := some 5 },
    { key := 40, value := () }]

def sixKeysLeft : Shape := .node (.node .empty 3 .empty) 1 (.node .empty 4 (.node .empty 5 .empty))

theorem searchTree_sixKeysLeft : SearchTree sixKeys sixKeysLeft := by
  constructor
  · exact ⟨_, rfl, rfl, rfl, ⟨_, rfl, rfl, rfl, trivial, trivial⟩,
      ⟨_, rfl, rfl, rfl, trivial, ⟨_, rfl, rfl, rfl, trivial, trivial⟩⟩⟩
  · decide

theorem splay_brings_last_sixKeys :
    SearchTree sixKeys sixKeysLeft ∧
      (∃ after, splay sixKeys 1 50 = .ok (after, 5) ∧ after[0]? = sixKeys[0]? ∧
        childOf after 5 .right = none) ∧
      ∃ after, splay sixKeys 1 25 = .ok (after, 4) ∧ after[2]? = sixKeys[2]? ∧
        Nearest (keyAt sixKeys) 25 sixKeysLeft.inOrder 4 := by
  refine ⟨searchTree_sixKeysLeft, ?_, ?_⟩
  · obtain ⟨after, last, splayed, path, -, -, -, -, rest, beyond⟩ :=
      splay_brings_last searchTree_sixKeysLeft rfl 50
    have visited : sixKeysLeft.searchPath (keyAt sixKeys) 50 = [1, 4, 5] := by decide +kernel
    rw [visited] at path
    obtain rfl : 5 = last := Option.some.inj path
    exact ⟨after, splayed, rest 0 (by decide), (beyond (by decide +kernel)).2⟩
  · obtain ⟨after, last, splayed, path, -, nearest, -, -, rest, -⟩ :=
      splay_brings_last searchTree_sixKeysLeft rfl 25
    have visited : sixKeysLeft.searchPath (keyAt sixKeys) 25 = [1, 4] := by decide +kernel
    rw [visited] at path
    obtain rfl : 4 = last := Option.some.inj path
    exact ⟨after, splayed, rest 2 (by decide), nearest⟩

end KeyMap
end PieceIndex
