import PieceIndex.Proofs.KeyMap.Access

/-!
Moving the last entry to the place of another. The entries stay without gaps, but one link still
leads to the old place. The search for the key of the moved entry comes by that link, since the link
leads from the parent, and the parent lies on the path; so turning it makes the links follow the
shape with its places renamed.
-/
namespace PieceIndex

/-- Where the entry of a place is once the one at `old` has moved to `new`. -/
def moved (old new index : Nat) : Nat := if index = old then new else index

@[simp] theorem moved_self (old new : Nat) : moved old new old = new := if_pos rfl

theorem moved_of_ne {old new index : Nat} (h : index ≠ old) : moved old new index = index :=
  if_neg h

theorem moved_inj {old new i j : Nat} (hi : i ≠ new) (hj : j ≠ new)
    (same : moved old new i = moved old new j) : i = j := by
  by_cases ei : i = old
  · by_cases ej : j = old
    · rw [ei, ej]
    · rw [ei, moved_self, moved_of_ne ej] at same
      exact absurd same.symm hj
  · by_cases ej : j = old
    · rw [ej, moved_self, moved_of_ne ei] at same
      exact absurd same hi
    · rwa [moved_of_ne ei, moved_of_ne ej] at same

theorem map_moved_of_ne {old new : Nat} {place : Option Nat} (h : place ≠ some old) :
    place.map (moved old new) = place := by
  cases place with
  | none => rfl
  | some index => rw [Option.map_some, moved_of_ne fun e => h (congrArg some e)]

namespace Shape

def map (f : Nat → Nat) : Shape → Shape
  | .empty => .empty
  | .node left id right => .node (left.map f) (f id) (right.map f)

section
variable (f : Nat → Nat)

@[simp] theorem inOrder_map (shape : Shape) : (shape.map f).inOrder = shape.inOrder.map f := by
  induction shape with
  | empty => rfl
  | node left id right ihl ihr => simp [map, inOrder, ihl, ihr]

@[simp] theorem root_map (shape : Shape) : (shape.map f).root = shape.root.map f := by
  cases shape <;> rfl

@[simp] theorem count_map (shape : Shape) : (shape.map f).count = shape.count := by
  rw [← length_inOrder, inOrder_map, List.length_map, length_inOrder]

theorem map_sided (side : Side) (outer inner : Shape) (id : Nat) :
    (sided side outer id inner).map f = sided side (outer.map f) (f id) (inner.map f) := by
  cases side <;> rfl

end

variable {shape : Shape} {old new : Nat} {table : Nat → Side → Option Nat}

theorem map_moved_of_notMem (h : old ∉ shape.inOrder) : shape.map (moved old new) = shape := by
  induction shape with
  | empty => rfl
  | node left id right ihl ihr =>
    simp only [inOrder, List.mem_append, List.mem_cons, not_or] at h
    rw [map, ihl h.1, ihr h.2.2, moved_of_ne (Ne.symm h.2.1)]

/-- An entry that is not at the root is on one side of it. -/
theorem exists_above (inside : old ∈ shape.inOrder) (top : shape.root ≠ some old) :
    ∃ side outer id inner, shape = .sided side outer id inner ∧ old ∈ outer.inOrder ∧ id ≠ old := by
  cases shape with
  | empty => cases inside
  | node left id right =>
    have other : id ≠ old := fun e => top (congrArg some e)
    simp only [inOrder, List.mem_append, List.mem_cons] at inside
    rcases inside with h | h | h
    · exact ⟨.left, left, id, right, rfl, h, other⟩
    · exact absurd h.symm other
    · exact ⟨.right, right, id, left, rfl, h, other⟩

/-- Where nothing links to the moved entry, no link is wrong. -/
theorem Wired.moved_of_root (wired : shape.Wired fun i => table (moved old new i))
    (nodup : shape.inOrder.Nodup)
    (top : ∀ id, shape.root = some id → old ∈ shape.inOrder → id = old) :
    (shape.map (moved old new)).Wired table := by
  cases shape with
  | empty => trivial
  | node left id right =>
    simp only [inOrder, List.nodup_append, List.nodup_cons, List.mem_append, List.mem_cons]
      at nodup top
    obtain ⟨-, ⟨notRight, -⟩, apart⟩ := nodup
    have notl : old ∉ left.inOrder := fun h => by
      have here := top id rfl (.inl h)
      exact apart old h id (.inl rfl) here.symm
    have notr : old ∉ right.inOrder := fun h => by
      have here := top id rfl (.inr (.inr h))
      exact notRight (here ▸ h)
    obtain ⟨hl, hr, wl, wr⟩ := wired
    rw [map, map_moved_of_notMem notl, map_moved_of_notMem notr]
    refine ⟨hl, hr, wl.congr fun i h => ?_, wr.congr fun i h => ?_⟩
    · rw [moved_of_ne (by rintro rfl; exact notl h)]
    · rw [moved_of_ne (by rintro rfl; exact notr h)]

end Shape

namespace KeyMap
variable {V : Type} {entries : Entries V} {shape : Shape} {old new : Nat}

/-- The entries hold a search tree whose entry at `old` has moved to `new`. -/
structure Misses (entries : Entries V) (old new : Nat) (shape : Shape) : Prop where
  nodup : shape.inOrder.Nodup
  free : new ∉ shape.inOrder
  inRange : ∀ i ∈ shape.inOrder, moved old new i < entries.size
  wired : shape.Wired fun i => childOf entries (moved old new i)
  ascending : Ascending (fun i => keyAt entries (moved old new i)) shape.inOrder

theorem Misses.outer {side : Side} {outer inner : Shape} {id : Nat}
    (misses : Misses entries old new (.sided side outer id inner)) :
    Misses entries old new outer := by
  obtain ⟨nodup, free, inRange, wired, ascending⟩ := misses
  have within (i : Nat) (h : i ∈ outer.inOrder) : i ∈ (Shape.sided side outer id inner).inOrder :=
    (Shape.mem_inOrder_sided ..).mpr (.inl h)
  refine ⟨((Shape.nodup_inOrder_sided ..).mp nodup).1, fun h => free (within _ h),
    fun i h => inRange i (within i h), ((Shape.tallies_sided ..).mp wired).2.2.1, ?_⟩
  cases side with
  | left => exact (List.pairwise_append.mp ascending).1
  | right => exact (List.pairwise_cons.mp (List.pairwise_append.mp ascending).2.1).2

theorem Misses.nodup_map (misses : Misses entries old new shape) :
    (shape.map (moved old new)).inOrder.Nodup := by
  rw [Shape.inOrder_map, List.Nodup, List.pairwise_map]
  have apart {i : Nat} (h : i ∈ shape.inOrder) : i ≠ new := by
    rintro rfl
    exact misses.free h
  exact misses.nodup.imp_of_mem fun hi hj different same =>
    different (moved_inj (apart hi) (apart hj) same)

theorem Misses.map_lt (misses : Misses entries old new shape) :
    ∀ i ∈ (shape.map (moved old new)).inOrder, i < entries.size := by
  intro i h
  rw [Shape.inOrder_map] at h
  obtain ⟨j, inside, rfl⟩ := List.mem_map.mp h
  exact misses.inRange j inside

/-- From an entry above the moved one, the search for its key heads for the side where it is. -/
theorem Misses.heading {side : Side} {outer inner : Shape} {id : Nat}
    (misses : Misses entries old new (.sided side outer id inner)) (inside : old ∈ outer.inOrder)
    (other : id ≠ old) :
    (if keyAt entries new < keyAt entries id then Side.left else Side.right) = side := by
  have ascending := misses.ascending
  cases side with
  | left =>
    have less := (List.pairwise_append.mp ascending).2.2 old inside id List.mem_cons_self
    simp only [moved_self, moved_of_ne other] at less
    exact if_pos less
  | right =>
    have more := (List.pairwise_cons.mp (List.pairwise_append.mp ascending).2.1).1 old inside
    simp only [moved_self, moved_of_ne other] at more
    exact if_neg (by omega)

/-- One step of the search for the link, at an entry above the moved one. -/
theorem Misses.redirect_sided {side : Side} {outer inner : Shape} {id : Nat}
    (misses : Misses entries old new (.sided side outer id inner)) (inside : old ∈ outer.inOrder)
    (other : id ≠ old) (fuel : Nat) :
    redirect (keyAt entries new) old new (fuel + 1) entries (some id) =
      if outer.root = some old then update entries id (·.withChild side (some new))
      else redirect (keyAt entries new) old new fuel entries outer.root := by
  have here := misses.inRange id ((Shape.mem_inOrder_sided ..).mpr (.inr (.inl rfl)))
  rw [moved_of_ne other] at here
  obtain ⟨entry, found⟩ := exists_found here
  have heading := misses.heading inside other
  rw [keyAt_found found] at heading
  have down := ((Shape.tallies_sided ..).mp misses.wired).1
  rw [moved_of_ne other] at down
  rw [redirect, entry_eq_ok.mpr found, ok_bind]
  simp only [heading, ← childOf_found found, down]

/-- Above the moved entry the links are right already, so the outer subtree decides. -/
theorem Misses.wired_sided {side : Side} {outer inner : Shape} {id : Nat} {after : Entries V}
    (misses : Misses entries old new (.sided side outer id inner)) (inside : old ∈ outer.inOrder)
    (other : id ≠ old) (down : childOf after id side = outer.root.map (moved old new))
    (beside : childOf after id side.other = childOf entries id side.other)
    (wired : (outer.map (moved old new)).Wired (childOf after))
    (same : ∀ i ∈ inner.inOrder, childOf after i = childOf entries i) :
    ((Shape.sided side outer id inner).map (moved old new)).Wired (childOf after) := by
  obtain ⟨-, -, -, -, across⟩ := (Shape.nodup_inOrder_sided ..).mp misses.nodup
  have notInner : old ∉ inner.inOrder := across old inside
  obtain ⟨-, innerRoot, -, wiredi⟩ := (Shape.tallies_sided ..).mp misses.wired
  rw [moved_of_ne other] at innerRoot
  rw [Shape.map_sided, moved_of_ne other, Shape.map_moved_of_notMem notInner]
  refine (Shape.tallies_sided ..).mpr ⟨?_, ?_, wired, wiredi.congr fun i h => ?_⟩
  · rw [down, Shape.root_map]
  · rw [beside, innerRoot]
  · rw [same i h, moved_of_ne (by rintro rfl; exact notInner h)]

/-- Turning the link that leads to the moved entry makes the links right. -/
theorem Misses.exists_turn {side : Side} {outer inner : Shape} {id : Nat}
    (misses : Misses entries old new (.sided side outer id inner)) (next : outer.root = some old)
    (other : id ≠ old) :
    ∃ after, update entries id (·.withChild side (some new)) = .ok after ∧
      ((Shape.sided side outer id inner).map (moved old new)).Wired (childOf after) ∧
      Keeps entries after [id] := by
  have here := misses.inRange id ((Shape.mem_inOrder_sided ..).mpr (.inr (.inl rfl)))
  rw [moved_of_ne other] at here
  obtain ⟨after, updated, becomes⟩ := exists_setChild entries (some id) side (some new)
    fun i h => Option.some.inj h ▸ here
  have elsewhere {i : Nat} (ne : i ≠ id) : childOf after i = childOf entries i := by
    rw [becomes.links_eq, rewire_of_ne _ _ _ (by simpa using ne)]
  obtain ⟨nodupo, -, idOuter, idInner, -⟩ := (Shape.nodup_inOrder_sided ..).mp misses.nodup
  have newId : new ≠ id := fun e =>
    misses.free ((Shape.mem_inOrder_sided ..).mpr (.inr (.inl e)))
  refine ⟨after, updated, misses.wired_sided (Shape.mem_inOrder_of_root next) other ?_ ?_ ?_
    fun i h => elsewhere (by rintro rfl; exact idInner h), becomes.toKeeps⟩
  · rw [becomes.links_eq, rewire_self, next, Option.map_some, moved_self]
  · rw [becomes.links_eq]
    simp [rewire, Side.other_ne]
  · refine Shape.Wired.moved_of_root (misses.outer.wired.congr fun i h => elsewhere ?_) nodupo
      fun i h _ => Option.some.inj (h.symm.trans next)
    by_cases e : i = old
    · rwa [e, moved_self]
    · rw [moved_of_ne e]
      rintro rfl
      exact idOuter h

/-- The search finds the link to the moved entry below the root and turns it. -/
theorem Misses.exists_redirect (misses : Misses entries old new shape)
    (inside : old ∈ shape.inOrder) (top : shape.root ≠ some old)
    (fuel : Nat) (enough : shape.count ≤ fuel) :
    ∃ after, redirect (keyAt entries new) old new fuel entries shape.root = .ok after ∧
      (shape.map (moved old new)).Wired (childOf after) ∧ Keeps entries after shape.inOrder := by
  induction fuel generalizing shape with
  | zero =>
    rw [Shape.count_eq_zero.mp (Nat.le_zero.mp enough)] at inside
    cases inside
  | succ fuel ih =>
    obtain ⟨side, outer, id, inner, rfl, within, other⟩ := Shape.exists_above inside top
    rw [Shape.root_sided, misses.redirect_sided within other]
    by_cases next : outer.root = some old
    · obtain ⟨after, updated, wired, keeps⟩ := misses.exists_turn next other
      refine ⟨after, by rw [if_pos next, updated], wired, keeps.mono fun i h => ?_⟩
      exact (Shape.mem_inOrder_sided ..).mpr (.inr (.inl (List.mem_singleton.mp h)))
    · obtain ⟨-, -, idOuter, -, across⟩ := (Shape.nodup_inOrder_sided ..).mp misses.nodup
      have smaller : outer.count ≤ fuel := by
        rw [Shape.count_sided] at enough
        omega
      obtain ⟨after, redirected, wired, keeps⟩ := ih misses.outer within next smaller
      have idStays : childOf after id = childOf entries id := keeps.childOf idOuter
      refine ⟨after, by rw [if_neg next, redirected], misses.wired_sided within other ?_ ?_ wired
        fun i h => keeps.childOf fun h' => across i h' h,
        keeps.mono fun i h => (Shape.mem_inOrder_sided ..).mpr (.inl h)⟩
      · have down := ((Shape.tallies_sided ..).mp misses.wired).1
        rw [moved_of_ne other] at down
        rw [idStays, down, map_moved_of_ne next]
      · rw [idStays]

/-- Once the link to the moved entry is made good, the links follow the renamed shape. -/
theorem Misses.exists_repoint (misses : Misses entries old new shape)
    (inside : old ∈ shape.inOrder) :
    ∃ after, repoint ⟨entries, shape.root⟩ old new =
        .ok ⟨after, (shape.map (moved old new)).root⟩ ∧
      (shape.map (moved old new)).Wired (childOf after) ∧ Keeps entries after shape.inOrder := by
  by_cases top : shape.root = some old
  · refine ⟨entries, ?_, ?_, .refl _ _⟩
    · rw [repoint, Shape.root_map, top]
      simp
    · exact misses.wired.moved_of_root misses.nodup fun id root _ =>
        Option.some.inj (root.symm.trans top)
  · have bound : shape.count ≤ stepLimit entries.size := by
      have fits := Shape.count_le misses.nodup_map misses.map_lt
      rw [Shape.count_map] at fits
      dsimp only [stepLimit]
      omega
    obtain ⟨entry, found⟩ := exists_found (by simpa using misses.inRange old inside)
    obtain ⟨after, redirected, wired, keeps⟩ := misses.exists_redirect inside top _ bound
    refine ⟨after, ?_, wired, keeps⟩
    rw [repoint]
    dsimp only
    rw [if_neg top, entry_eq_ok.mpr found, ok_bind, ← keyAt_found found, redirected, ok_bind,
      Shape.root_map, map_moved_of_ne top]
    rfl

end KeyMap
end PieceIndex
