import PieceIndex.Proofs.KeyMap.Views

/-!
A splay by key over the entries of a map. The pass decides each turn from the keys alone, and keys
do not move; so all of it is decided by the shape and its keys beforehand. On entries that hold a
shape no step of it meets a fault.
-/
namespace PieceIndex

/-- What a pass for a key decides. -/
def Zipper.seek (keyAt : Nat → Nat) (key : Nat) (z : Zipper) : Choice :=
  z.focus.root.bind fun index => (sideOf key (keyAt index)).map fun side =>
    (side, (z.focus.on side).root.any fun child => sideOf key (keyAt child) = some side)

/-- The shape that a splay for a key makes of another. -/
def Shape.seek (keyAt : Nat → Nat) (key : Nat) (shape : Shape) : Shape :=
  (Zipper.descend (Zipper.seek keyAt key) { focus := shape }).close

theorem Zipper.descend_focus_ne_empty (choose : Zipper → Choice) {z : Zipper}
    (h : z.focus ≠ .empty) : (z.descend choose).focus ≠ .empty := by
  induction z using descend.induct choose with
  | case1 z goesOn ih =>
    rw [descend_of_goesOn goesOn]
    exact ih (turn_focus_ne_empty h _)
  | case2 z stops =>
    rw [descend_of_stops stops]
    exact turn_focus_ne_empty h _

theorem Shape.inOrder_seek (keyAt : Nat → Nat) (key : Nat) {shape : Shape} (h : shape ≠ .empty) :
    (shape.seek keyAt key).inOrder = shape.inOrder := by
  rw [seek, Zipper.inOrder_close (Zipper.descend_focus_ne_empty _ h), Zipper.inOrder_descend,
    Zipper.inOrder_start]

theorem Shape.seek_empty (keyAt : Nat → Nat) (key : Nat) : Shape.empty.seek keyAt key = .empty := by
  simp [seek, Zipper.descend, Zipper.seek, Zipper.turn, Zipper.close, root]

namespace KeyMap
variable {V : Type} {entries after : Entries V} {pass : Pass} {z z' : Zipper} {side : Side}

/-- The entries hold the links of a splay in progress. -/
structure Lays (entries : Entries V) (z : Zipper) : Prop where
  inRange : ∀ index ∈ z.inOrder, index < entries.size
  wired : z.Wired (childOf entries)
  nodup : z.inOrder.Nodup

/-- The pass stands at the top of the focus and keeps the entries of the spines. -/
structure Pass.Follows (pass : Pass) (z : Zipper) : Prop where
  here : z.focus.root = some pass.here
  spine : ∀ side, pass.spine side = (z.spine side).map (·.node)

/-- What is kept when a pass goes on from one zipper to another. -/
structure Advances (entries after : Entries V) (pass : Pass) (z z' : Zipper) : Prop where
  lays : Lays after z'
  follows : pass.Follows z'
  keeps : Keeps entries after z.inOrder

theorem Advances.trans {middle : Entries V} {pass' : Pass} {z'' : Zipper}
    (first : Advances entries middle pass z z') (same : z'.inOrder = z.inOrder)
    (second : Advances middle after pass' z' z'') : Advances entries after pass' z z'' :=
  ⟨second.lays, second.follows, first.keeps.trans (same ▸ second.keeps)⟩

namespace Pass

@[simp] theorem spine_grow (pass : Pass) (side : Side) (index : Nat) :
    (pass.grow side index).spine side = index :: pass.spine side := by
  cases side <;> rfl

@[simp] theorem spine_grow_other (pass : Pass) (side : Side) (index : Nat) :
    (pass.grow side.other index).spine side = pass.spine side := by
  cases side <;> rfl

theorem Follows.last (follows : pass.Follows z) (side : Side) :
    (pass.spine side).head? = Rib.last (z.spine side) := by
  rw [follows.spine, Rib.last, List.head?_map]

theorem Follows.mem (follows : pass.Follows z) : pass.here ∈ z.inOrder :=
  (z.mem_inOrder _).mpr (.inl (Shape.mem_inOrder_of_root follows.here))

end Pass

/-- Where the pass stands, the links are those of the focus. -/
theorem Lays.child_here (lays : Lays entries z) (follows : pass.Follows z) (side : Side) :
    childOf entries pass.here side = (z.focus.on side).root := by
  have here := lays.wired.focus
  rw [Shape.exists_sided follows.here side, Shape.tallies_sided] at here
  exact here.1

theorem Lays.lt_size (lays : Lays entries z) {index : Nat}
    (ahead : (z.focus.on side).root = some index) : index < entries.size := by
  apply lays.inRange
  apply (z.mem_inOrder index).mpr
  left
  cases focus : z.focus with
  | empty =>
    rw [focus] at ahead
    cases ahead
  | node left top right =>
    have inside : index ∈ (z.focus.on side).inOrder := Shape.mem_inOrder_of_root ahead
    rw [focus] at inside
    rw [Shape.exists_sided (show (Shape.node left top right).root = some top from rfl) side]
    exact (Shape.mem_inOrder_sided ..).mpr (.inl inside)

theorem exists_rotate {child : Nat} (lays : Lays entries z) (follows : pass.Follows z)
    (ahead : (z.focus.on side).root = some child) :
    ∃ after, rotate entries side pass.here child = .ok after ∧
      Advances entries after { pass with here := child } z (z.fold side) := by
  obtain ⟨a, ha⟩ : ∃ a, a = (z.focus.on side).on side := ⟨_, rfl⟩
  obtain ⟨b, hb⟩ : ∃ b, b = (z.focus.on side).on side.other := ⟨_, rfl⟩
  obtain ⟨inner, hinner⟩ : ∃ inner, inner = z.focus.on side.other := ⟨_, rfl⟩
  have focus : z.focus = .sided side (.sided side a child b) pass.here inner := by
    rw [ha, hb, hinner, ← Shape.exists_sided ahead, ← Shape.exists_sided follows.here]
  have wired := lays.wired.focus
  rw [focus] at wired
  simp only [Shape.tallies_sided] at wired
  obtain ⟨-, -, ⟨-, middle, -, -⟩, -⟩ := wired
  have below : child < entries.size := lays.lt_size ahead
  obtain ⟨lower, found⟩ := exists_found below
  obtain ⟨first, h1, b1⟩ := exists_setChild entries (some pass.here) side b.root fun i h => by
    cases h
    exact lays.inRange _ follows.mem
  obtain ⟨second, h2, b2⟩ := exists_setChild first (some child) side.other (some pass.here)
    fun i h => by
      cases h
      rwa [b1.size]
  rw [b1.links_eq] at b2
  have becomes := b1.trans b2
  refine ⟨second, ?_, ⟨?_, ?_, ?_⟩, ⟨?_, ?_⟩, becomes.mono ?_⟩
  · rw [rotate, entry_eq_ok.mpr found, ok_bind, ← childOf_found found, middle]
    exact bind_eq_ok.mpr ⟨first, h1, h2⟩
  · intro i h
    rw [becomes.size]
    exact lays.inRange i (by simpa using h)
  · rw [becomes.links_eq]
    exact lays.wired.fold lays.nodup focus
  · simpa using lays.nodup
  · simp [Zipper.fold, focus]
  · intro s
    rw [Zipper.fold, Zipper.spine_with_focus, ← follows.spine]
    cases s <;> rfl
  · intro i h
    rw [Zipper.mem_inOrder, focus]
    left
    simp only [Option.toList_some, List.mem_append, List.mem_singleton] at h
    simp only [Shape.mem_inOrder_sided]
    rcases h with h | h
    · exact .inr (.inl h)
    · exact .inl (.inr (.inl h))

theorem exists_fold {child : Nat} (lays : Lays entries z) (follows : pass.Follows z) (key : Nat)
    (ahead : (z.focus.on side).root = some child) :
    ∃ after pass', fold key side entries pass child = .ok (after, pass') ∧
      Advances entries after pass' z
        (z.foldIf (sideOf key (keyAt entries child) = some side) side) := by
  obtain ⟨lower, found⟩ := exists_found (lays.lt_size ahead)
  rw [fold, entry_eq_ok.mpr found, ok_bind, keyAt_found found]
  by_cases past : sideOf key lower.key = some side
  · obtain ⟨after, rotated, advances⟩ := exists_rotate lays follows ahead
    refine ⟨after, { pass with here := child }, ?_, ?_⟩
    · rw [if_pos past, rotated]
      rfl
    · simpa [Zipper.foldIf, past] using advances
  · refine ⟨entries, pass, if_neg past, ?_⟩
    rw [Zipper.foldIf, if_neg (by simpa using past)]
    exact ⟨lays, follows, .refl _ _⟩

theorem exists_link {next : Nat} (lays : Lays entries z) (follows : pass.Follows z)
    (ahead : (z.focus.on side).root = some next) :
    ∃ after pass', link side entries pass next = .ok (after, pass') ∧
      Advances entries after pass' z (z.link side) := by
  have focus := Shape.exists_sided follows.here side
  have onSpine {i : Nat} (h : Rib.last (z.spine side.other) = some i) : i ∈ z.inOrder :=
    (z.mem_inOrder i).mpr (.inr ⟨side.other, Rib.mem_ids_of_last h⟩)
  obtain ⟨after, h, becomes⟩ := exists_setChild entries (Rib.last (z.spine side.other)) side
    (some pass.here) fun i h => lays.inRange i (onSpine h)
  refine ⟨after, _, bind_eq_ok.mpr ⟨after, by rw [follows.last, h], rfl⟩, ⟨?_, ?_, ?_⟩, ⟨?_, ?_⟩,
    becomes.mono fun i touched => onSpine (Option.mem_toList.mp touched)⟩
  · intro i h
    rw [becomes.size]
    exact lays.inRange i (by simpa using h)
  · rw [becomes.links_eq]
    exact lays.wired.link lays.nodup focus
  · simpa using lays.nodup
  · rw [Zipper.link_eq focus]
    exact ahead
  · intro s
    have unchanged (p : Pass) : ({ p with here := next } : Pass).spine s = p.spine s := by
      cases s <;> rfl
    rw [unchanged]
    by_cases same : s = side
    · rw [same, Pass.spine_grow_other, Zipper.spine_link focus, follows.spine]
    · obtain rfl := Side.eq_other_of_ne same
      rw [Pass.spine_grow, Zipper.spine_link_other focus, follows.spine, List.map_cons]

/-- A turn over the entries is the turn of the zipper that the keys decide. -/
theorem exists_advance (lays : Lays entries z) (follows : pass.Follows z) (key : Nat) :
    ∃ after pass',
      advance key entries pass = .ok (after, pass', (z.turn (z.seek (keyAt entries) key)).2) ∧
        Advances entries after pass' z (z.turn (z.seek (keyAt entries) key)).1 := by
  obtain ⟨here, found⟩ := exists_found (lays.inRange _ follows.mem)
  have stays : Advances entries entries pass z z := ⟨lays, follows, .refl _ _⟩
  rw [advance, entry_eq_ok.mpr found, ok_bind, Zipper.seek, follows.here, Option.bind_some,
    keyAt_found found]
  cases sideOf key here.key with
  | none => exact ⟨entries, pass, rfl, stays⟩
  | some side =>
    dsimp only [Option.map_some]
    rw [← childOf_found found, lays.child_here follows]
    cases ahead : (z.focus.on side).root with
    | none =>
      have nothing := Shape.root_eq_none.mp ahead
      have unfolded := Zipper.foldIf_of_on_eq_empty false nothing
      rw [Option.any_none, Zipper.turn_stuck (by rwa [unfolded]), unfolded]
      exact ⟨entries, pass, rfl, stays⟩
    | some child =>
      obtain ⟨middle, pass', folded, first⟩ := exists_fold lays follows key ahead
      obtain ⟨top, foundTop⟩ := exists_found (first.lays.inRange _ first.follows.mem)
      dsimp only
      rw [folded, ok_bind]
      dsimp only
      rw [entry_eq_ok.mpr foundTop, ok_bind, ← childOf_found foundTop,
        first.lays.child_here first.follows, Option.any_some]
      have same := Zipper.inOrder_foldIf (sideOf key (keyAt entries child) = some side) side z
      cases further : ((z.foldIf (sideOf key (keyAt entries child) = some side) side).focus.on
          side).root with
      | none =>
        rw [Zipper.turn_stuck (Shape.root_eq_none.mp further)]
        exact ⟨middle, pass', rfl, first⟩
      | some next =>
        obtain ⟨last, pass'', linked, second⟩ := exists_link first.lays first.follows further
        rw [Zipper.turn_link fun e => by rw [e] at further; cases further]
        refine ⟨last, pass'', ?_, first.trans same second⟩
        dsimp only
        rw [linked]
        rfl

theorem exists_descend (key fuel : Nat) (lays : Lays entries z) (follows : pass.Follows z)
    (enough : z.focus.count < fuel) :
    ∃ after pass', descend key fuel entries pass = .ok (after, pass') ∧
      Advances entries after pass' z (z.descend (Zipper.seek (keyAt entries) key)) := by
  induction fuel generalizing entries pass z with
  | zero => omega
  | succ fuel ih =>
    obtain ⟨middle, pass', turned, first⟩ := exists_advance lays follows key
    rw [descend, turned, ok_bind, Zipper.descend]
    by_cases goesOn : (z.turn (z.seek (keyAt entries) key)).2 = true
    · have less := (Zipper.turn_goesOn goesOn).1
      obtain ⟨after, pass'', descended, second⟩ := ih first.lays first.follows (by omega)
      rw [first.keeps.keyAt] at second
      rw [dif_pos goesOn]
      refine ⟨after, pass'', ?_, first.trans (Zipper.inOrder_turn ..) second⟩
      dsimp only
      rw [if_pos goesOn, descended]
    · rw [dif_neg goesOn]
      exact ⟨middle, pass', if_neg goesOn, first⟩

theorem exists_reassemble {left right : Shape} (lays : Lays entries z) (follows : pass.Follows z)
    (focus : z.focus = .node left pass.here right) :
    ∃ after, reassemble entries pass = .ok after ∧
      Becomes entries after ((Rib.last z.left).toList ++ ((Rib.last z.right).toList ++ [pass.here]))
        (closeLinks (childOf entries) z pass.here left right) := by
  have last {side : Side} {i : Nat} (h : Rib.last (z.spine side) = some i) : i < entries.size :=
    lays.inRange i ((z.mem_inOrder i).mpr (.inr ⟨side, Rib.mem_ids_of_last h⟩))
  obtain ⟨here, found⟩ := exists_found (lays.inRange _ follows.mem)
  have wired := lays.wired.focus
  rw [focus] at wired
  have hl : here.left = left.root := by
    rw [← wired.1, childOf_found found, Entry.child]
  have hr : here.right = right.root := by
    rw [← wired.2.1, childOf_found found, Entry.child]
  have topl : pass.leftSpine.getLast?.or left.root = (Rib.close .left z.left left).root := by
    rw [Rib.root_close, ← show pass.leftSpine = z.left.map (·.node) from follows.spine .left]
  have topr : pass.rightSpine.getLast?.or right.root = (Rib.close .right z.right right).root := by
    rw [Rib.root_close, ← show pass.rightSpine = z.right.map (·.node) from follows.spine .right]
  obtain ⟨first, h1, b1⟩ := exists_setChild entries (Rib.last z.left) .right left.root
    fun i h => last (show Rib.last (z.spine .left) = some i from h)
  obtain ⟨second, h2, b2⟩ := exists_setChild first (Rib.last z.right) .left right.root
    fun i h => by
      rw [b1.size]
      exact last (show Rib.last (z.spine .right) = some i from h)
  obtain ⟨after, h3, b3⟩ := exists_relink second pass.here
    (fun entry => { entry with
      left := (Rib.close .left z.left left).root, right := (Rib.close .right z.right right).root })
    (rewire (rewire (childOf second) (some pass.here) .left (Rib.close .left z.left left).root)
      (some pass.here) .right (Rib.close .right z.right right).root)
    (by rw [b2.size, b1.size]; exact lays.inRange _ follows.mem) (fun _ => rfl)
    (fun entry _ s => by cases s <;> simp [rewire, Entry.child])
    (fun i ne => by
      rw [rewire_of_ne _ _ _ (by simpa using ne), rewire_of_ne _ _ _ (by simpa using ne)])
  rw [b1.links_eq] at b2
  rw [b2.links_eq] at b3
  refine ⟨after, ?_, b1.trans (b2.trans b3)⟩
  simp only [reassemble, entry_eq_ok.mpr found, ok_bind, hl, hr, topl, topr]
  rw [show pass.leftSpine.head? = Rib.last z.left from follows.last .left, h1, ok_bind,
    show pass.rightSpine.head? = Rib.last z.right from follows.last .right, h2, ok_bind, h3]

/-- Splaying what holds a shape meets no fault, and leaves the shape that the keys decide. -/
theorem exists_splay {shape : Shape} {root : Nat} (links : Links entries shape)
    (nodup : shape.inOrder.Nodup) (top : shape.root = some root) (key : Nat) :
    ∃ after root', splay entries root key = .ok (after, root') ∧
      (shape.seek (keyAt entries) key).root = some root' ∧
      Links after (shape.seek (keyAt entries) key) ∧ Keeps entries after shape.inOrder := by
  obtain ⟨inRange, wired⟩ := links_iff.mp links
  have start : Lays entries { focus := shape } := by
    refine ⟨by simpa using inRange, ⟨⟨wired, fun side => ?_⟩, fun side => ⟨none, ?_⟩⟩,
      by simpa using nodup⟩
    all_goals cases side <;> trivial
  have follows : ({ here := root } : Pass).Follows { focus := shape } :=
    ⟨top, fun side => by cases side <;> rfl⟩
  have enough : shape.count < stepLimit entries.size := by
    have := Shape.count_le nodup inRange
    dsimp only [stepLimit]
    omega
  obtain ⟨middle, pass, descended, advances⟩ := exists_descend key _ start follows enough
  obtain ⟨z, hz⟩ : ∃ z, z = Zipper.descend (Zipper.seek (keyAt entries) key) { focus := shape } :=
    ⟨_, rfl⟩
  rw [← hz] at advances
  have same : z.inOrder = shape.inOrder := by rw [hz, Zipper.inOrder_descend, Zipper.inOrder_start]
  have focus : z.focus = .node (z.focus.on .left) pass.here (z.focus.on .right) :=
    Shape.exists_sided advances.follows.here .left
  obtain ⟨after, reassembled, becomes⟩ := exists_reassemble advances.lays advances.follows focus
  have keeps : Keeps entries after shape.inOrder := by
    have first := advances.keeps
    rw [Zipper.inOrder_start] at first
    refine first.trans (becomes.mono fun i h => ?_)
    rw [← same, Zipper.mem_inOrder]
    simp only [List.mem_append, Option.mem_toList, List.mem_singleton] at h
    rcases h with h | h | rfl
    · exact .inr ⟨.left, Rib.mem_ids_of_last h⟩
    · exact .inr ⟨.right, Rib.mem_ids_of_last h⟩
    · exact .inl (Shape.mem_inOrder_of_root advances.follows.here)
  rw [Shape.seek, ← hz]
  refine ⟨after, pass.here, ?_, ?_, ?_, keeps⟩
  · rw [splay, descended, ok_bind]
    dsimp only
    rw [reassembled]
    rfl
  · rw [Zipper.close_eq focus, Shape.root]
  · rw [links_iff, keeps.size, Zipper.inOrder_close (by rw [focus]; simp), same, becomes.links_eq]
    exact ⟨inRange, advances.lays.wired.close advances.lays.nodup focus⟩

end KeyMap
end PieceIndex
