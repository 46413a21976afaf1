import PieceIndex.Proofs.KeyMap.Splay

/-!
What a splay by key brings to the root of a search tree. Whatever a pass leaves behind on a spine
lies on that side of the key; where it stops, it has found the key or has nothing ahead on the side
of the key. So the new root parts all others into those before the key and those after it.
-/
namespace PieceIndex

section
variable {key other : Nat}

@[simp] theorem sideOf_eq_left : sideOf key other = some .left ↔ key < other := by
  unfold sideOf
  split
  · simpa
  · split <;> simp <;> omega

@[simp] theorem sideOf_eq_right : sideOf key other = some .right ↔ other < key := by
  unfold sideOf
  split
  · simp
    omega
  · split <;> simp <;> omega

@[simp] theorem sideOf_eq_none : sideOf key other = none ↔ other = key := by
  unfold sideOf
  split
  · simp
    omega
  · split <;> simp <;> omega

end

open KeyMap (Ascending)

variable {keyAt : Nat → Nat} {key : Nat} {side : Side}

namespace Shape
variable {outer inner : Shape} {id : Nat}

/-- What is on the other side of a node lies no nearer to a key than the node does. -/
theorem sideOf_inner (ascending : Ascending keyAt (sided side outer id inner).inOrder)
    (past : sideOf key (keyAt id) = some side) :
    ∀ x ∈ inner.inOrder, sideOf key (keyAt x) = some side := by
  intro x h
  cases side with
  | left =>
    have after := (List.pairwise_cons.mp (List.pairwise_append.mp ascending).2.1).1 x h
    rw [sideOf_eq_left] at past ⊢
    omega
  | right =>
    have before := (List.pairwise_append.mp ascending).2.2 x h id List.mem_cons_self
    rw [sideOf_eq_right] at past ⊢
    omega

/-- From a key at a node, what is on one side of it lies on that side. -/
theorem sideOf_outer (ascending : Ascending keyAt (sided side outer id inner).inOrder)
    (here : keyAt id = key) : ∀ x ∈ outer.inOrder, sideOf key (keyAt x) = some side.other := by
  intro x h
  cases side with
  | left =>
    have before := (List.pairwise_append.mp ascending).2.2 x h id List.mem_cons_self
    rw [Side.other, sideOf_eq_right]
    omega
  | right =>
    have after := (List.pairwise_cons.mp (List.pairwise_append.mp ascending).2.1).1 x h
    rw [Side.other, sideOf_eq_left]
    omega

end Shape

namespace Zipper
variable {z : Zipper}

/-- What has been left behind on either side lies on that side of the key. -/
def Cut (keyAt : Nat → Nat) (key : Nat) (z : Zipper) : Prop :=
  ∀ side, ∀ x ∈ Rib.ids side (z.spine side), sideOf key (keyAt x) = some side.other

/-- The key lies on the given side of the top of the focus. -/
def Heads (keyAt : Nat → Nat) (key : Nat) (side : Side) (z : Zipper) : Prop :=
  ∃ top, z.focus.root = some top ∧ sideOf key (keyAt top) = some side

/-- The key is at the top of the focus, or there is nothing on the side where it lies. -/
def Arrived (keyAt : Nat → Nat) (key : Nat) (z : Zipper) : Prop :=
  ∃ top, z.focus.root = some top ∧
    ∀ side, sideOf key (keyAt top) = some side → z.focus.on side = .empty

theorem cut_start (shape : Shape) : ({ focus := shape } : Zipper).Cut keyAt key := by
  intro side x h
  cases side <;> cases h

theorem ascending_focus (ascending : Ascending keyAt z.inOrder) :
    Ascending keyAt z.focus.inOrder :=
  (List.pairwise_append.mp (List.pairwise_append.mp ascending).2.1).1

theorem Cut.foldIf (cut : z.Cut keyAt key) (rotates : Bool) (side : Side) :
    (z.foldIf rotates side).Cut keyAt key := by
  cases rotates with
  | false => exact cut
  | true =>
    intro s x h
    rw [Zipper.foldIf, if_pos rfl, fold, spine_with_focus] at h
    exact cut s x h

theorem Cut.link (cut : z.Cut keyAt key) (ascending : Ascending keyAt z.inOrder)
    (heads : z.Heads keyAt key side) : (z.link side).Cut keyAt key := by
  obtain ⟨top, here, past⟩ := heads
  have focus := Shape.exists_sided here side
  have within := ascending_focus ascending
  rw [focus] at within
  intro s x h
  by_cases same : s = side
  · rw [same, spine_link focus] at h
    rw [same]
    exact cut side x h
  · obtain rfl := Side.eq_other_of_ne same
    rw [spine_link_other focus, Rib.mem_ids_cons] at h
    rcases h with rfl | h | h
    · rwa [Side.other_other]
    · rw [Side.other_other]
      exact Shape.sideOf_inner within past x h
    · exact cut side.other x h

/-- A rotation that the keys ask for leaves the key on the same side of the top. -/
theorem Heads.foldIf (heads : z.Heads keyAt key side) :
    (z.foldIf ((z.focus.on side).root.any fun child => sideOf key (keyAt child) = some side)
      side).Heads keyAt key side := by
  cases ahead : (z.focus.on side).root with
  | none => exact heads
  | some child =>
    rw [Option.any_some]
    by_cases past : sideOf key (keyAt child) = some side
    · obtain ⟨top, here, -⟩ := heads
      refine ⟨child, ?_, past⟩
      rw [Zipper.foldIf, if_pos (by simpa using past), fold, Shape.exists_sided here side,
        Shape.exists_sided ahead side, Shape.rotate_sided, Shape.root_sided]
    · rw [Zipper.foldIf, if_neg (by simpa using past)]
      exact heads

theorem seek_of_heads (heads : z.Heads keyAt key side) :
    z.seek keyAt key = some (side,
      (z.focus.on side).root.any fun child => sideOf key (keyAt child) = some side) := by
  obtain ⟨top, here, past⟩ := heads
  rw [seek, here, Option.bind_some, past, Option.map_some]

/-- One turn keeps what lies behind apart, and where it is the last, the pass has arrived. -/
theorem Cut.turn (cut : z.Cut keyAt key) (ascending : Ascending keyAt z.inOrder)
    (ahead : z.focus ≠ .empty) :
    (z.turn (z.seek keyAt key)).1.Cut keyAt key ∧
      ((z.turn (z.seek keyAt key)).2 = false →
        (z.turn (z.seek keyAt key)).1.Arrived keyAt key) := by
  obtain ⟨top, here⟩ : ∃ top, z.focus.root = some top :=
    Option.ne_none_iff_exists'.mp fun nothing => ahead (Shape.root_eq_none.mp nothing)
  cases heading : sideOf key (keyAt top) with
  | none =>
    have stops : z.seek keyAt key = none := by
      rw [seek, here, Option.bind_some, heading, Option.map_none]
    rw [stops]
    refine ⟨cut, fun _ => ⟨top, here, fun side past => ?_⟩⟩
    rw [heading] at past
    cases past
  | some side =>
    have heads : z.Heads keyAt key side := ⟨top, here, heading⟩
    rw [seek_of_heads heads]
    obtain ⟨rotates, hrotates⟩ : ∃ rotates, rotates =
        (z.focus.on side).root.any fun child => sideOf key (keyAt child) = some side := ⟨_, rfl⟩
    have heads' := heads.foldIf
    rw [← hrotates] at heads' ⊢
    have cut' := cut.foldIf rotates side
    by_cases more : (z.foldIf rotates side).focus.on side = .empty
    · rw [turn_stuck more]
      obtain ⟨top', here', past⟩ := heads'
      refine ⟨cut', fun _ => ⟨top', here', fun s past' => ?_⟩⟩
      rw [past, Option.some.injEq] at past'
      rwa [← past']
    · rw [turn_link more]
      exact ⟨cut'.link (by rwa [inOrder_foldIf]) heads', fun h => by cases h⟩

theorem Cut.descend (cut : z.Cut keyAt key) (ascending : Ascending keyAt z.inOrder)
    (ahead : z.focus ≠ .empty) :
    (z.descend (seek keyAt key)).Cut keyAt key ∧
      (z.descend (seek keyAt key)).Arrived keyAt key := by
  induction z using descend.induct (seek keyAt key) with
  | case1 z goesOn ih =>
    rw [descend_of_goesOn goesOn]
    exact ih (cut.turn ascending ahead).1 (by rwa [inOrder_turn]) (turn_goesOn goesOn).2
  | case2 z stops =>
    rw [descend_of_stops stops]
    obtain ⟨cut', arrived⟩ := cut.turn ascending ahead
    exact ⟨cut', arrived (by simpa using stops)⟩

theorem Cut.close (cut : z.Cut keyAt key) (ascending : Ascending keyAt z.inOrder)
    (arrived : z.Arrived keyAt key) (side : Side) :
    ∀ x ∈ (z.close.on side).inOrder, sideOf key (keyAt x) = some side.other := by
  obtain ⟨top, here, nothing⟩ := arrived
  have within := ascending_focus ascending
  have focus := Shape.exists_sided here .left
  have parts : (z.close.on side) = Rib.close side (z.spine side) (z.focus.on side) := by
    rw [close_eq (show z.focus = .node (z.focus.on .left) top (z.focus.on .right) from focus)]
    cases side <;> rfl
  intro x h
  rw [parts, Rib.mem_inOrder_close] at h
  rcases h with h | h
  · cases heading : sideOf key (keyAt top) with
    | none =>
      rw [Shape.exists_sided here side] at within
      exact Shape.sideOf_outer within (sideOf_eq_none.mp heading) x h
    | some s =>
      by_cases same : s = side
      · rw [← same, nothing s heading] at h
        cases h
      · obtain rfl := Side.eq_other_of_ne same
        rw [Shape.exists_sided here side.other, Side.other_other] at within
        exact Shape.sideOf_inner within heading x h
  · exact cut side x h

end Zipper

namespace Shape
variable {shape : Shape}

/-- After a splay for a key, what is on either side of the root lies on that side of the key. -/
theorem seek_cut (ascending : Ascending keyAt shape.inOrder) (key : Nat) (side : Side) :
    ∀ x ∈ ((shape.seek keyAt key).on side).inOrder, sideOf key (keyAt x) = some side.other := by
  by_cases nonempty : shape = .empty
  · subst nonempty
    rw [seek_empty]
    exact fun x h => by cases h
  · have start : Ascending keyAt ({ focus := shape } : Zipper).inOrder := by
      rwa [Zipper.inOrder_start]
    obtain ⟨cut, arrived⟩ := (Zipper.cut_start shape).descend start nonempty
    exact cut.close (by rwa [Zipper.inOrder_descend]) arrived side

/-- A key that is in the shape comes to its root. -/
theorem root_seek_of_mem (ascending : Ascending keyAt shape.inOrder) {index : Nat}
    (inside : index ∈ shape.inOrder) : (shape.seek keyAt (keyAt index)).root = some index := by
  have nonempty : shape ≠ .empty := by
    rintro rfl
    cases inside
  have cut := seek_cut ascending (keyAt index)
  rw [← inOrder_seek keyAt (keyAt index) nonempty] at inside
  cases parts : shape.seek keyAt (keyAt index) with
  | empty =>
    rw [parts] at inside
    cases inside
  | node left top right =>
    rw [parts] at inside cut
    have elsewhere (side : Side) : index ∉ ((node left top right).on side).inOrder := by
      intro h
      have beside := cut side index h
      rw [sideOf_eq_none.mpr rfl] at beside
      cases beside
    simp only [inOrder, List.mem_append, List.mem_cons] at inside
    rcases inside with h | rfl | h
    · exact absurd h (elsewhere .left)
    · rfl
    · exact absurd h (elsewhere .right)

/-- Splayed for a key beyond all others, a shape has nothing on the right of its root. -/
theorem seek_right_eq_empty (ascending : Ascending keyAt shape.inOrder)
    (below : ∀ x ∈ shape.inOrder, keyAt x < key) (nonempty : shape ≠ .empty) :
    (shape.seek keyAt key).on .right = .empty := by
  have cut := seek_cut ascending key .right
  rw [← root_eq_none, Option.eq_none_iff_forall_ne_some]
  intro x top
  have beyond := cut x (mem_inOrder_of_root top)
  rw [Side.other, sideOf_eq_left] at beyond
  have inside : x ∈ shape.inOrder := by
    rw [← inOrder_seek keyAt key nonempty]
    cases parts : shape.seek keyAt key with
    | empty =>
      rw [parts] at top
      cases top
    | node left id right =>
      rw [parts] at top
      simp only [inOrder, List.mem_append, List.mem_cons]
      exact .inr (.inr (mem_inOrder_of_root top))
  have := below x inside
  omega

end Shape
end PieceIndex
