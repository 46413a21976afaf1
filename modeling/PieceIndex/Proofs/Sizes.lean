import PieceIndex.Proofs.Layout

/-!
Sizes over a shape. The weight of a shape is the sum of the sizes of its nodes, so that it depends
on their order alone; a shape is measured when every node has cached the weights of its two sides.
On a spine only the outer sides are known until the spine is closed.
-/
namespace PieceIndex

/-- The sizes of all items of a list together. -/
def sizeSum {α : Type} (size : α → Nat) : List α → Nat
  | [] => 0
  | item :: items => size item + sizeSum size items

section
variable {α β : Type} {size : α → Nat}

@[simp] theorem sizeSum_nil : sizeSum size [] = 0 := rfl

@[simp] theorem sizeSum_cons (item : α) (items : List α) :
    sizeSum size (item :: items) = size item + sizeSum size items := rfl

@[simp] theorem sizeSum_append (xs ys : List α) :
    sizeSum size (xs ++ ys) = sizeSum size xs + sizeSum size ys := by
  induction xs with
  | nil => simp
  | cons x xs ih =>
    rw [List.cons_append, sizeSum_cons, sizeSum_cons, ih]
    omega

@[simp] theorem sizeSum_reverse (items : List α) :
    sizeSum size items.reverse = sizeSum size items := by
  induction items with
  | nil => rfl
  | cons item items ih =>
    rw [List.reverse_cons, sizeSum_append, ih, sizeSum_cons, sizeSum_cons, sizeSum_nil]
    omega

theorem sizeSum_map (f : β → α) (items : List β) :
    sizeSum size (items.map f) = sizeSum (fun item => size (f item)) items := by
  induction items with
  | nil => rfl
  | cons item items ih => rw [List.map_cons, sizeSum_cons, sizeSum_cons, ih]

theorem sizeSum_congr {size' : α → Nat} {items : List α}
    (same : ∀ item ∈ items, size' item = size item) : sizeSum size' items = sizeSum size items := by
  induction items with
  | nil => rfl
  | cons item items ih =>
    rw [List.forall_mem_cons] at same
    rw [sizeSum_cons, sizeSum_cons, same.1, ih same.2]

/-- Items that are all in another list, each of them once, are together not larger than it. -/
theorem sizeSum_le_of_subset {xs ys : List α} (nodup : xs.Nodup) (sub : ∀ x ∈ xs, x ∈ ys) :
    sizeSum size xs ≤ sizeSum size ys := by
  induction xs generalizing ys with
  | nil => exact Nat.zero_le _
  | cons x xs ih =>
    obtain ⟨once, nodup⟩ := List.nodup_cons.mp nodup
    rw [List.forall_mem_cons] at sub
    obtain ⟨before, after, rfl⟩ := List.append_of_mem sub.1
    have rest : sizeSum size xs ≤ sizeSum size (before ++ after) := ih nodup fun y inside => by
      have member := sub.2 y inside
      have other : y ≠ x := by
        rintro rfl
        exact once inside
      simpa [other] using member
    rw [sizeSum_append] at rest
    rw [sizeSum_cons, sizeSum_append, sizeSum_cons]
    omega

theorem length_le_sizeSum {items : List α} (nonempty : ∀ item ∈ items, 1 ≤ size item) :
    items.length ≤ sizeSum size items := by
  induction items with
  | nil => exact Nat.le_refl 0
  | cons item items ih =>
    rw [List.forall_mem_cons] at nonempty
    have := ih nonempty.2
    rw [List.length_cons, sizeSum_cons]
    omega

theorem sizeSum_le_mul {most : Nat} {items : List α} (bounded : ∀ item ∈ items, size item ≤ most) :
    sizeSum size items ≤ most * items.length := by
  induction items with
  | nil => exact Nat.zero_le _
  | cons item items ih =>
    rw [List.forall_mem_cons] at bounded
    have := ih bounded.2
    rw [List.length_cons, sizeSum_cons, Nat.mul_succ]
    omega

end

variable {size : NodeId → Nat} {cached cached' : NodeId → Side → Nat}

namespace Shape

/-- The sizes of all nodes of the shape together. -/
def weight (size : NodeId → Nat) (shape : Shape) : Nat := sizeSum size shape.inOrder

@[simp] theorem weight_empty : weight size .empty = 0 := rfl

@[simp] theorem weight_node (left right : Shape) (id : NodeId) :
    weight size (.node left id right) = weight size left + size id + weight size right := by
  simp only [weight, inOrder, sizeSum_append, sizeSum_cons]
  omega

theorem weight_sided (side : Side) (outer inner : Shape) (id : NodeId) :
    weight size (sided side outer id inner) = weight size outer + size id + weight size inner := by
  cases side
  · exact weight_node ..
  · rw [sided, weight_node]
    omega

/-- Every node of the shape has cached the weights of its two sides. -/
abbrev Measured (size : NodeId → Nat) (cached : NodeId → Side → Nat) (shape : Shape) : Prop :=
  shape.Tallies (weight size) cached

theorem Measured.congr_size {size' : NodeId → Nat} {shape : Shape}
    (measured : shape.Measured size cached) (same : ∀ i ∈ shape.inOrder, size' i = size i) :
    shape.Measured size' cached := by
  induction shape with
  | empty => trivial
  | node left id right ihl ihr =>
    obtain ⟨hl, hr, ml, mr⟩ := measured
    simp only [inOrder, List.mem_append, List.mem_cons] at same
    have samel (i : NodeId) (h : i ∈ left.inOrder) : size' i = size i := same i (.inl h)
    have samer (i : NodeId) (h : i ∈ right.inOrder) : size' i = size i := same i (.inr (.inr h))
    exact ⟨by rw [hl, weight, weight, sizeSum_congr samel],
      by rw [hr, weight, weight, sizeSum_congr samer], ihl ml samel, ihr mr samer⟩

end Shape

namespace Rib

/-- The cached sizes once those on the inner side of a spine are made good, from the inner end
outwards. -/
def resized (size : NodeId → Nat) (side : Side) :
    List Rib → Shape → (NodeId → Side → Nat) → NodeId → Side → Nat
  | [], _, cached => cached
  | rib :: ribs, inner, cached =>
    resized size side ribs (.sided side rib.outer rib.node inner)
      (rewire cached (some rib.node) side.other (inner.weight size))

theorem resized_of_notMem {side : Side} {ribs : List Rib} {inner : Shape} {i : NodeId}
    (h : i ∉ ids side ribs) : resized size side ribs inner cached i = cached i := by
  induction ribs generalizing inner cached with
  | nil => rfl
  | cons rib ribs ih =>
    simp only [mem_ids_cons, not_or] at h
    rw [resized, ih h.2.2, rewire_of_ne _ _ _ (by simpa using h.1)]

/-- The sizes made good are those on the inner side only. -/
theorem Tallies.resized {side : Side} {inner : Shape} {ribs : List Rib}
    (tallies : Tallies (Shape.weight size) cached side ribs) (nodup : (ids side ribs).Nodup) :
    Tallies (Shape.weight size) (resized size side ribs inner cached) side ribs := by
  induction ribs generalizing inner cached with
  | nil => trivial
  | cons rib ribs ih =>
    have tied := tallies.tie nodup (inner.weight size)
    obtain ⟨-, nodup, notOuter, notRest, outerApart⟩ := (nodup_ids_cons side rib ribs).mp nodup
    obtain ⟨here, outer, rest⟩ := tied
    refine ⟨?_, outer.congr fun i h => resized_of_notMem (outerApart i h), ih rest nodup⟩
    rw [Rib.resized, resized_of_notMem notRest]
    exact here

theorem inward_resized {side : Side} {inner : Shape} {ribs : List Rib}
    (nodup : (ids side ribs).Nodup) :
    Inward (Shape.weight size) (resized size side ribs inner cached) side ribs inner := by
  induction ribs generalizing inner cached with
  | nil => trivial
  | cons rib ribs ih =>
    obtain ⟨-, nodup, -, notRest, -⟩ := (nodup_ids_cons side rib ribs).mp nodup
    refine ⟨?_, ih nodup⟩
    rw [Rib.resized, resized_of_notMem notRest, rewire_self]

/-- A spine whose sizes can be made good from the subtree that closes it. -/
structure Mendable (size : NodeId → Nat) (links : NodeId → Side → Option NodeId)
    (cached : NodeId → Side → Nat) (side : Side) (ribs : List Rib) (inner : Shape) : Prop where
  tallies : Tallies (Shape.weight size) cached side ribs
  chained : Chained links side ribs inner.root
  measured : inner.Measured size cached
  nodup : (ids side ribs).Nodup
  apart : ∀ i ∈ ids side ribs, i ∉ inner.inOrder

/-- With the size at its inner end made good, the last rib closes the rest of the spine. -/
theorem Mendable.step {links : NodeId → Side → Option NodeId} {side : Side} {rib : Rib}
    {ribs : List Rib} {inner : Shape}
    (mendable : Mendable size links cached side (rib :: ribs) inner) :
    Mendable size links (rewire cached (some rib.node) side.other (inner.weight size)) side ribs
      (.sided side rib.outer rib.node inner) := by
  obtain ⟨tallies, chained, measured, nodup, apart⟩ := mendable
  have tied := tallies.tie nodup (inner.weight size)
  obtain ⟨-, nodups, notOuter, notRest, outerApart⟩ := (nodup_ids_cons side rib ribs).mp nodup
  rw [last_cons] at tied
  simp only [mem_ids_cons] at apart
  refine ⟨tied.2.2, ?_, ?_, nodups, ?_⟩
  · rw [Shape.root_sided]
    exact chained.2
  · refine (Shape.tallies_sided ..).mpr ⟨tied.1, rewire_self _ _ _ _, tied.2.1, ?_⟩
    refine measured.congr fun i h => rewire_of_ne _ _ _ ?_
    rw [ne_eq, Option.some.injEq]
    rintro rfl
    exact apart _ (.inl rfl) h
  · intro i h
    rw [Shape.mem_inOrder_sided]
    grind

end Rib

/-- The outer sizes of a splay in progress. -/
abbrev Zipper.Measured (size : NodeId → Nat) (cached : NodeId → Side → Nat) (z : Zipper) : Prop :=
  z.Tallies (Shape.weight size) cached

/-- The cached sizes once the spines are closed with the subtrees of `id` and hung below it. -/
def closeSizes (size : NodeId → Nat) (cached : NodeId → Side → Nat) (z : Zipper) (id : NodeId)
    (left right : Shape) : NodeId → Side → Nat :=
  let cached := Rib.resized size .left z.left left cached
  let cached := Rib.resized size .right z.right right cached
  let cached := rewire cached (some id) .left ((Rib.close .left z.left left).weight size)
  rewire cached (some id) .right ((Rib.close .right z.right right).weight size)

namespace Zipper

/-- With the sizes along both spines made good, all sizes on their inner sides are right. -/
theorem Measured.resized {z : Zipper} (measured : z.Measured size cached) (nodup : z.inOrder.Nodup)
    (left right : Shape) :
    let resized := Rib.resized size .right z.right right (Rib.resized size .left z.left left cached)
    z.Measured size resized ∧ Rib.Inward (Shape.weight size) resized .left z.left left ∧
      Rib.Inward (Shape.weight size) resized .right z.right right := by
  obtain ⟨-, nodups, apart, across⟩ := (nodup_inOrder z).mp nodup
  have acrossl {i : NodeId} (h : i ∈ Rib.ids .left z.left) {table : NodeId → Side → Nat} :
      Rib.resized size .right z.right right table i = table i :=
    Rib.resized_of_notMem (across .left i h)
  refine ⟨⟨measured.focus.congr fun i h => ?_, fun s => ?_⟩,
    (Rib.inward_resized (nodups .left)).congr fun i h => acrossl h,
    Rib.inward_resized (nodups .right)⟩
  · exact (Rib.resized_of_notMem fun h' => apart .right i h' h).trans
      (Rib.resized_of_notMem fun h' => apart .left i h' h)
  · cases s with
    | left => exact ((measured.spine .left).resized (nodups .left)).congr fun i h => acrossl h
    | right =>
      apply Rib.Tallies.resized _ (nodups .right)
      exact (measured.spine .right).congr fun i h => Rib.resized_of_notMem (across .right i h)

/-- The spines whose ends are tied to the subtrees of the focus can be made good, the left one
first, and are then measured. -/
structure Closable (size : NodeId → Nat) (links : NodeId → Side → Option NodeId)
    (cached : NodeId → Side → Nat) (z : Zipper) (left right : Shape) : Prop where
  mendsLeft : Rib.Mendable size links cached .left z.left left
  mendsRight :
    Rib.Mendable size links (Rib.resized size .left z.left left cached) .right z.right right
  closedLeft : (Rib.close .left z.left left).Measured size
    (Rib.resized size .right z.right right (Rib.resized size .left z.left left cached))
  closedRight : (Rib.close .right z.right right).Measured size
    (Rib.resized size .right z.right right (Rib.resized size .left z.left left cached))

theorem Measured.closable {z : Zipper} {links : NodeId → Side → Option NodeId} {left right : Shape}
    {id : NodeId} (measured : z.Measured size cached) (wired : z.Wired links)
    (nodup : z.inOrder.Nodup) (focus : z.focus = .node left id right) :
    Closable size
      (rewire (rewire links (Rib.last z.left) .right left.root) (Rib.last z.right) .left right.root)
      cached z left right := by
  obtain ⟨-, nodups, apart, across⟩ := (Zipper.nodup_inOrder z).mp nodup
  obtain ⟨-, chainedl, chainedr⟩ := wired.tie nodup left.root right.root
  obtain ⟨tallies, inwardl, inwardr⟩ := Measured.resized measured nodup left right
  have here := measured.focus
  have done := tallies.focus
  rw [focus] at here done apart
  simp only [Shape.inOrder, List.mem_append, List.mem_cons] at apart
  have elsewhere {i : NodeId} (h : i ∉ Rib.ids .left z.left) :
      Rib.resized size .left z.left left cached i = cached i :=
    Rib.resized_of_notMem h
  refine ⟨⟨measured.spine .left, chainedl, here.2.2.1, nodups .left, fun i h => ?_⟩,
    ⟨?_, chainedr, ?_, nodups .right, fun i h => ?_⟩,
    (tallies.spine .left).close inwardl done.2.2.1,
    (tallies.spine .right).close inwardr done.2.2.2⟩
  · have := apart .left i h
    grind
  · exact (measured.spine .right).congr fun i h => elsewhere (across .right i h)
  · exact here.2.2.2.congr fun i h => elsewhere fun h' => apart .left i h' (.inr (.inr h))
  · have := apart .right i h
    grind

theorem Measured.close {z : Zipper} (measured : z.Measured size cached) (nodup : z.inOrder.Nodup)
    {left right : Shape} {id : NodeId} (focus : z.focus = .node left id right) :
    z.close.Measured size (closeSizes size cached z id left right) := by
  obtain ⟨tallies, inwardl, inwardr⟩ := Measured.resized measured nodup left right
  exact Tallies.close tallies nodup focus inwardl inwardr

/-- How much lies left of the focus. -/
def passed (size : NodeId → Nat) (z : Zipper) : Nat := sizeSum size (Rib.before z.left)

end Zipper
end PieceIndex
