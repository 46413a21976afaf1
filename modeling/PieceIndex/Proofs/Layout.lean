import PieceIndex.Proofs.Zipper

/-!
How a shape is written down in tables. A table of two entries for each node tallies with a shape
when the entry of a node on each side is what a given view shows of its subtree there: with the root
as the view these are child links, with the weight they are cached sizes. Parent links are a table
with a single entry for each node.

In a splay the inner end of a spine and the top of the focus are loose: what their entries hold is
not known and not needed. The changes that a pass makes to the tables keep all else in place, as
long as no node stands in two parts of the zipper.
-/
namespace PieceIndex

/-- The table with one entry changed, if there is a node to change it at. -/
def rewire {α : Type} (table : NodeId → Side → α) (id : Option NodeId) (side : Side) (value : α) :
    NodeId → Side → α :=
  fun i s => if some i = id ∧ s = side then value else table i s

/-- The table of parents with one entry changed, if there is a node to change it at. -/
def reparent (table : NodeId → Option NodeId) (id value : Option NodeId) :
    NodeId → Option NodeId :=
  fun i => if some i = id then value else table i

section
variable {α : Type} (table : NodeId → Side → α) (side : Side) (value : α)

theorem rewire_of_ne {i : NodeId} {id : Option NodeId} (h : some i ≠ id) :
    rewire table id side value i = table i := by
  funext s
  simp [rewire, h]

@[simp] theorem rewire_none : rewire table none side value = table := by
  funext i
  exact rewire_of_ne table side value (by simp)

@[simp] theorem rewire_self (i : NodeId) : rewire table (some i) side value i side = value := by
  simp [rewire]

@[simp] theorem rewire_other (i : NodeId) (id : Option NodeId) :
    rewire table id side.other value i side = table i side := by
  simp [rewire, (Side.other_ne side).symm]

end

theorem reparent_of_ne (table : NodeId → Option NodeId) {i : NodeId} {id : Option NodeId}
    (value : Option NodeId) (h : some i ≠ id) : reparent table id value i = table i := by
  simp [reparent, h]

@[simp] theorem reparent_self (table : NodeId → Option NodeId) (i : NodeId)
    (value : Option NodeId) : reparent table (some i) value i = value := by
  simp [reparent]

theorem Shape.ne_root_of_notMem {shape : Shape} {i : NodeId} (h : i ∉ shape.inOrder) :
    some i ≠ shape.root :=
  fun e => h (mem_inOrder_of_root e.symm)

theorem Rib.ne_last_of_notMem {side : Side} {ribs : List Rib} {i : NodeId}
    (h : i ∉ ids side ribs) : some i ≠ last ribs :=
  fun e => h (mem_ids_of_last e.symm)

section
variable {α : Type} {view : Shape → α} {table table' : NodeId → Side → α}

/-- The two entries of each node are what `view` shows of the subtrees on its two sides. -/
def Shape.Tallies (view : Shape → α) (table : NodeId → Side → α) : Shape → Prop
  | .empty => True
  | .node left id right =>
    table id .left = view left ∧ table id .right = view right ∧
      Tallies view table left ∧ Tallies view table right

theorem Shape.tallies_sided (side : Side) (outer inner : Shape) (id : NodeId) :
    (sided side outer id inner).Tallies view table ↔
      table id side = view outer ∧ table id side.other = view inner ∧
        outer.Tallies view table ∧ inner.Tallies view table := by
  cases side
  · rfl
  · constructor
    · rintro ⟨left, right, tl, tr⟩
      exact ⟨right, left, tr, tl⟩
    · rintro ⟨right, left, tr, tl⟩
      exact ⟨left, right, tl, tr⟩

theorem Shape.Tallies.congr {shape : Shape} (tallies : shape.Tallies view table)
    (same : ∀ i ∈ shape.inOrder, table' i = table i) : shape.Tallies view table' := by
  induction shape with
  | empty => trivial
  | node left id right ihl ihr =>
    obtain ⟨hl, hr, tl, tr⟩ := tallies
    simp only [inOrder, List.mem_append, List.mem_cons] at same
    have here := same id (.inr (.inl rfl))
    exact ⟨by rw [here, hl], by rw [here, hr], ihl tl fun i h => same i (.inl h),
      ihr tr fun i h => same i (.inr (.inr h))⟩

/-- Two tables that tally with a shape have the same entries for its nodes. -/
theorem Shape.Tallies.agree {shape : Shape} (tallies : shape.Tallies view table)
    (tallies' : shape.Tallies view table') : ∀ i ∈ shape.inOrder, table' i = table i := by
  induction shape with
  | empty => exact fun _ inside => absurd inside List.not_mem_nil
  | node left id right ihl ihr =>
    obtain ⟨hl, hr, tl, tr⟩ := tallies
    obtain ⟨hl', hr', tl', tr'⟩ := tallies'
    intro i inside
    simp only [inOrder, List.mem_append, List.mem_cons] at inside
    rcases inside with inside | rfl | inside
    · exact ihl tl tl' i inside
    · funext side
      cases side with
      | left => exact hl'.trans hl.symm
      | right => exact hr'.trans hr.symm
    · exact ihr tr tr' i inside

namespace Rib

/-- The entries along a spine on its outer side. -/
def Tallies (view : Shape → α) (table : NodeId → Side → α) (side : Side) : List Rib → Prop
  | [] => True
  | rib :: ribs =>
    table rib.node side = view rib.outer ∧ rib.outer.Tallies view table ∧
      Tallies view table side ribs

/-- The entries along a spine on its inner side, once it is closed with `inner`. -/
def Inward (view : Shape → α) (table : NodeId → Side → α) (side : Side) : List Rib → Shape → Prop
  | [], _ => True
  | rib :: ribs, inner =>
    table rib.node side.other = view inner ∧
      Inward view table side ribs (.sided side rib.outer rib.node inner)

theorem Tallies.congr {side : Side} {ribs : List Rib} (tallies : Tallies view table side ribs)
    (same : ∀ i ∈ ids side ribs, table' i = table i) : Tallies view table' side ribs := by
  induction ribs with
  | nil => trivial
  | cons rib ribs ih =>
    obtain ⟨here, outer, rest⟩ := tallies
    simp only [mem_ids_cons] at same
    exact ⟨by rw [same rib.node (.inl rfl), here],
      outer.congr fun i h => same i (.inr (.inl h)), ih rest fun i h => same i (.inr (.inr h))⟩

theorem Inward.congr {side : Side} {ribs : List Rib} {inner : Shape}
    (inward : Inward view table side ribs inner) (same : ∀ i ∈ ids side ribs, table' i = table i) :
    Inward view table' side ribs inner := by
  induction ribs generalizing inner with
  | nil => trivial
  | cons rib ribs ih =>
    obtain ⟨here, rest⟩ := inward
    simp only [mem_ids_cons] at same
    exact ⟨by rw [same rib.node (.inl rfl), here], ih rest fun i h => same i (.inr (.inr h))⟩

/-- The outer side of a spine does not see a change on the inner side of its last node. -/
theorem Tallies.tie {side : Side} {ribs : List Rib} (tallies : Tallies view table side ribs)
    (nodup : (ids side ribs).Nodup) (value : α) :
    Tallies view (rewire table (last ribs) side.other value) side ribs := by
  cases ribs with
  | nil => trivial
  | cons rib ribs =>
    obtain ⟨here, outer, rest⟩ := tallies
    obtain ⟨-, -, notOuter, notRest, -⟩ := (nodup_ids_cons side rib ribs).mp nodup
    have elsewhere {i : NodeId} (h : i ≠ rib.node) :
        rewire table (last (rib :: ribs)) side.other value i = table i :=
      rewire_of_ne _ _ _ (by simpa using h)
    exact ⟨by rw [rewire_other, here], outer.congr fun i h => elsewhere (by grind),
      rest.congr fun i h => elsewhere (by grind)⟩

theorem Tallies.close {side : Side} {inner : Shape} {ribs : List Rib}
    (tallies : Tallies view table side ribs) (inward : Inward view table side ribs inner)
    (innerTallies : inner.Tallies view table) : (close side ribs inner).Tallies view table := by
  induction ribs generalizing inner with
  | nil => exact innerTallies
  | cons rib ribs ih =>
    obtain ⟨here, outer, rest⟩ := tallies
    obtain ⟨there, inward⟩ := inward
    exact ih rest inward ((Shape.tallies_sided ..).mpr ⟨here, there, outer, innerTallies⟩)

end Rib

/-- The entries that are known in a splay in progress. -/
structure Zipper.Tallies (view : Shape → α) (table : NodeId → Side → α) (z : Zipper) : Prop where
  focus : z.focus.Tallies view table
  spine : ∀ side, Rib.Tallies view table side (z.spine side)

/-- The table once `child` is rotated above `id`: below `id` comes what was between them. -/
def foldTable (table : NodeId → Side → α) (side : Side) (id child : NodeId) (middle lower : α) :
    NodeId → Side → α :=
  rewire (rewire table (some id) side middle) (some child) side.other lower

theorem foldTable_of_ne {side : Side} {id child i : NodeId} {middle lower : α} (hid : i ≠ id)
    (hchild : i ≠ child) : foldTable table side id child middle lower i = table i := by
  rw [foldTable, rewire_of_ne _ _ _ (by simpa using hchild),
    rewire_of_ne _ _ _ (by simpa using hid)]

namespace Zipper

theorem Tallies.fold {z : Zipper} (tallies : z.Tallies view table) (nodup : z.inOrder.Nodup)
    {side : Side} {a b inner : Shape} {child id : NodeId}
    (focus : z.focus = .sided side (.sided side a child b) id inner) :
    (z.fold side).Tallies view
      (foldTable table side id child (view b) (view (.sided side b id inner))) := by
  obtain ⟨whole, -, apart, -⟩ := (nodup_inOrder z).mp nodup
  have here := tallies.focus
  rw [focus] at whole apart here
  simp only [Shape.nodup_inOrder_sided, Shape.mem_inOrder_sided, Shape.tallies_sided]
    at whole apart here
  obtain ⟨-, below, ⟨outward, -, ta, tb⟩, ti⟩ := here
  have different : id ≠ child := by grind
  constructor
  · simp only [Zipper.fold, focus, Shape.rotate_sided, Shape.tallies_sided]
    refine ⟨?_, rewire_self _ _ _ _,
      ta.congr fun i h => foldTable_of_ne (by grind) (by grind), ?_, ?_,
      tb.congr fun i h => foldTable_of_ne (by grind) (by grind),
      ti.congr fun i h => foldTable_of_ne (by grind) (by grind)⟩
    · rw [foldTable, rewire_other, rewire_of_ne _ _ _ (by simpa using different.symm), outward]
    · rw [foldTable, rewire_other, rewire_self]
    · rw [foldTable, rewire_of_ne _ _ _ (by simpa using different), ← below]
      simp [rewire, Side.other_ne]
  · intro s
    have apart := apart s
    rw [Zipper.fold, spine_with_focus]
    exact (tallies.spine s).congr fun i h => foldTable_of_ne (by grind) (by grind)

theorem Tallies.link {z : Zipper} (tallies : z.Tallies view table) {side : Side}
    {next outer : Shape} {id : NodeId} (focus : z.focus = .sided side next id outer) :
    (z.link side).Tallies view table := by
  have here := tallies.focus
  rw [focus, Shape.tallies_sided] at here
  obtain ⟨-, outward, tn, beside⟩ := here
  constructor
  · rw [link_eq focus]
    exact tn
  · intro s
    by_cases same : s = side
    · rw [same, spine_link focus]
      exact tallies.spine side
    · obtain rfl := Side.eq_other_of_ne same
      rw [spine_link_other focus]
      exact ⟨outward, beside, tallies.spine _⟩

/-- The last node of a spine can be given anything on its inner side. -/
theorem Tallies.tie {z : Zipper} (tallies : z.Tallies view table) (nodup : z.inOrder.Nodup)
    (side : Side) (value : α) :
    z.Tallies view (rewire table (Rib.last (z.spine side)) side.other value) := by
  obtain ⟨-, nodups, apart, across⟩ := (nodup_inOrder z).mp nodup
  have elsewhere {i : NodeId} (h : i ∉ Rib.ids side (z.spine side)) :
      rewire table (Rib.last (z.spine side)) side.other value i = table i :=
    rewire_of_ne _ _ _ (Rib.ne_last_of_notMem h)
  constructor
  · exact tallies.focus.congr fun i h => elsewhere fun h' => apart side i h' h
  · intro s
    by_cases same : s = side
    · rw [same]
      exact (tallies.spine side).tie (nodups side) value
    · obtain rfl := Side.eq_other_of_ne same
      exact (tallies.spine side.other).congr fun i h => elsewhere fun h' => across side i h' h

/-- With both spines closed and the two entries of the top node made good, the table tallies with
the outcome of the splay. -/
theorem Tallies.close {z : Zipper} (tallies : z.Tallies view table) (nodup : z.inOrder.Nodup)
    {left right : Shape} {id : NodeId} (focus : z.focus = .node left id right)
    (inwardl : Rib.Inward view table .left z.left left)
    (inwardr : Rib.Inward view table .right z.right right) :
    z.close.Tallies view
      (rewire (rewire table (some id) .left (view (Rib.close .left z.left left))) (some id) .right
        (view (Rib.close .right z.right right))) := by
  rw [← inOrder_close (by simp [focus]), close_eq focus] at nodup
  simp only [Shape.inOrder, List.nodup_append, List.nodup_cons, List.mem_cons] at nodup
  have here := tallies.focus
  rw [focus] at here
  obtain ⟨-, -, tl, tr⟩ := here
  have closedl := (tallies.spine .left).close inwardl tl
  have closedr := (tallies.spine .right).close inwardr tr
  have elsewhere {i : NodeId} (h : i ≠ id) (vl vr : α) :
      rewire (rewire table (some id) .left vl) (some id) .right vr i = table i := by
    rw [rewire_of_ne _ _ _ (by simpa using h), rewire_of_ne _ _ _ (by simpa using h)]
  rw [close_eq focus]
  refine ⟨?_, rewire_self _ _ _ _, closedl.congr fun i h => elsewhere ?_ _ _,
    closedr.congr fun i h => elsewhere ?_ _ _⟩
  · simp [rewire]
  · exact nodup.2.2 i h id (.inl rfl)
  · rintro rfl
    exact nodup.2.1.1 h

end Zipper

end

section
variable {links links' : NodeId → Side → Option NodeId}

/-- The child links lead from node to node as the shape says. -/
abbrev Shape.Wired (links : NodeId → Side → Option NodeId) (shape : Shape) : Prop :=
  shape.Tallies Shape.root links

namespace Rib

/-- The child links along a spine on its inner side: from rib to rib, and at the inner end to
`tip`. -/
def Chained (links : NodeId → Side → Option NodeId) (side : Side) : List Rib → Option NodeId → Prop
  | [], _ => True
  | rib :: ribs, tip => links rib.node side.other = tip ∧ Chained links side ribs (some rib.node)

theorem Chained.congr {side : Side} {tip : Option NodeId} {ribs : List Rib}
    (chained : Chained links side ribs tip) (same : ∀ i ∈ ids side ribs, links' i = links i) :
    Chained links' side ribs tip := by
  induction ribs generalizing tip with
  | nil => trivial
  | cons rib ribs ih =>
    obtain ⟨here, rest⟩ := chained
    simp only [mem_ids_cons] at same
    exact ⟨by rw [same rib.node (.inl rfl), here], ih rest fun i h => same i (.inr (.inr h))⟩

theorem Chained.tie {side : Side} {tip : Option NodeId} {ribs : List Rib}
    (chained : Chained links side ribs tip) (nodup : (ids side ribs).Nodup)
    (new : Option NodeId) : Chained (rewire links (last ribs) side.other new) side ribs new := by
  cases ribs with
  | nil => trivial
  | cons rib ribs =>
    obtain ⟨-, -, -, notRest, -⟩ := (nodup_ids_cons side rib ribs).mp nodup
    refine ⟨rewire_self _ _ _ _, chained.2.congr fun i h => rewire_of_ne _ _ _ ?_⟩
    rw [last_cons, ne_eq, Option.some.injEq]
    rintro rfl
    exact notRest h

theorem Chained.inward {side : Side} {inner : Shape} {ribs : List Rib}
    (chained : Chained links side ribs inner.root) : Inward Shape.root links side ribs inner := by
  induction ribs generalizing inner with
  | nil => trivial
  | cons rib ribs ih =>
    refine ⟨chained.1, ih ?_⟩
    rw [Shape.root_sided]
    exact chained.2

end Rib

/-- The child links of a splay in progress. -/
structure Zipper.Wired (links : NodeId → Side → Option NodeId) (z : Zipper) : Prop
    extends z.Tallies Shape.root links where
  chained : ∀ side, ∃ tip, Rib.Chained links side (z.spine side) tip

/-- The child links once the spines are closed with the subtrees of `id` and hung below it. -/
def closeLinks (links : NodeId → Side → Option NodeId) (z : Zipper) (id : NodeId)
    (left right : Shape) : NodeId → Side → Option NodeId :=
  let links := rewire links (Rib.last z.left) .right left.root
  let links := rewire links (Rib.last z.right) .left right.root
  let links := rewire links (some id) .left (Rib.close .left z.left left).root
  rewire links (some id) .right (Rib.close .right z.right right).root

namespace Zipper

theorem Wired.fold {z : Zipper} (wired : z.Wired links) (nodup : z.inOrder.Nodup)
    {side : Side} {a b inner : Shape} {child id : NodeId}
    (focus : z.focus = .sided side (.sided side a child b) id inner) :
    (z.fold side).Wired (foldTable links side id child b.root (some id)) := by
  have tallies := wired.toTallies.fold nodup focus
  rw [Shape.root_sided] at tallies
  refine ⟨tallies, fun s => ?_⟩
  obtain ⟨-, -, apart, -⟩ := (nodup_inOrder z).mp nodup
  have apart := apart s
  simp only [focus, Shape.mem_inOrder_sided] at apart
  obtain ⟨tip, chained⟩ := wired.chained s
  rw [Zipper.fold, spine_with_focus]
  exact ⟨tip, chained.congr fun i h => foldTable_of_ne (by grind) (by grind)⟩

theorem Wired.link {z : Zipper} (wired : z.Wired links) (nodup : z.inOrder.Nodup)
    {side : Side} {next outer : Shape} {id : NodeId} (focus : z.focus = .sided side next id outer) :
    (z.link side).Wired (rewire links (Rib.last (z.spine side.other)) side (some id)) := by
  have tallies := (wired.toTallies.tie nodup side.other (some id)).link focus
  rw [Side.other_other] at tallies
  refine ⟨tallies, fun s => ?_⟩
  obtain ⟨-, nodups, apart, across⟩ := (nodup_inOrder z).mp nodup
  have here := wired.focus
  simp only [focus, Shape.mem_inOrder_sided, Shape.tallies_sided] at apart here
  have elsewhere {i : NodeId} (h : i ∉ Rib.ids side.other (z.spine side.other)) :
      rewire links (Rib.last (z.spine side.other)) side (some id) i = links i :=
    rewire_of_ne _ _ _ (Rib.ne_last_of_notMem h)
  by_cases same : s = side
  · subst same
    obtain ⟨tip, chained⟩ := wired.chained s
    rw [spine_link focus]
    exact ⟨tip, chained.congr fun i h => elsewhere (across s i h)⟩
  · obtain rfl := Side.eq_other_of_ne same
    obtain ⟨tip, chained⟩ := wired.chained side.other
    have tied := chained.tie (nodups side.other) (some id)
    rw [Side.other_other] at tied
    rw [spine_link_other focus]
    refine ⟨next.root, ?_, tied⟩
    rw [elsewhere (by grind), Side.other_other, here.1]

/-- With both spines tied to the subtrees of the focus, all links on their inner sides are right. -/
theorem Wired.tie {z : Zipper} (wired : z.Wired links) (nodup : z.inOrder.Nodup)
    (left right : Option NodeId) :
    let tied := rewire (rewire links (Rib.last z.left) .right left) (Rib.last z.right) .left right
    z.Tallies Shape.root tied ∧ Rib.Chained tied .left z.left left ∧
      Rib.Chained tied .right z.right right := by
  obtain ⟨-, nodups, -, across⟩ := (nodup_inOrder z).mp nodup
  obtain ⟨tipl, chainedl⟩ := wired.chained .left
  obtain ⟨tipr, chainedr⟩ := wired.chained .right
  refine ⟨(wired.toTallies.tie nodup .left left).tie nodup .right right, ?_, ?_⟩
  · exact (chainedl.tie (nodups .left) left).congr fun i h =>
      rewire_of_ne _ _ _ (Rib.ne_last_of_notMem (across .left i h))
  · refine Rib.Chained.tie (?_ : Rib.Chained _ .right z.right tipr) (nodups .right) _
    exact chainedr.congr fun i h => rewire_of_ne _ _ _ (Rib.ne_last_of_notMem (across .right i h))

theorem Wired.close {z : Zipper} (wired : z.Wired links) (nodup : z.inOrder.Nodup)
    {left right : Shape} {id : NodeId} (focus : z.focus = .node left id right) :
    z.close.Wired (closeLinks links z id left right) := by
  obtain ⟨tallies, chainedl, chainedr⟩ := wired.tie nodup left.root right.root
  exact tallies.close nodup focus chainedl.inward chainedr.inward

end Zipper

end

section
variable {parent parent' : NodeId → Option NodeId}

/-- Every node of the shape names its parent, and the top one names `above`. -/
def Shape.Parented (parent : NodeId → Option NodeId) (above : Option NodeId) : Shape → Prop
  | .empty => True
  | .node left id right =>
    parent id = above ∧ Parented parent (some id) left ∧ Parented parent (some id) right

theorem Shape.parented_sided (side : Side) (outer inner : Shape) (id : NodeId)
    (above : Option NodeId) :
    (sided side outer id inner).Parented parent above ↔
      parent id = above ∧ outer.Parented parent (some id) ∧ inner.Parented parent (some id) := by
  cases side
  · rfl
  · exact and_congr_right fun _ => and_comm

theorem Shape.Parented.congr {shape : Shape} {above : Option NodeId}
    (parented : shape.Parented parent above) (same : ∀ i ∈ shape.inOrder, parent' i = parent i) :
    shape.Parented parent' above := by
  induction shape generalizing above with
  | empty => trivial
  | node left id right ihl ihr =>
    obtain ⟨here, pl, pr⟩ := parented
    simp only [inOrder, List.mem_append, List.mem_cons] at same
    exact ⟨by rw [same id (.inr (.inl rfl)), here], ihl pl fun i h => same i (.inl h),
      ihr pr fun i h => same i (.inr (.inr h))⟩

/-- Two tables of parents that a shape has at the same place agree on its nodes. -/
theorem Shape.Parented.agree {shape : Shape} {above : Option NodeId}
    (parented : shape.Parented parent above) (parented' : shape.Parented parent' above) :
    ∀ i ∈ shape.inOrder, parent' i = parent i := by
  induction shape generalizing above with
  | empty => exact fun _ inside => absurd inside List.not_mem_nil
  | node left id right ihl ihr =>
    obtain ⟨here, pl, pr⟩ := parented
    obtain ⟨here', pl', pr'⟩ := parented'
    intro i inside
    simp only [inOrder, List.mem_append, List.mem_cons] at inside
    rcases inside with inside | rfl | inside
    · exact ihl pl pl' i inside
    · exact here'.trans here.symm
    · exact ihr pr pr' i inside

/-- Only its top node knows what a shape hangs from. -/
theorem Shape.Parented.rehang {shape : Shape} {above : Option NodeId}
    (parented : shape.Parented parent above) (nodup : shape.inOrder.Nodup) {new : Option NodeId}
    (top : ∀ i, shape.root = some i → parent' i = new)
    (same : ∀ i ∈ shape.inOrder, some i ≠ shape.root → parent' i = parent i) :
    shape.Parented parent' new := by
  cases shape with
  | empty => trivial
  | node left id right =>
    obtain ⟨-, pl, pr⟩ := parented
    simp only [inOrder, List.nodup_append, List.nodup_cons, List.mem_append, List.mem_cons, root]
      at nodup same
    refine ⟨top id rfl, pl.congr fun i h => same i (.inl h) ?_,
      pr.congr fun i h => same i (.inr (.inr h)) ?_⟩
    · simpa using nodup.2.2 i h id (.inl rfl)
    · rintro e
      cases e
      exact nodup.2.1.1 h

namespace Rib

/-- Every node of a spine names the next one outwards, the outermost one `above`, and is named by
the subtree on its outer side. -/
def Parented (parent : NodeId → Option NodeId) (above : Option NodeId) : List Rib → Prop
  | [] => True
  | rib :: ribs =>
    parent rib.node = (last ribs).or above ∧ rib.outer.Parented parent (some rib.node) ∧
      Parented parent above ribs

theorem Parented.congr (side : Side) {above : Option NodeId} {ribs : List Rib}
    (parented : Parented parent above ribs) (same : ∀ i ∈ ids side ribs, parent' i = parent i) :
    Parented parent' above ribs := by
  induction ribs with
  | nil => trivial
  | cons rib ribs ih =>
    obtain ⟨here, outer, rest⟩ := parented
    simp only [mem_ids_cons] at same
    exact ⟨by rw [same rib.node (.inl rfl), here],
      outer.congr fun i h => same i (.inr (.inl h)), ih rest fun i h => same i (.inr (.inr h))⟩

theorem Parented.close {side : Side} {above : Option NodeId} {inner : Shape} {ribs : List Rib}
    (spine : Parented parent above ribs) (parented : inner.Parented parent ((last ribs).or above)) :
    (close side ribs inner).Parented parent above := by
  induction ribs generalizing inner with
  | nil => exact parented
  | cons rib ribs ih =>
    obtain ⟨here, outer, rest⟩ := spine
    exact ih rest ((Shape.parented_sided ..).mpr ⟨here, outer, parented⟩)

end Rib

/-- The parent links of a splay in progress. -/
structure Zipper.Parented (parent : NodeId → Option NodeId) (z : Zipper) : Prop where
  focus : ∃ above, z.focus.Parented parent above
  spine : ∀ side, Rib.Parented parent none (z.spine side)

/-- The parent links once `child` is rotated above `id`, with `middle` between them. -/
def foldParents (parent : NodeId → Option NodeId) (id child : NodeId) (middle : Option NodeId) :
    NodeId → Option NodeId :=
  reparent (reparent (reparent parent (some id) (some child)) middle (some id)) (some child) none

/-- The parent links once the spines are closed with the subtrees of `id` and hung below it. -/
def closeParents (parent : NodeId → Option NodeId) (z : Zipper) (id : NodeId)
    (left right : Shape) : NodeId → Option NodeId :=
  let parent := reparent parent left.root (Rib.last z.left)
  let parent := reparent parent right.root (Rib.last z.right)
  let parent := reparent parent (some id) none
  let parent := reparent parent (Rib.close .left z.left left).root (some id)
  reparent parent (Rib.close .right z.right right).root (some id)

namespace Zipper

theorem Parented.fold {z : Zipper} (parented : z.Parented parent) (nodup : z.inOrder.Nodup)
    {side : Side} {a b inner : Shape} {child id : NodeId}
    (focus : z.focus = .sided side (.sided side a child b) id inner) :
    (z.fold side).Parented (foldParents parent id child b.root) := by
  obtain ⟨whole, -, apart, -⟩ := (nodup_inOrder z).mp nodup
  obtain ⟨above, here⟩ := parented.focus
  rw [focus] at whole apart here
  simp only [Shape.nodup_inOrder_sided, Shape.mem_inOrder_sided, Shape.parented_sided]
    at whole apart here
  obtain ⟨-, ⟨-, pa, pb⟩, pi⟩ := here
  have elsewhere {i : NodeId} (hid : i ≠ id) (hchild : i ≠ child) (hb : i ∉ b.inOrder) :
      foldParents parent id child b.root i = parent i := by
    rw [foldParents, reparent_of_ne _ _ (by simpa using hchild),
      reparent_of_ne _ _ (Shape.ne_root_of_notMem hb), reparent_of_ne _ _ (by simpa using hid)]
  have different : id ≠ child := by grind
  constructor
  · refine ⟨none, ?_⟩
    simp only [Zipper.fold, focus, Shape.rotate_sided, Shape.parented_sided]
    refine ⟨reparent_self _ _ _, pa.congr fun i h => elsewhere (by grind) (by grind) (by grind), ?_,
      pb.rehang (by grind) (fun i top => ?_) fun i h lower => ?_,
      pi.congr fun i h => elsewhere (by grind) (by grind) (by grind)⟩
    · have notMiddle : some id ≠ b.root := Shape.ne_root_of_notMem (by grind)
      simp [foldParents, reparent, different, notMiddle]
    · have lower : i ≠ child := by
        have := Shape.mem_inOrder_of_root top
        grind
      simp [foldParents, reparent, lower, top]
    · rw [foldParents, reparent_of_ne _ _ (by simp only [ne_eq, Option.some.injEq]; grind),
        reparent_of_ne _ _ lower,
        reparent_of_ne _ _ (by simp only [ne_eq, Option.some.injEq]; grind)]
  · intro s
    have apart := apart s
    rw [Zipper.fold, spine_with_focus]
    exact (parented.spine s).congr s fun i h => elsewhere (by grind) (by grind) (by grind)

theorem Parented.link {z : Zipper} (parented : z.Parented parent) (nodup : z.inOrder.Nodup)
    {side : Side} {next outer : Shape} {id : NodeId} (focus : z.focus = .sided side next id outer) :
    (z.link side).Parented (reparent parent (some id) (Rib.last (z.spine side.other))) := by
  obtain ⟨whole, -, apart, -⟩ := (nodup_inOrder z).mp nodup
  obtain ⟨above, here⟩ := parented.focus
  rw [focus] at whole apart here
  simp only [Shape.nodup_inOrder_sided, Shape.mem_inOrder_sided, Shape.parented_sided]
    at whole apart here
  obtain ⟨-, pn, po⟩ := here
  have elsewhere {i : NodeId} (h : i ≠ id) :
      reparent parent (some id) (Rib.last (z.spine side.other)) i = parent i :=
    reparent_of_ne _ _ (by simpa using h)
  have spines (s : Side) : Rib.Parented
      (reparent parent (some id) (Rib.last (z.spine side.other))) none (z.spine s) := by
    have apart := apart s
    exact (parented.spine s).congr s fun i h => elsewhere (by grind)
  constructor
  · rw [link_eq focus]
    exact ⟨some id, pn.congr fun i h => elsewhere (by grind)⟩
  · intro s
    by_cases same : s = side
    · rw [same, spine_link focus]
      exact spines side
    · obtain rfl := Side.eq_other_of_ne same
      rw [spine_link_other focus]
      refine ⟨?_, po.congr fun i h => elsewhere (by grind), spines _⟩
      rw [reparent_self, Option.or_none]

theorem Parented.close {z : Zipper} (parented : z.Parented parent) (nodup : z.inOrder.Nodup)
    {left right : Shape} {id : NodeId} (focus : z.focus = .node left id right) :
    z.close.Parented (closeParents parent z id left right) none := by
  obtain ⟨whole, -, apart, across⟩ := (nodup_inOrder z).mp nodup
  obtain ⟨above, here⟩ := parented.focus
  rw [← inOrder_close (by simp [focus]), close_eq focus] at nodup
  rw [focus] at whole apart here
  obtain ⟨-, pl, pr⟩ := here
  simp only [Shape.inOrder, List.nodup_append, List.nodup_cons, List.mem_append, List.mem_cons]
    at whole apart nodup
  have apartl (x : NodeId) (h : x ∈ Rib.before z.left) := apart .left x h
  have apartr (x : NodeId) (h : x ∈ Rib.after z.right) := apart .right x h
  have neRoot {shape : Shape} {i : NodeId} (h : i ∉ shape.inOrder) := Shape.ne_root_of_notMem h
  let tied := reparent (reparent parent left.root (Rib.last z.left)) right.root (Rib.last z.right)
  have inner {i : NodeId} (hl : i ∉ left.inOrder) (hr : i ∉ right.inOrder) : tied i = parent i := by
    dsimp only [tied]
    rw [reparent_of_ne _ _ (neRoot hr), reparent_of_ne _ _ (neRoot hl)]
  have closedl : (Rib.close .left z.left left).Parented tied none := by
    apply Rib.Parented.close
    · exact (parented.spine .left).congr .left fun i h => inner (by grind) (by grind)
    · rw [Option.or_none]
      apply pl.rehang whole.1
      · intro i top
        have apart : i ∉ right.inOrder := by
          have := Shape.mem_inOrder_of_root top
          grind
        dsimp only [tied]
        rw [reparent_of_ne _ _ (neRoot apart), top, reparent_self]
      · intro i h lower
        dsimp only [tied]
        rw [reparent_of_ne _ _ (neRoot (by grind)), reparent_of_ne _ _ lower]
  have closedr : (Rib.close .right z.right right).Parented tied none := by
    apply Rib.Parented.close
    · exact (parented.spine .right).congr .right fun i h => inner (by grind) (by grind)
    · rw [Option.or_none]
      apply pr.rehang whole.2.1.2
      · intro i top
        dsimp only [tied]
        rw [top, reparent_self]
      · intro i h lower
        dsimp only [tied]
        rw [reparent_of_ne _ _ lower, reparent_of_ne _ _ (neRoot (by grind))]
  rw [close_eq focus]
  refine ⟨?_, closedl.rehang nodup.1 (fun i top => ?_) fun i h lower => ?_,
    closedr.rehang nodup.2.1.2 (fun i top => ?_) fun i h lower => ?_⟩
  · rw [closeParents, reparent_of_ne _ _ (neRoot nodup.2.1.1), reparent_of_ne _ _ (neRoot ?_),
      reparent_self]
    exact fun h => nodup.2.2 id h id (.inl rfl) rfl
  · have apart : i ∉ (Rib.close .right z.right right).inOrder := by
      have := Shape.mem_inOrder_of_root top
      grind
    rw [closeParents, reparent_of_ne _ _ (neRoot apart), top, reparent_self]
  · rw [closeParents, reparent_of_ne _ _ (neRoot (by grind)), reparent_of_ne _ _ lower,
      reparent_of_ne _ _ (by simp only [ne_eq, Option.some.injEq]; grind)]
  · rw [closeParents, top, reparent_self]
  · rw [closeParents, reparent_of_ne _ _ lower, reparent_of_ne _ _ (neRoot (by grind)),
      reparent_of_ne _ _ (by simp only [ne_eq, Option.some.injEq]; grind)]

end Zipper

end

section
variable {links : NodeId → Side → Option NodeId} {parent : NodeId → Option NodeId}
  {above : Option NodeId} {shape : Shape} {i j child p : NodeId} {side : Side}

/-- The second node is a child of the first. -/
def Leads (links : NodeId → Side → Option NodeId) (i j : NodeId) : Prop :=
  ∃ side, links i side = some j

namespace Shape

/-- Every link of a shape leads to one of its nodes. -/
theorem Wired.child_mem (wired : shape.Wired links) (inside : i ∈ shape.inOrder)
    (link : links i side = some child) : child ∈ shape.inOrder := by
  induction shape with
  | empty => cases inside
  | node left top right ihl ihr =>
    obtain ⟨hl, hr, wiredl, wiredr⟩ := wired
    simp only [inOrder, List.mem_append, List.mem_cons] at inside ⊢
    rcases inside with inside | rfl | inside
    · exact .inl (ihl wiredl inside)
    · cases side with
      | left => exact .inl (mem_inOrder_of_root (hl.symm.trans link))
      | right => exact .inr (.inr (mem_inOrder_of_root (hr.symm.trans link)))
    · exact .inr (.inr (ihr wiredr inside))

/-- No way down from a node leads back to it. -/
theorem Wired.acyclic (wired : shape.Wired links) (nodup : shape.inOrder.Nodup)
    (inside : i ∈ shape.inOrder) : ¬ Relation.TransGen (Leads links) i i := by
  intro path
  induction shape with
  | empty => cases inside
  | node left top right ihl ihr =>
    obtain ⟨hl, hr, wiredl, wiredr⟩ := wired
    obtain ⟨nodupl, nodupr, topl, topr, -⟩ := (nodup_inOrder_sided .left left right top).mp nodup
    simp only [inOrder, List.mem_append, List.mem_cons] at inside
    rcases inside with inside | rfl | inside
    · exact ihl wiredl nodupl inside
    · -- every way down from the top leads into one of its two sides
      have below {j : NodeId} (path : Relation.TransGen (Leads links) i j) :
          j ∈ left.inOrder ∨ j ∈ right.inOrder := by
        induction path with
        | single link =>
          obtain ⟨side, link⟩ := link
          cases side with
          | left => exact .inl (mem_inOrder_of_root (hl.symm.trans link))
          | right => exact .inr (mem_inOrder_of_root (hr.symm.trans link))
        | tail _ link ih =>
          obtain ⟨side, link⟩ := link
          exact ih.imp (Wired.child_mem wiredl · link) (Wired.child_mem wiredr · link)
      exact (below path).elim topl topr
    · exact ihr wiredr nodupr inside

/-- Nothing hangs on both sides of a node. -/
theorem Wired.side_eq (wired : shape.Wired links) (nodup : shape.inOrder.Nodup)
    (inside : i ∈ shape.inOrder) {side' : Side} (link : links i side = some child)
    (link' : links i side' = some child) : side = side' := by
  induction shape with
  | empty => cases inside
  | node left top right ihl ihr =>
    obtain ⟨hl, hr, wiredl, wiredr⟩ := wired
    obtain ⟨nodupl, nodupr, -, -, apart⟩ := (nodup_inOrder_sided .left left right top).mp nodup
    simp only [inOrder, List.mem_append, List.mem_cons] at inside
    rcases inside with inside | rfl | inside
    · exact ihl wiredl nodupl inside
    · have both (onLeft : links i .left = some child)
          (onRight : links i .right = some child) : False :=
        apart child (mem_inOrder_of_root (hl.symm.trans onLeft))
          (mem_inOrder_of_root (hr.symm.trans onRight))
      cases side <;> cases side'
      · rfl
      · exact (both link link').elim
      · exact (both link' link).elim
      · rfl
    · exact ihr wiredr nodupr inside

theorem Parented.of_root (parented : shape.Parented parent above) (root : shape.root = some i) :
    parent i = above := by
  cases shape with
  | empty => cases root
  | node left top right =>
    cases root
    exact parented.1

/-- Every child of a node names it. -/
theorem Parented.of_link (parented : shape.Parented parent above) (wired : shape.Wired links)
    (inside : i ∈ shape.inOrder) (link : links i side = some child) : parent child = some i := by
  induction shape generalizing above with
  | empty => cases inside
  | node left top right ihl ihr =>
    obtain ⟨hl, hr, wiredl, wiredr⟩ := wired
    obtain ⟨-, pl, pr⟩ := parented
    simp only [inOrder, List.mem_append, List.mem_cons] at inside
    rcases inside with inside | rfl | inside
    · exact ihl pl wiredl inside
    · cases side with
      | left => exact pl.of_root (hl.symm.trans link)
      | right => exact pr.of_root (hr.symm.trans link)
    · exact ihr pr wiredr inside

/-- Every node but the top one hangs from another. -/
theorem Wired.root_or_leads (wired : shape.Wired links) (inside : i ∈ shape.inOrder) :
    shape.root = some i ∨ ∃ j ∈ shape.inOrder, Leads links j i := by
  induction shape with
  | empty => cases inside
  | node left top right ihl ihr =>
    obtain ⟨hl, hr, wiredl, wiredr⟩ := wired
    simp only [inOrder, List.mem_append, List.mem_cons] at inside ⊢
    rcases inside with inside | rfl | inside
    · rcases ihl wiredl inside with root | ⟨j, inside, leads⟩
      · exact .inr ⟨top, .inr (.inl rfl), .left, hl.trans root⟩
      · exact .inr ⟨j, .inl inside, leads⟩
    · exact .inl rfl
    · rcases ihr wiredr inside with root | ⟨j, inside, leads⟩
      · exact .inr ⟨top, .inr (.inl rfl), .right, hr.trans root⟩
      · exact .inr ⟨j, .inr (.inr inside), leads⟩

/-- Every node is the root of a shape inside. What a table holds for the whole, it holds there. -/
theorem exists_below {shape : Shape} {id : NodeId} (inside : id ∈ shape.inOrder) :
    ∃ below : Shape, below.root = some id ∧ below.inOrder.Sublist shape.inOrder ∧
      ∀ {α : Type} {view : Shape → α} {table : NodeId → Side → α},
        shape.Tallies view table → below.Tallies view table := by
  induction shape with
  | empty => cases inside
  | node left top right ihl ihr =>
    simp only [inOrder, List.mem_append, List.mem_cons] at inside
    rcases inside with inside | rfl | inside
    · obtain ⟨below, root, sub, tallies⟩ := ihl inside
      exact ⟨below, root, sub.trans (List.sublist_append_left ..), fun h => tallies h.2.2.1⟩
    · exact ⟨_, rfl, .refl _, fun h => h⟩
    · obtain ⟨below, root, sub, tallies⟩ := ihr inside
      refine ⟨below, root, ?_, fun h => tallies h.2.2.2⟩
      exact (sub.trans (List.sublist_cons_self ..)).trans (List.sublist_append_right ..)

/-- From every node the parents lead up to the top one. -/
theorem Parented.climb {q : NodeId → Prop} (parented : shape.Parented parent above)
    (closed : ∀ i p, q i → parent i = some p → q p) (inside : i ∈ shape.inOrder) (start : q i) :
    ∃ top, shape.root = some top ∧ q top := by
  induction shape generalizing above with
  | empty => cases inside
  | node left top right ihl ihr =>
    obtain ⟨-, pl, pr⟩ := parented
    simp only [inOrder, List.mem_append, List.mem_cons] at inside
    rcases inside with inside | rfl | inside
    · obtain ⟨below, root, reached⟩ := ihl pl inside
      exact ⟨top, rfl, closed below top reached (pl.of_root root)⟩
    · exact ⟨i, rfl, start⟩
    · obtain ⟨below, root, reached⟩ := ihr pr inside
      exact ⟨top, rfl, closed below top reached (pr.of_root root)⟩

end Shape

end

end PieceIndex
