import PieceIndex.Proofs.Zipper

/-!
The way down to a node. The nodes above it, from the top one on, are as many as it is deep. A way
down forks at each of them: it goes on below, and leaves a subtree on the other side. The forks can
be unwound over what lies below them, and then make up the whole shape again; so that each node
stands below all forks, or at one of them, or hangs from one on the side that was not taken.
-/
namespace PieceIndex

namespace Shape

/-- The nodes above a node, from the top one on. -/
def above (x : NodeId) : Shape → List NodeId
  | .empty => []
  | .node left id right =>
    if x ∈ left.inOrder then id :: above x left
    else if x ∈ right.inOrder then id :: above x right
    else []

/-- The nodes above a node and the node itself, from the top one on. -/
def wayTo (x : NodeId) (shape : Shape) : List NodeId := shape.above x ++ [x]

/-- How deep a node stands; the top one stands at depth 0. -/
def depth (x : NodeId) (shape : Shape) : Nat := (shape.above x).length

section
variable {shape outer inner : Shape} {side : Side} {id x a top : NodeId}

theorem sided_other (side : Side) (outer inner : Shape) (id : NodeId) :
    sided side.other outer id inner = sided side inner id outer := by
  cases side <;> rfl

theorem above_sided (nodup : (sided side outer id inner).inOrder.Nodup)
    (inside : x ∈ outer.inOrder) : (sided side outer id inner).above x = id :: outer.above x := by
  obtain ⟨-, -, -, -, apart⟩ := (nodup_inOrder_sided ..).mp nodup
  cases side with
  | left => simp [sided, above, inside]
  | right => simp [sided, above, inside, apart x inside]

theorem above_sided_other (nodup : (sided side outer id inner).inOrder.Nodup)
    (inside : x ∈ inner.inOrder) : (sided side outer id inner).above x = id :: inner.above x := by
  rw [← sided_other] at nodup ⊢
  exact above_sided nodup inside

theorem above_top (nodup : shape.inOrder.Nodup) (top : shape.root = some id) :
    shape.above id = [] := by
  rw [exists_sided top .left] at nodup ⊢
  obtain ⟨-, -, notLeft, notRight, -⟩ := (nodup_inOrder_sided ..).mp nodup
  simp [sided, above, notLeft, notRight]

theorem depth_sided (nodup : (sided side outer id inner).inOrder.Nodup)
    (inside : x ∈ outer.inOrder) : (sided side outer id inner).depth x = outer.depth x + 1 := by
  rw [depth, above_sided nodup inside, List.length_cons, depth]

theorem depth_sided_other (nodup : (sided side outer id inner).inOrder.Nodup)
    (inside : x ∈ inner.inOrder) : (sided side outer id inner).depth x = inner.depth x + 1 := by
  rw [depth, above_sided_other nodup inside, List.length_cons, depth]

theorem depth_sided_self (nodup : (sided side outer id inner).inOrder.Nodup) :
    (sided side outer id inner).depth id = 0 := by
  rw [depth, above_top nodup (root_sided ..), List.length_nil]

theorem mem_of_mem_above (higher : a ∈ shape.above x) : a ∈ shape.inOrder := by
  induction shape with
  | empty => cases higher
  | node left id right ihl ihr =>
    simp only [above] at higher
    simp only [inOrder, List.mem_append, List.mem_cons]
    split at higher
    · rcases List.mem_cons.mp higher with rfl | higher
      · exact .inr (.inl rfl)
      · exact .inl (ihl higher)
    · split at higher
      · rcases List.mem_cons.mp higher with rfl | higher
        · exact .inr (.inl rfl)
        · exact .inr (.inr (ihr higher))
      · cases higher

theorem nodup_above (nodup : shape.inOrder.Nodup) : (shape.above x).Nodup := by
  induction shape with
  | empty => exact List.nodup_nil
  | node left id right ihl ihr =>
    obtain ⟨nodupl, nodupr, notLeft, notRight, -⟩ :=
      (nodup_inOrder_sided .left left right id).mp nodup
    simp only [above]
    split
    · exact List.nodup_cons.mpr ⟨fun higher => notLeft (mem_of_mem_above higher), ihl nodupl⟩
    · split
      · exact List.nodup_cons.mpr ⟨fun higher => notRight (mem_of_mem_above higher), ihr nodupr⟩
      · exact List.nodup_nil

theorem wayTo_sided (nodup : (sided side outer id inner).inOrder.Nodup)
    (inside : x ∈ outer.inOrder) : (sided side outer id inner).wayTo x = id :: outer.wayTo x :=
  congrArg (· ++ [x]) (above_sided nodup inside)

theorem wayTo_sided_other (nodup : (sided side outer id inner).inOrder.Nodup)
    (inside : x ∈ inner.inOrder) : (sided side outer id inner).wayTo x = id :: inner.wayTo x :=
  congrArg (· ++ [x]) (above_sided_other nodup inside)

theorem wayTo_top (nodup : shape.inOrder.Nodup) (root : shape.root = some top) :
    shape.wayTo top = [top] :=
  congrArg (· ++ [top]) (above_top nodup root)

/-- Every node but the top one stands below it on one of the two sides. -/
theorem exists_on (nodup : shape.inOrder.Nodup) (root : shape.root = some top)
    (inside : x ∈ shape.inOrder) (lower : x ≠ top) :
    ∃ side, x ∈ (shape.on side).inOrder ∧ shape.wayTo x = top :: (shape.on side).wayTo x := by
  have whole := exists_sided root .left
  rw [whole] at nodup inside
  rcases (mem_inOrder_sided ..).mp inside with inside | same | inside
  · refine ⟨.left, inside, ?_⟩
    rw [whole]
    exact wayTo_sided nodup inside
  · exact absurd same lower
  · refine ⟨.right, inside, ?_⟩
    rw [whole]
    exact wayTo_sided_other nodup inside

theorem top_mem_wayTo (nodup : shape.inOrder.Nodup) (inside : x ∈ shape.inOrder)
    (root : shape.root = some top) : top ∈ shape.wayTo x := by
  by_cases same : x = top
  · rw [same]
    exact List.mem_append_right _ List.mem_cons_self
  · obtain ⟨side, -, way⟩ := exists_on nodup root inside same
    rw [way]
    exact List.mem_cons_self

end

end Shape

/-- A node on a way down: where the way goes on below it, and what hangs on the other side. -/
structure Fork extends Rib where
  heading : Side
  deriving DecidableEq, Repr

namespace Fork

/-- The fork over the subtree that the way leads to. -/
def atop (fork : Fork) (next : Shape) : Shape := .sided fork.heading next fork.node fork.outer

/-- The node of the fork with all that hangs on the other side. -/
def own (fork : Fork) : Shape := fork.atop .empty

/-- The shape that a way led down into, from its forks and what it led to. The forks are kept from
the lowest one up. -/
def unwind : List Fork → Shape → Shape
  | [], next => next
  | fork :: forks, next => unwind forks (fork.atop next)

/-- The nodes at the forks, from the top one on. -/
def path (forks : List Fork) : List NodeId := (forks.map (·.node)).reverse

section
variable {fork : Fork} {forks nearer further : List Fork} {next : Shape} {x y a : NodeId}

theorem unwind_append (nearer further : List Fork) (next : Shape) :
    unwind (nearer ++ further) next = unwind further (unwind nearer next) := by
  induction nearer generalizing next with
  | nil => rfl
  | cons fork nearer ih => exact ih (fork.atop next)

@[simp] theorem path_cons (fork : Fork) (forks : List Fork) :
    path (fork :: forks) = path forks ++ [fork.node] := by
  simp [path]

theorem path_append (nearer further : List Fork) :
    path (nearer ++ further) = path further ++ path nearer := by
  simp [path]

theorem mem_path : x ∈ path forks ↔ ∃ fork ∈ forks, fork.node = x := by
  simp [path]

theorem mem_own : x ∈ fork.own.inOrder ↔ x = fork.node ∨ x ∈ fork.outer.inOrder := by
  simp [own, atop, Shape.inOrder]

theorem mem_atop : x ∈ (fork.atop next).inOrder ↔ x ∈ next.inOrder ∨ x ∈ fork.own.inOrder := by
  rw [mem_own]
  simp [atop]

theorem mem_unwind :
    x ∈ (unwind forks next).inOrder ↔
      x ∈ next.inOrder ∨ ∃ fork ∈ forks, x ∈ fork.own.inOrder := by
  induction forks generalizing next with
  | nil => simp [unwind]
  | cons fork forks ih =>
    simp only [unwind, ih, mem_atop, List.mem_cons, exists_eq_or_imp, or_assoc]

/-- What lies below the forks stands between what they leave on the two sides. -/
theorem inOrder_unwind (forks : List Fork) (next : Shape) :
    ∃ before after, (unwind forks next).inOrder = before ++ (next.inOrder ++ after) ∧
      ∀ fork ∈ forks,
        (fork.heading = .right → fork.node ∈ before) ∧
        (fork.heading = .left → fork.node ∈ after) := by
  induction forks generalizing next with
  | nil => exact ⟨[], [], by simp [unwind], by simp⟩
  | cons fork forks ih =>
    obtain ⟨before, after, order, sides⟩ := ih (fork.atop next)
    cases heading : fork.heading with
    | left =>
      refine ⟨before, fork.node :: (fork.outer.inOrder ++ after), ?_, ?_⟩
      · rw [unwind, order]
        simp [atop, heading, Shape.sided, Shape.inOrder]
      · intro other member
        rcases List.mem_cons.mp member with rfl | member
        · simp [heading]
        · exact ⟨(sides other member).1, fun left => by simp [(sides other member).2 left]⟩
    | right =>
      refine ⟨before ++ (fork.outer.inOrder ++ [fork.node]), after, ?_, ?_⟩
      · rw [unwind, order]
        simp [atop, heading, Shape.sided, Shape.inOrder]
      · intro other member
        rcases List.mem_cons.mp member with rfl | member
        · simp [heading]
        · exact ⟨fun right => by simp [(sides other member).1 right], (sides other member).2⟩

theorem inOrder_unwind_congr {next' : Shape} (same : next'.inOrder = next.inOrder) :
    (unwind forks next').inOrder = (unwind forks next).inOrder := by
  induction forks generalizing next next' with
  | nil => exact same
  | cons fork forks ih =>
    apply ih
    rw [atop, atop]
    cases fork.heading <;> simp only [Shape.sided, Shape.inOrder, same]

theorem nodup_next (nodup : (unwind forks next).inOrder.Nodup) : next.inOrder.Nodup := by
  induction forks generalizing next with
  | nil => exact nodup
  | cons fork forks ih => exact ((Shape.nodup_inOrder_sided ..).mp (ih nodup)).1

/-- Below the forks a node has all their nodes above it. -/
theorem above_unwind (nodup : (unwind forks next).inOrder.Nodup) (inside : x ∈ next.inOrder) :
    (unwind forks next).above x = path forks ++ next.above x := by
  induction forks generalizing next with
  | nil => rfl
  | cons fork forks ih =>
    have here : (fork.atop next).inOrder.Nodup := nodup_next nodup
    rw [unwind, ih nodup (mem_atop.mpr (.inl inside)), atop, Shape.above_sided here inside,
      path_cons, List.append_assoc, List.singleton_append]

end
end Fork
end PieceIndex
