import Mathlib.Logic.ExistsUnique
import Mathlib.Logic.Relation
import PieceIndex.Proofs.Build.Recursion
import PieceIndex.Proofs.Check.Verdict

/-!
Whatever is built is a forest. The calls of a builder come one after the other, with any links that
the caller hands in. A link that leads out of the arena, to a node that has a parent, or to the same
node twice, ends in a fault; so a join that meets none joins two whole trees that stand apart, and
leaves all other trees alone. Building over a list of pieces is a sequence of joins. What the check
says of such an arena is then a matter of which tree is asked for.
-/
namespace PieceIndex
namespace Arena
variable {arena after : Arena} {shape other : Shape} {id child : NodeId} {side : Side}

namespace Stands

theorem parent_mem {parent : NodeId} (stands : arena.Stands shape) (inside : id ∈ shape.inOrder)
    (named : arena.parentOf id = some parent) :
    parent ∈ shape.inOrder ∧ Leads arena.childOf parent id := by
  rcases Shape.Wired.root_or_leads stands.wired inside with root | ⟨holder, inside, side, link⟩
  · rw [stands.parented.of_root root] at named
    cases named
  · obtain rfl : holder = parent :=
      Option.some.inj ((stands.parented.of_link stands.wired inside link).symm.trans named)
    exact ⟨inside, side, link⟩

/-- Two trees that stand by themselves and share a node are one. -/
theorem eq_of_mem (stands : arena.Stands shape) (stands' : arena.Stands other)
    (inside : id ∈ shape.inOrder) (inside' : id ∈ other.inOrder) : shape = other := by
  obtain ⟨top, root, reached⟩ := stands.parented.climb (q := fun i => i ∈ other.inOrder)
    (fun i p inOther named => (stands'.parent_mem inOther named).1) inside inside'
  have root' := (stands'.parentOf_eq_none reached).mp (stands.parented.of_root root)
  exact Links.unique (links_iff.mpr ⟨stands.inRange, stands.wired⟩)
    (links_iff.mpr ⟨stands'.inRange, stands'.wired⟩) (root.trans root'.symm)

end Stands

/-- Every node of the arena stands in a tree. -/
def Planted (arena : Arena) : Prop :=
  ∀ id < arena.size, ∃ shape, arena.Stands shape ∧ id ∈ shape.inOrder

/-- The arena is a forest: each node stands in one tree, with right links and sizes, and the links
of children and parents tell the same. -/
structure Forest (arena : Arena) : Prop where
  planted : ∀ id < arena.size, ∃! shape, arena.Stands shape ∧ id ∈ shape.inOrder
  roots : ∀ id < arena.size,
    (arena.parentOf id = none ↔ ∃ shape, arena.Stands shape ∧ shape.root = some id)
  linked : ∀ id child, (∃ side, arena.childOf id side = some child) ↔ arena.parentOf child = some id
  once : ∀ child id id' side side', arena.childOf id side = some child →
    arena.childOf id' side' = some child → id = id' ∧ side = side'
  acyclic : ∀ id,
    ¬ Relation.TransGen (fun id child => ∃ side, arena.childOf id side = some child) id id

/-- The tree in which the upper end of a link stands has the lower end below it. -/
theorem Planted.parentOf_of_link (planted : arena.Planted)
    (link : arena.childOf id side = some child) : arena.parentOf child = some id := by
  obtain ⟨shape, stands, inside⟩ := planted id (lt_size_of_childOf link)
  exact stands.parented.of_link stands.wired inside link

theorem Planted.forest (planted : arena.Planted) : arena.Forest where
  planted id inRange := by
    obtain ⟨shape, stands, inside⟩ := planted id inRange
    exact ⟨shape, ⟨stands, inside⟩, fun other h => h.1.eq_of_mem stands h.2 inside⟩
  roots id inRange := by
    constructor
    · intro alone
      obtain ⟨shape, stands, inside⟩ := planted id inRange
      exact ⟨shape, stands, (stands.parentOf_eq_none inside).mp alone⟩
    · rintro ⟨shape, stands, root⟩
      exact stands.parented.of_root root
  linked id child := by
    constructor
    · rintro ⟨side, link⟩
      exact planted.parentOf_of_link link
    · intro parent
      obtain ⟨shape, stands, inside⟩ := planted child (lt_size_of_parentOf parent)
      exact (stands.parent_mem inside parent).2
  once child id id' side side' link link' := by
    obtain rfl : id = id' :=
      Option.some.inj ((planted.parentOf_of_link link).symm.trans (planted.parentOf_of_link link'))
    obtain ⟨shape, stands, inside⟩ := planted id (lt_size_of_childOf link)
    exact ⟨rfl, Shape.Wired.side_eq stands.wired stands.nodup inside link link'⟩
  acyclic id path := by
    obtain ⟨child, ⟨side, link⟩, -⟩ := Relation.TransGen.head'_iff.mp path
    obtain ⟨shape, stands, inside⟩ := planted id (lt_size_of_childOf link)
    exact Shape.Wired.acyclic stands.wired stands.nodup inside path

/-! A join takes two roots. -/

theorem adopt_eq_ok {parent : NodeId} {size : Nat} :
    arena.adopt parent (some child) = .ok (after, size) ↔
      ∃ node, arena[child]? = some node ∧ node.parent = none ∧ node.total = .ok size ∧
        arena.update child (·.withParent (some parent)) = .ok after := by
  simp only [adopt, bind_eq_ok, node_eq_ok]
  constructor
  · rintro ⟨node, found, h⟩
    cases alone : node.parent with
    | some other =>
      rw [alone] at h
      cases h
    | none =>
      rw [alone] at h
      obtain ⟨size, total, h⟩ := bind_eq_ok.mp h
      obtain ⟨after, updated, h⟩ := bind_eq_ok.mp h
      cases h
      exact ⟨node, found, alone, total, updated⟩
  · rintro ⟨node, found, alone, total, updated⟩
    refine ⟨node, found, ?_⟩
    rw [alone]
    exact bind_eq_ok.mpr ⟨size, total, bind_eq_ok.mpr ⟨after, updated, rfl⟩⟩

/-- A link that can be adopted: no link at all, or one to a node without a parent. -/
def Free (arena : Arena) (link : Option NodeId) : Prop :=
  ∀ i, link = some i → ∃ node size, arena[i]? = some node ∧ node.parent = none ∧
    node.total = .ok size

theorem free_of_adopt {parent : NodeId} {link : Option NodeId} {size : Nat}
    (adopted : arena.adopt parent link = .ok (after, size)) :
    arena.Free link ∧ ∀ i, (some i = link → after.parentOf i = some parent) ∧
      (some i ≠ link → after[i]? = arena[i]?) := by
  cases link with
  | none =>
    cases adopted
    exact ⟨nofun, fun i => ⟨nofun, fun _ => rfl⟩⟩
  | some child =>
    obtain ⟨node, found, alone, total, updated⟩ := adopt_eq_ok.mp adopted
    constructor
    · rintro i ⟨⟩
      exact ⟨node, size, found, alone, total⟩
    · refine fun i => ⟨?_, fun ne => update_elsewhere updated (by simpa using ne)⟩
      rintro ⟨⟩
      rw [parentOf_found (update_found updated found), Node.parent_withParent]

/-- The links of a join that meets no fault are free and lead apart. -/
theorem free_of_join {left right : Option NodeId} {piece : Piece}
    (joined : arena.join left piece right = .ok (after, id)) :
    arena.size < NodeId.limit ∧ arena.Free left ∧ arena.Free right ∧
      ∀ i, left = some i → right ≠ some i := by
  obtain ⟨slot, fresh, h⟩ := bind_eq_ok.mp joined
  obtain ⟨⟨first, lsize⟩, adoptedl, h⟩ := bind_eq_ok.mp h
  obtain ⟨⟨second, rsize⟩, adoptedr, -⟩ := bind_eq_ok.mp h
  obtain ⟨freel, becomes⟩ := free_of_adopt adoptedl
  obtain ⟨freer, -⟩ := free_of_adopt adoptedr
  have apart (i : NodeId) (onLeft : left = some i) : right ≠ some i := by
    intro onRight
    obtain ⟨node, size, found, alone, -⟩ := freer i onRight
    have named := (becomes i).1 onLeft.symm
    rw [parentOf_found found, alone] at named
    cases named
  refine ⟨?_, freel, fun i onRight => ?_, apart⟩
  · rw [NodeId.ofSlot] at fresh
    split at fresh
    · assumption
    · cases fresh
  · obtain ⟨node, size, found, rest⟩ := freer i onRight
    rw [(becomes i).2 fun onLeft => apart i onLeft.symm onRight] at found
    exact ⟨node, size, found, rest⟩

theorem Planted.exists_root (planted : arena.Planted) {link : Option NodeId}
    (free : arena.Free link) :
    ∃ shape, arena.Stands shape ∧ shape.root = link ∧
      shape.weight arena.pieceSize < Size.limit := by
  cases link with
  | none => exact ⟨.empty, hangs_empty arena none, rfl, by simp [Size.limit]⟩
  | some i =>
    obtain ⟨node, size, found, alone, total⟩ := free i rfl
    obtain ⟨shape, stands, inside⟩ := planted i (lt_size_of_found found)
    have root := (stands.parentOf_eq_none inside).mp ((parentOf_found found).trans alone)
    refine ⟨shape, stands, root, ?_⟩
    cases shape with
    | empty => cases root
    | node left top right =>
      cases root
      obtain ⟨rfl, fits⟩ := (total_of_measured stands.measured found).mp total
      exact fits

/-- A join that meets no fault keeps every node in a tree. -/
theorem Planted.join (planted : arena.Planted) {left right : Option NodeId} {piece : Piece}
    (joined : arena.join left piece right = .ok (after, id)) : after.Planted := by
  obtain ⟨room, freel, freer, different⟩ := free_of_join joined
  obtain ⟨l, standsl, rfl, fitsl⟩ := planted.exists_root freel
  obtain ⟨r, standsr, rfl, fitsr⟩ := planted.exists_root freer
  have apart (i : NodeId) (insidel : i ∈ l.inOrder) : i ∉ r.inOrder := by
    intro insider
    obtain rfl := standsl.eq_of_mem standsr insidel insider
    obtain ⟨top, root⟩ := Shape.exists_root insidel
    exact different top root root
  obtain ⟨after', joined', stands, gains⟩ := standsl.join standsr apart piece room fitsl fitsr
  obtain ⟨rfl, rfl⟩ : after = after' ∧ id = arena.size := by
    rw [joined] at joined'
    cases joined'
    exact ⟨rfl, rfl⟩
  intro i inRange
  rw [gains.size] at inRange
  by_cases within : i ∈ (Shape.node l arena.size r).inOrder
  · exact ⟨_, stands, within⟩
  · simp only [Shape.inOrder, List.mem_append, List.mem_cons, not_or] at within
    obtain ⟨shape, old, inside⟩ := planted i (by omega)
    -- the trees that are not joined stay as they are
    refine ⟨shape, old.congr fun j h => gains.rest j (old.inRange j h) ?_, inside⟩
    rw [List.mem_append]
    rintro (insidel | insider)
    · exact within.1 (old.eq_of_mem standsl h insidel ▸ inside)
    · exact within.2.2 (old.eq_of_mem standsr h insider ▸ inside)

end Arena

namespace Build

/-- What every join keeps is kept by building over a list of pieces. -/
theorem run_keeps {σ : Type} {p : Arena → Prop} {pick : Pick σ}
    (join : ∀ {arena after : Arena} {left right : Option NodeId} {piece : Piece} {id : NodeId},
      p arena → arena.join left piece right = .ok (after, id) → p after)
    {fuel : Nat} {tasks : List Task} {progress : Progress σ} {arena after : Arena} {picking : σ}
    {root : Option NodeId} (holds : p arena)
    (ran : run pick fuel tasks progress arena = .ok (after, picking, root)) : p after := by
  induction fuel generalizing tasks progress arena with
  | zero =>
    cases tasks with
    | nil =>
      cases ran
      exact holds
    | cons task tasks => cases ran
  | succ fuel ih =>
    cases tasks with
    | nil =>
      cases ran
      exact holds
    | cons task tasks =>
      cases task with
      | range low high =>
        rw [run] at ran
        split at ran
        · obtain ⟨⟨index, picking'⟩, -, ran⟩ := bind_eq_ok.mp ran
          dsimp only at ran
          split at ran
          · exact ih holds ran
          · cases ran
        · exact ih holds ran
      | around index =>
        rw [run] at ran
        dsimp only at ran
        split at ran
        · cases ran
        · cases ran
          exact holds
        · obtain ⟨⟨arena', id⟩, joined, ran⟩ := bind_eq_ok.mp ran
          exact ih (join holds joined) ran

/-- A call of a builder, with whatever links, pieces and picks the caller hands in. -/
inductive Call : Type 1 where
  | leaf (piece : Piece)
  | join (left : Option NodeId) (piece : Piece) (right : Option NodeId)
  | balanced (pieces : List Piece)
  | splitWith {σ : Type} (pieces : List Piece) (pick : Pick σ) (picking : σ)

/-- Makes a call, which returns a link to what it has built. -/
def Call.perform (arena : Arena) : Call → Except Fault (Arena × Option NodeId)
  | .leaf piece => do
    let (arena, id) ← arena.leaf piece
    return (arena, some id)
  | .join left piece right => do
    let (arena, id) ← arena.join left piece right
    return (arena, some id)
  | .balanced pieces => arena.balanced pieces
  | .splitWith pieces pick picking => do
    let (arena, _, root) ← arena.splitWith pieces pick picking
    return (arena, root)

end Build

namespace Arena
variable {arena after : Arena}

/-- Makes calls one after the other. -/
def construct (arena : Arena) : List Build.Call → Except Fault Arena
  | [] => .ok arena
  | call :: calls => do
    let (arena, _) ← call.perform arena
    construct arena calls

/-- A call that meets no fault keeps every node in a tree. -/
theorem Planted.perform (planted : arena.Planted) {call : Build.Call} {root : Option NodeId}
    (performed : call.perform arena = .ok (after, root)) : after.Planted := by
  cases call with
  | leaf piece =>
    obtain ⟨⟨after', id⟩, joined, h⟩ := bind_eq_ok.mp performed
    cases h
    exact planted.join joined
  | join left piece right =>
    obtain ⟨⟨after', id⟩, joined, h⟩ := bind_eq_ok.mp performed
    cases h
    exact planted.join joined
  | balanced pieces =>
    obtain ⟨⟨after', picking, root'⟩, ran, h⟩ := bind_eq_ok.mp performed
    cases h
    exact Build.run_keeps (fun planted joined => planted.join joined) planted ran
  | splitWith pieces pick picking =>
    obtain ⟨⟨after', picking', root'⟩, ran, h⟩ := bind_eq_ok.mp performed
    cases h
    exact Build.run_keeps (fun planted joined => planted.join joined) planted ran

theorem Planted.construct (planted : arena.Planted) {calls : List Build.Call}
    (built : arena.construct calls = .ok after) : after.Planted := by
  induction calls generalizing arena with
  | nil =>
    cases built
    exact planted
  | cons call calls ih =>
    obtain ⟨⟨middle, root⟩, performed, built⟩ := bind_eq_ok.mp built
    exact ih (planted.perform performed) built

/-- What the check may say when the root is any node of a forest: that it is not a root, or that the
tree does not fill the arena, or that a piece is empty. -/
structure CheckedFrom (arena : Arena) (root : NodeId) : Prop where
  sizes : ∀ node side cached actual,
    Tree.check ⟨arena, some root⟩ ≠ .ok (.error (.sizeMismatch node side cached actual))
  parents : ∀ node child side found,
    Tree.check ⟨arena, some root⟩ ≠ .ok (.error (.parentMismatch node child side found))
  shared : ∀ node, Tree.check ⟨arena, some root⟩ ≠ .ok (.error (.shared node))
  joined : ∀ parent side, arena.childOf parent side = some root →
    Tree.check ⟨arena, some root⟩ = .ok (.error (.rootHasParent root parent))
  passes : ∀ total, Tree.length ⟨arena, some root⟩ = .ok total →
    (Tree.check ⟨arena, some root⟩ = .ok (.ok ()) ↔
      (∀ id < arena.size, arena.parentOf id = none ↔ id = root) ∧
        ∀ id < arena.size, 1 ≤ arena.pieceSize id)

theorem check_of_parent {root parent : NodeId} (named : arena.parentOf root = some parent) :
    Tree.check ⟨arena, some root⟩ = .ok (.error (.rootHasParent root parent)) := by
  obtain ⟨node, found⟩ := exists_found (lt_size_of_parentOf named)
  have here : node.parent = some parent := (parentOf_found found).symm.trans named
  simp only [Tree.check, Check.rootVisit, node_eq_ok.mpr found, ok_bind, here, pure_eq_ok]

theorem Stands.fits_of_length {shape : Shape} {root : NodeId} {total : Nat}
    (stands : arena.Stands shape) (top : shape.root = some root)
    (measured : Tree.length ⟨arena, some root⟩ = .ok total) :
    shape.weight arena.pieceSize < Size.limit := by
  obtain ⟨node, found, measured⟩ := bind_eq_ok.mp measured
  cases shape with
  | empty => cases top
  | node left id right =>
    cases top
    obtain ⟨rfl, fits⟩ := (total_of_measured stands.measured (node_eq_ok.mp found)).mp measured
    exact fits

/-- The tree of the only root fills the arena. -/
theorem Planted.full (planted : arena.Planted) {shape : Shape} {root : NodeId}
    (stands : arena.Stands shape) (top : shape.root = some root)
    (only : ∀ id < arena.size, arena.parentOf id = none ↔ id = root) :
    ∀ id < arena.size, id ∈ shape.inOrder := by
  intro id inRange
  obtain ⟨other, stands', inside⟩ := planted id inRange
  obtain ⟨top', root'⟩ := Shape.exists_root inside
  have member := Shape.mem_inOrder_of_root root'
  obtain rfl := (only top' (stands'.inRange top' member)).mp (stands'.parented.of_root root')
  rwa [stands.eq_of_mem stands' (Shape.mem_inOrder_of_root top) member]

/-- All links of a forest stay inside the arena. -/
theorem Planted.inRange (planted : arena.Planted) {root : NodeId} (inRange : root < arena.size) :
    Tree.InRange ⟨arena, some root⟩ := by
  constructor
  · rintro id ⟨⟩
    exact inRange
  · intro id side child link
    obtain ⟨shape, stands, inside⟩ := planted id (lt_size_of_childOf link)
    exact stands.inRange child (stands.wired.child_mem inside link)

/-- The only violations that the check of a forest reports. -/
theorem Planted.check_violation (planted : arena.Planted) {root : NodeId}
    (inRange : root < arena.size) {violation : Violation}
    (ended : Tree.check ⟨arena, some root⟩ = .ok (.error violation)) :
    (∃ parent, violation = .rootHasParent root parent) ∨ (∃ id, violation = .emptyPiece id) ∨
      ∃ id, violation = .unreachable id := by
  cases named : arena.parentOf root with
  | some parent =>
    cases ended.symm.trans (check_of_parent named)
    exact .inl ⟨parent, rfl⟩
  | none =>
    obtain ⟨shape, stands, inside⟩ := planted root inRange
    have top := (stands.parentOf_eq_none inside).mp named
    cases (planted.inRange inRange).verdict with
    | violated found holds ended' =>
      cases ended.symm.trans ended'
      rcases holds.of_stands stands top with ⟨id, -, -, told⟩ | ⟨id, -, -, told⟩
      · exact .inr (.inl ⟨id, told⟩)
      · exact .inr (.inr ⟨id, told⟩)
    | overfull _ ended' => cases ended.symm.trans ended'
    | passes _ ended' => cases ended.symm.trans ended'

/-- A tree whose length can be told passes when it is the only one and none of its pieces is
empty. -/
theorem Planted.check_passes (planted : arena.Planted) {root : NodeId} {total : Nat}
    (inRange : root < arena.size) (measured : Tree.length ⟨arena, some root⟩ = .ok total) :
    Tree.check ⟨arena, some root⟩ = .ok (.ok ()) ↔
      (∀ id < arena.size, arena.parentOf id = none ↔ id = root) ∧
        ∀ id < arena.size, 1 ≤ arena.pieceSize id := by
  cases named : arena.parentOf root with
  | some parent =>
    rw [check_of_parent named]
    refine ⟨nofun, ?_⟩
    rintro ⟨only, -⟩
    rw [(only root inRange).mpr rfl] at named
    cases named
  | none =>
    obtain ⟨shape, stands, inside⟩ := planted root inRange
    have top := (stands.parentOf_eq_none inside).mp named
    cases (planted.inRange inRange).verdict with
    | violated violation holds ended =>
      rw [ended]
      refine ⟨nofun, ?_⟩
      rintro ⟨only, nonempty⟩
      rcases holds.of_stands stands top with ⟨id, member, bare, -⟩ | ⟨id, idInRange, outside, -⟩
      · have holding := nonempty id (stands.inRange id member)
        exact absurd bare (Nat.one_le_iff_ne_zero.mp holding)
      · exact absurd (planted.full stands top only id idInRange) outside
    | overfull large _ =>
      have fits := stands.fits_of_length top measured
      exact absurd fits (Nat.not_lt.mpr (large.le_weight top stands.wired))
    | passes well ended =>
      obtain ⟨whole, well⟩ := well
      rw [ended]
      refine ⟨fun _ => ⟨fun id idInRange => ?_, fun id idInRange => ?_⟩, fun _ => rfl⟩
      · rw [well.stands.parentOf_eq_none (well.full id idInRange), ← well.root_eq,
          Option.some.injEq, eq_comm]
      · exact well.nonempty id (well.full id idInRange)

theorem Planted.checkedFrom (planted : arena.Planted) {root : NodeId}
    (inRange : root < arena.size) : arena.CheckedFrom root := by
  constructor
  · intro node side cached actual ended
    rcases planted.check_violation inRange ended with ⟨_, h⟩ | ⟨_, h⟩ | ⟨_, h⟩ <;> cases h
  · intro node child side found ended
    rcases planted.check_violation inRange ended with ⟨_, h⟩ | ⟨_, h⟩ | ⟨_, h⟩ <;> cases h
  · intro node ended
    rcases planted.check_violation inRange ended with ⟨_, h⟩ | ⟨_, h⟩ | ⟨_, h⟩ <;> cases h
  · intro parent side link
    exact check_of_parent ((planted.forest.linked parent root).mp ⟨side, link⟩)
  · intro total measured
    exact planted.check_passes inRange measured

/-- What was built without a fault is a forest, and the check of it finds fault only with the root
that it is given, the pieces that are empty and the trees that are left over. -/
theorem construct_forest {calls : List Build.Call} (built : construct #[] calls = .ok arena) :
    arena.Forest ∧ ∀ root < arena.size, arena.CheckedFrom root := by
  have bare : Planted #[] := fun id inRange => absurd inRange (Nat.not_lt_zero id)
  have planted := bare.construct built
  exact ⟨planted.forest, fun root inRange => planted.checkedFrom inRange⟩

/-- A vine of three nodes joined with a leaf. -/
def mixedCalls : List Build.Call :=
  [.leaf (.sized 2), .splitWith [.sized 4, .sized 1, .sized 3] (fun _ low _ => .ok (low, ())) (),
    .join (some 3) (.sized 5) (some 0)]

theorem construct_forest_mixed :
    ∃ arena, construct #[] mixedCalls = .ok arena ∧ arena.Forest ∧
      Tree.check ⟨arena, some 4⟩ = .ok (.ok ()) ∧
      Tree.check ⟨arena, some 3⟩ = .ok (.error (.rootHasParent 3 4)) := by
  obtain ⟨arena, built⟩ : ∃ arena, construct #[] mixedCalls = .ok arena := ⟨_, rfl⟩
  obtain ⟨forest, checked⟩ := construct_forest built
  cases built.symm.trans rfl
  refine ⟨_, rfl, forest, ?_, (checked 3 (by decide)).joined 4 .left rfl⟩
  rw [(checked 4 (by decide)).passes 15 rfl]
  decide

end Arena
end PieceIndex
