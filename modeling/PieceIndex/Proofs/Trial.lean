import PieceIndex.Proofs.Dot
import PieceIndex.Proofs.Splay.Depth
import PieceIndex.Trial

/-!
A trial never fails. It goes turn by turn, and a turn is a draw, a splay and a check. Whatever the
dice give, as long as it lies in the range asked for, the tree that is drawn holds a document, every
offset lies within it, and a splay moves only the cursor; so that the next turn begins as the last
one did. The depths add up to less than the splays times the pieces, as no pass is as deep as there
are nodes.
-/
namespace PieceIndex
namespace Tree
variable {tree : Tree} {doc : Document}

theorem Depicts.check (depicts : tree.Depicts doc) : tree.check = .ok (.ok ()) := by
  obtain ⟨shape, well, -⟩ := depicts
  exact well.check

/-- A splay within the document moves the cursor, and its depth is less than the number of items. -/
theorem Depicts.splayTraced (depicts : tree.Depicts doc) {offset : Nat}
    (within : offset ≤ doc.total) :
    ∃ after root steps, tree.splayTraced offset = .ok (after, root, steps) ∧
      after.Depicts (doc.apply (.splay offset)) ∧ Trial.depthOf steps ≤ doc.items.length := by
  obtain ⟨after, splayed, depicts', -⟩ :=
    depicts.perform (show doc.Allows (.splay offset) from within)
  obtain ⟨steps, traced⟩ := splay_eq_ok.mp splayed
  refine ⟨after, _, steps, traced, depicts', ?_⟩
  obtain ⟨shape, well, rfl⟩ := depicts
  rw [Arena.document, List.length_map, Shape.length_inOrder]
  rcases splayTraced_depth well.toHasShape ⟨none, well.parents⟩ traced with
    ⟨-, rfl⟩ | ⟨id, depth, -, last, deep⟩
  · exact Nat.zero_le _
  · rw [Trial.depthOf, last]
    exact Nat.le_of_lt deep

end Tree

namespace Trial
variable {σ : Type} {dice : Dice σ}

/-- One turn of a trial: an offset is drawn and noted, the tree is splayed to it, the depths told on
the way are added, and the tree that the splay has left is checked. -/
structure Turn (dice : Dice σ) (total : Nat) (before : Progress σ) (offset : Nat)
    (after : Progress σ) (verdict : Except Violation Unit) : Prop where
  drawn : drawOffset dice total before.offsets.head? before.state = .ok (offset, after.state)
  noted : after.offsets = offset :: before.offsets
  splayed : ∃ root steps, before.tree.splayTraced offset = .ok (after.tree, root, steps) ∧
    after.depths = before.depths + sizeSum Step.depth steps
  fits : after.depths < Size.limit
  checked : after.tree.check = .ok verdict

/-- At most `count` turns one after the other. They end with the first check that finds a violation,
or else when all have been made. -/
inductive Run (dice : Dice σ) (total : Nat) :
    Nat → Progress σ → Progress σ → Except Violation Unit → Prop
  | rests (progress : Progress σ) : Run dice total 0 progress progress (.ok ())
  | goesOn {count offset : Nat} {before middle after : Progress σ} {verdict : Except Violation Unit}
      (turn : Turn dice total before offset middle (.ok ()))
      (rest : Run dice total count middle after verdict) :
      Run dice total (count + 1) before after verdict
  | stops {count offset : Nat} {before after : Progress σ} {violation : Violation}
      (turn : Turn dice total before offset after (.error violation)) :
      Run dice total (count + 1) before after (.error violation)

theorem depthOf_eq_sum {tree after : Tree} {offset : Nat} {root : Option NodeId} {steps : List Step}
    (splayed : tree.splayTraced offset = .ok (after, root, steps)) :
    depthOf steps = sizeSum Step.depth steps := by
  rcases Tree.splayTraced_tells splayed with rfl | ⟨id, depth, last, sum⟩
  · rfl
  · rw [depthOf, last, sum]

section
variable {total count : Nat} {before after : Progress σ} {verdict : Except Violation Unit}

theorem splayOnce_eq_ok :
    splayOnce dice total before = .ok (after, verdict) ↔
      ∃ offset, Turn dice total before offset after verdict := by
  obtain ⟨state, tree, offsets, depths⟩ := before
  simp only [splayOnce, bind_eq_ok, Size.add_eq_ok]
  constructor
  · rintro ⟨⟨offset, state'⟩, drawn, ⟨tree', root, steps⟩, splayed, depths', ⟨fits, rfl⟩, checked,
      found, h⟩
    cases h
    have told : depths + depthOf steps = depths + sizeSum Step.depth steps := by
      rw [depthOf_eq_sum splayed]
    exact ⟨offset, drawn, rfl, ⟨root, steps, splayed, told⟩, fits, found⟩
  · rintro ⟨offset, drawn, noted, ⟨root, steps, splayed, told⟩, fits, checked⟩
    obtain ⟨state', tree', offsets', depths'⟩ := after
    rw [← depthOf_eq_sum splayed] at told
    dsimp only at drawn noted told fits checked
    subst noted told
    exact ⟨_, drawn, _, splayed, _, ⟨fits, rfl⟩, _, checked, rfl⟩

/-- The loop of a trial makes turns for as long as it is told to and nothing wrong is found. -/
theorem splayAll_eq_ok :
    splayAll dice total count before = .ok (after, verdict) ↔
      Run dice total count before after verdict := by
  constructor
  · intro ran
    induction count generalizing before with
    | zero =>
      cases ran
      exact .rests _
    | succ count ih =>
      obtain ⟨⟨middle, found⟩, once, ran⟩ := bind_eq_ok.mp ran
      obtain ⟨offset, turn⟩ := splayOnce_eq_ok.mp once
      cases found with
      | ok => exact .goesOn turn (ih ran)
      | error violation =>
        cases ran
        exact .stops turn
  · intro run
    induction run with
    | rests progress => rfl
    | goesOn turn rest ih =>
      rw [splayAll, splayOnce_eq_ok.mpr ⟨_, turn⟩, ok_bind]
      exact ih
    | stops turn =>
      rw [splayAll, splayOnce_eq_ok.mpr ⟨_, turn⟩, ok_bind]
      rfl

end

theorem exists_drawNear (fair : dice.Fair) {total last : Nat} (inside : last ≤ total)
    (room : total + greatestMove < Size.limit) (state : σ) :
    ∃ offset state', drawNear dice total last state = .ok (offset, state') ∧ offset ≤ total := by
  obtain ⟨move, moved, drawn, -, small⟩ := fair state 0 greatestMove (Nat.zero_le _)
  rw [drawNear, drawn, ok_bind]
  dsimp only
  cases (dice.chance moved backWeight).1 with
  | true => exact ⟨last - move, _, rfl, by omega⟩
  | false =>
    have fits : last + move < Size.limit := by omega
    simp only [Bool.false_eq_true, if_false, Size.add_of_lt fits, ok_bind]
    exact ⟨_, _, rfl, Nat.min_le_right ..⟩

theorem exists_drawOffset (fair : dice.Fair) {total : Nat} {last : Option Nat}
    (inside : ∀ offset, last = some offset → offset ≤ total)
    (room : total + greatestMove < Size.limit) (state : σ) :
    ∃ offset state', drawOffset dice total last state = .ok (offset, state') ∧ offset ≤ total := by
  have anywhere (state : σ) :
      ∃ offset state', dice.between state 0 total = .ok (offset, state') ∧ offset ≤ total := by
    obtain ⟨offset, state', drawn, -, within⟩ := fair state 0 total (Nat.zero_le _)
    exact ⟨offset, state', drawn, within⟩
  cases last with
  | none => exact anywhere state
  | some last =>
    rw [drawOffset]
    dsimp only
    split
    · exact exists_drawNear fair (inside last rfl) room _
    · exact anywhere _

/-- A trial under way in which all has gone well: the tree holds the document as it was at first,
but for the cursor. -/
structure Progress.Steady (doc : Document) (done : Nat) (progress : Progress σ) : Prop where
  depicts : ∃ cursor, progress.tree.Depicts { doc with cursor := cursor }
  splays : progress.offsets.length = done
  within : ∀ offset ∈ progress.offsets, offset ≤ doc.total
  depths : progress.depths ≤ done * doc.items.length

namespace Progress.Steady
variable {doc : Document} {done : Nat} {progress : Progress σ}

/-- A turn can be made, its check finds nothing wrong, and all is as well as before. -/
theorem turn (steady : progress.Steady doc done) (fair : dice.Fair)
    (room : doc.total + greatestMove < Size.limit)
    (short : (done + 1) * doc.items.length < Size.limit) :
    ∃ offset after, offset ≤ doc.total ∧ Turn dice doc.total progress offset after (.ok ()) ∧
      after.Steady doc (done + 1) := by
  obtain ⟨⟨cursor, depicts⟩, splays, within, depths⟩ := steady
  obtain ⟨state, tree, offsets, depthsBefore⟩ := progress
  dsimp only at depicts splays within depths
  have inside (offset : Nat) (last : offsets.head? = some offset) : offset ≤ doc.total :=
    within offset (List.mem_of_head? last)
  obtain ⟨offset, state', drawn, small⟩ := exists_drawOffset fair inside room state
  obtain ⟨after, root, steps, splayed, depicts', deep⟩ := depicts.splayTraced small
  change depthOf steps ≤ doc.items.length at deep
  rw [depthOf_eq_sum splayed] at deep
  rw [Nat.add_mul, Nat.one_mul] at short
  refine ⟨offset, ⟨state', after, offset :: offsets, depthsBefore + sizeSum Step.depth steps⟩,
    small, ⟨drawn, rfl, ⟨root, steps, splayed, rfl⟩, by dsimp only; omega, depicts'.check⟩,
    ⟨⟨_, depicts'⟩, ?_, ?_, ?_⟩⟩
  · rw [List.length_cons, splays]
  · exact List.forall_mem_cons.mpr ⟨small, within⟩
  · rw [Nat.add_mul, Nat.one_mul]
    exact Nat.add_le_add depths deep

/-- So turn follows turn, as many as are asked for. -/
theorem turns (steady : progress.Steady doc done) (fair : dice.Fair)
    (room : doc.total + greatestMove < Size.limit) (more : Nat)
    (short : (done + more) * doc.items.length < Size.limit) :
    ∃ stage : Nat → Progress σ, stage 0 = progress ∧
      (∀ i < more, ∃ offset ≤ doc.total,
        Turn dice doc.total (stage i) offset (stage (i + 1)) (.ok ())) ∧
      ∀ i ≤ more, (stage i).Steady doc (done + i) := by
  induction more generalizing done progress with
  | zero =>
    refine ⟨fun _ => progress, rfl, nofun, fun i atMost => ?_⟩
    rwa [Nat.le_zero.mp atMost]
  | succ more ih =>
    have once : (done + 1) * doc.items.length ≤ (done + (more + 1)) * doc.items.length :=
      Nat.mul_le_mul_right _ (by omega)
    obtain ⟨offset, next, small, turn, steady'⟩ :=
      steady.turn fair room (Nat.lt_of_le_of_lt once short)
    obtain ⟨later, rfl, turns, steadies⟩ := ih steady' (by rwa [Nat.add_assoc, Nat.add_comm 1])
    refine ⟨fun i => i.casesOn progress later, rfl, fun i inside => ?_, fun i inside => ?_⟩
    · cases i with
      | zero => exact ⟨offset, small, turn⟩
      | succ i => exact turns i (Nat.lt_of_succ_lt_succ inside)
    · cases i with
      | zero => exact steady
      | succ i =>
        have after := steadies i (Nat.le_of_succ_le_succ inside)
        rwa [Nat.add_assoc, Nat.add_comm 1] at after

end Progress.Steady

/-- Turns that find nothing wrong are a run that goes on to its end. -/
theorem Run.of_turns {total count : Nat} (stage : Nat → Progress σ)
    (turns : ∀ i < count, ∃ offset, Turn dice total (stage i) offset (stage (i + 1)) (.ok ())) :
    Run dice total count (stage 0) (stage count) (.ok ()) := by
  induction count generalizing stage with
  | zero => exact .rests _
  | succ count ih =>
    obtain ⟨offset, turn⟩ := turns 0 (Nat.succ_pos count)
    exact .goesOn turn (ih (fun i => stage (i + 1)) fun i inside => turns (i + 1) (by omega))

/-- What is drawn for a trial holds a document of the pieces that were drawn, of sizes from 1 to the
greatest. -/
theorem exists_random (fair : dice.Fair) {count : Nat} (few : count ≤ NodeId.limit) (state : σ) :
    ∃ pieces drawnState tree rest doc,
      Tree.drawPieces dice largestPiece count [] state = .ok (pieces, drawnState) ∧
      Tree.random dice count largestPiece state = .ok (tree, rest) ∧ tree.Depicts doc ∧
      doc.items.map (·.2) = pieces ∧ pieces.length = count ∧ count ≤ doc.total ∧
      doc.total ≤ largestPiece * count := by
  obtain ⟨pieces, drawnState, drawn, rfl, sizes⟩ :=
    fair.drawPieces count (.inr (show 1 ≤ largestPiece by decide)) [] state
  rw [List.reverse_nil, List.nil_append] at drawn
  have least := length_le_sizeSum fun piece member => (sizes piece member).1
  have most := sizeSum_le_mul fun piece member => (sizes piece member).2
  have fits : sizeSum Piece.size pieces < Size.limit := by
    simp only [largestPiece, NodeId.limit, Size.limit] at most few ⊢
    omega
  obtain ⟨arena, rest, shape, h, built⟩ := Tree.random_builds fair drawn fits few
  have well := built.wellFormed (fun piece member => (sizes piece member).1) fits
  have depicts : Tree.Depicts ⟨arena, shape.root⟩ (arena.document shape) := ⟨shape, well, rfl⟩
  have total : (arena.document shape).total = sizeSum Piece.size pieces := by
    rw [Arena.total_document, built.weight_eq]
  refine ⟨pieces, drawnState, _, rest, _, drawn, h, depicts, ?_, rfl, by omega, by omega⟩
  have held : (arena.document shape).items.map (·.2) =
      (shape.inOrder.map arena.pieceAt).map (·.getD (.sized 0)) := by
    rw [Arena.document, List.map_map, List.map_map]
    rfl
  rw [held, built.pieces, List.map_map]
  exact List.map_id' pieces

/-- A trial whose last check found nothing wrong ends without a complaint, with a drawing of its
tree where one is asked for. -/
theorem Result.exists_transcript (result : Result) (checked : result.checked = .ok ())
    {text : String} (drawn : result.tree.toDot = .ok text) :
    ∃ transcript, Transcript.ofResult result = .ok transcript ∧ transcript.exitCode = 0 ∧
      transcript.complaint = [] ∧
      transcript.drawing = result.settings.drawing.map fun path => (path, text) := by
  have exitCode : result.exitCode = 0 := by rw [Result.exitCode, checked]
  have complaint : result.complaint = [] := by rw [Result.complaint, checked]
  rw [Transcript.ofResult]
  cases result.settings.drawing with
  | none => exact ⟨_, rfl, exitCode, complaint, rfl⟩
  | some path =>
    dsimp only
    rw [drawn, ok_bind]
    exact ⟨_, rfl, exitCode, complaint, rfl⟩

/-- A trial that has come to its end as it should, in the state `last` that its last turn has left.
The drawing shows the items of the document in their order, and can be read in no other way. -/
structure Succeeds (settings : Settings) (doc : Document) (last : Progress σ) (result : Result)
    (transcript : Transcript) : Prop where
  result_eq : result =
    ⟨settings, doc.total, last.tree, last.offsets.reverse, last.depths, .ok ()⟩
  splays : result.offsets.length = settings.splays
  within : ∀ offset ∈ result.offsets, offset ≤ doc.total
  exitCode : transcript.exitCode = 0
  complaint : transcript.complaint = []
  drawing : ∃ views text, result.tree.views = .ok views ∧ views.map View.item = doc.items ∧
    result.tree.toDot = .ok text ∧
    (∀ other, Dot.render other = text ↔ other.map View.drawn = views.map View.drawn) ∧
    transcript.drawing = settings.drawing.map fun path => (path, text)

/-- The loop of a trial is a run of turns, whatever it begins with. With dice that only keep to the
ranges they are asked for, all turns are made, from the tree first drawn on, without a fault and
with no violation found: each splays the tree that the one before has left to an offset within the
document, and the last tree shows the pieces that were drawn at first in their order. -/
theorem runWith_succeeds (fair : dice.Fair) (settings : Settings) (state : σ)
    (few : settings.pieces ≤ NodeId.limit)
    (short : settings.splays * settings.pieces < Size.limit) :
    (∀ total count before after verdict,
      splayAll dice total count before = .ok (after, verdict) ↔
        Run dice total count before after verdict) ∧
    ∃ pieces drawnState first rest doc,
      Tree.drawPieces dice largestPiece settings.pieces [] state = .ok (pieces, drawnState) ∧
      Tree.random dice settings.pieces largestPiece state = .ok (first, rest) ∧
      first.Depicts doc ∧ doc.items.map (·.2) = pieces ∧
      settings.pieces ≤ doc.total ∧ doc.total ≤ largestPiece * settings.pieces ∧
      ∃ (stage : Nat → Progress σ) (result : Result) (transcript : Transcript),
        stage 0 = { state := rest, tree := first } ∧
        (∀ done < settings.splays, ∃ offset ≤ doc.total,
          Turn dice doc.total (stage done) offset (stage (done + 1)) (.ok ())) ∧
        (∀ done ≤ settings.splays, (stage done).Steady doc done ∧
          (stage done).tree.length = .ok doc.total ∧ (stage done).tree.check = .ok (.ok ())) ∧
        runWith dice settings state = .ok result ∧ Transcript.ofResult result = .ok transcript ∧
        Succeeds settings doc (stage settings.splays) result transcript := by
  refine ⟨fun total count before after verdict => splayAll_eq_ok, ?_⟩
  obtain ⟨pieces, drawnState, first, rest, doc, pieces_eq, drawn, depicts, held, count, least,
    most⟩ := exists_random fair few state
  have items : doc.items.length = settings.pieces := by rw [← count, ← held, List.length_map]
  rw [← items] at short
  have room : doc.total + greatestMove < Size.limit := by
    simp only [largestPiece, greatestMove, NodeId.limit, Size.limit] at most few ⊢
    omega
  have start : Progress.Steady doc 0 { state := rest, tree := first } :=
    ⟨⟨doc.cursor, depicts⟩, rfl, List.forall_mem_nil _, Nat.zero_le _⟩
  obtain ⟨stage, begins, turns, steadies⟩ :=
    start.turns fair room settings.splays (by rwa [Nat.zero_add])
  have steady (done : Nat) (atMost : done ≤ settings.splays) : (stage done).Steady doc done := by
    have := steadies done atMost
    rwa [Nat.zero_add] at this
  have ran := splayAll_eq_ok.mpr <| Run.of_turns stage fun i inside =>
    (turns i inside).imp fun _ made => made.2
  obtain ⟨⟨cursor, depicts'⟩, splays, within, -⟩ := steady settings.splays (Nat.le_refl _)
  obtain ⟨views, shown, items'⟩ := depicts'.exists_views
  let last := stage settings.splays
  let result : Result := ⟨settings, doc.total, last.tree, last.offsets.reverse, last.depths, .ok ()⟩
  have made : runWith dice settings state = .ok result := by
    rw [runWith, drawn, ok_bind]
    dsimp only
    rw [depicts.length_eq, ok_bind, ← begins, ran]
    rfl
  have text : result.tree.toDot = .ok (Dot.render views) := by
    rw [Tree.toDot, shown]
    rfl
  obtain ⟨transcript, told, exitCode, complaint, drawing⟩ := result.exists_transcript rfl text
  refine ⟨pieces, drawnState, first, rest, doc, pieces_eq, drawn, depicts, held, least, most, stage,
    result, transcript, begins, turns, fun done atMost => ?_, made, told, rfl, ?_, ?_, exitCode,
    complaint, views, _, shown, items', text, fun other => Dot.render_inj, drawing⟩
  · obtain ⟨cursor, depicts⟩ := (steady done atMost).depicts
    exact ⟨steady done atMost, depicts.length_eq, depicts.check⟩
  · rw [List.length_reverse, splays]
  · exact fun offset member => within offset (List.mem_reverse.mp member)

/-- Dice that show the least and the greatest number in turn. -/
def seesaw : Dice Nat where
  between turn low high := .ok (if turn % 2 = 0 then low else high, turn + 1)
  chance turn _ := (turn % 3 = 0, turn + 1)

theorem fair_seesaw : seesaw.Fair := by
  intro turn low high h
  refine ⟨_, _, rfl, ?_⟩
  split <;> omega

theorem runWith_succeeds_seesaw :
    ∃ (total : Nat) (stage : Nat → Progress Nat) (result : Result) (transcript : Transcript),
      (∀ done < 5, ∃ offset ≤ total,
        Turn seesaw total (stage done) offset (stage (done + 1)) (.ok ())) ∧
      runWith seesaw { pieces := 3, splays := 5, drawing := some "last.dot" } 0 = .ok result ∧
      Transcript.ofResult result = .ok transcript ∧ result.tree = (stage 5).tree ∧
      result.offsets = [0, 0, 0, 8, 8] ∧ result.depths = 2 ∧ transcript.exitCode = 0 ∧
      transcript.complaint = [] ∧ transcript.drawing.isSome := by
  obtain ⟨-, -, -, -, -, doc, -, -, -, -, -, -, stage, result, transcript, -, turns, -, ran, told,
    succeeds⟩ := runWith_succeeds fair_seesaw
      { pieces := 3, splays := 5, drawing := some "last.dot" } 0 (by decide) (by decide)
  obtain ⟨views, text, -, -, -, -, drawing⟩ := succeeds.drawing
  have tree : result.tree = (stage 5).tree := by rw [succeeds.result_eq]
  have seen : (runWith seesaw { pieces := 3, splays := 5, drawing := some "last.dot" } 0).map
      (fun result => (result.offsets, result.depths)) = .ok ([0, 0, 0, 8, 8], 2) := by
    decide +kernel
  rw [ran] at seen
  obtain ⟨offsets, depths⟩ := Prod.mk.inj (Except.ok.inj seen)
  exact ⟨doc.total, stage, result, transcript, turns, ran, told, tree, offsets, depths,
    succeeds.exitCode, succeeds.complaint, by rw [drawing]; rfl⟩

end Trial
end PieceIndex
