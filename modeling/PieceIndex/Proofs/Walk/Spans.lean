import PieceIndex.Proofs.Walk
import PieceIndex.Tree.Span

/-!
The pieces inside a range of the document. To seek an offset leaves out, of all the items that a
walk would give, those whose pieces end at or before it; and the walk over a range stops at the
first piece that begins at its end or later. Laid out one after the other the pieces begin and end
in order, so that what is left are the pieces that overlap the range, and the parts of them that lie
inside make it up.
-/
namespace PieceIndex

namespace Walk
variable {arena : Arena} {shape : Shape}

theorem seek_node {id : NodeId} {node : Node} {base : Nat} (found : arena[id]? = some node)
    (ends : base + node.lsize + node.piece.size < Size.limit) (offset fuel : Nat)
    (pending : List (NodeId × Nat)) :
    seek arena offset (fuel + 1) (some id) base pending =
      if base + node.lsize + node.piece.size ≤ offset then
        seek arena offset fuel node.right (base + node.lsize + node.piece.size) pending
      else
        seek arena offset fuel node.left base ((id, base + node.lsize) :: pending) := by
  have begins : node.leftEdge base = .ok (base + node.lsize) := Size.add_of_lt (by omega)
  rw [seek, Arena.node_eq_ok.mpr found, ok_bind, begins, ok_bind, Size.add_of_lt ends, ok_bind]

/-- With right sizes a walk that seeks an offset gives what a walk from the beginning gives, but for
the pieces that end no later. -/
theorem seek_yields {pending later : List (NodeId × Nat)}
    (yields : Stream.Yields (next arena) ⟨pending⟩ later)
    (inRange : ∀ i ∈ shape.inOrder, i < arena.size) (wired : shape.Wired arena.childOf)
    (measured : shape.Measured arena.pieceSize arena.cachedOf) (small : shape.count ≤ arena.size)
    (offset base : Nat) (fits : base + shape.weight arena.pieceSize < Size.limit) (fuel : Nat)
    (enough : shape.count ≤ fuel) :
    ∃ walk, seek arena offset fuel shape.root base pending = .ok walk ∧
      Stream.Yields (next arena) walk
        ((shape.edges arena.pieceSize arena.cachedOf base).filter
          (fun item => offset < item.2 + arena.pieceSize item.1) ++ later) := by
  induction shape generalizing pending later base fuel with
  | empty => exact ⟨⟨pending⟩, by cases fuel <;> rfl, yields⟩
  | node left id right ihl ihr =>
    obtain ⟨down, across, wiredl, wiredr⟩ := wired
    obtain ⟨lsize, -, ml, mr⟩ := measured
    simp only [Shape.inOrder, List.mem_append, List.mem_cons] at inRange
    rw [Shape.count] at small enough
    obtain ⟨node, found⟩ := Arena.exists_found (inRange id (.inr (.inl rfl)))
    rw [Arena.childOf_found found] at down across
    have cached : arena.cachedOf id .left = node.lsize := Arena.cachedOf_found found .left
    rw [cached] at lsize
    rw [Shape.weight_node, Arena.pieceSize_found found, ← lsize] at fits
    have ends : base + node.lsize + node.piece.size < Size.limit := by omega
    obtain ⟨fuel, rfl⟩ : ∃ n, fuel = n + 1 := ⟨fuel - 1, by omega⟩
    rw [Shape.root, seek_node found ends, Shape.edges, List.filter_append, cached,
      Arena.pieceSize_found found]
    by_cases past : base + node.lsize + node.piece.size ≤ offset
    · -- the node and all on its left end before the offset
      have skipped : (left.edges arena.pieceSize arena.cachedOf base).filter
          (fun item => offset < item.2 + arena.pieceSize item.1) = [] := by
        refine List.filter_eq_nil_iff.mpr fun item member => ?_
        have := Shape.Measured.edge_le ml member
        simp only [decide_eq_true_eq]
        omega
      obtain ⟨walk, sought, rest⟩ := ihr yields (fun i h => inRange i (.inr (.inr h))) wiredr mr
        (by omega) (base + node.lsize + node.piece.size) (by omega) fuel (by omega)
      refine ⟨walk, ?_, ?_⟩
      · rw [if_pos past, show node.right = right.root from across, sought]
      · rw [skipped, List.filter_cons_of_neg, List.nil_append]
        · exact rest
        · simp only [Arena.pieceSize_found found, decide_eq_true_eq]
          omega
    · -- all on the right of the node ends past the offset, as the node itself does
      have whole : (right.edges arena.pieceSize arena.cachedOf
            (base + node.lsize + node.piece.size)).filter
          (fun item => offset < item.2 + arena.pieceSize item.1) =
            right.edges arena.pieceSize arena.cachedOf (base + node.lsize + node.piece.size) := by
        refine List.filter_eq_self.mpr fun item member => ?_
        have := Shape.base_le_edge member
        simp only [decide_eq_true_eq]
        omega
      obtain ⟨walk, entered, rest⟩ :=
        enter_yields yields (fun i h => inRange i (.inr (.inr h))) wiredr
        (by omega) (base + node.lsize + node.piece.size)
        (fun item member => by
          have := Shape.Measured.edge_le mr member
          omega)
        (stepLimit arena.size) (by dsimp only [stepLimit]; omega)
      rw [← show node.right = right.root from across] at entered
      obtain ⟨walk, sought, rest⟩ := ihl (.more (next_eq found ends entered) rest)
        (fun i h => inRange i (.inl h)) wiredl ml (by omega) base (by omega) fuel (by omega)
      refine ⟨walk, ?_, ?_⟩
      · rw [if_neg past, show node.left = left.root from down, sought]
      · rw [List.filter_cons_of_pos, whole, List.append_assoc]
        · exact rest
        · simp only [Arena.pieceSize_found found, decide_eq_true_eq]
          omega

end Walk

/-- The part of a piece that lies inside `first..last`, where the two overlap. -/
def Span.cut (size : NodeId → Nat) (first last : Nat) (item : NodeId × Nat) : Span where
  node := item.1
  leftEdge := item.2
  start := max first item.2 - item.2
  stop := min last (item.2 + size item.1) - item.2

/-- Where a span lies in the document. -/
def Span.range (span : Span) : Nat × Nat := (span.leftEdge + span.start, span.leftEdge + span.stop)

namespace SpanWalk
variable {arena : Arena} {walk : Walk} {items : List (NodeId × Nat)}

/-- A walk over a range cuts what its walk gives, up to the first piece that begins at the end of
the range or later. -/
theorem yields (first last : Nat) (yields : Stream.Yields (Walk.next arena) walk items)
    (inRange : ∀ item ∈ items, item.1 < arena.size) :
    Stream.Yields (next arena) ⟨walk, first, last⟩
      ((items.takeWhile (·.2 < last)).map (Span.cut arena.pieceSize first last)) := by
  induction yields with
  | done ends =>
    apply Stream.Yields.done
    · rw [next, ends, ok_bind]
      rfl
  | @more walk rest item items gives _ ih =>
    rw [List.forall_mem_cons] at inRange
    obtain ⟨id, edge⟩ := item
    by_cases past : last ≤ edge
    · rw [List.takeWhile_cons_of_neg (by simpa using past)]
      apply Stream.Yields.done
      · rw [next, gives, ok_bind]
        dsimp only
        rw [if_pos past]
        rfl
    · obtain ⟨node, found⟩ := Arena.exists_found inRange.1
      rw [List.takeWhile_cons_of_pos (by simpa using past), List.map_cons]
      refine .more ?_ (ih inRange.2)
      have cut : Span.cut arena.pieceSize first last (id, edge) =
          ⟨id, edge, first - edge, min (last - edge) node.piece.size⟩ := by
        rw [Span.cut, Arena.pieceSize_found found]
        congr 1
        · dsimp only
          omega
        · dsimp only
          omega
      rw [next, gives, ok_bind]
      dsimp only
      rw [if_neg past, Arena.node_eq_ok.mpr found, ok_bind, cut]
      rfl

/-- Once there is nothing more there never will be. -/
theorem settles {state after : SpanWalk} (ended : next arena state = .ok (none, after)) :
    next arena after = .ok (none, after) := by
  obtain ⟨⟨item, rest⟩, gives, ended⟩ := bind_eq_ok.mp ended
  cases item with
  | none =>
    obtain ⟨⟨pending⟩, first, last⟩ := state
    cases pending with
    | nil =>
      cases gives
      cases ended
      rfl
    | cons item pending =>
      obtain ⟨node, -, gives⟩ := bind_eq_ok.mp gives
      obtain ⟨edge, -, gives⟩ := bind_eq_ok.mp gives
      obtain ⟨walk, -, gives⟩ := bind_eq_ok.mp gives
      cases gives
  | some item =>
    obtain ⟨id, edge⟩ := item
    dsimp only at ended
    split at ended
    · cases ended
      rfl
    · obtain ⟨node, -, ended⟩ := bind_eq_ok.mp ended
      cases ended

end SpanWalk

/-- The ranges follow one another from `first` to `last`, without a gap and without overlap. -/
def Tiles : Nat → Nat → List (Nat × Nat) → Prop
  | first, last, [] => first = last
  | first, last, range :: ranges => range.1 = first ∧ range.1 < range.2 ∧ Tiles range.2 last ranges

/-- The pieces that overlap `first..last`. -/
def overlapping (size : NodeId → Nat) (first last : Nat) (items : List (NodeId × Nat)) :
    List (NodeId × Nat) :=
  items.filter fun item => item.2 < last ∧ first < item.2 + size item.1

section
variable {size : NodeId → Nat} {first last base : Nat} {ids : List NodeId} {item : NodeId × Nat}

theorem base_le_of_mem_layOut (member : item ∈ layOut size base ids) : base ≤ item.2 := by
  induction ids generalizing base with
  | nil => cases member
  | cons id ids ih =>
    rcases List.mem_cons.mp member with rfl | member
    · exact Nat.le_refl _
    · have := ih member
      omega

theorem pairwise_layOut (size : NodeId → Nat) (base : Nat) (ids : List NodeId) :
    (layOut size base ids).Pairwise fun item later => item.2 ≤ later.2 := by
  induction ids generalizing base with
  | nil => exact .nil
  | cons id ids ih =>
    refine .cons (fun later member => ?_) (ih (base + size id))
    have := base_le_of_mem_layOut member
    dsimp only
    omega

theorem takeWhile_eq_filter {α : Type} {p : α → Bool} {items : List α}
    (closed : items.Pairwise fun item later => p later → p item) :
    items.takeWhile p = items.filter p := by
  induction items with
  | nil => rfl
  | cons item items ih =>
    obtain ⟨here, closed⟩ := List.pairwise_cons.mp closed
    by_cases holds : p item
    · rw [List.takeWhile_cons_of_pos holds, List.filter_cons_of_pos holds, ih closed]
    · rw [List.takeWhile_cons_of_neg holds, List.filter_cons_of_neg holds, eq_comm,
        List.filter_eq_nil_iff]
      exact fun later member holds' => holds (here later member holds')

/-- Leaving out what ends too early and then stopping at what begins too late leaves what
overlaps. -/
theorem takeWhile_filter_layOut (size : NodeId → Nat) (first last base : Nat) (ids : List NodeId) :
    ((layOut size base ids).filter fun item => first < item.2 + size item.1).takeWhile
        (·.2 < last) =
      overlapping size first last (layOut size base ids) := by
  rw [takeWhile_eq_filter, List.filter_filter, overlapping]
  · refine List.filter_congr fun item _ => ?_
    rw [Bool.decide_and]
  · refine ((pairwise_layOut size base ids).filter _).imp fun ascends => ?_
    simp only [decide_eq_true_eq]
    omega

theorem overlapping_eq_nil (beyond : last ≤ base) :
    overlapping size first last (layOut size base ids) = [] := by
  refine List.filter_eq_nil_iff.mpr fun item member => ?_
  have := base_le_of_mem_layOut member
  simp only [decide_eq_true_eq]
  omega

/-- Of pieces that overlap a range, the parts inside are not empty and make up the range, as far as
the pieces go. -/
theorem tiles_overlapping (base : Nat) (nonempty : ∀ id ∈ ids, 1 ≤ size id) (proper : first < last)
    (reaches : max first base ≤ min last (base + sizeSum size ids)) :
    Tiles (max first base) (min last (base + sizeSum size ids))
      (((overlapping size first last (layOut size base ids)).map (Span.cut size first last)).map
        Span.range) := by
  induction ids generalizing base with
  | nil =>
    rw [sizeSum_nil] at reaches ⊢
    show max first base = min last (base + 0)
    omega
  | cons id ids ih =>
    rw [List.forall_mem_cons] at nonempty
    rw [sizeSum_cons, ← Nat.add_assoc] at reaches ⊢
    have after := ih (base + size id) nonempty.2
    by_cases early : base + size id ≤ first
    · have skipped : overlapping size first last (layOut size base (id :: ids)) =
          overlapping size first last (layOut size (base + size id) ids) :=
        List.filter_cons_of_neg (by simp only [decide_eq_true_eq]; omega)
      rw [skipped, show max first base = max first (base + size id) by omega]
      exact after (by omega)
    · by_cases late : last ≤ base
      · rw [overlapping_eq_nil late]
        show max first base = _
        omega
      · have met : overlapping size first last (layOut size base (id :: ids)) =
            (id, base) :: overlapping size first last (layOut size (base + size id) ids) :=
          List.filter_cons_of_pos (by simp only [decide_eq_true_eq]; omega)
        have begins : (Span.cut size first last (id, base)).range.1 = max first base := by
          simp only [Span.cut, Span.range]
          omega
        have ends : (Span.cut size first last (id, base)).range.2 = min last (base + size id) := by
          simp only [Span.cut, Span.range]
          omega
        rw [met, List.map_cons, List.map_cons]
        refine ⟨begins, by omega, ?_⟩
        rw [ends]
        by_cases final : last ≤ base + size id
        · rw [overlapping_eq_nil final]
          show min last (base + size id) = _
          omega
        · rw [show min last (base + size id) = max first (base + size id) by omega]
          exact after (by omega)

/-- The part inside the range of a piece that overlaps it is not empty. -/
theorem cut_within (nonempty : 1 ≤ size item.1) (proper : first < last) (begins : item.2 < last)
    (ends : first < item.2 + size item.1) :
    (Span.cut size first last item).start < (Span.cut size first last item).stop ∧
      (Span.cut size first last item).stop ≤ size (Span.cut size first last item).node := by
  simp only [Span.cut]
  omega

end

namespace Tree
variable {tree : Tree} {shape : Shape}

/-- The spans of a range, and what is answered to whoever asks for them one by one. -/
theorem WellFormedAs.spans_eq (well : tree.WellFormedAs shape) {first last : Nat}
    (proper : first < last) :
    let spans := (overlapping tree.nodes.pieceSize first last
      (layOut tree.nodes.pieceSize 0 shape.inOrder)).map (Span.cut tree.nodes.pieceSize first last)
    ∃ walk, tree.spanWalk first last = .ok walk ∧
      Stream.Yields (SpanWalk.next tree.nodes) walk spans ∧ spans.length ≤ tree.nodeCount := by
  have stands := well.stands
  have small := well.toHasShape.count_le
  have fits := well.sizeSum_lt
  have done : Stream.Yields (Walk.next tree.nodes) ⟨[]⟩ [] := .done rfl
  obtain ⟨walk, sought, yields⟩ := Walk.seek_yields done stands.inRange stands.wired
    stands.measured small first 0 (by rwa [Nat.zero_add]) (stepLimit tree.nodeCount)
    (by dsimp only [stepLimit, nodeCount]; omega)
  have cut := SpanWalk.yields first last yields fun item member => by
    rw [List.append_nil] at member
    exact stands.inRange _ (Shape.fst_mem_of_mem_edges (List.mem_filter.mp member).1)
  rw [List.append_nil, Shape.Measured.edges_eq stands.measured, takeWhile_filter_layOut] at cut
  refine ⟨⟨walk, first, last⟩, ?_, cut, ?_⟩
  · rw [spanWalk, if_pos proper, well.root_eq, sought]
    rfl
  · have most : (overlapping tree.nodes.pieceSize first last
        (layOut tree.nodes.pieceSize 0 shape.inOrder)).length ≤ shape.count := by
      rw [← Shape.Measured.edges_eq stands.measured, ← Shape.length_edges]
      exact List.length_filter_le ..
    rw [List.length_map]
    exact Nat.le_trans most small

/-- The spans of a range are the parts inside it of all pieces that overlap it, in the order of the
document, and they make up as much of the range as there is of the document. Nothing is added up
that is too large, and whoever goes on asking after the last span is told each time that there is
none. -/
theorem spans_tile (well : tree.WellFormedAs shape) (first last : Nat) :
    ∃ spans total, tree.spans first last = .ok spans ∧ tree.length = .ok total ∧
      (∃ walk, tree.spanWalk first last = .ok walk ∧ ∀ calls,
        Stream.answers (SpanWalk.next tree.nodes) calls walk =
          .ok ((List.range calls).map (spans[·]?))) ∧
      (last ≤ first ∨ total ≤ first → spans = []) ∧
      (first < last →
        spans = (overlapping tree.nodes.pieceSize first last
          (layOut tree.nodes.pieceSize 0 shape.inOrder)).map
            (Span.cut tree.nodes.pieceSize first last)) ∧
      (∀ span ∈ spans, span.leftEdge < last ∧ span.start < span.stop ∧
        span.stop ≤ tree.nodes.pieceSize span.node) ∧
      (first < min last total → Tiles first (min last total) (spans.map Span.range)) := by
  have settles (state after : SpanWalk)
      (ended : SpanWalk.next tree.nodes state = .ok (none, after)) :=
    SpanWalk.settles ended
  by_cases proper : first < last
  · obtain ⟨walk, begun, yields, short⟩ := well.spans_eq proper
    have tiles := tiles_overlapping 0 well.nonempty proper
    rw [Nat.zero_add, Nat.max_zero] at tiles
    refine ⟨_, _, ?_, well.length_eq, ⟨walk, begun, fun calls => yields.answers_eq settles calls⟩,
      ?_, fun _ => rfl, ?_, fun inside => tiles (Nat.le_of_lt inside)⟩
    · rw [spans, begun, ok_bind, yields.drain pure _ (by dsimp only [stepLimit]; omega)]
      exact (mapM_eq_ok fun span _ => rfl).trans (by rw [List.map_id'])
    · rintro (improper | beyond)
      · exact absurd proper (Nat.not_lt.mpr improper)
      · rw [overlapping, List.map_eq_nil_iff, List.filter_eq_nil_iff]
        intro item member
        rw [← Shape.Measured.edges_eq well.stands.measured] at member
        have := Shape.Measured.edge_le well.stands.measured member
        simp only [decide_eq_true_eq]
        omega
    · intro span member
      obtain ⟨item, overlaps, rfl⟩ := List.mem_map.mp member
      obtain ⟨laid, overlaps⟩ := List.mem_filter.mp overlaps
      rw [← Shape.Measured.edges_eq well.stands.measured] at laid
      obtain ⟨begins, ends⟩ := of_decide_eq_true overlaps
      exact ⟨begins,
        cut_within (well.nonempty _ (Shape.fst_mem_of_mem_edges laid)) proper begins ends⟩
  · have begun : tree.spanWalk first last = .ok ⟨{}, first, last⟩ := by
      rw [spanWalk, if_neg proper]
      rfl
    have yields : Stream.Yields (SpanWalk.next tree.nodes) ⟨{}, first, last⟩ [] := .done rfl
    refine ⟨[], _, ?_, well.length_eq, ⟨_, begun, fun calls => yields.answers_eq settles calls⟩,
      fun _ => rfl, fun h => absurd h proper, nofun, fun inside => ?_⟩
    · rw [spans, begun, ok_bind,
        yields.drain pure _ (by dsimp only [stepLimit, List.length]; omega)]
      rfl
    · omega

theorem spans_tile_three :
    three.spans 2 9 = .ok [⟨0, 0, 2, 3⟩, ⟨1, 3, 0, 4⟩, ⟨2, 7, 0, 2⟩] ∧
      Tiles 2 9 [(2, 3), (3, 7), (7, 9)] ∧
      ∃ walk, three.spanWalk 2 9 = .ok walk ∧
        Stream.answers (SpanWalk.next three.nodes) 5 walk =
          .ok [some ⟨0, 0, 2, 3⟩, some ⟨1, 3, 0, 4⟩, some ⟨2, 7, 0, 2⟩, none, none] := by
  obtain ⟨spans, total, given, length, ⟨walk, begun, answers⟩, -, -, -, tiles⟩ :=
    spans_tile wellFormedAs_three 2 9
  cases (show three.length = .ok 12 from rfl).symm.trans length
  have given' : three.spans 2 9 = .ok [⟨0, 0, 2, 3⟩, ⟨1, 3, 0, 4⟩, ⟨2, 7, 0, 2⟩] := rfl
  cases given'.symm.trans given
  exact ⟨given, tiles (by decide), walk, begun, answers 5⟩

end Tree
end PieceIndex
