import PieceIndex.Proofs.Faults
import PieceIndex.Stream

/-!
What a lazy sequence gives. If it gives its items one after the other without a fault, then to drain
it is to go over the items: the first fault met is that of the first item which cannot be used. If
it breaks off in a fault of its own, that fault is met unless an item could not be used before. A
sequence that stays as it is once it has nothing more can be asked again and again.
-/
namespace PieceIndex
namespace Stream
variable {σ α β : Type} {next : Next σ α} {state : σ} {items : List α}

/-- From this state the sequence gives these items, and then no more. -/
inductive Yields (next : Next σ α) : σ → List α → Prop where
  | done {state last : σ} (ends : next state = .ok (none, last)) : Yields next state []
  | more {state rest : σ} {item : α} {items : List α} (gives : next state = .ok (some item, rest))
    (later : Yields next rest items) : Yields next state (item :: items)

theorem Yields.drainOnto (yields : Yields next state items) (use : α → Except Fault β) (fuel : Nat)
    (taken : List β) (enough : items.length < fuel) :
    Stream.drainOnto next use fuel state taken =
      (items.mapM use >>= fun rest => .ok (taken.reverse ++ rest)) := by
  induction yields generalizing fuel taken with
  | done ends =>
    obtain ⟨fuel, rfl⟩ : ∃ n, fuel = n + 1 := ⟨fuel - 1, by omega⟩
    rw [Stream.drainOnto, ends, ok_bind, List.mapM_nil]
    dsimp only [pure_eq_ok, ok_bind]
    rw [List.append_nil]
  | @more state later item items gives _ ih =>
    rw [List.length_cons] at enough
    obtain ⟨fuel, rfl⟩ : ∃ n, fuel = n + 1 := ⟨fuel - 1, by omega⟩
    rw [Stream.drainOnto, gives, ok_bind, List.mapM_cons]
    dsimp only
    cases use item with
    | error fault => rfl
    | ok used =>
      rw [ok_bind, ok_bind, ih fuel (used :: taken) (by omega)]
      cases items.mapM use with
      | error fault => rfl
      | ok rest => simp

theorem Yields.drain (yields : Yields next state items) (use : α → Except Fault β) (fuel : Nat)
    (enough : items.length < fuel) : Stream.drain next use fuel state = items.mapM use := by
  rw [Stream.drain, yields.drainOnto use fuel [] enough]
  cases items.mapM use <;> rfl

/-- From this state the sequence gives these items, and then meets the fault. -/
inductive Breaks (next : Next σ α) (fault : Fault) : σ → List α → Prop where
  | now {state : σ} (faults : next state = .error fault) : Breaks next fault state []
  | more {state rest : σ} {item : α} {items : List α} (gives : next state = .ok (some item, rest))
    (later : Breaks next fault rest items) : Breaks next fault state (item :: items)

theorem Breaks.drainOnto {fault : Fault} (breaks : Breaks next fault state items)
    {use : α → Except Fault β} (used : ∀ item, ∃ result, use item = .ok result) (fuel : Nat)
    (taken : List β) (enough : items.length < fuel) :
    Stream.drainOnto next use fuel state taken = .error fault := by
  induction breaks generalizing fuel taken with
  | now faults =>
    obtain ⟨fuel, rfl⟩ : ∃ n, fuel = n + 1 := ⟨fuel - 1, by omega⟩
    rw [Stream.drainOnto, faults, error_bind]
  | @more state rest item items gives _ ih =>
    rw [List.length_cons] at enough
    obtain ⟨fuel, rfl⟩ : ∃ n, fuel = n + 1 := ⟨fuel - 1, by omega⟩
    obtain ⟨result, made⟩ := used item
    rw [Stream.drainOnto, gives, ok_bind]
    dsimp only
    rw [made, ok_bind]
    exact ih fuel (result :: taken) (by omega)

/-- What the sequence answers when it is asked again and again, whether or not it has come to its
end. -/
def answers (next : Next σ α) : Nat → σ → Except Fault (List (Option α))
  | 0, _ => .ok []
  | calls + 1, state => do
    let (answer, state) ← next state
    let later ← answers next calls state
    return answer :: later

theorem answers_of_ended (ended : next state = .ok (none, state)) (calls : Nat) :
    answers next calls state = .ok (List.replicate calls none) := by
  induction calls with
  | zero => rfl
  | succ calls ih =>
    rw [answers, ended, ok_bind]
    dsimp only
    rw [ih]
    rfl

/-- A sequence that stays as it is at its end gives each item in its turn, and nothing ever
after. -/
theorem Yields.answers_eq (yields : Yields next state items)
    (settles : ∀ state last, next state = .ok (none, last) → next last = .ok (none, last))
    (calls : Nat) : answers next calls state = .ok ((List.range calls).map (items[·]?)) := by
  induction yields generalizing calls with
  | done ends =>
    cases calls with
    | zero => rfl
    | succ calls =>
      rw [answers, ends, ok_bind]
      dsimp only
      rw [answers_of_ended (settles _ _ ends)]
      simp [List.map_const', List.replicate_succ]
  | @more state rest item items gives _ ih =>
    cases calls with
    | zero => rfl
    | succ calls =>
      rw [answers, gives, ok_bind]
      dsimp only
      rw [ih]
      simp [List.range_succ_eq_map]

end Stream

/-- Items that can all be used are used one by one. -/
theorem mapM_eq_ok {α β : Type} {use : α → Except Fault β} {result : α → β} {items : List α}
    (used : ∀ item ∈ items, use item = .ok (result item)) :
    items.mapM use = .ok (items.map result) := by
  induction items with
  | nil => rfl
  | cons item items ih =>
    rw [List.forall_mem_cons] at used
    rw [List.mapM_cons, used.1, ok_bind, ih used.2]
    rfl

end PieceIndex
