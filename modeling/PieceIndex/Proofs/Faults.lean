import PieceIndex.Arena

/-!
How a computation that may meet a fault is taken apart, and which of its faults is never met. A walk
that runs out of turns is the only source of `endless`; no single step has it.
-/
namespace PieceIndex

section
variable {α β : Type}

theorem bind_eq_ok {x : Except Fault α} {f : α → Except Fault β} {b : β} :
    (x >>= f) = .ok b ↔ ∃ a, x = .ok a ∧ f a = .ok b := by
  constructor
  · intro h
    cases x with
    | error fault => cases h
    | ok a => exact ⟨a, rfl, h⟩
  · rintro ⟨a, rfl, h⟩
    exact h

@[simp] theorem ok_bind (a : α) (f : α → Except Fault β) : (Except.ok a >>= f) = f a := rfl

@[simp] theorem error_bind (fault : Fault) (f : α → Except Fault β) :
    (Except.error fault >>= f) = .error fault := rfl

@[simp] theorem pure_eq_ok (a : α) : (pure a : Except Fault α) = .ok a := rfl

@[simp] theorem throw_eq_error (fault : Fault) :
    (throw fault : Except Fault α) = .error fault := rfl

/-- The computation does not run out of turns. -/
structure Ends (x : Except Fault α) : Prop where
  ne_endless : x ≠ .error .endless

@[simp] theorem ends_ok (a : α) : Ends (.ok a) := ⟨nofun⟩

@[simp] theorem ends_bind {x : Except Fault α} {f : α → Except Fault β} :
    Ends (x >>= f) ↔ Ends x ∧ ∀ a, x = .ok a → Ends (f a) := by
  constructor
  · intro ends
    refine ⟨⟨?_⟩, ?_⟩
    · rintro rfl
      exact ends.ne_endless rfl
    · rintro a rfl
      exact ends
  · rintro ⟨ends, rest⟩
    cases x with
    | error fault => exact ⟨fun e => ends.ne_endless (by cases e; rfl)⟩
    | ok a => exact rest a rfl

end

@[simp] theorem Size.ends_add (a b : Nat) : Ends (add a b) := by
  unfold add
  split <;> exact ⟨nofun⟩

/-- Of two additions one meets a fault exactly when the whole does not fit. -/
theorem Size.add_bind_add (a b c : Nat) : (add a b >>= fun sum => add sum c) = add a (b + c) := by
  by_cases fits : a + b < limit
  · rw [add_of_lt fits, ok_bind, add, add, Nat.add_assoc]
  · rw [add_of_ge (by omega), error_bind, add_of_ge (by omega)]

namespace Node
variable (node : Node) (base : Nat)

@[simp] theorem ends_total : Ends node.total := by simp [total]

@[simp] theorem ends_leftEdge : Ends (node.leftEdge base) := by simp [leftEdge]

@[simp] theorem ends_rightEdge : Ends (node.rightEdge base) := by simp [rightEdge]

end Node

namespace Arena
variable (arena : Arena)

@[simp] theorem ends_node (id : NodeId) : Ends (arena.node id) := by
  unfold node
  split <;> exact ⟨nofun⟩

@[simp] theorem ends_update (id : NodeId) (change : Node → Node) :
    Ends (arena.update id change) := by
  unfold update
  split <;> exact ⟨nofun⟩

@[simp] theorem ends_updateSome (id : Option NodeId) (change : Node → Node) :
    Ends (arena.updateSome id change) := by
  cases id <;> simp [updateSome]

@[simp] theorem ends_setParent (id parent : Option NodeId) : Ends (arena.setParent id parent) := by
  simp [setParent]

@[simp] theorem ends_subtreeSize (id : Option NodeId) : Ends (arena.subtreeSize id) := by
  cases id <;> simp [subtreeSize]

end Arena
end PieceIndex
