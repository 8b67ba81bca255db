import Mathlib.Data.Nat.Notation

/-! # The handling of an event

`ProcessEventConn` and `ProcessUserEvent` dispatch the send queue of whoever has raised the event, clear it and
read one command. What is posted behind the loop over the send queue is lost if it comes before `clear()`, and
has to wait for the next event if it comes later.
-/
namespace Myframe
set_option autoImplicit false

/-- The handler is in the loop over the send queue, at the `clear()` behind it, or at the command. -/
inductive EventPc where
  | draining
  | clearing
  | receiving
  deriving DecidableEq, Repr

namespace EventPc

variable {α : Type}

/-- The steps that are left apart from the messages; where no event is handled, those of the next one. -/
def left (event : Option α) (pc : EventPc) : ℕ :=
  match event, pc with
  | none, _ => 3
  | some _, .draining => 2
  | some _, .clearing => 1
  | some _, .receiving => 0

theorem left_le (event : Option α) (pc : EventPc) : pc.left event ≤ 3 := by
  cases event with
  | none => exact Nat.le_refl 3
  | some a => cases pc <;> simp [left]

variable [DecidableEq α]

/-- The commands of `a` that announce nothing that is still posted: the one that the event is about, once the
loop over the send queue has ended. -/
def heard (event : Option α) (pc : EventPc) (a : α) : ℕ := if event = some a ∧ pc ≠ .draining then 1 else 0

theorem heard_draining (event : Option α) (a : α) : EventPc.draining.heard event a = 0 :=
  if_neg fun h => h.2 rfl

theorem heard_of_ne {event : Option α} {a : α} (pc : EventPc) (h : event ≠ some a) : pc.heard event a = 0 :=
  if_neg fun hEvent => h hEvent.1

theorem heard_self {pc : EventPc} (a : α) (h : pc ≠ .draining) : pc.heard (some a) a = 1 := if_pos ⟨rfl, h⟩

end EventPc
end Myframe
