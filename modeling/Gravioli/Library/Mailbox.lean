import Gravioli.Library.Transition

set_option autoImplicit false

/-! # A one-place mailbox

What a hand-off between one producer and its consumers is for, with no word about how it is
implemented: the producer puts a value into an empty slot, a consumer takes it, and the last value
taken is the current one. The history is part of the state and `conserved` is a field, so a mailbox
that lost, repeated or reordered a value cannot be built.

An implementation is shown correct by a simulation into `Mailbox.machine`; `received_prefix` and
`pending_le_one` then hold of its own history. -/

universe u

/-- A mailbox with the history of what was put into it and what was taken out. -/
structure Mailbox (α : Type u) where
  sent : List α
  received : List α
  slot : Option α
  conserved : sent = received ++ slot.toList

namespace Mailbox

variable {α : Type u}

/-- Nothing sent yet. -/
def empty : Mailbox α := ⟨[], [], none, rfl⟩

/-- Put a value into the slot, which has to be empty. -/
def put (m : Mailbox α) (x : α) (h : m.slot = none) : Mailbox α where
  sent := m.sent ++ [x]
  received := m.received
  slot := some x
  conserved := by simp [m.conserved, h]

/-- Take what is in the slot. -/
def take (m : Mailbox α) (x : α) (h : m.slot = some x) : Mailbox α where
  sent := m.sent
  received := m.received ++ [x]
  slot := none
  conserved := by simp [m.conserved, h]

/-- The two operations. -/
inductive Action (α : Type u)
  | put (x : α)
  | take

/-- The mailbox as a machine; an operation that is not possible gives `none`. -/
def machine : Machine (Mailbox α) (Action α) where
  init m := m = empty
  step m
    | .put x => match h : m.slot with
      | none => some (m.put x h)
      | some _ => none
    | .take => match h : m.slot with
      | none => none
      | some x => some (m.take x h)

theorem machine_put {m : Mailbox α} (x : α) (h : m.slot = none) :
    machine.step m (.put x) = some (m.put x h) := by
  simp only [machine]
  split
  · rfl
  · next heq => exact absurd (h.symm.trans heq) (by simp)

theorem machine_take {m : Mailbox α} {x : α} (h : m.slot = some x) :
    machine.step m .take = some (m.take x h) := by
  simp only [machine]
  split
  · next heq => exact absurd (h.symm.trans heq) (by simp)
  · next y heq =>
      obtain rfl : x = y := Option.some.inj (h.symm.trans heq)
      rfl

/-! ## What every mailbox guarantees -/

/-- Values are received in the order they were sent, each once, none skipped. -/
theorem received_prefix (m : Mailbox α) : m.received <+: m.sent :=
  ⟨m.slot.toList, m.conserved.symm⟩

/-- At most one value is waiting. -/
theorem length_sent (m : Mailbox α) : m.sent.length = m.received.length + m.slot.toList.length := by
  rw [m.conserved, List.length_append]

theorem pending_le_one (m : Mailbox α) : m.sent.length ≤ m.received.length + 1 := by
  rw [length_sent]
  cases m.slot <;> simp

end Mailbox
