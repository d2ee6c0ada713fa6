/-
The stack of return addresses: sixteen slots and a depth. A push on a full stack and a pop from an
empty one change nothing; a popped slot keeps its word until a later push overwrites it. The depth
is a bare number, so a depth above sixteen can be written down; then a push is refused and a pop
faults.
-/
import PacedChip8.Fault

namespace PacedChip8

/-- Return addresses, of which the first `depth` are live. -/
structure CallStack where
  depth : Nat
  slots : Vector UInt16 16
  deriving DecidableEq

namespace CallStack

/-- The number of slots. -/
def capacity : Nat := 16

/-- No live address, every slot zero. -/
def empty : CallStack := ⟨0, Vector.replicate 16 0⟩

/-- Writes the slot above the live ones; `none` if there is none left. -/
def push? (s : CallStack) (a : UInt16) : Option CallStack :=
  if h : s.depth < 16 then some ⟨s.depth + 1, s.slots.set s.depth a⟩ else none

/-- Takes the last live address. The answer is `none` on an empty stack, and a fault if the depth
points behind the last slot; the depth is lowered even then, which is why the stack afterwards
stands beside the answer. -/
def pop (s : CallStack) : Except Fault (Option UInt16) × CallStack :=
  match s.depth with
  | 0 => (.ok none, s)
  | d + 1 =>
    (if h : d < 16 then .ok (some s.slots[d]) else .error (.slot d), { s with depth := d })

/-- A push is refused exactly when no slot is left. -/
theorem push?_eq_none_iff (s : CallStack) (a : UInt16) : s.push? a = none ↔ 16 ≤ s.depth := by
  unfold push?
  split <;> simp <;> omega

/-- The address pushed last is the one that is popped, and what was below it is left. -/
theorem pop_of_push? {s t : CallStack} {a : UInt16} (h : s.push? a = some t) :
    t.pop = (.ok (some a), { t with depth := s.depth }) := by
  unfold push? at h
  split at h
  · rename_i hd
    cases h
    simp [pop, hd]
  · cases h

end CallStack
end PacedChip8
