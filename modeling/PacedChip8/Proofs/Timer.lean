/-
The two timers, as one notion: both are set by one kind of instruction from a register, and both are
counted down at the start of a frame and stay at zero.
-/
import PacedChip8.Cpu
import PacedChip8.Instruction.Basic
import Mathlib.Tactic

namespace PacedChip8

/-- One of the two timers. -/
inductive Timer where
  | delay
  | sound
  deriving DecidableEq

namespace Timer

def value (timer : Timer) (c : Cpu) : UInt8 :=
  match timer with
  | delay => c.delay
  | sound => c.sound

/-- The instruction that sets the timer to register `x`. -/
def setter (timer : Timer) (x : Nat) : Instruction :=
  match timer with
  | delay => .setDelay x
  | sound => .setSound x

/-- The byte that the instruction sets the timer to, if it sets it: what the named register holds. -/
def setting? (timer : Timer) (i : Instruction) (c : Cpu) : Option UInt8 :=
  match timer, i with
  | delay, .setDelay x => c.v[x]?
  | sound, .setSound x => c.v[x]?
  | _, _ => none

/-- The timer after an instruction. -/
def after (timer : Timer) (i : Instruction) (c : Cpu) : UInt8 := (timer.setting? i c).getD (timer.value c)

theorem setting?_setter (timer : Timer) {x : Nat} (hx : x < 16) (c : Cpu) :
    timer.setting? (timer.setter x) c = some c.v[x] := by
  cases timer <;> simp [setting?, setter, hx]

theorem setting?_eq_none {timer : Timer} {i : Instruction} {c : Cpu} (hi : ∀ x, i ≠ timer.setter x) :
    timer.setting? i c = none := by
  cases timer with
  | delay => cases i with | setDelay x => exact absurd rfl (hi x) | _ => rfl
  | sound => cases i with | setSound x => exact absurd rfl (hi x) | _ => rfl

/-- Counting down is subtraction of natural numbers, which stays at zero. -/
theorem toNat_countDown (b : UInt8) : (if b = 0 then 0 else b - 1).toNat = b.toNat - 1 := by
  split
  · rename_i h
    rw [h]
    rfl
  · rename_i h
    have hpos : 1 ≤ b := by
      rw [UInt8.le_iff_toNat_le, UInt8.toNat_one]
      have hne : b.toNat ≠ 0 := fun h0 => h (UInt8.toNat_inj.1 h0)
      omega
    rw [UInt8.toNat_sub_of_le _ _ hpos, UInt8.toNat_one]

end Timer
end PacedChip8
