/-
What stops a machine for good. No fetched instruction of a machine that was started and run in the
ordinary way gives rise to a fault; instructions and registers that were put together by hand can.
-/
import PacedChip8.Numeral

namespace PacedChip8

/-- An access outside the registers or the return addresses. -/
inductive Fault where
  /-- A register number above fifteen. -/
  | register (index : Nat)
  /-- A return address above the last slot. -/
  | slot (index : Nat)
  deriving DecidableEq

namespace Fault

/-- Names the access. -/
def message : Fault → String
  | register index => "there is no register " ++ Numeral.decimal index
  | slot index => "there is no return address " ++ Numeral.decimal index

end Fault
end PacedChip8
