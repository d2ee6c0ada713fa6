/-
The machine: processor, keypad, screen, speaker, random source, and the cost that it may spend on
one frame.
-/
import PacedChip8.Instruction.Execute
import PacedChip8.Speaker

namespace PacedChip8

/-- The cost of one frame unless another is asked for: a sixtieth of a second in microseconds. -/
def standardBudget : Nat := 16666

/-- How a machine is set up. -/
structure Config where
  /-- The cost that may be spent on one frame. -/
  budget : Nat := standardBudget
  /-- What random bytes start from; left open, they are different every time. -/
  seed : Option UInt64 := none
  deriving DecidableEq

/-- A whole machine. -/
structure Machine where
  cpu : Cpu
  keypad : Keypad
  screen : Screen
  speaker : Speaker
  random : Random.Source
  budget : Nat

namespace Machine

/-- A machine that has not run: initial registers, no key held, a dark screen. Without a seed in the
configuration the random source starts from `entropy`. -/
def create (config : Config) (entropy : UInt64) (speaker : Speaker) : Machine where
  cpu := .initial
  keypad := .idle
  screen := .blank
  speaker := speaker
  random := .ofSeed (config.seed.getD entropy)
  budget := config.budget

end Machine
end PacedChip8
