/-
A source of random bytes: a stream of words and how many of them have been taken. A byte is the low
part of one word.
-/
import PacedChip8.Random.Block

namespace PacedChip8.Random

/-- A stream of words, of which the first `position` have been taken. -/
structure Source where
  stream : Nat → UInt32
  position : Nat

namespace Source

/-- The stream of a seed, from its first word. -/
def ofSeed (seed : UInt64) : Source :=
  let key := Seed.key seed
  ⟨word key, 0⟩

/-- The words of a list over and over; zeros if there are none. -/
def cycle (words : List UInt32) : Source :=
  ⟨fun n => words.getD (n % words.length) 0, 0⟩

/-- The byte that comes next. -/
def byte (s : Source) : UInt8 := (s.stream s.position).toUInt8

/-- Takes one word. -/
def advance (s : Source) : Source := { s with position := s.position + 1 }

end Source
end PacedChip8.Random
