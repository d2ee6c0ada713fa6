/-
From a seed to a key: eight 32-bit words, each the output of one step of a PCG32 generator that
starts from the 64-bit seed.
-/

namespace PacedChip8.Random

/-- Moves the bits of a word to the left, those that fall out coming in on the right. -/
def rotateLeft (w : UInt32) (n : UInt32) : UInt32 :=
  (w <<< n) ||| (w >>> (32 - n))

/-- Moves the bits of a word to the right, those that fall out coming in on the left. -/
def rotateRight (w : UInt32) (n : UInt32) : UInt32 :=
  (w >>> n) ||| (w <<< (32 - n))

namespace Seed

/-- One step of the generator. -/
def advance (state : UInt64) : UInt64 :=
  state * 6364136223846793005 + 11634580027462260723

/-- The word that the generator gives out in a state: a shifted mix of the high bits, rotated by the
highest five. -/
def output (state : UInt64) : UInt32 :=
  rotateRight (((state >>> 18) ^^^ state) >>> 27).toUInt32 (state >>> 59).toUInt32

/-- The state after `n` steps from the seed. -/
def state (seed : UInt64) : Nat → UInt64
  | 0 => seed
  | n + 1 => advance (state seed n)

/-- The key of a seed: the outputs after one, two, … eight steps. -/
def key (seed : UInt64) : Vector UInt32 8 :=
  Vector.ofFn fun k : Fin 8 => output (state seed (k.val + 1))

end Seed
end PacedChip8.Random
