/-
The word stream of a key: blocks of sixteen 32-bit words, made by the ChaCha permutation with twelve
rounds. Block `n` starts from four constant words, the key, the 64-bit block number and two zero
words; after the rounds that start is added to what they made of it.
-/
import PacedChip8.Random.Seed

namespace PacedChip8.Random

/-- Sixteen words. -/
abbrev Block := Vector UInt32 16

namespace Block

/-- Mixes four words of a block: each is added to, combined with and rotated by its neighbours. -/
def quarterRound (s : Block) (a b c d : Fin 16) : Block :=
  let s := s.set a (s[a] + s[b])
  let s := s.set d (rotateLeft (s[d] ^^^ s[a]) 16)
  let s := s.set c (s[c] + s[d])
  let s := s.set b (rotateLeft (s[b] ^^^ s[c]) 12)
  let s := s.set a (s[a] + s[b])
  let s := s.set d (rotateLeft (s[d] ^^^ s[a]) 8)
  let s := s.set c (s[c] + s[d])
  s.set b (rotateLeft (s[b] ^^^ s[c]) 7)

/-- Two rounds: one over the columns of the block, one over its diagonals. -/
def doubleRound (s : Block) : Block :=
  let s := quarterRound s 0 4 8 12
  let s := quarterRound s 1 5 9 13
  let s := quarterRound s 2 6 10 14
  let s := quarterRound s 3 7 11 15
  let s := quarterRound s 0 5 10 15
  let s := quarterRound s 1 6 11 12
  let s := quarterRound s 2 7 8 13
  quarterRound s 3 4 9 14

/-- What block `n` of a key starts from. -/
def start (key : Vector UInt32 8) (n : Nat) : Block :=
  #v[0x61707865, 0x3320646E, 0x79622D32, 0x6B206574,
    key[0], key[1], key[2], key[3], key[4], key[5], key[6], key[7],
    UInt32.ofNat n, UInt32.ofNat (n / 4294967296), 0, 0]

/-- Block `n` of a key: six double rounds, and the start added to the outcome. -/
def ofKey (key : Vector UInt32 8) (n : Nat) : Block :=
  let s := start key n
  Vector.zipWith (· + ·) (Nat.repeat doubleRound 6 s) s

end Block

/-- Word `n` of the stream of a key: the blocks one after the other. -/
def word (key : Vector UInt32 8) (n : Nat) : UInt32 :=
  (Block.ofKey key (n / 16))[n % 16]

end PacedChip8.Random
