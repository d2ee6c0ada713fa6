/-
Sprites: rows of eight pixels, one byte a row, the leftmost pixel in the highest bit. A sprite is
put on the screen by flipping the pixels that its set bits fall on; bits that fall to the right of
the screen or below it are dropped.
-/
import PacedChip8.Screen.Basic

namespace PacedChip8.Sprite

/-- The pixels that one row byte falls on, from left to right. -/
def rowCells (left row : Nat) (b : UInt8) : List Nat :=
  (List.range 8).filterMap fun k =>
    if left + k < Screen.width ∧ b.toNat.testBit (7 - k) then
      some (Screen.width * row + (left + k))
    else none

/-- The pixels that a sprite falls on, from its top row down. -/
def cells (left top : Nat) : List UInt8 → List Nat
  | [] => []
  | b :: rest => (if top < Screen.height then rowCells left top b else []) ++ cells left (top + 1) rest

/-- Drawing a sprite: its pixels are flipped, and then the picture is marked, even if no pixel was
on the screen. -/
def commands (left top : Nat) (rows : List UInt8) : List Screen.Command :=
  (cells left top rows).map .flip ++ [.mark true]

end PacedChip8.Sprite
