/-
The size of a window that shows every pixel of the screen as a square. Both sides have to fit in 32
bits.
-/
import PacedChip8.Screen.Basic
import PacedChip8.Numeral

namespace PacedChip8.Window

/-- A magnification that no window can have. -/
structure ScaleTooLarge where
  scale : Nat
  deriving DecidableEq

/-- Names the magnification. -/
def ScaleTooLarge.message (e : ScaleTooLarge) : String :=
  "a scale of " ++ Numeral.decimal e.scale ++ " makes the window too large"

/-- The magnification that is used unless another is asked for. -/
def defaultScale : Nat := 10

/-- Where the numbers end that fit in 32 bits. -/
def sideLimit : Nat := 4294967296

/-- Width and height of the window that shows each pixel `scale` wide and high. -/
def size (scale : Nat) : Except ScaleTooLarge (Nat × Nat) :=
  if Screen.width * scale < sideLimit ∧ Screen.height * scale < sideLimit then
    .ok (Screen.width * scale, Screen.height * scale)
  else .error ⟨scale⟩

end PacedChip8.Window
