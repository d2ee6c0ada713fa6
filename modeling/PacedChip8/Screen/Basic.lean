/-
The screen: 64 by 32 pixels that are lit or dark, row by row from the top left, and a mark that says
whether the picture has to be shown again. What the machine does to the screen is data, a list of
commands; flipping a pixel leaves the mark alone, and a flip outside the screen does nothing.
-/

namespace PacedChip8

/-- The picture and whether it has to be shown again. -/
structure Screen where
  pixels : Vector Bool 2048
  dirty : Bool
  deriving DecidableEq

namespace Screen

/-- Pixels in a row. -/
def width : Nat := 64

/-- The number of rows. -/
def height : Nat := 32

/-- Every pixel dark, nothing to show. -/
def blank : Screen := ⟨Vector.replicate 2048 false, false⟩

/-- What can be done to a screen. -/
inductive Command where
  /-- Darkens every pixel and marks the picture. -/
  | clear
  /-- Inverts the pixel with this number, counting row by row. -/
  | flip (index : Nat)
  /-- Sets or takes away the mark. -/
  | mark (dirty : Bool)
  deriving DecidableEq

/-- Inverts one pixel; a number past the last pixel changes nothing. -/
def flip (s : Screen) (index : Nat) : Screen :=
  if h : index < 2048 then { s with pixels := s.pixels.set index (!s.pixels[index]) } else s

/-- Carries out one command. -/
def apply (s : Screen) : Command → Screen
  | .clear => ⟨blank.pixels, true⟩
  | .flip index => s.flip index
  | .mark dirty => { s with dirty := dirty }

/-- Carries out commands in order. -/
def run (s : Screen) (commands : List Command) : Screen :=
  commands.foldl apply s

/-- Whether the pixel in column `x` of row `y` is lit; outside the screen none is. -/
def pixel (s : Screen) (x y : Nat) : Bool :=
  if h : x < 64 ∧ y < 32 then s.pixels[64 * y + x] else false

/-- The number of lit pixels. -/
def lit (s : Screen) : Nat := s.pixels.count true

/-- A flip inverts the pixel with its number, if that is on the screen, and no other. -/
theorem pixel_flip (s : Screen) (index x y : Nat) :
    (s.flip index).pixel x y =
      if x < 64 ∧ y < 32 ∧ index = 64 * y + x then !s.pixel x y else s.pixel x y := by
  unfold flip pixel
  by_cases hxy : x < 64 ∧ y < 32
  · by_cases hi : index < 2048
    · simp only [hi, hxy, and_self, dif_pos, true_and, Vector.getElem_set]
      split <;> simp_all
    · have : index ≠ 64 * y + x := by omega
      simp [hi, this]
  · have : ¬(x < 64 ∧ y < 32 ∧ index = 64 * y + x) := fun h => hxy ⟨h.1, h.2.1⟩
    rw [if_neg this, dif_neg hxy, dif_neg hxy]

end Screen
end PacedChip8
