/-
Pictures of a screen: its rows as bits, as text with `#` for a lit pixel and `.` for a dark one, and
as bytes with a red, a green and a blue value a pixel.
-/
import PacedChip8.Screen.Basic

namespace PacedChip8.Screen

/-- The rows from the top, each from left to right. -/
def rows (s : Screen) : List (List Bool) :=
  (List.range height).map fun y => (List.range width).map fun x => s.pixel x y

/-- One character a pixel. -/
def symbol (lit : Bool) : Char := if lit then '#' else '.'

/-- The characters of the text form: one line a row, each ended by a newline. -/
def textChars (s : Screen) : List Char :=
  s.rows.flatMap fun row => row.map symbol ++ ['\n']

/-- The picture as text. -/
def text (s : Screen) : String := String.ofList s.textChars

/-- Three equal bytes a pixel, row by row: 255 for a lit one and 0 for a dark one. -/
def rgb (s : Screen) : List UInt8 :=
  s.pixels.toList.flatMap fun lit => List.replicate 3 (if lit then 255 else 0)

end PacedChip8.Screen
