/-
Where the sixteen keys lie on a keyboard: a block of four by four, the digits `1` to `4` and the
letters below them.
-/

namespace PacedChip8.Keypad

/-- The keys of the keyboard block, row by row, each with the keypad key in its place. -/
def layout : List (Char × UInt8) := [
  ('1', 0x1), ('2', 0x2), ('3', 0x3), ('4', 0xC),
  ('q', 0x4), ('w', 0x5), ('e', 0x6), ('r', 0xD),
  ('a', 0x7), ('s', 0x8), ('d', 0x9), ('f', 0xE),
  ('z', 0xA), ('x', 0x0), ('c', 0xB), ('v', 0xF)]

/-- The keypad key that a keyboard key stands for. The keyboard key is named by the code of the
character on it, without shift. -/
def keyOfCode? (code : Int) : Option UInt8 :=
  (layout.find? fun entry => (entry.1.toNat : Int) = code).map Prod.snd

end PacedChip8.Keypad
