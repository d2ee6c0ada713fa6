/-
Instruction words. A word has four hexadecimal digits; it is cut into a group (the first digit), two
register numbers (the second and the third), a last digit, a byte (the last two) and an address (the
last three). The fields are plain numbers, so that they can be compared with any register number.
-/

namespace PacedChip8.Word

/-- The first digit, which chooses among the kinds of instruction. -/
def group (w : UInt16) : Nat := w.toNat / 4096

/-- The second digit, a register number. -/
def x (w : UInt16) : Nat := w.toNat / 256 % 16

/-- The third digit, a register number. -/
def y (w : UInt16) : Nat := w.toNat / 16 % 16

/-- The last digit. -/
def last (w : UInt16) : Nat := w.toNat % 16

/-- The last two digits. -/
def low (w : UInt16) : Nat := w.toNat % 256

/-- The last digit, as the height of a sprite. -/
def rows (w : UInt16) : UInt8 := UInt8.ofNat (last w)

/-- The last two digits, as a byte. -/
def byte (w : UInt16) : UInt8 := UInt8.ofNat (low w)

/-- The last three digits, an address. -/
def address (w : UInt16) : UInt16 := UInt16.ofNat (w.toNat % 4096)

/-- The digits of a word give the word back. -/
theorem toNat_eq_digits (w : UInt16) : w.toNat = 4096 * group w + 256 * x w + 16 * y w + last w := by
  simp only [group, x, y, last]
  omega

/-- A register number in a word names a register. -/
theorem x_lt (w : UInt16) : x w < 16 := Nat.mod_lt _ (by decide)

/-- So does the other one. -/
theorem y_lt (w : UInt16) : y w < 16 := Nat.mod_lt _ (by decide)

end PacedChip8.Word
