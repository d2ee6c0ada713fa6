/-
Writing instruction words. Each instruction has one word; digits that no operand fills are zero. The
operands have to fit their fields: register numbers and heights below sixteen, addresses below 4096.
-/
import PacedChip8.Instruction.Basic

namespace PacedChip8

namespace Word

/-- A word made of a group, a register number and a byte. -/
def ofByte (group x b : Nat) : UInt16 := UInt16.ofNat (4096 * group + 256 * x + b)

/-- A word made of a group, two register numbers and a last digit. -/
def ofDigits (group x y n : Nat) : UInt16 := UInt16.ofNat (4096 * group + 256 * x + 16 * y + n)

/-- A word made of a group and an address. -/
def ofAddress (group : Nat) (a : UInt16) : UInt16 := UInt16.ofNat (4096 * group + a.toNat)

end Word

/-- The last digit of the word of a two-register operation. -/
def Operation.digit : Operation → Nat
  | .copy => 0x0
  | .or => 0x1
  | .and => 0x2
  | .xor => 0x3
  | .add => 0x4
  | .sub => 0x5
  | .subFrom => 0x7

/-- The last digit of the word of a shift. -/
def Direction.digit : Direction → Nat
  | .right => 0x6
  | .left => 0xE

/-- The word of a skip. -/
def Test.encode : Test → UInt16
  | .byteEq x b => Word.ofByte 0x3 x b.toNat
  | .byteNe x b => Word.ofByte 0x4 x b.toNat
  | .regEq x y => Word.ofDigits 0x5 x y 0
  | .regNe x y => Word.ofDigits 0x9 x y 0
  | .keyDown x => Word.ofByte 0xE x 0x9E
  | .keyUp x => Word.ofByte 0xE x 0xA1

/-- The word of an instruction. -/
def Instruction.encode : Instruction → UInt16
  | .clear => 0x00E0
  | .jumpIndex => 0x000E
  | .ret => 0x00EE
  | .jump a => Word.ofAddress 0x1 a
  | .call a => Word.ofAddress 0x2 a
  | .skip t => t.encode
  | .load x b => Word.ofByte 0x6 x b.toNat
  | .add x b => Word.ofByte 0x7 x b.toNat
  | .combine op x y => Word.ofDigits 0x8 x y op.digit
  | .shift d x => Word.ofDigits 0x8 x 0 d.digit
  | .setIndex a => Word.ofAddress 0xA a
  | .jumpOffset a => Word.ofAddress 0xB a
  | .random x mask => Word.ofByte 0xC x mask.toNat
  | .draw x y rows => Word.ofDigits 0xD x y rows.toNat
  | .readDelay x => Word.ofByte 0xF x 0x07
  | .awaitKey x => Word.ofByte 0xF x 0x0A
  | .setDelay x => Word.ofByte 0xF x 0x15
  | .setSound x => Word.ofByte 0xF x 0x18
  | .addIndex x => Word.ofByte 0xF x 0x1E
  | .glyph x => Word.ofByte 0xF x 0x29
  | .decimal x => Word.ofByte 0xF x 0x33
  | .store x => Word.ofByte 0xF x 0x55
  | .restore x => Word.ofByte 0xF x 0x65
  | .unknown w => w

end PacedChip8
