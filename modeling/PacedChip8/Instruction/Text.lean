/-
Instructions as text: a mnemonic, and the operands in decimal between brackets if there are any.
-/
import PacedChip8.Instruction.Basic
import PacedChip8.Numeral

namespace PacedChip8

/-- The mnemonic of a skip. -/
def Test.mnemonic : Test → String
  | .byteEq .. => "Ske"
  | .byteNe .. => "Skne"
  | .regEq .. => "Skre"
  | .regNe .. => "Skrne"
  | .keyDown .. => "Skpr"
  | .keyUp .. => "Skup"

/-- The mnemonic of a two-register operation. -/
def Operation.mnemonic : Operation → String
  | .copy => "Mv"
  | .or => "Or"
  | .and => "And"
  | .xor => "Xor"
  | .add => "Addr"
  | .sub => "Sub"
  | .subFrom => "Subn"

/-- The mnemonic of a shift. -/
def Direction.mnemonic : Direction → String
  | .right => "Shr"
  | .left => "Shl"

/-- The operands of a skip. -/
def Test.operands : Test → List Nat
  | .byteEq x b | .byteNe x b => [x, b.toNat]
  | .regEq x y | .regNe x y => [x, y]
  | .keyDown x | .keyUp x => [x]

namespace Instruction

/-- The mnemonic of an instruction. -/
def mnemonic : Instruction → String
  | .clear => "Cls"
  | .jumpIndex => "Jpi"
  | .ret => "Rts"
  | .jump _ => "Jump"
  | .call _ => "Call"
  | .skip t => t.mnemonic
  | .load .. => "Load"
  | .add .. => "Add"
  | .combine op _ _ => op.mnemonic
  | .shift d _ => d.mnemonic
  | .setIndex _ => "Loadi"
  | .jumpOffset _ => "Jumpi"
  | .random .. => "Rand"
  | .draw .. => "Draw"
  | .readDelay _ => "Moved"
  | .awaitKey _ => "Keyd"
  | .setDelay _ => "Loads"
  | .setSound _ => "Ld"
  | .addIndex _ => "Addi"
  | .glyph _ => "Ldspr"
  | .decimal _ => "Bcd"
  | .store _ => "Stor"
  | .restore _ => "Read"
  | .unknown _ => "Unknown"

/-- The operands, in the order in which they are written. -/
def operands : Instruction → List Nat
  | .clear | .jumpIndex | .ret => []
  | .jump a | .call a | .setIndex a | .jumpOffset a | .unknown a => [a.toNat]
  | .skip t => t.operands
  | .load x b | .add x b | .random x b => [x, b.toNat]
  | .combine _ x y => [x, y]
  | .draw x y rows => [x, y, rows.toNat]
  | .shift _ x | .readDelay x | .awaitKey x | .setDelay x | .setSound x | .addIndex x | .glyph x
  | .decimal x | .store x | .restore x => [x]

/-- The mnemonic followed by the operands. -/
def text (i : Instruction) : String :=
  match i.operands with
  | [] => i.mnemonic
  | ns => i.mnemonic ++ "(" ++ String.intercalate ", " (ns.map Numeral.decimal) ++ ")"

end Instruction
end PacedChip8
