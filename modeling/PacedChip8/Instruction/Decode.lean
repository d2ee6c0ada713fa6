/-
Reading instruction words. The group of a word decides what it is; in four groups a further field
decides, and some words of these have no meaning. A digit that no field of an instruction uses is
ignored, so several words can decode to one instruction.
-/
import PacedChip8.Instruction.Basic
import PacedChip8.Word

namespace PacedChip8
namespace Instruction

/-- Words that start with `0`; their second digit has no meaning. -/
def decodeSystem (w : UInt16) : Instruction :=
  match Word.low w with
  | 0xE0 => .clear
  | 0x0E => .jumpIndex
  | 0xEE => .ret
  | _ => .unknown w

/-- Words that start with `8`; the last digit chooses the operation. -/
def decodeArithmetic (w : UInt16) : Instruction :=
  let x := Word.x w
  let y := Word.y w
  match Word.last w with
  | 0x0 => .combine .copy x y
  | 0x1 => .combine .or x y
  | 0x2 => .combine .and x y
  | 0x3 => .combine .xor x y
  | 0x4 => .combine .add x y
  | 0x5 => .combine .sub x y
  | 0x6 => .shift .right x
  | 0x7 => .combine .subFrom x y
  | 0xE => .shift .left x
  | _ => .unknown w

/-- Words that start with `E`, about keys. -/
def decodeKey (w : UInt16) : Instruction :=
  match Word.low w with
  | 0x9E => .skip (.keyDown (Word.x w))
  | 0xA1 => .skip (.keyUp (Word.x w))
  | _ => .unknown w

/-- Words that start with `F`, about timers, the index register and memory. -/
def decodeTransfer (w : UInt16) : Instruction :=
  let x := Word.x w
  match Word.low w with
  | 0x07 => .readDelay x
  | 0x0A => .awaitKey x
  | 0x15 => .setDelay x
  | 0x18 => .setSound x
  | 0x1E => .addIndex x
  | 0x29 => .glyph x
  | 0x33 => .decimal x
  | 0x55 => .store x
  | 0x65 => .restore x
  | _ => .unknown w

/-- The instruction that a word stands for. -/
def decode (w : UInt16) : Instruction :=
  match Word.group w with
  | 0x0 => decodeSystem w
  | 0x1 => .jump (Word.address w)
  | 0x2 => .call (Word.address w)
  | 0x3 => .skip (.byteEq (Word.x w) (Word.byte w))
  | 0x4 => .skip (.byteNe (Word.x w) (Word.byte w))
  | 0x5 => .skip (.regEq (Word.x w) (Word.y w))
  | 0x6 => .load (Word.x w) (Word.byte w)
  | 0x7 => .add (Word.x w) (Word.byte w)
  | 0x8 => decodeArithmetic w
  | 0x9 => .skip (.regNe (Word.x w) (Word.y w))
  | 0xA => .setIndex (Word.address w)
  | 0xB => .jumpOffset (Word.address w)
  | 0xC => .random (Word.x w) (Word.byte w)
  | 0xD => .draw (Word.x w) (Word.y w) (Word.rows w)
  | 0xE => decodeKey w
  | _ => decodeTransfer w

end Instruction
end PacedChip8
