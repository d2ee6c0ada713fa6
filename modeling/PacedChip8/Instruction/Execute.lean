/-
What instructions do. The program counter has already been moved past the instruction, so a skip
adds two to it and a wait takes two away. `transition` gives the processor afterwards and whether
the condition of the instruction held, `drawing` the commands for the screen, and `execute` puts
them together with the cost and the random source. An operand that names no register is a fault when
the register is used, and then the screen is left alone.
-/
import PacedChip8.Cpu
import PacedChip8.Instruction.Cost
import PacedChip8.Keypad.Basic
import PacedChip8.Random.Source
import PacedChip8.Sprite

namespace PacedChip8

/-! ## Tests and results -/

/-- Whether the test holds. -/
def Test.holds (t : Test) (c : Cpu) (keys : Keys) : Except Fault Bool :=
  match t with
  | .byteEq x b => do
    let a ← c.reg x
    return a == b
  | .byteNe x b => do
    let a ← c.reg x
    return a != b
  | .regEq x y => do
    let a ← c.reg x
    let b ← c.reg y
    return a == b
  | .regNe x y => do
    let a ← c.reg x
    let b ← c.reg y
    return a != b
  | .keyDown x => do
    let a ← c.reg x
    return keys.pressed a
  | .keyUp x => do
    let a ← c.reg x
    return !keys.pressed a

namespace Operation

/-- The byte that goes into the first register. -/
def value (op : Operation) (a b : UInt8) : UInt8 :=
  match op with
  | .copy => b
  | .or => a ||| b
  | .and => a &&& b
  | .xor => a ^^^ b
  | .add => a + b
  | .sub => a - b
  | .subFrom => b - a

/-- The flag, for the operations that have one: a carry out of an addition, and for a subtraction
whether something is left. -/
def flag? (op : Operation) (a b : UInt8) : Option Bool :=
  match op with
  | .copy | .or | .and | .xor => none
  | .add => some (decide (255 < a.toNat + b.toNat))
  | .sub => some (decide (b < a))
  | .subFrom => some (decide (a < b))

end Operation

namespace Direction

/-- The byte moved by one bit. -/
def value (d : Direction) (a : UInt8) : UInt8 :=
  match d with
  | .left => a <<< 1
  | .right => a >>> 1

/-- The bit that falls out. -/
def flag (d : Direction) (a : UInt8) : Bool :=
  match d with
  | .left => decide (128 ≤ a)
  | .right => decide (a % 2 = 1)

end Direction

/-- Writes a result and then its flag, if it has one: in the last register the flag wins. -/
def Cpu.setResult (c : Cpu) (x : Nat) (value : UInt8) (flag? : Option Bool) : Except Fault Cpu := do
  let c ← c.setReg x value
  match flag? with
  | none => return c
  | some flag => return c.setFlag flag

namespace Instruction

/-- The three decimal digits of a byte. -/
def decimalDigits (a : UInt8) : List UInt8 := [a / 100, a / 10 % 10, a % 10]

/-! ## The processor, the screen and the random source -/

/-- The processor after the instruction, and whether its condition held; an instruction without a
condition says `true`. -/
def transition (i : Instruction) (c : Cpu) (keys : Keys) (random : Random.Source) :
    Except Fault (Cpu × Bool) :=
  match i with
  | .clear | .unknown _ => .ok (c, true)
  | .jumpIndex => .ok ({ c with pc := c.index }, true)
  | .ret =>
    match c.stack.pop with
    | (.ok none, _) => .ok (c, true)
    | (.ok (some a), rest) => .ok ({ c with stack := rest, pc := a }, true)
    | (.error fault, _) => .error fault
  | .jump a => .ok ({ c with pc := a }, true)
  | .call a =>
    match c.stack.push? c.pc with
    | none => .ok (c, true)
    | some stack => .ok ({ c with stack := stack, pc := a }, true)
  | .skip t => do
    let held ← t.holds c keys
    return (if held then c.skip else c, held)
  | .load x b => do
    return (← c.setReg x b, true)
  | .add x b => do
    let a ← c.reg x
    return (← c.setReg x (a + b), true)
  | .combine op x y => do
    let a ← c.reg x
    let b ← c.reg y
    return (← c.setResult x (op.value a b) (op.flag? a b), true)
  | .shift d x => do
    let a ← c.reg x
    return (← c.setResult x (d.value a) (some (d.flag a)), true)
  | .setIndex a => .ok ({ c with index := a }, true)
  | .jumpOffset a => do
    let b ← c.reg 0
    return ({ c with pc := a + b.toUInt16 }, true)
  | .random x mask => do
    return (← c.setReg x (random.byte &&& mask), true)
  | .draw x y _ => do
    let _ ← c.reg x
    let _ ← c.reg y
    return (c, true)
  | .readDelay x => do
    return (← c.setReg x c.delay, true)
  | .awaitKey x =>
    match keys.firstReleased? with
    | none => .ok (c.retry, false)
    | some key => do
      return (← c.setReg x key, true)
  | .setDelay x => do
    let a ← c.reg x
    return ({ c with delay := a }, true)
  | .setSound x => do
    let a ← c.reg x
    return ({ c with sound := a }, true)
  | .addIndex x => do
    let a ← c.reg x
    return ({ c with index := c.index + a.toUInt16 }, true)
  | .glyph x => do
    let a ← c.reg x
    return ({ c with index := Memory.fontStart + a.toUInt16 }, true)
  | .decimal x => do
    let a ← c.reg x
    return ({ c with memory := c.memory.write c.index (decimalDigits a) }, true)
  | .store x => do
    let _ ← c.reg x
    return ({ c with memory := c.memory.write c.index (c.firstRegisters (x + 1)) }, true)
  | .restore x => do
    let _ ← c.reg x
    return (c.setFirstRegisters (c.memory.read c.index (x + 1)), true)

/-- What the instruction does to the screen. The column of a sprite is taken modulo the width of the
screen; its row is not, so a sprite that starts below the screen shows nothing. -/
def drawing (i : Instruction) (c : Cpu) : List Screen.Command :=
  match i with
  | .clear => [.clear]
  | .draw x y rows =>
    match c.reg x, c.reg y with
    | .ok left, .ok top =>
      Sprite.commands (left.toNat % Screen.width) top.toNat (c.memory.read c.index rows.toNat)
    | _, _ => []
  | _ => []

/-- Whether the instruction takes a word from the random source. -/
def drawsRandom : Instruction → Bool
  | .random .. => true
  | _ => false

/-! ## All together -/

/-- Everything that carrying out one instruction gives. -/
structure Execution where
  /-- The processor and the cost, or why the instruction could not be carried out. -/
  result : Except Fault (Cpu × Nat)
  /-- What happens to the screen, in order. -/
  commands : List Screen.Command
  /-- The random source afterwards. -/
  random : Random.Source

/-- Carries out an instruction. A word is taken from the random source before the register it goes
to is looked at. -/
def execute (i : Instruction) (c : Cpu) (keys : Keys) (random : Random.Source) : Execution where
  result := (i.transition c keys random).map fun (next, held) => (next, i.cost held)
  commands := i.drawing c
  random := if i.drawsRandom then random.advance else random

end Instruction
end PacedChip8
