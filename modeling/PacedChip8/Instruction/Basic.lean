/-
The instructions. Registers are operands by number, and any number can be written down; those that
come from an instruction word are below sixteen. Instructions of one shape share a constructor: the
six skips differ in their `Test`, the two-register operations in their `Operation`, the shifts in
their `Direction`.
-/

namespace PacedChip8

/-- What a skip asks of registers and keys. -/
inductive Test where
  /-- The register holds the byte. -/
  | byteEq (x : Nat) (b : UInt8)
  /-- The register holds another byte. -/
  | byteNe (x : Nat) (b : UInt8)
  /-- Both registers hold the same byte. -/
  | regEq (x y : Nat)
  /-- The registers hold different bytes. -/
  | regNe (x y : Nat)
  /-- The key named by the register is down. -/
  | keyDown (x : Nat)
  /-- The key named by the register is not down. -/
  | keyUp (x : Nat)
  deriving DecidableEq

/-- How two registers are combined into the first of them. -/
inductive Operation where
  | copy
  | or
  | and
  | xor
  | add
  /-- The second register is taken from the first. -/
  | sub
  /-- The first register is taken from the second. -/
  | subFrom
  deriving DecidableEq

/-- Where a shift moves the bits of a register. -/
inductive Direction where
  | left
  | right
  deriving DecidableEq

/-- One instruction. -/
inductive Instruction where
  /-- Darkens the screen. -/
  | clear
  /-- Jumps to the address in the index register. -/
  | jumpIndex
  /-- Jumps to the return address on top of the stack. -/
  | ret
  | jump (a : UInt16)
  /-- Jumps and leaves a return address on the stack. -/
  | call (a : UInt16)
  /-- Passes over the next instruction if the test holds. -/
  | skip (t : Test)
  | load (x : Nat) (b : UInt8)
  | add (x : Nat) (b : UInt8)
  | combine (op : Operation) (x y : Nat)
  | shift (d : Direction) (x : Nat)
  | setIndex (a : UInt16)
  /-- Jumps to the sum of an address and the first register. -/
  | jumpOffset (a : UInt16)
  /-- Loads a random byte under a mask. -/
  | random (x : Nat) (mask : UInt8)
  /-- Flips the pixels of a sprite whose column and row are in registers. -/
  | draw (x y : Nat) (rows : UInt8)
  | readDelay (x : Nat)
  /-- Loads the number of a key that has just been let go, and waits for one. -/
  | awaitKey (x : Nat)
  | setDelay (x : Nat)
  | setSound (x : Nat)
  | addIndex (x : Nat)
  /-- Sets the index register to the start of the font, moved on by the register in bytes. -/
  | glyph (x : Nat)
  /-- Stores the three decimal digits of the register. -/
  | decimal (x : Nat)
  /-- Stores the registers up to this one. -/
  | store (x : Nat)
  /-- Loads the registers up to this one. -/
  | restore (x : Nat)
  /-- A word without a meaning; it does nothing. -/
  | unknown (w : UInt16)
  deriving DecidableEq

end PacedChip8
