/-
The processor: sixteen byte registers, the index register, the program counter, the return
addresses and the two timers, together with the memory that it addresses. Registers are named by
plain numbers and an access is checked: `reg` and `setReg` answer with a fault above fifteen.
-/
import PacedChip8.CallStack
import PacedChip8.Memory.Font

namespace PacedChip8

/-- The state that instructions read and write. -/
structure Cpu where
  v : Vector UInt8 16
  index : UInt16
  pc : UInt16
  stack : CallStack
  delay : UInt8
  sound : UInt8
  memory : Memory
  deriving DecidableEq

namespace Cpu

/-- The number of byte registers. -/
def registers : Nat := 16

/-- All registers and timers zero, the glyphs in memory, the program counter at the program. -/
def initial : Cpu where
  v := Vector.replicate 16 0
  index := 0
  pc := Memory.programStart
  stack := .empty
  delay := 0
  sound := 0
  memory := .withFont

/-- Register `x`. -/
def reg (c : Cpu) (x : Nat) : Except Fault UInt8 :=
  if h : x < 16 then .ok c.v[x] else .error (.register x)

/-- Writes register `x`. -/
def setReg (c : Cpu) (x : Nat) (b : UInt8) : Except Fault Cpu :=
  if h : x < 16 then .ok { c with v := c.v.set x b } else .error (.register x)

/-- Writes the last register, which holds carries and borrows. -/
def setFlag (c : Cpu) (flag : Bool) : Cpu :=
  { c with v := c.v.set 15 (if flag then 1 else 0) }

/-- Moves the program counter past the next instruction. -/
def skip (c : Cpu) : Cpu := { c with pc := c.pc + 2 }

/-- Moves the program counter back to the instruction it has just passed. -/
def retry (c : Cpu) : Cpu := { c with pc := c.pc - 2 }

/-- The first `n` registers. -/
def firstRegisters (c : Cpu) (n : Nat) : List UInt8 := c.v.toList.take n

/-- Writes the first registers from a list, which is cut at the sixteenth. -/
def setFirstRegisters (c : Cpu) (bytes : List UInt8) : Cpu :=
  { c with v := Vector.ofFn fun k : Fin 16 => (bytes[k.val]?).getD (c.v.get k) }

/-- The registers that exist can be read. -/
theorem reg_of_lt (c : Cpu) {x : Nat} (h : x < 16) : c.reg x = .ok c.v[x] := dif_pos h

/-- The others are a fault. -/
theorem reg_of_le (c : Cpu) {x : Nat} (h : 16 ≤ x) : c.reg x = .error (.register x) :=
  dif_neg (Nat.not_lt.2 h)

end Cpu
end PacedChip8
