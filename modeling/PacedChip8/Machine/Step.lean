/-
One step of a machine: the word at the program counter is fetched, the program counter moves past
it, and the instruction that the word stands for is carried out on the processor and the screen.
-/
import PacedChip8.Instruction.Decode
import PacedChip8.Log
import PacedChip8.Machine.Basic

namespace PacedChip8.Machine

/-- A machine after one step, with what the step was. -/
structure Stepped where
  machine : Machine
  /-- The instruction that was carried out. -/
  instruction : Instruction
  cost : Nat
  /-- What the step reported, in order. -/
  log : List Log.Entry

/-- The word at the program counter. -/
def fetchedWord (m : Machine) : UInt16 := m.cpu.memory.word m.cpu.pc

/-- The instruction that comes next. -/
def instruction (m : Machine) : Instruction := .decode m.fetchedWord

/-- The processor once the program counter has moved past the next instruction. -/
def fetchedCpu (m : Machine) : Cpu := { m.cpu with pc := m.cpu.pc + 2 }

/-- What is reported before an instruction is carried out. -/
def fetchEntry (m : Machine) : Log.Entry :=
  match m.instruction with
  | .unknown _ => .unknownWord m.cpu.pc m.fetchedWord
  | i => .executing m.cpu.pc m.fetchedWord i m.cpu.v m.cpu.index

/-- What an instruction reports about the stack: a return that finds none, a call that finds no
room. -/
def stackEntry (i : Instruction) (c : Cpu) : List Log.Entry :=
  match i with
  | .ret => if c.stack.depth = 0 then [.emptyReturn c.pc] else []
  | .call a => if CallStack.capacity ≤ c.stack.depth then [.fullCall a] else []
  | _ => []

/-- Carries out the next instruction. -/
def step (m : Machine) : Except Fault Stepped :=
  let i := m.instruction
  let done := i.execute m.fetchedCpu m.keypad.keys m.random
  done.result.map fun (cpu, cost) =>
    { machine := { m with
        cpu := cpu
        screen := m.screen.run done.commands
        random := done.random }
      instruction := i
      cost := cost
      log := m.fetchEntry :: stackEntry i m.fetchedCpu }

end PacedChip8.Machine
