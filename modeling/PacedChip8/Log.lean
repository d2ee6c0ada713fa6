/-
The log: what a running machine reports, as data, with the level and the text of each entry.
-/
import PacedChip8.Instruction.Text

namespace PacedChip8.Log

/-- How much an entry matters. -/
inductive Level where
  | info
  | debug
  | trace
  deriving DecidableEq

/-- The name of a level. -/
def Level.text : Level → String
  | .info => "INFO"
  | .debug => "DEBUG"
  | .trace => "TRACE"

/-- One report. -/
inductive Entry where
  /-- A program of so many bytes was loaded. -/
  | loaded (length : Nat)
  /-- An instruction is about to be carried out, with the registers as they are before. -/
  | executing (pc word : UInt16) (i : Instruction) (v : Vector UInt8 16) (index : UInt16)
  /-- The word that was fetched has no meaning. -/
  | unknownWord (pc word : UInt16)
  /-- A return found no address on the stack; `pc` is already past the instruction. -/
  | emptyReturn (pc : UInt16)
  /-- A call found the stack full. -/
  | fullCall (address : UInt16)
  /-- The tone was switched on, or was on already and is switched on again. -/
  | toneOn
  /-- The tone was switched off. -/
  | toneOff
  deriving DecidableEq

namespace Entry

/-- Loading is information, ordinary execution the finest detail, all else in between. -/
def level : Entry → Level
  | loaded _ => .info
  | executing .. => .trace
  | _ => .debug

/-- Registers as two digits each, in brackets. -/
def registersText (v : Vector UInt8 16) : String :=
  "[" ++ String.intercalate ", " (v.toList.map fun b => Numeral.hexUpper 2 b.toNat) ++ "]"

/-- The line of an entry. -/
def text : Entry → String
  | loaded length => "loaded " ++ Numeral.decimal length ++ " byte ROM"
  | executing pc word i v index =>
    Numeral.address pc ++ ": " ++ Numeral.hexUpper 4 word.toNat ++ " " ++ i.text ++ " v" ++
      registersText v ++ " i" ++ Numeral.hexUpper 4 index.toNat
  | unknownWord pc word =>
    Numeral.address pc ++ ": unknown opcode " ++ Numeral.hexUpper 4 word.toNat
  | emptyReturn pc => "return with an empty stack at " ++ Numeral.address pc
  | fullCall address => "call to " ++ Numeral.address address ++ " with a full stack"
  | toneOn => "tone on"
  | toneOff => "tone off"

end Entry
end PacedChip8.Log
