/-
Loading a program. The bytes come from a reading that either went through or broke off; they are
copied to the start of the program area if they fit, and otherwise the machine stays as it was. Only
a load that succeeded is reported.
-/
import PacedChip8.Log
import PacedChip8.Machine.Basic

namespace PacedChip8

/-- How reading a program went. -/
inductive Reading where
  /-- It came to the end. -/
  | complete (bytes : List UInt8)
  /-- It broke off after some bytes. -/
  | failed (bytes : List UInt8) (cause : String)
  deriving DecidableEq

/-- Why a program was not loaded. -/
inductive LoadError where
  | unreadable (cause : String)
  | tooLarge (size : Nat)
  | outOfRange (e : OutOfRange)
  deriving DecidableEq

namespace LoadError

/-- Says what went wrong. -/
def message : LoadError → String
  | unreadable _ => "unable to read ROM"
  | tooLarge size =>
    "ROM is " ++ Numeral.decimal size ++ " bytes but only " ++
      Numeral.decimal Memory.programCapacity ++ " bytes fit in memory"
  | outOfRange e => e.message

/-- The message, and after it what it was caused by. -/
def messages : LoadError → List String
  | unreadable cause => [(unreadable cause).message, cause]
  | e => [e.message]

end LoadError

namespace Machine

/-- Loads a program, and tells what is reported. -/
def load (m : Machine) (reading : Reading) : Except LoadError Machine × List Log.Entry :=
  match reading with
  | .failed _ cause => (.error (.unreadable cause), [])
  | .complete bytes =>
    if Memory.programCapacity < bytes.length then (.error (.tooLarge bytes.length), [])
    else
      match m.cpu.memory.load Memory.programStart bytes with
      | .error e => (.error (.outOfRange e), [])
      | .ok memory => (.ok { m with cpu := { m.cpu with memory := memory } }, [.loaded bytes.length])

end Machine
end PacedChip8
