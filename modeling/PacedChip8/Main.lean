/-
The executable: opens the program file, draws a random start, and leaves the rest to the command
line. It is not linked with a windowing library, so a run in a window ends as it does where there is
no screen to open one on.
-/
import PacedChip8.CommandLine.Run

namespace PacedChip8

open CommandLine

/-- What the operating system said. -/
def systemError (e : IO.Error) : SystemError :=
  match e with
  | .noFileOrDirectory _ _ _ | .noSuchThing _ _ _ => .missing
  | .inappropriateType _ code _ => if code = 20 then .notDirectory else .isDirectory
  | .invalidArgument _ code details =>
    if code = 36 then .nameTooLong else ⟨code.toNat, details⟩
  | .permissionDenied _ code _ => ⟨code.toNat, "Permission denied"⟩
  | _ => ⟨5, toString e⟩

/-- Reads an open file to its end. -/
def readAll (handle : IO.FS.Handle) : IO Reading := do
  try
    return .complete (← handle.readBinToEnd).toList
  catch e =>
    return .failed [] (systemError e).message

/-- Opens and reads a file. -/
def openFile (path : String) : IO Opening := do
  try
    return .opened (← readAll (← IO.FS.Handle.mk path .read))
  catch e =>
    return .refused (systemError e)

/-- There is no screen to open a window on. -/
def noWindows : Windowing where
  start := .error ⟨"SDL error: No available video device", []⟩
  run _ _ _ := .ok ()

/-- A random number of 64 bits. -/
def drawEntropy : IO UInt64 := do
  let bytes ← IO.getRandomBytes 8
  return bytes.toList.foldl (fun n b => n * 256 + b.toUInt64) 0

/-- Runs the program for its arguments. -/
def runProgram (args : List String) : IO Exit := do
  match Options.ofArguments args with
  | .error refusal => return .ofRefusal refusal
  | .ok o => return o.execute (← openFile o.rom) noWindows (← drawEntropy)

end PacedChip8

/-- Writes both outputs and ends with the exit code. -/
def main (args : List String) : IO UInt32 := do
  let exit ← PacedChip8.runProgram args
  IO.print exit.stdout
  IO.eprint exit.stderr
  return UInt32.ofNat exit.code
