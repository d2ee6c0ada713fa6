/-
The program as a function: from arguments, files, a windowing library and a start for random numbers
to an exit. The program file is opened and loaded before it matters whether a window is wanted. What
goes on in a window is the library's, with whoever sits in front of it, so a `Windowing` answers for
it; the size of the window is worked out here.
-/
import PacedChip8.CommandLine.Directory
import PacedChip8.CommandLine.Exit
import PacedChip8.Machine.Run
import PacedChip8.Screen.Picture
import PacedChip8.Window

namespace PacedChip8.CommandLine

/-! ## Windows -/

/-- What did not work, and what it was caused by. -/
structure Failure where
  attempt : String
  causes : List String
  deriving DecidableEq

/-- What a windowing library answers. -/
structure Windowing where
  /-- Whether it starts, and finds a screen. -/
  start : Except Failure Unit
  /-- What comes of a machine in a window of some width and height, until the window is closed. -/
  run : Nat → Nat → Machine → Except Failure Unit

/-- Runs a machine in a window that shows each pixel `scale` wide and high. The library is started
before the size is looked at. -/
def Windowing.present (w : Windowing) (scale : Nat) (m : Machine) : Except Failure Unit :=
  w.start.bind fun _ =>
    match Window.size scale with
    | .error e => .error ⟨e.message, []⟩
    | .ok (width, height) => w.run width height m

/-! ## The program -/

/-- The machine that the options ask for. -/
def Options.machine (o : Options) (entropy : UInt64) : Machine :=
  .create o.config entropy (.fresh false)

/-- Runs a machine for the frames asked for and shows its screen as text, or runs it in a window. -/
def Options.present (o : Options) (windows : Windowing) (m : Machine) : Exit :=
  if o.headless then
    match m.headless o.frames with
    | .ok final => .success final.screen.text
    | .error fault => .stopped fault
  else
    match windows.present o.scale m with
    | .ok _ => .success ""
    | .error failure => .failure failure.attempt failure.causes

/-- What follows once the path has been opened. -/
def Options.execute (o : Options) (opening : Opening) (windows : Windowing) (entropy : UInt64) : Exit :=
  match opening with
  | .refused e => .failure ("unable to open " ++ o.rom) [e.message]
  | .opened reading =>
    match ((o.machine entropy).load reading).1 with
    | .error e => .failure ("unable to load " ++ o.rom) e.messages
    | .ok m => o.present windows m

/-- The whole program in a working directory with known files. -/
def run (args : List String) (directory : Directory) (windows : Windowing) (entropy : UInt64) : Exit :=
  match Options.ofArguments args with
  | .error refusal => .ofRefusal refusal
  | .ok o => o.execute (directory.openPath o.rom) windows entropy

end PacedChip8.CommandLine
