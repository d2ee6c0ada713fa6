/-
Runs of a machine: what can happen to it from outside is an event, and a run carries out events in
order. A load that fails leaves the machine as it was. `headless` is the run without anybody at the
keypad: every frame samples the keys, none of which moves, and ticks.
-/
import PacedChip8.Machine.Frame
import PacedChip8.Machine.Load

namespace PacedChip8.Machine

/-- What can happen to a machine. -/
inductive Event where
  /-- One instruction is carried out. -/
  | step
  /-- One frame goes by. -/
  | tick
  | load (reading : Reading)
  | press (key : UInt8)
  | release (key : UInt8)
  /-- The keypad remembers which keys are held. -/
  | sample
  /-- Somebody other than the program acts on the screen. -/
  | display (command : Screen.Command)
  deriving DecidableEq

/-- The machine with another program, or as it is if the program cannot be loaded. -/
def loaded (m : Machine) (reading : Reading) : Machine :=
  match (m.load reading).1 with
  | .ok next => next
  | .error _ => m

/-- The machine after its keypad has changed. -/
def withKeypad (m : Machine) (f : Keypad → Keypad) : Machine := { m with keypad := f m.keypad }

/-- What an event does, its steps being observed. -/
def handle {α : Type} (observe : Observer α) (m : Machine) (seen : α) :
    Event → Except Fault (Machine × α)
  | .step => m.step.map fun s => (s.machine, observe seen m s)
  | .tick => m.observeTick observe seen
  | .load reading => .ok (m.loaded reading, seen)
  | .press key => .ok (m.withKeypad (·.press key), seen)
  | .release key => .ok (m.withKeypad (·.release key), seen)
  | .sample => .ok (m.withKeypad Keypad.sample, seen)
  | .display command => .ok ({ m with screen := m.screen.apply command }, seen)

/-- Carries out events in order, the steps of all of them being observed. -/
def observeRun {α : Type} (observe : Observer α) (m : Machine) (seen : α) :
    List Event → Except Fault (Machine × α)
  | [] => .ok (m, seen)
  | e :: rest =>
    match m.handle observe seen e with
    | .error fault => .error fault
    | .ok (next, seen) => next.observeRun observe seen rest

/-- What happens in two parts happens in the second from where the first has led. -/
theorem observeRun_append {α : Type} (observe : Observer α) (m : Machine) (seen : α)
    (first second : List Event) :
    m.observeRun observe seen (first ++ second) =
      match m.observeRun observe seen first with
      | .error fault => .error fault
      | .ok (next, seen) => next.observeRun observe seen second := by
  induction first generalizing m seen with
  | nil => rfl
  | cons e rest ih =>
    simp only [List.cons_append, observeRun]
    split
    · rfl
    · exact ih _ _

/-- Carries out events in order. -/
def run (m : Machine) (events : List Event) : Except Fault Machine :=
  (m.observeRun (fun _ _ _ => ()) () events).map Prod.fst

/-- Runs so many frames with the keys left alone. -/
def headless (m : Machine) : Nat → Except Fault Machine
  | 0 => .ok m
  | n + 1 =>
    match (m.withKeypad Keypad.sample).tick with
    | .error fault => .error fault
    | .ok next => next.headless n

end PacedChip8.Machine
