/-
Frames. A frame first counts both timers down and lets the speaker follow the sound timer, and then
runs a burst of steps: at least one, until one of them costs nothing or the budget is spent. What is
left of the budget shrinks with every step, so a burst ends whatever the program does. Nothing is
carried over from one frame to the next. Bursts and frames take an observer, which collects
something from each step.
-/
import PacedChip8.Machine.Step

namespace PacedChip8.Machine

/-- Collects something from the machine before a step and what the step gave. -/
abbrev Observer (α : Type) := α → Machine → Stepped → α

/-- The timer part of a frame: both timers go down to no less than zero, and the tone sounds while
the sound timer was running. -/
def beginFrame (m : Machine) : Machine :=
  { m with
    cpu := { m.cpu with
      delay := if m.cpu.delay = 0 then 0 else m.cpu.delay - 1
      sound := if m.cpu.sound = 0 then 0 else m.cpu.sound - 1 }
    speaker := m.speaker.follow (m.cpu.sound != 0) }

/-- Steps until one costs nothing or `unspent` is used up, and at least once. -/
def burst {α : Type} (observe : Observer α) (unspent : Nat) (m : Machine) (seen : α) :
    Except Fault (Machine × α) :=
  match m.step with
  | .error fault => .error fault
  | .ok s =>
    if s.cost = 0 ∨ unspent ≤ s.cost then .ok (s.machine, observe seen m s)
    else burst observe (unspent - s.cost) s.machine (observe seen m s)
termination_by unspent

/-- One frame, its steps being observed. -/
def observeTick {α : Type} (observe : Observer α) (m : Machine) (seen : α) :
    Except Fault (Machine × α) :=
  burst observe m.budget m.beginFrame seen

/-- One frame. -/
def tick (m : Machine) : Except Fault Machine :=
  (m.observeTick (fun _ _ _ => ()) ()).map Prod.fst

end PacedChip8.Machine
