import PacedChip8.Instruction.Encode
import PacedChip8.Keypad.Layout
import PacedChip8.Main
import PacedChip8.Proofs.CallStack
import PacedChip8.Proofs.CallStack.ListStack
import PacedChip8.Proofs.CommandLine.Options
import PacedChip8.Proofs.CommandLine.Run
import PacedChip8.Proofs.Fault
import PacedChip8.Proofs.History
import PacedChip8.Proofs.Instruction.Arithmetic
import PacedChip8.Proofs.Instruction.Decimal
import PacedChip8.Proofs.Instruction.Draw
import PacedChip8.Proofs.Instruction.Faults
import PacedChip8.Proofs.Instruction.Table
import PacedChip8.Proofs.Instruction.Transfer
import PacedChip8.Proofs.Instruction.Transition
import PacedChip8.Proofs.Keypad
import PacedChip8.Proofs.Keypad.History
import PacedChip8.Proofs.Log
import PacedChip8.Proofs.Machine.Aliasing
import PacedChip8.Proofs.Machine.Chronicle
import PacedChip8.Proofs.Machine.Entropy
import PacedChip8.Proofs.Machine.Flow
import PacedChip8.Proofs.Machine.Headless
import PacedChip8.Proofs.Machine.Loading
import PacedChip8.Proofs.Machine.Logging
import PacedChip8.Proofs.Machine.Pacing
import PacedChip8.Proofs.Machine.RandomBytes
import PacedChip8.Proofs.Machine.Redraw
import PacedChip8.Proofs.Machine.Returns
import PacedChip8.Proofs.Machine.Runs
import PacedChip8.Proofs.Machine.Safety
import PacedChip8.Proofs.Machine.Secluded
import PacedChip8.Proofs.Machine.Timers
import PacedChip8.Proofs.Machine.Tone
import PacedChip8.Proofs.Machine.Trace
import PacedChip8.Proofs.Machine.Unseen
import PacedChip8.Proofs.Machine.Untimed
import PacedChip8.Proofs.Machine.Waits
import PacedChip8.Proofs.Machine.Writes
import PacedChip8.Proofs.Memory
import PacedChip8.Proofs.Memory.History
import PacedChip8.Proofs.Numeral
import PacedChip8.Proofs.Screen
import PacedChip8.Proofs.Screen.History
import PacedChip8.Proofs.Screen.Pictures
import PacedChip8.Proofs.Sprite
import PacedChip8.Proofs.Timer
import PacedChip8.Proofs.Tones
import PacedChip8.Tones
