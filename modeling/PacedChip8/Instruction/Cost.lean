/-
What instructions cost, in microseconds of the machine's nominal pace. Only skips and the wait for
a key depend on the outcome: a skip that falls through pays a little more, unless it asks about a
key, and a wait without a key is free. Besides that wait only an unknown word costs nothing.
-/
import PacedChip8.Instruction.Basic

namespace PacedChip8

/-- The cost of a skip whose test came out as `held`. -/
def Test.cost (t : Test) (held : Bool) : Nat :=
  let fallThrough := if held then 0 else 9
  match t with
  | .byteEq .. | .byteNe .. | .regEq .. => 55 + fallThrough
  | .regNe .. => 73 + fallThrough
  | .keyDown _ | .keyUp _ => 73

/-- The cost of an instruction; `held` tells whether the test of a skip held or the wait for a key
found one, and means nothing to the others. -/
def Instruction.cost (i : Instruction) (held : Bool) : Nat :=
  match i with
  | .clear => 109
  | .jumpIndex => 1
  | .ret | .jump _ | .call _ | .jumpOffset _ => 105
  | .skip t => t.cost held
  | .load .. => 27
  | .add .. => 45
  | .combine .. | .shift .. => 200
  | .setIndex _ => 55
  | .random .. => 164
  | .draw .. => 22734
  | .readDelay _ | .setDelay _ | .setSound _ => 45
  | .awaitKey _ => if held then 1 else 0
  | .addIndex _ => 86
  | .glyph _ => 91
  | .decimal _ => 927
  | .store x | .restore x => 605 + 64 * x
  | .unknown _ => 0

end PacedChip8
