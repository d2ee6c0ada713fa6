/-
The memory: 4096 bytes behind 16-bit addresses. Single bytes are reached by the low 12 bits of an
address, so no access can fail (`get_set`); a block is read or written byte by byte at successive
16-bit addresses; `load` copies a block only if it fits below the end, and refuses it otherwise.
-/
import PacedChip8.Numeral

namespace PacedChip8

/-- The bytes that the machine can address. -/
structure Memory where
  bytes : Vector UInt8 4096
  deriving DecidableEq

/-- A block that does not fit between its address and the end of the memory. -/
structure OutOfRange where
  address : UInt16
  length : Nat
  deriving DecidableEq

namespace OutOfRange

/-- Names the size of the block and where it was to go. -/
def message (e : OutOfRange) : String :=
  Numeral.decimal e.length ++ " bytes at " ++ Numeral.address e.address ++
    " would run past the end of memory"

end OutOfRange

namespace Memory

/-- The number of bytes. -/
def size : Nat := 4096

/-- Where programs are loaded and started. -/
def programStart : UInt16 := 0x200

/-- The bytes from `programStart` to the end of the memory. -/
def programCapacity : Nat := size - programStart.toNat

/-- Memory in which every byte is zero. -/
def blank : Memory := ⟨Vector.replicate 4096 0⟩

/-- The byte at the low 12 bits of an address. -/
def get (m : Memory) (a : UInt16) : UInt8 :=
  m.bytes[a.toNat % 4096]

/-- Writes the byte at the low 12 bits of an address. -/
def set (m : Memory) (a : UInt16) (b : UInt8) : Memory :=
  ⟨m.bytes.set (a.toNat % 4096) b⟩

/-- The word at an address: the byte there is the high half, the one at the next 16-bit address the
low half. -/
def word (m : Memory) (a : UInt16) : UInt16 :=
  (m.get a).toUInt16 * 256 + (m.get (a + 1)).toUInt16

/-- The `n` bytes at `a` and the 16-bit addresses after it. -/
def read (m : Memory) (a : UInt16) (n : Nat) : List UInt8 :=
  (List.range n).map fun k => m.get (a + UInt16.ofNat k)

/-- Writes bytes at `a` and the 16-bit addresses after it, in order. -/
def write (m : Memory) (a : UInt16) : List UInt8 → Memory
  | [] => m
  | b :: rest => (m.set a b).write (a + 1) rest

/-- Writes a block at `a` if it ends within the memory; a block that would run past the end is
refused whole, and so is an empty one that starts beyond it. -/
def load (m : Memory) (a : UInt16) (data : List UInt8) : Except OutOfRange Memory :=
  if a.toNat + data.length ≤ size then .ok (m.write a data) else .error ⟨a, data.length⟩

/-- A byte that was written is read back at every address with the same low 12 bits, and no other
byte changes. -/
theorem get_set (m : Memory) (a q : UInt16) (b : UInt8) :
    (m.set a b).get q = if a.toNat % 4096 = q.toNat % 4096 then b else m.get q := by
  simp only [get, set, Vector.getElem_set]

end Memory
end PacedChip8
