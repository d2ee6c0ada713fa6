/-
What a memory remembers of its past. Every byte is the one that was written to its place last (`get_after`),
where a single byte goes to the low 12 bits of its address and a block to the places from its address on, without
coming back to the first one. A block that would have to is refused whole, and counts for no place.
-/
import PacedChip8.Memory.Font
import PacedChip8.Proofs.History
import PacedChip8.Proofs.Memory

namespace PacedChip8.Memory

/-- What can be written to a memory. -/
inductive Write where
  | set (a : UInt16) (b : UInt8)
  | load (a : UInt16) (data : List UInt8)
  deriving DecidableEq

/-- The byte that a write puts at the place `j`, if it puts one there. -/
def Write.byte? (j : Nat) : Write → Option UInt8
  | set a b => if a.toNat % 4096 = j then some b else none
  | load a data => if a.toNat + data.length ≤ 4096 ∧ a.toNat ≤ j then data[j - a.toNat]? else none

def handle (m : Memory) : Write → Memory
  | .set a b => m.set a b
  | .load a data => (m.load a data).toOption.getD m

def after (m : Memory) (writes : List Write) : Memory := writes.foldl handle m

/-- The last byte that was written to the place `j`. -/
def lastByte? (j : Nat) (writes : List Write) : Option UInt8 := History.last? (Write.byte? j) writes

variable {m : Memory} {a q : UInt16} {data : List UInt8}

/-! ## Single writes -/

theorem handle_load_of_le (m : Memory) (hfit : a.toNat + data.length ≤ 4096) :
    m.handle (.load a data) = m.write a data := by
  rw [handle, load_of_le m hfit, Except.toOption, Option.getD_some]

theorem handle_load_of_lt (m : Memory) (hrun : 4096 < a.toNat + data.length) : m.handle (.load a data) = m := by
  rw [handle, load_of_lt m hrun, Except.toOption, Option.getD_none]

/-- The bytes of a load are numbered from the address where it starts, which is not reduced modulo 4096. -/
theorem get_write_of_le (m : Memory) (hfit : a.toNat + data.length ≤ 4096) (q : UInt16) :
    (m.write a data).get q =
      (if a.toNat ≤ q.toNat % 4096 then data[q.toNat % 4096 - a.toNat]? else none).getD (m.get q) :=
  bytes_write_of_le m hfit (Nat.mod_lt _ (by decide))

theorem get_handle (m : Memory) (w : Write) (q : UInt16) :
    (m.handle w).get q = (w.byte? (q.toNat % 4096)).getD (m.get q) := by
  cases w with
  | set a b =>
    rw [handle, get_set, Write.byte?]
    split <;> rfl
  | load a data =>
    rw [Write.byte?]
    by_cases hfit : a.toNat + data.length ≤ 4096
    · simp only [hfit, true_and]
      rw [handle_load_of_le m hfit, get_write_of_le m hfit]
    · simp only [hfit, false_and, if_false, Option.getD_none]
      rw [handle_load_of_lt m (Nat.not_le.1 hfit)]

/-! ## Histories -/

theorem after_concat (m : Memory) (writes : List Write) (w : Write) :
    m.after (writes ++ [w]) = (m.after writes).handle w :=
  List.foldl_concat ..

/-- After a history a byte is what the last write to its place has put there. -/
theorem get_after (m : Memory) (writes : List Write) (q : UInt16) :
    (m.after writes).get q = (lastByte? (q.toNat % 4096) writes).getD (m.get q) := by
  unfold lastByte?
  induction writes using List.reverseRecOn with
  | nil => rfl
  | append_singleton writes w ih =>
    rw [after_concat, get_handle, ih, History.last?_concat]
    cases w.byte? (q.toNat % 4096) <;> rfl

/-! ## The start -/

theorem get_blank (q : UInt16) : blank.get q = 0 := by
  simp [get, blank]

theorem get_withFont (q : UInt16) : withFont.get q = (font[q.toNat % 4096]?).getD 0 := by
  have hstart : fontStart.toNat = 0 := rfl
  rw [withFont, get_write_of_le blank (by decide), get_blank, hstart]
  rfl

/-! ## All together -/

/-- What a memory holds after writes, and how it answers the next one. -/
structure Recalls (m : Memory) (writes : List Write) : Prop where
  get : ∀ q, (m.after writes).get q = (lastByte? (q.toNat % 4096) writes).getD (m.get q)
  word : ∀ q, ((m.after writes).word q).toNat =
    256 * ((m.after writes).get q).toNat + ((m.after writes).get (q + 1)).toNat
  loaded : ∀ a data, a.toNat + data.length ≤ 4096 →
    (m.after writes).load a data = .ok (m.after (writes ++ [.load a data]))
  /-- An empty block is refused as well if it starts beyond the end. -/
  refused : ∀ a data, 4096 < a.toNat + data.length →
    (m.after writes).load a data = .error ⟨a, data.length⟩ ∧ m.after (writes ++ [.load a data]) = m.after writes

/-- A memory is a map from the low 12 bits of addresses to bytes: after any writes, a byte is the last that went
to its place, and what it was at the start if none did. A word is two bytes, the second one at the next 16-bit
address. A block that does not end within the memory is refused, and changes nothing. -/
theorem writes_recalled (writes : List Write) :
    (∀ m, Recalls m writes) ∧ (∀ q, blank.get q = 0) ∧ ∀ q, withFont.get q = (font[q.toNat % 4096]?).getD 0 := by
  refine ⟨fun m => ?_, get_blank, get_withFont⟩
  refine ⟨get_after m writes, toNat_word _, fun a data hfit => ?_, fun a data hrun => ⟨load_of_lt _ hrun, ?_⟩⟩
  · rw [after_concat, handle_load_of_le _ hfit]
    exact load_of_le _ hfit
  · rw [after_concat, handle_load_of_lt _ hrun]

/-- A byte and a block over each other at the end of the memory, and a refused block over both; the word at the last
address ends with the first byte, which is still that of the font. -/
theorem writes_recalled_overlap :
    let writes : List Write := [.load 0xFFE [1, 2], .set 0x1FFF 3, .load 0xFFE [4, 5, 6]]
    let m := withFont.after writes
    m.get 0xEFFE = 1 ∧ (m.word 0xFFFF).toNat = 256 * 3 + 0xF0 ∧ m.load 0x1001 [] = .error ⟨0x1001, 0⟩ := by
  intro writes m
  obtain ⟨hrecalls, -, hfont⟩ := writes_recalled writes
  have h := hrecalls withFont
  have hblock : lastByte? ((0xEFFE : UInt16).toNat % 4096) writes = some 1 := by decide
  have hlast : lastByte? ((0xFFFF : UInt16).toNat % 4096) writes = some 3 := by decide
  have hfirst : lastByte? ((0xFFFF + 1 : UInt16).toNat % 4096) writes = none := by decide
  refine ⟨?_, ?_, (h.refused 0x1001 [] (by decide)).1⟩
  · rw [h.get, hblock, Option.getD_some]
  · rw [h.word, h.get, h.get, hlast, hfirst, Option.getD_none, hfont]
    rfl

end PacedChip8.Memory
