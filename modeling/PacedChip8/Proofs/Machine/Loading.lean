/-
What a load does. It goes through exactly if the reading came to its end with no more bytes than there are
from `programStart` on; then the program is there, and every other byte and all else in the machine is as
before, whatever was loaded earlier. Otherwise nothing changes and nothing is reported. The memory checks
the same bound once more, so it never refuses what got so far.
-/
import PacedChip8.Machine.Run
import PacedChip8.Proofs.Memory

namespace PacedChip8

/-! ## The memory -/

namespace Memory

variable {bytes : List UInt8}

/-- The bytes stand from `0x200` on, and all others are what they were. -/
structure Placed (before : Memory) (bytes : List UInt8) (memory : Memory) : Prop where
  program : ∀ k (hk : k < bytes.length), memory.bytes[0x200 + k]? = some bytes[k]
  other : ∀ j (_ : j < 4096), j < 0x200 ∨ 0x200 + bytes.length ≤ j → memory.bytes[j] = before.bytes[j]

theorem programStart_add_le (hlen : bytes.length ≤ programCapacity) : programStart.toNat + bytes.length ≤ 4096 := by
  show 0x200 + bytes.length ≤ 4096
  have : bytes.length ≤ 3584 := hlen
  omega

/-- A program that fits lies from `0x200` on in one piece, and nothing before or behind it is touched. -/
theorem placed_write (m : Memory) (hlen : bytes.length ≤ programCapacity) :
    Placed m bytes (m.write programStart bytes) := by
  have hfit := programStart_add_le hlen
  have hstart : programStart.toNat = 0x200 := rfl
  constructor
  · intro k hk
    have hk' : 0x200 + k < 4096 := by omega
    rw [Vector.getElem?_eq_getElem hk', bytes_write_of_le m hfit hk', hstart, if_pos (Nat.le_add_right _ _),
      Nat.add_sub_cancel_left, List.getElem?_eq_getElem hk, Option.getD_some]
  · intro j hj hout
    refine bytes_write_other m programStart hj fun k hk => ?_
    omega

end Memory

/-! ## The machine -/

namespace Machine

variable {m : Machine} {reading : Reading} {bytes : List UInt8}

/-- A program of exactly the capacity still fits. -/
theorem load_fits (m : Machine) (hlen : bytes.length ≤ Memory.programCapacity) :
    m.load (.complete bytes) =
      (.ok { m with cpu := { m.cpu with memory := m.cpu.memory.write Memory.programStart bytes } },
        [.loaded bytes.length]) := by
  rw [load, if_neg (Nat.not_lt.2 hlen), Memory.load_of_le _ (Memory.programStart_add_le hlen)]

theorem load_tooLong (m : Machine) (hlen : Memory.programCapacity < bytes.length) :
    m.load (.complete bytes) = (.error (.tooLarge bytes.length), []) :=
  if_pos hlen

/-- The load has failed, has reported nothing, and leaves the machine as it was. -/
def Refuses (m : Machine) (reading : Reading) (e : LoadError) : Prop :=
  m.load reading = (.error e, []) ∧ m.loaded reading = m

theorem refuses_of_load {e : LoadError} (h : m.load reading = (.error e, [])) : Refuses m reading e := by
  refine ⟨h, ?_⟩
  rw [loaded, h]

/-- The load has gone through with one report; the program is in the memory, and nothing else has changed. -/
def Accepts (m : Machine) (reading : Reading) (bytes : List UInt8) : Prop :=
  ∃ memory entry, m.load reading = (.ok { m with cpu := { m.cpu with memory := memory } }, [entry]) ∧
    m.loaded reading = { m with cpu := { m.cpu with memory := memory } } ∧ Memory.Placed m.cpu.memory bytes memory ∧
    entry.level = .info ∧ entry.text = "loaded " ++ Numeral.decimal bytes.length ++ " byte ROM"

/-- A program is measured before it is loaded, so one that is too long leaves no trace in the memory. -/
theorem refuses_tooLong (m : Machine) (hlen : Memory.programCapacity < bytes.length) :
    Refuses m (.complete bytes) (.tooLarge bytes.length) :=
  refuses_of_load (load_tooLong m hlen)

theorem refuses_brokenOff (m : Machine) (bytes : List UInt8) (cause : String) :
    Refuses m (.failed bytes cause) (.unreadable cause) :=
  refuses_of_load rfl

theorem accepts_of_le (m : Machine) (hlen : bytes.length ≤ Memory.programCapacity) :
    Accepts m (.complete bytes) bytes := by
  refine ⟨_, _, load_fits m hlen, ?_, Memory.placed_write _ hlen, rfl, rfl⟩
  rw [loaded, load_fits m hlen]

theorem Accepts.succeeds (h : Accepts m reading bytes) : ∃ n, (m.load reading).1 = .ok n := by
  obtain ⟨memory, entry, hload, -⟩ := h
  exact ⟨_, by rw [hload]⟩

theorem Refuses.not_succeeds {e : LoadError} (h : Refuses m reading e) : ¬∃ n, (m.load reading).1 = .ok n := by
  rintro ⟨n, hn⟩
  rw [h.1] at hn
  cases hn

/-- How a load ends. -/
structure LoadsExactly (m : Machine) (reading : Reading) : Prop where
  succeeds_iff : (∃ n, (m.load reading).1 = .ok n) ↔ ∃ bytes, reading = .complete bytes ∧ bytes.length ≤ 3584
  fits : ∀ {bytes}, reading = .complete bytes → bytes.length ≤ 3584 → Accepts m reading bytes
  tooLong : ∀ {bytes}, reading = .complete bytes → 3584 < bytes.length →
    Refuses m reading (.tooLarge bytes.length) ∧ (LoadError.tooLarge bytes.length).message =
      "ROM is " ++ Numeral.decimal bytes.length ++ " bytes but only " ++ "3584" ++ " bytes fit in memory"
  /-- It does not matter how far the reading came. -/
  brokenOff : ∀ {bytes cause}, reading = .failed bytes cause → Refuses m reading (.unreadable cause)
  inRange : ∀ e, (m.load reading).1 ≠ .error (.outOfRange e)

/-- A load succeeds exactly if the whole program was read and fits; it puts the program into the memory and
reports its length. A load that fails changes nothing and reports nothing. -/
theorem load_exact (m : Machine) (reading : Reading) : LoadsExactly m reading where
  succeeds_iff := by
    constructor
    · intro hok
      rcases reading with bytes | ⟨bytes, cause⟩
      · rcases Nat.lt_or_ge Memory.programCapacity bytes.length with hlen | hlen
        · exact absurd hok (refuses_tooLong m hlen).not_succeeds
        · exact ⟨bytes, rfl, hlen⟩
      · exact absurd hok (refuses_brokenOff m bytes cause).not_succeeds
    · rintro ⟨bytes, rfl, hlen⟩
      exact (accepts_of_le m hlen).succeeds
  fits := by
    rintro bytes rfl hlen
    exact accepts_of_le m hlen
  tooLong := by
    rintro bytes rfl hlen
    exact ⟨refuses_tooLong m hlen, rfl⟩
  brokenOff := by
    rintro bytes cause rfl
    exact refuses_brokenOff m bytes cause
  inRange := by
    intro e he
    rcases reading with bytes | ⟨bytes, cause⟩
    · rcases Nat.lt_or_ge Memory.programCapacity bytes.length with hlen | hlen
      · rw [load_tooLong m hlen] at he
        cases he
      · rw [load_fits m hlen] at he
        cases he
    · cases he

/-- A program that is loaded over a longer one leaves its tail, also when a load fails in between. -/
theorem load_exact_reload :
    let first := (create {} 0 (.fresh false)).loaded (.complete [1, 2, 3])
    let m := first.loaded (.failed [9, 9] "lost")
    LoadsExactly m (.complete [4, 5]) ∧ (m.loaded (.complete [4, 5])).cpu.memory.bytes[0x200]? = some 4 ∧
      (m.loaded (.complete [4, 5])).cpu.memory.bytes[0x202]? = some 3 := by
  intro first m
  obtain ⟨before, _, -, hbefore, hplaced, -⟩ :=
    (load_exact (create {} 0 (.fresh false)) (.complete [1, 2, 3])).fits rfl (by decide)
  have hlost : m = first := ((load_exact first (.failed [9, 9] "lost")).brokenOff rfl).2
  obtain ⟨after, _, -, hafter, hreplaced, -⟩ := (load_exact m (.complete [4, 5])).fits rfl (by decide)
  have hm : m.cpu.memory = before := by
    rw [hlost]
    exact congrArg (·.cpu.memory) hbefore
  have htail : before.bytes[0x202]? = some 3 := hplaced.program 2 (by decide)
  have hkept := hreplaced.other 0x202 (by decide) (.inr (by decide))
  refine ⟨load_exact m _, ?_, ?_⟩ <;> rw [hafter]
  · exact hreplaced.program 0 (by decide)
  · rw [Vector.getElem?_eq_getElem (by decide), hkept, hm, ← Vector.getElem?_eq_getElem]
    exact htail

end Machine
end PacedChip8
