/-
What a step may write. Each part of a machine but the program counter is written by few kinds of
instruction, and there only where the operands point (`step_confined`); the keypad and the speaker are
never written. So a byte of the memory keeps its value over a run for as long as no step stores to it,
whatever the program does to itself elsewhere.
-/
import PacedChip8.Proofs.Machine.Redraw
import PacedChip8.Proofs.Machine.Timers

namespace PacedChip8

open Memory (SameByte)

/-! ## Where instructions write -/

namespace Instruction

/-- Whether the instruction writes the index register. -/
def setsIndex : Instruction → Bool
  | .setIndex _ | .addIndex _ | .glyph _ => true
  | _ => false

/-- How many bytes the instruction stores, from the address in the index register on. -/
def stores : Instruction → Nat
  | .decimal _ => 3
  | .store x => x + 1
  | _ => 0

/-- One of the bytes that the instruction stores lies at the address. -/
def Covers (i : Instruction) (c : Cpu) (a : UInt16) : Prop :=
  ∃ k < i.stores, SameByte (c.index + UInt16.ofNat k) a

variable {i : Instruction} {c : Cpu} {a : UInt16}

theorem indexAfter_eq (hi : i.setsIndex = false) : i.indexAfter c = c.index := by
  cases i <;> first | rfl | cases hi

theorem memoryAfter_get (ha : ¬i.Covers c a) : (i.memoryAfter c).get a = c.memory.get a := by
  -- every block that is written is covered
  have block {bytes : List UInt8} (hlen : bytes.length ≤ i.stores) :
      (c.memory.write c.index bytes).get a = c.memory.get a :=
    Memory.get_write_of_not_sameByte _ fun k hk hsame => ha ⟨k, Nat.lt_of_lt_of_le hk hlen, hsame⟩
  cases i <;> simp only [memoryAfter]
  case decimal x => exact block (Nat.le_refl 3)
  case store x => exact block (List.length_take_le ..)

theorem not_covers (hi : ∀ x, i ≠ .decimal x ∧ i ≠ .store x) : ¬i.Covers c a := by
  rintro ⟨k, hk, -⟩
  cases i <;> simp only [stores, Nat.not_lt_zero] at hk
  case decimal x => exact (hi x).1 rfl
  case store x => exact (hi x).2 rfl

end Instruction

namespace Machine

variable {m n : Machine} {s : Stepped} {t : Trace} {a : UInt16}

/-! ## One step -/

/-- What a step leaves alone, part by part, given the instruction that the machine was about to carry out;
only the program counter is not among the parts. -/
structure Confined (m : Machine) (s : Stepped) : Prop where
  instruction : s.instruction = m.instruction
  registers : ∀ k (_ : k < 16), k ∉ s.instruction.targets m.keypad.keys → s.machine.cpu.v[k] = m.cpu.v[k]
  index : s.instruction.setsIndex = false → s.machine.cpu.index = m.cpu.index
  depth : s.machine.cpu.stack.depth = s.instruction.depthAfter m.cpu.stack.depth
  slots : ∀ k (_ : k < 16), ((∃ a, s.instruction = .call a) → k ≠ m.cpu.stack.depth) →
    s.machine.cpu.stack.slots[k] = m.cpu.stack.slots[k]
  timers : ∀ timer, (∀ x, s.instruction ≠ Timer.setter timer x) → timer.value s.machine.cpu = timer.value m.cpu
  memory : ∀ a, ¬s.instruction.Covers m.cpu a → s.machine.cpu.memory.get a = m.cpu.memory.get a
  screen : s.instruction.paints = false → s.machine.screen = m.screen
  random : s.instruction.drawsRandom = false → s.machine.random = m.random
  keypad : s.machine.keypad = m.keypad
  speaker : s.machine.speaker = m.speaker
  budget : s.machine.budget = m.budget

theorem step_confined (h : m.step = .ok s) : Confined m s := by
  obtain ⟨_, ht⟩ := step_transition h
  obtain ⟨v, pc, hv, hcpu⟩ := Instruction.transition_frame ht
  refine ⟨step_instruction h, ?_, ?_, ?_, ?_, ?_, ?_, step_screen h, ?_, step_keypad h, ?_, step_budget h⟩
  · rw [hcpu]
    exact hv
  · intro hi
    rw [hcpu]
    exact Instruction.indexAfter_eq hi
  · rw [hcpu]
    exact Instruction.stackAfter_depth s.instruction m.fetchedCpu
  · intro k hk hi
    simp only [hcpu]
    exact Instruction.stackAfter_slots (c := m.fetchedCpu) hk hi
  · intro timer hi
    rw [step_timer timer h, Timer.setting?_eq_none hi]
    rfl
  · intro a ha
    rw [hcpu]
    exact Instruction.memoryAfter_get (c := m.fetchedCpu) ha
  · intro hi
    obtain ⟨_, _, _, rfl⟩ := step_eq_ok.1 h
    simp only [hi]
    rfl
  · obtain ⟨_, _, _, rfl⟩ := step_eq_ok.1 h
    rfl

/-! ## Runs -/

/-- No program is loaded. -/
def Unloaded (events : List Event) : Prop := ∀ reading, .load reading ∉ events

theorem outside?_memory {e : Event} {f : Machine → Machine} (hf : e.outside? = some f)
    (he : ∀ reading, e ≠ .load reading) (m : Machine) : (f m).cpu.memory = m.cpu.memory := by
  cases e <;> simp only [Event.outside?, reduceCtorEq, Option.some.injEq] at hf <;> subst hf
  case load reading => exact absurd rfl (he reading)
  all_goals rfl

/-- A step of the trace stores to the byte at the address. -/
def Stored (t : Trace) (a : UInt16) : Prop := ∃ e ∈ t, e.2.instruction.Covers e.1.cpu a

/-- The byte at the address is `b`, and it was before every step of the trace. -/
def Stays (a : UInt16) (b : UInt8) (n : Machine) (t : Trace) : Prop :=
  n.cpu.memory.get a = b ∧ ∀ e ∈ t, e.1.cpu.memory.get a = b

theorem stays_kept (a : UInt16) (b : UInt8) : Kept record fun n t => ¬Stored t a → Stays a b n t where
  beginFrame h := h
  step := by
    intro n t s hs h hstored
    obtain ⟨hbefore, hcovers⟩ := not_or.1 (mt exists_mem_record.2 hstored)
    obtain ⟨hn, ht⟩ := h hbefore
    refine ⟨((step_confined hs).memory a hcovers).trans hn, fun e he => ?_⟩
    rcases List.mem_append.1 he with he | he
    · exact ht e he
    · rw [List.mem_singleton.1 he]
      exact hn

/-- A byte that no step of a run stores to is the same at the end and before every step. -/
theorem observeRun_stays {events : List Event} (hev : Unloaded events) (h : m.observeRun record [] events = .ok (n, t))
    (ha : ¬Stored t a) : Stays a (m.cpu.memory.get a) n t := by
  refine (stays_kept a (m.cpu.memory.get a)).run events (fun e he f hf k u hk hu => ?_) h ?_ ha
  · obtain ⟨hk, hu⟩ := hk hu
    refine ⟨?_, hu⟩
    rw [outside?_memory hf fun reading hl => hev reading (hl ▸ he)]
    exact hk
  · exact fun _ => ⟨rfl, by simp⟩

/-- A step writes nothing but the program counter and what its instruction is there to write: for each
part of the machine `Confined` says which instructions these are, and for registers, return addresses and
memory which of them. So over a run without a load, a byte of the memory is what it was, before every
step and at the end, if no step stores to it; and the whole memory is, if nothing is stored at all. -/
theorem writes_confined (hd : m.cpu.stack.depth ≤ CallStack.capacity) :
    (∃ s, m.step = .ok s ∧ Confined m s) ∧
      ∀ events, Unloaded events → ∃ n t, m.observeRun record [] events = .ok (n, t) ∧
        (∀ a, ¬Stored t a → Stays a (m.cpu.memory.get a) n t) ∧
        ((∀ e ∈ t, ∀ x, e.2.instruction ≠ .decimal x ∧ e.2.instruction ≠ .store x) →
          n.cpu.memory = m.cpu.memory ∧ ∀ e ∈ t, e.1.cpu.memory = m.cpu.memory) := by
  constructor
  · obtain ⟨s, hs⟩ := step_ok hd
    exact ⟨s, hs, step_confined hs⟩
  · intro events hev
    obtain ⟨n, t, hrun, -⟩ := exists_run hd events
    refine ⟨n, t, hrun, fun a ha => observeRun_stays hev hrun ha, fun hi => ?_⟩
    have hstays : ∀ a, Stays a (m.cpu.memory.get a) n t := by
      refine fun a => observeRun_stays hev hrun ?_
      rintro ⟨e, he, hcovers⟩
      exact Instruction.not_covers (hi e he) hcovers
    exact ⟨Memory.ext_get fun a => (hstays a).1, fun e he => Memory.ext_get fun a => (hstays a).2 e he⟩

/-- Two registers that are stored across the end of the memory leave the byte behind them alone. -/
theorem writes_confined_wrap :
    let m : Machine := { create {} 0 (.fresh false) with
      cpu := { Cpu.initial with memory := (Memory.blank.set 0x200 0xF1).set 0x201 0x55, index := 0x0FFF } }
    m.cpu.stack.depth ≤ CallStack.capacity ∧ Unloaded [.press 3, .step] ∧
      ∃ s, (m.withKeypad (·.press 3)).step = .ok s ∧ s.instruction = .store 1 ∧ Confined (m.withKeypad (·.press 3)) s ∧
        m.observeRun record [] [.press 3, .step] = .ok (s.machine, [(m.withKeypad (·.press 3), s)]) ∧
        Stays 0x0001 (m.cpu.memory.get 0x0001) s.machine [(m.withKeypad (·.press 3), s)] := by
  intro m
  have hd : m.cpu.stack.depth ≤ CallStack.capacity := by decide
  have hev : Unloaded [.press 3, .step] := by intro reading h; simp at h
  have hi : (m.withKeypad (·.press 3)).instruction = .store 1 := by
    have hw : (m.withKeypad (·.press 3)).fetchedWord = 0xF155 := Memory.word_set_set .blank 0x200 0xF1 0x55
    rw [Machine.instruction, hw]
    decide
  obtain ⟨⟨s, hs, hconfined⟩, -⟩ := writes_confined (m := m.withKeypad (·.press 3)) hd
  have hsi : s.instruction = .store 1 := (step_instruction hs).trans hi
  have hrun : m.observeRun record [] [.press 3, .step] = .ok (s.machine, [(m.withKeypad (·.press 3), s)]) := by
    simp only [observeRun, handle, hs, Except.map, record, List.nil_append]
  obtain ⟨-, hruns⟩ := writes_confined hd
  obtain ⟨n, t, hrun', hstays, -⟩ := hruns _ hev
  rw [hrun] at hrun'
  cases hrun'
  refine ⟨hd, hev, s, hs, hsi, hconfined, hrun, hstays _ ?_⟩
  -- the two bytes are the last one of the memory and the first one
  have hfree : ∀ k < 2, ¬((0x0FFF : UInt16) + UInt16.ofNat k).toNat % 4096 = (0x0001 : UInt16).toNat % 4096 := by
    decide
  rintro ⟨e, he, k, hk, hsame⟩
  rw [List.mem_singleton.1 he] at hk hsame
  rw [hsi] at hk
  exact hfree k hk hsame

end Machine
end PacedChip8
