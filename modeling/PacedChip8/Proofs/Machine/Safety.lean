/-
No machine that was started and run in the ordinary way faults, whatever program it holds or writes:
the depth stays at most sixteen (`depth_invariant`), and that is all a decoded instruction needs. The
same bound keeps every register number, slot, pixel number and cost within its width.
-/
import PacedChip8.Proofs.Machine.Pacing
import PacedChip8.Proofs.Machine.Runs
import PacedChip8.Proofs.Sprite

namespace PacedChip8

/-! ## Sprites stay on the screen -/

theorem Instruction.drawing_flip_lt (i : Instruction) (c : Cpu) {index : Nat} (h : .flip index ∈ i.drawing c) :
    index < 2048 := by
  unfold drawing at h
  split at h
  · simp at h
  · split at h
    · simp only [Sprite.commands, List.mem_append, List.mem_map, Screen.Command.flip.injEq, exists_eq_right,
        List.mem_singleton, reduceCtorEq, or_false] at h
      exact Sprite.cells_lt h
    · cases h
  · cases h

namespace Machine

/-! ## What a step relies on -/

/-- What the next step of a machine relies on: the registers of its instruction exist, a push and a
pop of the stack stay within the slots and within a byte, flips stay on the screen, the start of a
glyph is an address, and the cost fits 32 bits. -/
structure Safe (m : Machine) : Prop where
  depth : m.cpu.stack.depth ≤ CallStack.capacity
  registers : ∀ x ∈ m.instruction.registers, x ≤ 15
  push : ∀ a stack, m.cpu.stack.push? a = some stack → stack.depth = m.cpu.stack.depth + 1 ∧ stack.depth < 2 ^ 8
  pop : m.cpu.stack.pop = (.ok none, m.cpu.stack) ∨
    ∃ d, ∃ _ : d ≤ 15, m.cpu.stack.depth = d + 1 ∧
      m.cpu.stack.pop = (.ok (some m.cpu.stack.slots[d]), { m.cpu.stack with depth := d })
  flips : ∀ index, .flip index ∈ m.instruction.drawing m.fetchedCpu → index < 2048
  glyph : ∀ x b, m.instruction = .glyph x → m.fetchedCpu.reg x = .ok b →
    Memory.fontStart.toNat + b.toNat < 2 ^ 16
  cost : ∀ held, m.instruction.cost held < 2 ^ 32

/-- The bound on the depth is all that it takes. -/
theorem safe_of_depth {m : Machine} (hd : m.cpu.stack.depth ≤ 16) : m.Safe where
  depth := hd
  registers x hx := Nat.le_of_lt_succ (Instruction.registers_decode_lt m.fetchedWord x hx)
  push a stack h := by
    obtain ⟨hlt, rfl⟩ := CallStack.push?_eq_some.1 h
    exact ⟨rfl, by simp only; omega⟩
  pop := by
    rcases h : m.cpu.stack.depth with _ | d
    · exact .inl (CallStack.pop_of_empty h)
    · exact .inr ⟨d, by omega, rfl, CallStack.pop_of_lt h (by omega)⟩
  flips index h := Instruction.drawing_flip_lt _ _ h
  glyph x b _ _ := by
    have := b.toNat_lt
    simp only [Memory.fontStart, UInt16.toNat_zero]
    omega
  cost held := by
    have := Instruction.cost_le (Instruction.registers_decode_lt m.fetchedWord) held
    unfold instruction
    omega

/-! ## The depth over a run -/

/-- The depth stays at most sixteen, and nothing changes the budget. -/
theorem depth_invariant {α : Type} (observe : Observer α) (budget : Nat) :
    Invariant observe fun m _ => m.cpu.stack.depth ≤ 16 ∧ m.budget = budget where
  beginFrame := id
  step := by
    rintro m a ⟨hd, hb⟩
    obtain ⟨s, hs⟩ := step_ok hd
    exact ⟨s, hs, step_depth_le hs hd, (step_budget hs).trans hb⟩

theorem exists_run {m : Machine} (hd : m.cpu.stack.depth ≤ 16) (events : List Event) :
    ∃ n t, m.observeRun record [] events = .ok (n, t) ∧ n.cpu.stack.depth ≤ 16 := by
  obtain ⟨n, t, hrun, hn, -⟩ := (depth_invariant record m.budget).run events
    (fun e _ f hf m _ h => by obtain ⟨g, k, d, hf⟩ := outside?_spec hf; rw [hf]; exact h) (a := []) ⟨hd, rfl⟩
  exact ⟨n, t, hrun, hn⟩

theorem Steps.depth_le {m n : Machine} {t : Trace} (h : Steps m t n) (hd : m.cpu.stack.depth ≤ 16) :
    ∀ e ∈ t, e.1.cpu.stack.depth ≤ 16 :=
  (h.keeps step_depth_le hd).2

end Machine
end PacedChip8
