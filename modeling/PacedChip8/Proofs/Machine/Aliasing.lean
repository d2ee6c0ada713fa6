/-
Only the low 12 bits of addresses matter, and dead slots of the stack never do. Two machines are alike
if they are equal but for the high bits of the program counter, of the index register and of the live
return addresses, and for what lies in the slots above. Alike machines take the same steps at the
same cost and stay alike, through every run.
-/
import PacedChip8.Proofs.Memory
import PacedChip8.Proofs.Machine.Runs

namespace PacedChip8

open Memory (SameByte)

/-! ## Alike processors -/

/-- Stacks of the same depth, whose live addresses reach the same bytes. -/
structure CallStack.Alike (s t : CallStack) : Prop where
  depth : s.depth = t.depth
  live : ∀ k (_ : k < 16), k < s.depth → SameByte s.slots[k] t.slots[k]

/-- Processors that are equal up to the high bits of addresses and to dead slots. -/
structure Cpu.Alike (c d : Cpu) : Prop where
  v : c.v = d.v
  index : SameByte c.index d.index
  pc : SameByte c.pc d.pc
  stack : c.stack.Alike d.stack
  delay : c.delay = d.delay
  sound : c.sound = d.sound
  memory : c.memory = d.memory

/-- Addresses that reach the same byte may be pushed. -/
theorem CallStack.Alike.push {s t : CallStack} (h : s.Alike t) (hlt : s.depth < 16) {a b : UInt16}
    (hab : SameByte a b) :
    Alike ⟨s.depth + 1, s.slots.set s.depth a⟩
      ⟨t.depth + 1, t.slots.set t.depth b (h.depth ▸ hlt)⟩ := by
  refine ⟨by simp only [h.depth], fun k hk hks => ?_⟩
  simp only [Vector.getElem_set, ← h.depth] at hks ⊢
  split
  · exact hab
  · exact h.live k hk (by omega)

namespace Cpu.Alike

variable {c d : Cpu}

theorem reg (h : c.Alike d) (x : Nat) : c.reg x = d.reg x := by
  unfold Cpu.reg
  rw [h.v]

theorem setReg (h : c.Alike d) (x : Nat) (b : UInt8) : InStep Alike (c.setReg x b) (d.setReg x b) := by
  unfold Cpu.setReg
  split
  · exact .ok { h with v := by simp only [h.v] }
  · exact .error _

theorem setResult (h : c.Alike d) (x : Nat) (b : UInt8) (flag? : Option Bool) :
    InStep Alike (c.setResult x b flag?) (d.setResult x b flag?) := by
  unfold Cpu.setResult
  refine (h.setReg x b).bind fun c' d' h' => ?_
  cases flag? with
  | none => exact .ok h'
  | some flag => exact .ok { h' with v := by simp only [Cpu.setFlag, h'.v] }

theorem setFirstRegisters (h : c.Alike d) (bytes : List UInt8) :
    (c.setFirstRegisters bytes).Alike (d.setFirstRegisters bytes) := by
  unfold Cpu.setFirstRegisters
  exact { h with v := by simp only [h.v] }

theorem skip (h : c.Alike d) : c.skip.Alike d.skip := { h with pc := h.pc.add 2 }

theorem retry (h : c.Alike d) : c.retry.Alike d.retry := { h with pc := h.pc.sub 2 }

theorem holds (h : c.Alike d) (t : Test) (keys : Keys) : t.holds c keys = t.holds d keys := by
  cases t <;> simp only [Test.holds, h.reg]

/-- Sprites are read from the same bytes, so the same cells are flipped. -/
theorem drawing (h : c.Alike d) (i : Instruction) : i.drawing c = i.drawing d := by
  cases i <;> simp only [Instruction.drawing]
  case draw x y rows => rw [h.reg, h.reg, h.memory, h.index.read]

/-- Every instruction does the same to alike processors. -/
theorem transition (h : c.Alike d) (i : Instruction) (keys : Keys) (random : Random.Source) :
    InStep (fun p q => p.1.Alike q.1 ∧ p.2 = q.2) (i.transition c keys random) (i.transition d keys random) := by
  cases i <;> simp only [Instruction.transition, h.reg]
  case clear | unknown => exact .ok ⟨h, rfl⟩
  case jumpIndex => exact .ok ⟨{ h with pc := h.index }, rfl⟩
  case ret =>
    have hdepth := h.stack.depth
    rcases hc : c.stack.depth with _ | k
    · rw [CallStack.pop_of_empty hc, CallStack.pop_of_empty (hdepth.symm.trans hc)]
      exact .ok ⟨h, rfl⟩
    · by_cases hk : k < 16
      · rw [CallStack.pop_of_lt hc hk, CallStack.pop_of_lt (hdepth.symm.trans hc) hk]
        -- the slot that is left is dead from here on, and those below it stay live
        have live := h.stack.live
        refine .ok ⟨{ h with pc := live k hk (by omega), stack := ⟨rfl, fun j hj hjk => live j hj ?_⟩ }, rfl⟩
        simp only at hjk
        omega
      · rw [CallStack.pop_of_le hc (by omega), CallStack.pop_of_le (hdepth.symm.trans hc) (by omega)]
        exact .error _
  case call a =>
    by_cases hlt : c.stack.depth < 16
    · rw [CallStack.push?_of_lt hlt, CallStack.push?_of_lt (h.stack.depth ▸ hlt)]
      exact .ok ⟨{ h with pc := .refl a, stack := h.stack.push hlt h.pc }, rfl⟩
    · rw [CallStack.push?_of_le (by omega), CallStack.push?_of_le (by rw [← h.stack.depth]; omega)]
      exact .ok ⟨h, rfl⟩
  case jump a => exact .ok ⟨{ h with pc := .refl a }, rfl⟩
  case skip t =>
    rw [h.holds]
    refine .bind_same fun held => .ok ⟨?_, rfl⟩
    split
    · exact h.skip
    · exact h
  case load x b => exact (h.setReg x b).bind fun _ _ h' => .ok ⟨h', rfl⟩
  case add x b => exact .bind_same fun a => (h.setReg x (a + b)).bind fun _ _ h' => .ok ⟨h', rfl⟩
  case combine op x y =>
    exact .bind_same fun a => .bind_same fun b => (h.setResult x _ _).bind fun _ _ h' => .ok ⟨h', rfl⟩
  case shift dir x => exact .bind_same fun a => (h.setResult x _ _).bind fun _ _ h' => .ok ⟨h', rfl⟩
  case setIndex a => exact .ok ⟨{ h with index := .refl a }, rfl⟩
  case jumpOffset a => exact .bind_same fun b => .ok ⟨{ h with pc := .refl (a + b.toUInt16) }, rfl⟩
  case random x mask => exact (h.setReg x _).bind fun _ _ h' => .ok ⟨h', rfl⟩
  case draw x y rows => exact .bind_same fun _ => .bind_same fun _ => .ok ⟨h, rfl⟩
  case readDelay x =>
    rw [h.delay]
    exact (h.setReg x _).bind fun _ _ h' => .ok ⟨h', rfl⟩
  case awaitKey x =>
    split
    · exact .ok ⟨h.retry, rfl⟩
    · exact (h.setReg x _).bind fun _ _ h' => .ok ⟨h', rfl⟩
  case setDelay x => exact .bind_same fun a => .ok ⟨{ h with delay := rfl }, rfl⟩
  case setSound x => exact .bind_same fun a => .ok ⟨{ h with sound := rfl }, rfl⟩
  case addIndex x => exact .bind_same fun a => .ok ⟨{ h with index := h.index.add _ }, rfl⟩
  case glyph x => exact .bind_same fun a => .ok ⟨{ h with index := .refl (Memory.fontStart + a.toUInt16) }, rfl⟩
  case decimal x =>
    refine .bind_same fun a => .ok ⟨{ h with memory := ?_ }, rfl⟩
    simp only
    rw [h.memory, h.index.write]
  case store x =>
    refine .bind_same fun _ => .ok ⟨{ h with memory := ?_ }, rfl⟩
    simp only [Cpu.firstRegisters, h.v]
    rw [h.memory, h.index.write]
  case restore x =>
    rw [h.memory, h.index.read]
    exact .bind_same fun _ => .ok ⟨h.setFirstRegisters _, rfl⟩

end Cpu.Alike

namespace Machine

/-! ## Alike machines -/

/-- Machines with alike processors that are equal in all else. -/
structure Alike (m n : Machine) : Prop where
  cpu : m.cpu.Alike n.cpu
  depth : m.cpu.stack.depth ≤ CallStack.capacity
  keypad : m.keypad = n.keypad
  screen : m.screen = n.screen
  speaker : m.speaker = n.speaker
  random : m.random = n.random
  budget : m.budget = n.budget

/-- Traces of the same length that go through alike machines at the same cost. -/
def SameSteps (t u : Trace) : Prop :=
  List.Forall₂ (fun e f => e.1.Alike f.1 ∧ e.2.machine.Alike f.2.machine ∧ e.2.instruction = f.2.instruction ∧
    e.2.cost = f.2.cost) t u

variable {m n : Machine}

theorem Alike.instruction (h : m.Alike n) : m.instruction = n.instruction := by
  unfold Machine.instruction fetchedWord
  rw [h.cpu.memory, h.cpu.pc.word]

theorem Alike.beginFrame (h : m.Alike n) : m.beginFrame.Alike n.beginFrame where
  cpu := { h.cpu with
    delay := by simp only [Machine.beginFrame, h.cpu.delay]
    sound := by simp only [Machine.beginFrame, h.cpu.sound] }
  depth := h.depth
  keypad := h.keypad
  screen := h.screen
  speaker := by simp only [Machine.beginFrame, h.speaker, h.cpu.sound]
  random := h.random
  budget := h.budget

theorem Alike.outside (h : m.Alike n) {e : Event} {f : Machine → Machine} (hf : e.outside? = some f) :
    (f m).Alike (f n) := by
  obtain ⟨g, k, d, hf⟩ := outside?_spec hf
  rw [hf, hf]
  exact { h with
    cpu := { h.cpu with memory := by simp only [h.cpu.memory] }
    keypad := by simp only [h.keypad]
    screen := by simp only [h.screen] }

/-- Alike machines take the same step at the same cost, and are alike after it. -/
theorem Alike.step (h : m.Alike n) : ∃ s t, m.step = .ok s ∧ n.step = .ok t ∧ s.machine.Alike t.machine ∧
    s.instruction = t.instruction ∧ s.cost = t.cost := by
  obtain ⟨s, hs⟩ := step_ok h.depth
  have hdepth := step_depth_le hs h.depth
  -- the instruction is carried out behind the fetch, on processors that are alike again
  have hfetched : m.fetchedCpu.Alike n.fetchedCpu := { h.cpu with pc := h.cpu.pc.add 2 }
  obtain ⟨cpu, held, ht, rfl⟩ := step_eq_ok.1 hs
  obtain ⟨⟨cpu', held'⟩, ht', hcpu, hheld⟩ := (hfetched.transition m.instruction m.keypad.keys m.random).of_ok ht
  simp only at hcpu hheld
  subst hheld
  rw [h.instruction, h.keypad, h.random] at ht'
  refine ⟨_, _, hs, step_eq_ok.2 ⟨cpu', held, ht', rfl⟩, ?_, h.instruction, by simp only [h.instruction]⟩
  refine ⟨hcpu, hdepth, h.keypad, ?_, h.speaker, ?_, h.budget⟩
  · simp only [h.screen, h.instruction, hfetched.drawing]
  · simp only [h.random, h.instruction]

/-- Machines that are alike take the same steps forever. -/
theorem alike_simulation : Simulation record record fun m t n u => m.Alike n ∧ SameSteps t u where
  budget h := h.1.budget
  beginFrame h := ⟨h.1.beginFrame, h.2⟩
  step := by
    rintro m t n u ⟨h, htu⟩
    obtain ⟨s, s', hs, hs', hm, hi, hc⟩ := h.step
    exact ⟨s, s', hs, hs', hc, hm, List.rel_append htu (.cons ⟨h, hm, hi, hc⟩ .nil)⟩

/-- Whatever happens to two alike machines in the same way, neither faults, they stay alike, and they
take the same steps at the same costs. -/
theorem run_alike (h : m.Alike n) (events : List Event) :
    ∃ m' t n' u, m.observeRun record [] events = .ok (m', t) ∧ n.observeRun record [] events = .ok (n', u) ∧
      m'.Alike n' ∧ SameSteps t u :=
  alike_simulation.run events (fun _ _ _ hf _ _ _ _ h => ⟨h.1.outside hf, h.2⟩) ⟨h, .nil⟩

/-- Two machines of which one has a high bit set in both addresses, and words in its dead slots. -/
theorem run_alike_high_bits :
    let m := create {} 0 (.fresh false)
    let n := { m with cpu := { m.cpu with pc := 0x1200, index := 0xF000, stack := ⟨0, Vector.replicate 16 0x300⟩ } }
    m.Alike n ∧ ∃ m' t n' u,
      m.observeRun record [] [.load (.complete [0x22, 0x00]), .tick, .press 3, .step] = .ok (m', t) ∧
      n.observeRun record [] [.load (.complete [0x22, 0x00]), .tick, .press 3, .step] = .ok (n', u) ∧
      m'.Alike n' ∧ SameSteps t u := by
  intro m n
  have hindex : SameByte m.cpu.index n.cpu.index := by unfold SameByte; decide
  have hpc : SameByte m.cpu.pc n.cpu.pc := by unfold SameByte; decide
  have h : m.Alike n :=
    ⟨⟨rfl, hindex, hpc, ⟨rfl, fun k _ hk => absurd hk (Nat.not_lt_zero k)⟩, rfl, rfl, rfl⟩, Nat.zero_le _,
      rfl, rfl, rfl, rfl, rfl⟩
  exact ⟨h, run_alike h _⟩

end Machine
end PacedChip8
