/-
What can be said of one instruction without knowing which it is. An instruction faults only on a
register above fifteen that it uses, or on a return whose depth points behind the last slot; a
decoded word names no such register, so it never faults while the depth is at most sixteen. What an
instruction may write is a matter of its kind and its operands (`transition_frame`): most leave the
index register, the stack, the timers, the memory and all registers but one alone. The cost is zero
only for an unknown word and for a wait that finds no key.
-/
import PacedChip8.Instruction.Decode
import PacedChip8.Instruction.Execute
import PacedChip8.Proofs.CallStack
import PacedChip8.Proofs.Fault
import PacedChip8.Proofs.Timer
import Mathlib.Tactic

namespace PacedChip8

variable {c d : Cpu} {keys : Keys} {random : Random.Source} {held : Bool} {e : Fault}

/-! ## Registers -/

namespace Cpu

theorem reg_eq_ok {x : Nat} {a : UInt8} : c.reg x = .ok a ↔ ∃ h : x < 16, c.v[x] = a := by
  unfold reg
  split <;> rename_i h <;> simp [h]

theorem reg_eq_error {x : Nat} : c.reg x = .error e ↔ 16 ≤ x ∧ .register x = e := by
  unfold reg
  split <;> rename_i h
  · simp; omega
  · simp; omega

theorem setReg_eq_ok {x : Nat} {b : UInt8} :
    c.setReg x b = .ok d ↔ ∃ h : x < 16, { c with v := c.v.set x b } = d := by
  unfold setReg
  split <;> rename_i h <;> simp [h]

theorem setReg_get {x : Nat} {b : UInt8} (h : c.setReg x b = .ok d) : ∃ _ : x < 16, d.v[x] = b := by
  obtain ⟨hx, rfl⟩ := setReg_eq_ok.1 h
  exact ⟨hx, Vector.getElem_set_self hx⟩

theorem setReg_eq_error {x : Nat} {b : UInt8} :
    c.setReg x b = .error e ↔ 16 ≤ x ∧ .register x = e := by
  unfold setReg
  split <;> rename_i h
  · simp; omega
  · simp; omega

theorem setResult_eq_error {x : Nat} {b : UInt8} {flag? : Option Bool} :
    c.setResult x b flag? = .error e ↔ 16 ≤ x ∧ .register x = e := by
  unfold setResult
  rw [bind_eq_error, setReg_eq_error]
  constructor
  · rintro (h | ⟨d, -, h⟩)
    · exact h
    · cases flag? <;> exact absurd h pure_ne_error
  · exact .inl

/-- A result goes to its register and, if it has a flag, to the last one, and nowhere else. -/
theorem setResult_frame {x : Nat} {b : UInt8} {flag? : Option Bool} (h : c.setResult x b flag? = .ok d) :
    ∃ v, (∀ k (_ : k < 16), k ≠ x → (flag? = none ∨ k ≠ 15) → v[k] = c.v[k]) ∧ d = { c with v := v } := by
  unfold setResult at h
  obtain ⟨c', hc, h⟩ := bind_eq_ok.1 h
  obtain ⟨hx, rfl⟩ := setReg_eq_ok.1 hc
  cases flag? with
  | none =>
    refine ⟨_, fun k hk hkx _ => ?_, (pure_eq_ok.1 h).symm⟩
    exact Vector.getElem_set_ne hx hk (Ne.symm hkx)
  | some flag =>
    refine ⟨_, fun k hk hkx hk15 => ?_, (pure_eq_ok.1 h).symm⟩
    have hne : 15 ≠ k := Ne.symm (hk15.resolve_left (Option.some_ne_none flag))
    rw [Vector.getElem_set_ne _ hk hne]
    exact Vector.getElem_set_ne hx hk (Ne.symm hkx)

/-- Registers behind the end of the list are left alone. -/
theorem setFirstRegisters_getElem {bytes : List UInt8} {k : Nat} (hk : k < 16) (hle : bytes.length ≤ k) :
    (c.setFirstRegisters bytes).v[k] = c.v[k] := by
  unfold setFirstRegisters
  simp only [Vector.getElem_ofFn, List.getElem?_eq_none hle, Option.getD_none]
  rfl

end Cpu

/-! ## Operands -/

/-- The registers that a test asks about. -/
def Test.registers : Test → List Nat
  | .byteEq x _ | .byteNe x _ | .keyDown x | .keyUp x => [x]
  | .regEq x y | .regNe x y => [x, y]

namespace Instruction

/-- The registers that an instruction reads or writes. Flags go to the last one, and an offset jump
reads the first. -/
def registers : Instruction → List Nat
  | .clear | .jumpIndex | .ret | .jump _ | .call _ | .setIndex _ | .unknown _ => []
  | .jumpOffset _ => [0]
  | .skip t => t.registers
  | .load x _ | .add x _ | .random x _ | .readDelay x | .awaitKey x | .setDelay x | .setSound x
  | .addIndex x | .glyph x | .decimal x => [x]
  | .combine .add x y | .combine .sub x y | .combine .subFrom x y => [x, y, 15]
  | .combine _ x y => [x, y]
  | .shift _ x => [x, 15]
  | .draw x y _ => [x, y]
  | .store x | .restore x => List.range (x + 1)

/-- A word names only registers that exist. -/
theorem registers_decode_lt (w : UInt16) : ∀ x ∈ (decode w).registers, x < 16 := by
  have hx := Word.x_lt w
  have hy := Word.y_lt w
  unfold decode decodeSystem decodeArithmetic decodeKey decodeTransfer
  intro r hr
  -- the group of the word, and in four groups a further field
  split at hr <;> try split at hr
  all_goals simp only [registers, Test.registers, List.mem_cons, List.mem_range, List.not_mem_nil, or_false] at hr
  all_goals omega

end Instruction

/-! ## Faults -/

theorem Test.holds_eq_error {t : Test} (h : t.holds c keys = .error e) :
    ∃ x ∈ t.registers, 16 ≤ x ∧ .register x = e := by
  cases t <;>
    simp only [holds, bind_eq_error, Cpu.reg_eq_error, pure_ne_error, and_false, exists_false, or_false] at h
  case regEq x y | regNe x y =>
    rcases h with h | ⟨_, -, h⟩
    · exact ⟨x, by simp [registers], h⟩
    · exact ⟨y, by simp [registers], h⟩
  all_goals exact ⟨_, by simp [registers], h⟩

namespace Instruction

/-- A fault is about a register that the instruction uses and that does not exist, or about the slot
that a return finds behind the last one. -/
theorem transition_eq_error {i : Instruction} (h : i.transition c keys random = .error e) :
    (∃ x ∈ i.registers, 16 ≤ x ∧ .register x = e) ∨
      (i = .ret ∧ 16 < c.stack.depth ∧ .slot (c.stack.depth - 1) = e) := by
  cases i <;>
    simp only [transition, bind_eq_error, Cpu.reg_eq_error, Cpu.setReg_eq_error, Cpu.setResult_eq_error,
      pure_ne_error, reduceCtorEq, and_false, exists_false, or_false] at h
  case ret =>
    rcases hd : c.stack.depth with _ | d
    · rw [CallStack.pop_of_empty hd] at h; cases h
    · by_cases hlt : d < 16
      · rw [CallStack.pop_of_lt hd hlt] at h; cases h
      · rw [CallStack.pop_of_le hd (by omega)] at h
        cases h
        exact .inr ⟨rfl, by omega, rfl⟩
  case call a => split at h <;> cases h
  case skip t => exact .inl (Test.holds_eq_error h)
  case awaitKey x =>
    split at h
    · cases h
    · rw [bind_eq_error, Cpu.setReg_eq_error] at h
      rcases h with h | ⟨_, _, h⟩
      · exact .inl ⟨x, by simp [registers], h⟩
      · cases h
  case combine op x y =>
    left
    rcases h with h | ⟨_, -, h | ⟨_, -, h⟩⟩
    · exact ⟨x, by cases op <;> simp [registers], h⟩
    · exact ⟨y, by cases op <;> simp [registers], h⟩
    · exact ⟨x, by cases op <;> simp [registers], h⟩
  case draw x y rows =>
    left
    rcases h with h | ⟨_, -, h⟩
    · exact ⟨x, by simp [registers], h⟩
    · exact ⟨y, by simp [registers], h⟩
  case add x b | shift d x =>
    left
    rcases h with h | ⟨_, -, h⟩ <;> exact ⟨x, by simp [registers], h⟩
  all_goals exact .inl ⟨_, by simp [registers], h⟩

/-- A decoded instruction can be carried out while the depth is at most sixteen. -/
theorem transition_decode (w : UInt16) (hd : c.stack.depth ≤ 16) (keys : Keys) (random : Random.Source) :
    ∃ d held, (decode w).transition c keys random = .ok (d, held) := by
  rcases h : (decode w).transition c keys random with e | ⟨d, held⟩
  · rcases transition_eq_error h with ⟨x, hx, hle, -⟩ | ⟨-, hlt, -⟩
    · have := registers_decode_lt w x hx; omega
    · omega
  · exact ⟨d, held, rfl⟩

/-! ## Waits -/

theorem firstReleased?_eq_none_iff (keys : Keys) :
    keys.firstReleased? = none ↔ ∀ key : UInt8, key.toNat < Keys.count → keys.released key = false := by
  unfold Keys.firstReleased?
  simp only [List.find?_eq_none, List.mem_map, List.mem_range, Bool.not_eq_true]
  constructor
  · intro h key hk
    exact h key ⟨key.toNat, hk, UInt8.ofNat_toNat⟩
  · rintro h _ ⟨k, hk, rfl⟩
    exact h _ (by rw [UInt8.toNat_ofNat']; unfold Keys.count at *; omega)

/-- Without a released key a wait goes back to itself, and that is the only outcome of a wait that
does not count as held. -/
theorem transition_awaitKey {x : Nat} (h : (awaitKey x).transition c keys random = .ok (d, held)) :
    (keys.firstReleased? = none ∧ held = false ∧ d = c.retry) ∨
      ∃ key, keys.firstReleased? = some key ∧ held = true ∧ c.setReg x key = .ok d := by
  simp only [transition] at h
  split at h
  · rename_i hk
    cases h
    exact .inl ⟨hk, rfl, rfl⟩
  · rename_i key hk
    obtain ⟨c', hc, h⟩ := bind_eq_ok.1 h
    cases h
    exact .inr ⟨key, hk, rfl, hc⟩

/-! ## Calls and returns -/

/-- A return without an address does nothing; one with an address takes it from the stack and goes
there. -/
theorem transition_ret (h : ret.transition c keys random = .ok (d, held)) :
    (c.stack.depth = 0 ∧ d = c) ∨
      ∃ k, ∃ _ : k < 16, c.stack.depth = k + 1 ∧
        d = { c with stack := { c.stack with depth := k }, pc := c.stack.slots[k] } := by
  simp only [transition] at h
  rcases hd : c.stack.depth with _ | k
  · rw [CallStack.pop_of_empty hd] at h
    cases h
    exact .inl ⟨rfl, rfl⟩
  · by_cases hk : k < 16
    · rw [CallStack.pop_of_lt hd hk] at h
      cases h
      exact .inr ⟨k, hk, rfl, rfl⟩
    · rw [CallStack.pop_of_le hd (by omega)] at h
      cases h

/-- A call with room leaves the address behind it on the stack and goes to its own; one without room
does nothing. -/
theorem transition_call {a : UInt16} (h : (call a).transition c keys random = .ok (d, held)) :
    (16 ≤ c.stack.depth ∧ d = c) ∨
      ∃ stack, c.stack.push? c.pc = some stack ∧ d = { c with stack := stack, pc := a } := by
  simp only [transition] at h
  split at h
  · rename_i hp
    cases h
    exact .inl ⟨(CallStack.push?_eq_none_iff _ _).1 hp, rfl⟩
  · rename_i stack hp
    cases h
    exact .inr ⟨stack, hp, rfl⟩

/-- The stack after an instruction: only calls and returns touch it. -/
def stackAfter (i : Instruction) (c : Cpu) : CallStack :=
  match i with
  | .ret => c.stack.pop.2
  | .call _ => (c.stack.push? c.pc).getD c.stack
  | _ => c.stack

/-- The depth of the stack after an instruction: a return takes one away if there is one, and a call adds
one if there is room. -/
def depthAfter (i : Instruction) (depth : Nat) : Nat :=
  match i with
  | .ret => if 0 < depth then depth - 1 else depth
  | .call _ => if depth < CallStack.capacity then depth + 1 else depth
  | _ => depth

theorem stackAfter_depth (i : Instruction) (c : Cpu) : (i.stackAfter c).depth = i.depthAfter c.stack.depth := by
  cases i <;> simp only [stackAfter, depthAfter]
  case ret =>
    rw [CallStack.pop_depth]
    split <;> omega
  case call a =>
    unfold CallStack.capacity
    by_cases hlt : c.stack.depth < 16
    · rw [CallStack.push?_of_lt hlt, if_pos hlt]; rfl
    · rw [CallStack.push?_of_le (by omega), if_neg hlt]; rfl

theorem stackAfter_depth_le (i : Instruction) (hd : c.stack.depth ≤ 16) : (i.stackAfter c).depth ≤ 16 := by
  rw [stackAfter_depth]
  unfold depthAfter CallStack.capacity
  split
  · split <;> omega
  · split <;> omega
  · exact hd

/-- A call writes the first slot that is not live. -/
theorem stackAfter_slots {i : Instruction} {k : Nat} (hk : k < 16) (hi : (∃ a, i = .call a) → k ≠ c.stack.depth) :
    (i.stackAfter c).slots[k] = c.stack.slots[k] := by
  cases i <;> simp only [stackAfter]
  case ret => simp only [CallStack.pop_slots]
  case call a =>
    by_cases hlt : c.stack.depth < 16
    · simp only [CallStack.push?_of_lt hlt, Option.getD_some]
      exact Vector.getElem_set_ne hlt hk (Ne.symm (hi ⟨a, rfl⟩))
    · simp only [CallStack.push?_of_le (Nat.not_lt.1 hlt), Option.getD_none]

/-! ## What an instruction leaves alone -/

/-- The registers that an instruction may write. Sums, differences and shifts leave a flag in the last
one, and a wait writes its register only if it has found a key. -/
def targets (i : Instruction) (keys : Keys) : List Nat :=
  match i with
  | .combine .add x _ | .combine .sub x _ | .combine .subFrom x _ | .shift _ x => [x, 15]
  | .load x _ | .add x _ | .combine _ x _ | .random x _ | .readDelay x => [x]
  | .awaitKey x => if keys.firstReleased? = none then [] else [x]
  | .restore x => List.range (x + 1)
  | _ => []

/-- The index register after an instruction. -/
def indexAfter (i : Instruction) (c : Cpu) : UInt16 :=
  match i with
  | .setIndex a => a
  | .addIndex x => c.index + (c.v[x]?.getD 0).toUInt16
  | .glyph x => Memory.fontStart + (c.v[x]?.getD 0).toUInt16
  | _ => c.index

/-- The memory after an instruction. -/
def memoryAfter (i : Instruction) (c : Cpu) : Memory :=
  match i with
  | .decimal x => c.memory.write c.index (decimalDigits (c.v[x]?.getD 0))
  | .store x => c.memory.write c.index (c.firstRegisters (x + 1))
  | _ => c.memory

/-- What an instruction does to everything but the program counter: registers that are not its targets
stay as they are, and what becomes of the rest can be read off the processor that it finds. -/
theorem transition_frame {i : Instruction} (h : i.transition c keys random = .ok (d, held)) :
    ∃ v pc, (∀ k (_ : k < 16), k ∉ i.targets keys → v[k] = c.v[k]) ∧ d = {
      v, pc
      index := i.indexAfter c
      stack := i.stackAfter c
      delay := Timer.delay.after i c
      sound := Timer.sound.after i c
      memory := i.memoryAfter c } := by
  -- one register is written, and it is the first target
  have hset {x : Nat} {b : UInt8} {rest : List Nat} (hx : x < 16) :
      ∀ k (_ : k < 16), k ∉ x :: rest → (c.v.set x b)[k] = c.v[k] := by
    intro k hk hmem
    exact Vector.getElem_set_ne hx hk fun h => hmem (h ▸ List.mem_cons_self ..)
  have hsame : ∀ k (_ : k < 16), k ∉ i.targets keys → c.v[k] = c.v[k] := fun _ _ _ => rfl
  cases i
  case ret =>
    rcases transition_ret h with ⟨hd, rfl⟩ | ⟨k, hk, hd, rfl⟩
    · exact ⟨_, _, hsame, by simp only [stackAfter]; rw [CallStack.pop_of_empty hd]; rfl⟩
    · exact ⟨_, _, hsame, by simp only [stackAfter]; rw [CallStack.pop_of_lt hd hk]; rfl⟩
  case call a =>
    rcases transition_call h with ⟨hd, rfl⟩ | ⟨stack, hp, rfl⟩
    · exact ⟨_, _, hsame, by simp only [stackAfter]; rw [CallStack.push?_of_le hd]; rfl⟩
    · exact ⟨_, _, hsame, by simp only [stackAfter]; rw [hp]; rfl⟩
  case awaitKey x =>
    rcases transition_awaitKey h with ⟨-, -, rfl⟩ | ⟨key, hkey, -, hc⟩
    · exact ⟨_, _, hsame, rfl⟩
    · obtain ⟨hx, rfl⟩ := Cpu.setReg_eq_ok.1 hc
      refine ⟨_, _, ?_, rfl⟩
      simp only [targets, hkey, reduceCtorEq, if_false]
      exact hset hx
  -- the others are told apart by how many registers they look at and whether they write one
  all_goals
    simp only [transition, bind_eq_ok, Cpu.reg_eq_ok, Cpu.setReg_eq_ok, pure_eq_ok, Except.ok.injEq,
      Prod.mk.injEq] at h
  case skip t =>
    obtain ⟨_, -, rfl, -⟩ := h
    split <;> exact ⟨_, _, hsame, rfl⟩
  case combine op x y =>
    obtain ⟨_, -, _, -, c', hc, rfl, -⟩ := h
    obtain ⟨v, hv, rfl⟩ := Cpu.setResult_frame hc
    refine ⟨v, _, fun k hk hmem => ?_, rfl⟩
    cases op <;> simp only [targets, List.mem_cons, List.not_mem_nil, or_false, not_or] at hmem
    case add | sub | subFrom => exact hv k hk hmem.1 (.inr hmem.2)
    all_goals exact hv k hk hmem (.inl rfl)
  case shift =>
    obtain ⟨_, -, c', hc, rfl, -⟩ := h
    obtain ⟨v, hv, rfl⟩ := Cpu.setResult_frame hc
    refine ⟨v, _, fun k hk hmem => ?_, rfl⟩
    simp only [targets, List.mem_cons, List.not_mem_nil, or_false, not_or] at hmem
    exact hv k hk hmem.1 (.inr hmem.2)
  case draw =>
    obtain ⟨_, -, _, -, rfl, -⟩ := h
    exact ⟨_, _, hsame, rfl⟩
  case add =>
    obtain ⟨_, -, _, ⟨hx, rfl⟩, rfl, -⟩ := h
    exact ⟨_, _, hset hx, rfl⟩
  case load | random | readDelay =>
    obtain ⟨_, ⟨hx, rfl⟩, rfl, -⟩ := h
    exact ⟨_, _, hset hx, rfl⟩
  case clear | unknown | jump | jumpIndex | setIndex =>
    obtain ⟨rfl, -⟩ := h
    exact ⟨_, _, hsame, rfl⟩
  case restore x =>
    obtain ⟨_, -, rfl, -⟩ := h
    refine ⟨_, _, fun k hk hmem => ?_, rfl⟩
    have hle : x + 1 ≤ k := Nat.not_lt.1 (mt List.mem_range.2 hmem)
    exact Cpu.setFirstRegisters_getElem hk (by simpa [Memory.read] using hle)
  case setDelay | setSound | addIndex | glyph | decimal =>
    obtain ⟨_, ⟨hx, rfl⟩, rfl, -⟩ := h
    exact ⟨c.v, c.pc, hsame, by
      simp [Timer.after, Timer.setting?, Timer.value, stackAfter, indexAfter, memoryAfter, hx]⟩
  all_goals
    obtain ⟨_, -, rfl, -⟩ := h
    exact ⟨_, _, hsame, rfl⟩

theorem transition_stack {i : Instruction} (h : i.transition c keys random = .ok (d, held)) :
    d.stack = i.stackAfter c := by
  obtain ⟨_, _, -, rfl⟩ := transition_frame h
  rfl

theorem transition_timer (timer : Timer) {i : Instruction} (h : i.transition c keys random = .ok (d, held)) :
    timer.value d = timer.after i c := by
  obtain ⟨_, _, -, rfl⟩ := transition_frame h
  cases timer <;> rfl

/-! ## The processor alone -/

/-- The instruction takes one processor to another and touches nothing else, whatever the keys and the
random source are. -/
def Turns (i : Instruction) (c d : Cpu) : Prop :=
  ∀ keys random, ∃ cost, i.execute c keys random = ⟨.ok (d, cost), [], random⟩

theorem turns_of_transition {i : Instruction} (hi : i.drawing c = []) (hr : i.drawsRandom = false)
    (h : ∀ keys random, i.transition c keys random = .ok (d, true)) : i.Turns c d := by
  intro keys random
  refine ⟨i.cost true, ?_⟩
  rw [execute, h keys random, hi, hr]
  rfl

/-! ## Costs -/

theorem cost_test_bounds (t : Test) (held : Bool) : 55 ≤ t.cost held ∧ t.cost held ≤ 82 := by
  cases t <;> cases held <;> simp [Test.cost]

/-- Free are only the words without a meaning and the waits that found no key. -/
theorem cost_eq_zero_iff (i : Instruction) (held : Bool) :
    i.cost held = 0 ↔ (∃ w, i = .unknown w) ∨ ((∃ x, i = .awaitKey x) ∧ held = false) := by
  cases i <;> simp [cost]
  case skip t => have := cost_test_bounds t held; omega

/-- Nothing costs more than a sprite. -/
theorem cost_le {i : Instruction} (hi : ∀ x ∈ i.registers, x < 16) (held : Bool) : i.cost held ≤ 22734 := by
  cases i <;> simp only [cost] <;> try omega
  case skip t => have := cost_test_bounds t held; omega
  case awaitKey x => split <;> omega
  case store x => have := hi x (by simp [registers]); omega
  case restore x => have := hi x (by simp [registers]); omega

end Instruction
end PacedChip8
