/-
When an instruction cannot be carried out. Operands may name registers that do not exist and the depth of the
stack may be anything; an instruction faults exactly if it comes to such a register, or is a return whose
depth points behind the last slot. Every instruction comes to all its operands but a wait, which needs its
register only once a key has been let go. The screen is drawn on only after the registers have been looked at,
so an instruction that faults has not touched it.
-/
import PacedChip8.Proofs.Instruction.Transition
import PacedChip8.Proofs.Keypad

namespace PacedChip8

variable {c d : Cpu} {keys : Keys} {random : Random.Source} {held : Bool} {e : Fault}

theorem Test.registers_lt {t : Test} (h : t.holds c keys = .ok held) : ∀ x ∈ t.registers, x < 16 := by
  cases t <;> simp only [holds, bind_eq_ok, Cpu.reg_eq_ok] at h
  case regEq x y | regNe x y =>
    obtain ⟨_, ⟨hx, -⟩, _, ⟨hy, -⟩, -⟩ := h
    simp [registers, hx, hy]
  all_goals
    obtain ⟨_, ⟨hx, -⟩, -⟩ := h
    simp [registers, hx]

namespace Instruction

variable {i : Instruction}

/-- The registers that the operands of an instruction name. -/
def registerOperands : Instruction → List Nat
  | .clear | .jumpIndex | .ret | .jump _ | .call _ | .setIndex _ | .jumpOffset _ | .unknown _ => []
  | .skip t => t.registers
  | .load x _ | .add x _ | .shift _ x | .random x _ | .readDelay x | .awaitKey x | .setDelay x | .setSound x
  | .addIndex x | .glyph x | .decimal x | .store x | .restore x => [x]
  | .combine _ x y | .draw x y _ => [x, y]

/-- An operand names a register that does not exist, and the instruction comes to it: a wait does only if some
key counts as released. -/
def Strays (i : Instruction) (keys : Keys) : Prop :=
  (∃ x ∈ i.registerOperands, 16 ≤ x) ∧
    ((∃ x, i = .awaitKey x) → ∃ key : UInt8, key.toNat < 16 ∧ keys.released key = true)

/-! ## Operands -/

/-- The registers that an instruction uses besides its operands, or up to its operand, exist if this does. -/
theorem exists_registerOperand (h : ∃ x ∈ i.registers, 16 ≤ x) : ∃ x ∈ i.registerOperands, 16 ≤ x := by
  obtain ⟨x, hx, hle⟩ := h
  cases i
  case combine op y z => cases op <;> simp [registers, registerOperands] at hx ⊢ <;> omega
  all_goals simp [registers, registerOperands] at hx ⊢
  case skip t => exact ⟨x, hx, hle⟩
  all_goals omega

/-- If the transition goes through, its registers exist; a wait that no key ends does not come to its register. -/
theorem registerOperands_lt (h : i.transition c keys random = .ok (d, held))
    (hwait : (∃ x, i = .awaitKey x) → keys.firstReleased? ≠ none) : ∀ x ∈ i.registerOperands, x < 16 := by
  cases i
  case awaitKey x =>
    rcases transition_awaitKey h with ⟨hk, -⟩ | ⟨key, -, -, hc⟩
    · exact absurd hk (hwait ⟨x, rfl⟩)
    · obtain ⟨hx, -⟩ := Cpu.setReg_eq_ok.1 hc
      simp [registerOperands, hx]
  case clear | jumpIndex | ret | jump | call | setIndex | jumpOffset | unknown => simp [registerOperands]
  all_goals simp only [transition, bind_eq_ok, Cpu.reg_eq_ok, Cpu.setReg_eq_ok] at h
  case skip t =>
    obtain ⟨_, ht, -⟩ := h
    exact Test.registers_lt ht
  case combine | draw =>
    obtain ⟨_, ⟨hx, -⟩, _, ⟨hy, -⟩, -⟩ := h
    simp [registerOperands, hx, hy]
  all_goals
    obtain ⟨_, ⟨hx, -⟩, -⟩ := h
    simp [registerOperands, hx]

theorem firstReleased?_ne_none_iff :
    keys.firstReleased? ≠ none ↔ ∃ key : UInt8, key.toNat < 16 ∧ keys.released key = true := by
  rw [Ne, firstReleased?_eq_none_iff]
  unfold Keys.count
  push Not
  simp only [ne_eq, Bool.not_eq_false]

/-! ## Faults -/

/-- There are two causes of a fault: a register that does not exist, and a return on a stack that is deeper than its
slots. -/
theorem transition_error_iff :
    (∃ e, i.transition c keys random = .error e) ↔ i.Strays keys ∨ (i = .ret ∧ 16 < c.stack.depth) := by
  constructor
  · rintro ⟨e, h⟩
    rcases transition_eq_error h with ⟨x, hx, hle, -⟩ | ⟨rfl, hd, -⟩
    · refine .inl ⟨exists_registerOperand ⟨x, hx, hle⟩, ?_⟩
      rintro ⟨y, rfl⟩
      refine firstReleased?_ne_none_iff.1 fun hk => ?_
      -- without a key the wait goes back to itself
      rw [transition, hk] at h
      cases h
    · exact .inr ⟨rfl, hd⟩
  · intro h
    rcases ht : i.transition c keys random with e | ⟨d, held⟩
    · exact ⟨e, rfl⟩
    · rcases h with ⟨⟨x, hx, hle⟩, hkey⟩ | ⟨rfl, hd⟩
      · have := registerOperands_lt ht (fun hw => firstReleased?_ne_none_iff.2 (hkey hw)) x hx
        omega
      · rcases transition_ret ht with ⟨h0, -⟩ | ⟨k, hk, hs, -⟩ <;> omega

theorem drawing_of_error (h : i.transition c keys random = .error e) : i.drawing c = [] := by
  cases i
  case clear => cases h
  case draw x y rows =>
    simp only [drawing]
    split
    · rename_i hx hy
      rw [transition, hx, hy] at h
      cases h
    · rfl
  all_goals rfl

theorem transition_call_full {a : UInt16} (hd : 16 ≤ c.stack.depth) :
    (call a).transition c keys random = .ok (c, true) := by
  rw [transition, CallStack.push?_of_le hd]

theorem execute_eq_error : (i.execute c keys random).result = .error e ↔ i.transition c keys random = .error e := by
  rw [execute]
  rcases i.transition c keys random with e' | ⟨d, held⟩ <;> simp [Except.map]

/-- An instruction faults exactly if it comes to a register that does not exist, or returns with more than
sixteen addresses on the stack; a call with sixteen or more does nothing instead. Whatever has faulted has not
touched the screen. -/
theorem execute_faults_iff (i : Instruction) (c : Cpu) (keys : Keys) (random : Random.Source) :
    ((∃ e, (i.execute c keys random).result = .error e) ↔ i.Strays keys ∨ (i = .ret ∧ 16 < c.stack.depth)) ∧
      (∀ a, i = .call a → 16 ≤ c.stack.depth → i.execute c keys random = ⟨.ok (c, 105), [], random⟩) ∧
      ∀ e, (i.execute c keys random).result = .error e → (i.execute c keys random).commands = [] := by
  refine ⟨?_, ?_, ?_⟩
  · simp only [execute_eq_error]
    exact transition_error_iff
  · rintro a rfl hd
    rw [execute, transition_call_full hd]
    rfl
  · intro e h
    exact drawing_of_error (execute_eq_error.1 h)

/-- A wait into a register that does not exist faults once a key has been let go, and a sprite in a row that no
register gives faults before anything is drawn; at a depth of two hundred a call does nothing and a return faults. -/
theorem execute_faults_iff_depth :
    let keys : Keys := ⟨fun _ => false, (· == 3)⟩
    let c : Cpu := { Cpu.initial with stack := ⟨200, CallStack.empty.slots⟩ }
    let random := Random.Source.cycle []
    (∃ e, ((awaitKey 16).execute c keys random).result = .error e) ∧
      (¬∃ e, ((awaitKey 16).execute c ⟨fun _ => true, fun _ => false⟩ random).result = .error e) ∧
      (∃ e, ((draw 0 99 1).execute c keys random).result = .error e ∧
        ((draw 0 99 1).execute c keys random).commands = []) ∧
      (call 0x300).execute c keys random = ⟨.ok (c, 105), [], random⟩ ∧
      ∃ e, (ret.execute c keys random).result = .error e := by
  intro keys c random
  have hkey : ∃ key : UInt8, key.toNat < 16 ∧ keys.released key = true := ⟨3, by decide, rfl⟩
  refine ⟨?_, ?_, ?_, ?_, ?_⟩
  · exact (execute_faults_iff (awaitKey 16) c keys random).1.2 (.inl ⟨⟨16, by decide, by decide⟩, fun _ => hkey⟩)
  · rw [(execute_faults_iff (awaitKey 16) c _ random).1]
    rintro (⟨-, h⟩ | ⟨h, -⟩)
    · obtain ⟨_, -, hr⟩ := h ⟨16, rfl⟩
      cases hr
    · cases h
  · obtain ⟨hiff, -, hdraw⟩ := execute_faults_iff (draw 0 99 1) c keys random
    obtain ⟨e, he⟩ := hiff.2 (.inl ⟨⟨99, by decide, by decide⟩, fun ⟨_, h⟩ => nomatch h⟩)
    exact ⟨e, he, hdraw e he⟩
  · exact (execute_faults_iff (call 0x300) c keys random).2.1 0x300 rfl (by decide)
  · exact (execute_faults_iff ret c keys random).1.2 (.inr ⟨rfl, by decide⟩)

end Instruction
end PacedChip8
