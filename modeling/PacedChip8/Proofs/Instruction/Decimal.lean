/-
Decimal digits in the memory. A byte has three decimal digits, and storing them puts them at three successive
addresses, which wrap but are always apart; so the byte can be recovered from the memory wherever the digits lie,
and from the first three registers once they have been loaded, even if the byte has come from one of these.
-/
import PacedChip8.Proofs.Instruction.Transfer

namespace PacedChip8.Instruction

variable {c : Cpu} {x : Fin 16}

/-! ## Digits -/

/-- The number that three decimal digits stand for. -/
def decimalValue (hundreds tens units : UInt8) : Nat :=
  100 * hundreds.toNat + 10 * tens.toNat + units.toNat

theorem decimalValue_digits (a : UInt8) : decimalValue (a / 100) (a / 10 % 10) (a % 10) = a.toNat := by
  simp only [decimalValue, UInt8.toNat_div, UInt8.toNat_mod, UInt8.reduceToNat]
  omega

theorem decimalDigits_le (a : UInt8) : ∀ d ∈ decimalDigits a, d ≤ 9 := by
  have ha := a.toNat_lt
  simp only [decimalDigits, List.forall_mem_cons, List.not_mem_nil, false_imp_iff, implies_true, and_true,
    UInt8.le_iff_toNat_le, UInt8.toNat_div, UInt8.toNat_mod, UInt8.reduceToNat]
  omega

/-! ## Storing digits -/

/-- The memory holds the decimal digits of register `x` at the address in the index register and the two after it,
and all else as before. -/
structure DecimalStored (c : Cpu) (x : Fin 16) (memory : Memory) : Prop where
  digit : ∀ k : Fin 3, memory.bytes[(c.index.toNat + k) % 4096] ≤ 9
  value : decimalValue memory.bytes[c.index.toNat % 4096] memory.bytes[(c.index.toNat + 1) % 4096]
    memory.bytes[(c.index.toNat + 2) % 4096] = (c.v.get x).toNat
  other : ∀ j (_ : j < 4096), (∀ k : Fin 3, (c.index.toNat + k) % 4096 ≠ j) → memory.bytes[j] = c.memory.bytes[j]

theorem turns_decimal (c : Cpu) (x : Fin 16) :
    (decimal x).Turns c { c with memory := c.memory.write c.index (decimalDigits (c.v.get x)) } := by
  refine turns_of_transition rfl rfl fun keys random => ?_
  exact bind_eq_ok.2 ⟨_, c.reg_of_lt x.isLt, rfl⟩

theorem bytes_write_digit (m : Memory) (i : UInt16) (a : UInt8) (k : Fin 3) :
    (m.write i (decimalDigits a)).bytes[(i.toNat + k) % 4096] = (decimalDigits a).get k := by
  have hlen : (decimalDigits a).length ≤ 4096 := by simp [decimalDigits]
  exact Memory.bytes_write m i hlen k.isLt

/-- The three places differ even where they wrap, so that every digit is there at the end. -/
theorem decimal_stored (c : Cpu) (x : Fin 16) :
    DecimalStored c x (c.memory.write c.index (decimalDigits (c.v.get x))) where
  digit k := by
    rw [bytes_write_digit]
    exact decimalDigits_le _ _ (List.get_mem _ _)
  value := by
    have hbyte := bytes_write_digit c.memory c.index (c.v.get x)
    rw [← decimalValue_digits (c.v.get x)]
    congr 1
    · exact hbyte 0
    · exact hbyte 1
    · exact hbyte 2
  other j hj h := Memory.bytes_write_other _ _ hj fun k hk => h ⟨k, hk⟩

/-! ## Loading digits -/

theorem DecimalStored.loaded {memory : Memory} {d : Cpu} {v : Vector UInt8 16} (h : DecimalStored c x memory)
    (hv : BlockLoaded d 2 v) (hmem : d.memory = memory) (hi : d.index = c.index) :
    decimalValue (v.get 0) (v.get 1) (v.get 2) = (c.v.get x).toNat := by
  rw [hv.block 0 (by decide), hv.block 1 (by decide), hv.block 2 (by decide), ← h.value]
  simp only [hmem, hi]
  rfl

/-- Storing the decimal digits of a register puts three digits that stand for its value at the address in the index
register, and changes nothing else. Whatever becomes of the registers in between, loading the first three registers
from there gives these digits back. -/
theorem decimal_recovered (c : Cpu) (x : Fin 16) :
    ∃ memory, (decode (Word.ofByte 0xF x 0x33)).Turns c { c with memory := memory } ∧ DecimalStored c x memory ∧
      ∀ d : Cpu, d.memory = memory → d.index = c.index →
        ∃ v : Vector UInt8 16, (decode 0xF265).Turns d { d with v := v } ∧
          decimalValue (v.get 0) (v.get 1) (v.get 2) = (c.v.get x).toNat ∧
            ∀ k : Fin 16, 2 < k → v.get k = d.v.get k := by
  have hdecimal : decode (Word.ofByte 0xF x 0x33) = .decimal x := decode_encode (i := .decimal x) x.isLt
  have hrestore : decode 0xF265 = .restore (2 : Fin 16) := rfl
  have hstored := decimal_stored c x
  rw [hdecimal, hrestore]
  refine ⟨_, turns_decimal c x, hstored, fun d hmem hi => ⟨_, turns_restore d 2, ?_, (restore_loaded d 2).other⟩⟩
  exact hstored.loaded (restore_loaded d 2) hmem hi

/-- The digits of 157 across the top of the addresses, of which the first is loaded over the register itself. -/
theorem decimal_recovered_wrap :
    let c : Cpu := { Cpu.initial with index := 0xFFFF, v := Cpu.initial.v.set 1 157 (by decide) }
    ∃ memory, (decode 0xF133).Turns c { c with memory := memory } ∧
      decimalValue (memory.bytes.get 4095) (memory.bytes.get 0) (memory.bytes.get 1) = 157 ∧
      memory.bytes.get 2 = c.memory.bytes.get 2 ∧
      ∃ v : Vector UInt8 16, (decode 0xF265).Turns { c with memory := memory } { c with memory := memory, v := v } ∧
        decimalValue (v.get 0) (v.get 1) (v.get 2) = 157 := by
  intro c
  obtain ⟨memory, hstore, hstored, hback⟩ := decimal_recovered c 1
  have hvalue : (c.v.get 1).toNat = 157 := by decide
  have hfree : ∀ k : Fin 3, (c.index.toNat + k) % 4096 ≠ 2 := by decide
  obtain ⟨v, hrestore, hloaded, -⟩ := hback { c with memory := memory } rfl rfl
  refine ⟨memory, hstore, ?_, hstored.other 2 (by decide) hfree, v, hrestore, hloaded.trans hvalue⟩
  have hplaces : c.index.toNat % 4096 = 4095 ∧ (c.index.toNat + 1) % 4096 = 0 ∧ (c.index.toNat + 2) % 4096 = 1 := by
    decide
  have hdigits := hstored.value
  simp only [hplaces.1, hplaces.2.1, hplaces.2.2, hvalue] at hdigits
  exact hdigits

end PacedChip8.Instruction
