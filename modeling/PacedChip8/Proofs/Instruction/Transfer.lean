/-
Blocks of registers in the memory. Storing puts the registers up to one of them at successive addresses and
loading takes them from there. The addresses wrap, but a block is far shorter than the memory, so its bytes
are all apart: what was stored is loaded again, and storing what was just loaded changes nothing.
-/
import PacedChip8.Proofs.Instruction.Encode
import PacedChip8.Proofs.Instruction.Transition
import PacedChip8.Proofs.Memory

namespace PacedChip8

/-! ## The first registers -/

namespace Cpu

variable {c : Cpu} {bytes : List UInt8} {n k : Nat}

theorem firstRegisters_congr {d : Cpu} (hv : d.v = c.v) (n : Nat) : d.firstRegisters n = c.firstRegisters n := by
  rw [firstRegisters, firstRegisters, hv]

theorem length_firstRegisters (c : Cpu) (hn : n ≤ 16) : (c.firstRegisters n).length = n := by
  simp [firstRegisters, hn]

theorem getElem_firstRegisters (hk : k < 16) (hn : k < (c.firstRegisters n).length) :
    (c.firstRegisters n)[k] = c.v[k] := by
  simp [firstRegisters]

theorem setFirstRegisters_written (hk : k < 16) (hlen : k < bytes.length) :
    (c.setFirstRegisters bytes).v[k] = bytes[k] := by
  simp only [setFirstRegisters, Vector.getElem_ofFn, List.getElem?_eq_getElem hlen, Option.getD_some]

theorem firstRegisters_setFirstRegisters (c : Cpu) (hlen : bytes.length ≤ 16) :
    (c.setFirstRegisters bytes).firstRegisters bytes.length = bytes := by
  refine List.ext_getElem (length_firstRegisters _ hlen) fun k hk hb => ?_
  rw [getElem_firstRegisters (by omega), setFirstRegisters_written (by omega) hb]

end Cpu

/-! ## Storing and loading -/

namespace Instruction

variable {c d : Cpu} {x : Fin 16}

/-- The memory holds the registers up to `x` at the address in the index register and those after it, and
all else as before. -/
structure BlockStored (c : Cpu) (x : Fin 16) (memory : Memory) : Prop where
  block : ∀ k : Fin 16, k ≤ x → memory.bytes[(c.index.toNat + k) % 4096] = c.v.get k
  other : ∀ j (_ : j < 4096), (∀ k : Fin 16, k ≤ x → (c.index.toNat + k) % 4096 ≠ j) →
    memory.bytes[j] = c.memory.bytes[j]

/-- The registers up to `x` hold the bytes at the address in the index register and those after it, and
the others what they held before. -/
structure BlockLoaded (c : Cpu) (x : Fin 16) (v : Vector UInt8 16) : Prop where
  block : ∀ k : Fin 16, k ≤ x → v.get k = c.memory.bytes[(c.index.toNat + k) % 4096]
  other : ∀ k : Fin 16, x < k → v.get k = c.v.get k

theorem turns_store (c : Cpu) (x : Fin 16) :
    (store x).Turns c { c with memory := c.memory.write c.index (c.firstRegisters (x + 1)) } := by
  refine turns_of_transition rfl rfl fun keys random => ?_
  exact bind_eq_ok.2 ⟨_, c.reg_of_lt x.isLt, rfl⟩

theorem turns_restore (c : Cpu) (x : Fin 16) :
    (restore x).Turns c (c.setFirstRegisters (c.memory.read c.index (x + 1))) := by
  refine turns_of_transition rfl rfl fun keys random => ?_
  exact bind_eq_ok.2 ⟨_, c.reg_of_lt x.isLt, rfl⟩

theorem length_block (c : Cpu) (x : Fin 16) : (c.firstRegisters (x + 1)).length = x + 1 :=
  c.length_firstRegisters x.isLt

/-- A block of at most sixteen bytes lies in the memory at distinct places, wherever it starts. -/
theorem store_stored (c : Cpu) (x : Fin 16) :
    BlockStored c x (c.memory.write c.index (c.firstRegisters (x + 1))) where
  block k hk := by
    have hlen := length_block c x
    have hlt : (k : Nat) < (c.firstRegisters (x + 1)).length := by omega
    rw [Memory.bytes_write _ _ (by omega) hlt, Cpu.getElem_firstRegisters k.isLt]
    rfl
  other j hj h := by
    refine Memory.bytes_write_other _ _ hj fun k hk => ?_
    rw [length_block] at hk
    exact h ⟨k, by omega⟩ (Nat.le_of_lt_succ hk)

/-- Restoring reads its block modulo 4096 and leaves the registers behind `x` alone. -/
theorem restore_loaded (c : Cpu) (x : Fin 16) :
    BlockLoaded c x (c.setFirstRegisters (c.memory.read c.index (x + 1))).v where
  block k hk := by
    have hlt : (k : Nat) < (c.memory.read c.index (x + 1)).length := by
      rw [Memory.length_read]
      omega
    refine (Cpu.setFirstRegisters_written k.isLt hlt).trans ?_
    rw [← Memory.get_add]
    simp [Memory.read]
  other k hk := by
    refine Cpu.setFirstRegisters_getElem k.isLt ?_
    rw [Memory.length_read]
    exact hk

/-- What was stored is there to be loaded. -/
theorem read_of_stored (hmem : d.memory = c.memory.write c.index (c.firstRegisters (x + 1))) (hi : d.index = c.index) :
    d.memory.read d.index (x + 1) = c.firstRegisters (x + 1) := by
  have hlen := length_block c x
  have hfits : (c.firstRegisters (x + 1)).length ≤ 4096 := by omega
  have hread := Memory.read_write c.memory c.index hfits
  rw [hlen] at hread
  rwa [hmem, hi]

/-- Storing what is there already turns a processor to itself. -/
theorem turns_store_self (h : d.memory.write d.index (d.firstRegisters (x + 1)) = d.memory) : (store x).Turns d d := by
  have hturns := turns_store d x
  rwa [h] at hturns

/-- Storing and loading are inverse to each other, wherever the block lies, and whatever becomes of the
registers, the program counter, the stack and the timers in between: registers that were stored come back,
and a block that was loaded or stored before is not changed by storing it. -/
theorem transfers_round_trip (c : Cpu) (x : Fin 16) :
    (∃ memory, (decode (Word.ofByte 0xF x 0x55)).Turns c { c with memory := memory } ∧ BlockStored c x memory ∧
      ∀ d : Cpu, d.memory = memory → d.index = c.index →
        (d.v = c.v → (decode (Word.ofByte 0xF x 0x55)).Turns d d) ∧
          ∃ v, (decode (Word.ofByte 0xF x 0x65)).Turns d { d with v := v } ∧ BlockLoaded d x v ∧
            ∀ k : Fin 16, k ≤ x → v.get k = c.v.get k) ∧
      ∃ v, (decode (Word.ofByte 0xF x 0x65)).Turns c { c with v := v } ∧ BlockLoaded c x v ∧
        ∀ d : Cpu, d.memory = c.memory → d.index = c.index → d.v = v →
          (decode (Word.ofByte 0xF x 0x55)).Turns d d := by
  have hstore : decode (Word.ofByte 0xF x 0x55) = .store x := decode_encode (i := .store x) x.isLt
  have hrestore : decode (Word.ofByte 0xF x 0x65) = .restore x := decode_encode (i := .restore x) x.isLt
  have hlen := length_block c x
  rw [hstore, hrestore]
  constructor
  · refine ⟨_, turns_store c x, store_stored c x, fun d hmem hi => ⟨fun hv => ?_, ?_⟩⟩
    · refine turns_store_self ?_
      rw [hmem, hi, Cpu.firstRegisters_congr hv, Memory.write_write _ _ (by omega)]
    · refine ⟨_, turns_restore d x, restore_loaded d x, fun k hk => ?_⟩
      have hlt : (k : Nat) < (c.firstRegisters (x + 1)).length := by omega
      rw [read_of_stored hmem hi]
      exact (Cpu.setFirstRegisters_written k.isLt hlt).trans (Cpu.getElem_firstRegisters k.isLt hlt)
  · refine ⟨_, turns_restore c x, restore_loaded c x, fun d hmem hi hv => ?_⟩
    have hsame : d.firstRegisters (x + 1) = c.memory.read c.index (x + 1) := by
      have hfits : (c.memory.read c.index (x + 1)).length ≤ 16 := by
        rw [Memory.length_read]
        exact x.isLt
      have hback := c.firstRegisters_setFirstRegisters hfits
      rw [Memory.length_read] at hback
      exact (Cpu.firstRegisters_congr hv _).trans hback
    refine turns_store_self ?_
    rw [hsame, hmem, hi, Memory.write_read]

/-- Four registers stored across the top of the addresses, and loaded by a processor that has gone on. -/
theorem transfers_round_trip_wrap :
    let c : Cpu := { Cpu.initial with index := 0xFFFE, v := (Cpu.initial.v.set 0 7 (by decide)).set 3 9 (by decide) }
    ∃ memory, (decode 0xF355).Turns c { c with memory := memory } ∧
      memory.bytes[4094] = 7 ∧ memory.bytes[1] = 9 ∧ memory.bytes[2] = c.memory.bytes[2] ∧
      let d : Cpu := { Cpu.initial with index := 0xFFFE, pc := 0x300, memory := memory }
      ∃ v : Vector UInt8 16, (decode 0xF365).Turns d { d with v := v } ∧ v.get 0 = 7 ∧ v.get 3 = 9 ∧ v.get 4 = 0 := by
  intro c
  obtain ⟨⟨memory, hstore, hstored, hback⟩, -⟩ := transfers_round_trip c 3
  have hfirst : c.v.get 0 = 7 := by decide
  have hlast : c.v.get 3 = 9 := by decide
  have hfree : ∀ k : Fin 16, k ≤ 3 → (c.index.toNat + k) % 4096 ≠ 2 := by decide
  refine ⟨memory, hstore, ?_, ?_, hstored.other 2 (by decide) hfree, ?_⟩
  · have hplace : (c.index.toNat + (0 : Fin 16)) % 4096 = 4094 := by decide
    simpa only [hplace, hfirst] using hstored.block 0 (by decide)
  · have hplace : (c.index.toNat + (3 : Fin 16)) % 4096 = 1 := by decide
    simpa only [hplace, hlast] using hstored.block 3 (by decide)
  · intro d
    obtain ⟨-, v, hrestore, hloaded, hsame⟩ := hback d rfl rfl
    have hother : Cpu.initial.v.get 4 = 0 := by decide
    exact ⟨v, hrestore, (hsame 0 (by decide)).trans hfirst, (hsame 3 (by decide)).trans hlast,
      (hloaded.other 4 (by decide)).trans hother⟩

end Instruction
end PacedChip8
