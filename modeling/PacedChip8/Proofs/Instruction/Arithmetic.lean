/-
Sums, differences, combinations of bits and shifts. Both operands are read before anything is written, and
the flag is written after the result, so the laws hold for all pairs of registers: the result is exact
together with the flag, as long as the result does not go to the last register; there the flag wins.
-/
import PacedChip8.Proofs.Instruction.Encode
import PacedChip8.Proofs.Instruction.Transition

namespace PacedChip8

/-! ## Results and flags as numbers -/

theorem toNat_decide (p : Prop) [Decidable p] : (decide p).toNat = if p then 1 else 0 := by
  by_cases h : p <;> simp [h]

/-- The carry is the bit that the sum has no room for. -/
theorem Operation.add_exact (a b : UInt8) :
    256 * (if 255 < a.toNat + b.toNat then 1 else 0) + (add.value a b).toNat = a.toNat + b.toNat := by
  have ha := a.toNat_lt
  have hb := b.toNat_lt
  rw [value, UInt8.toNat_add]
  split <;> omega

/-- A difference is exact modulo 256, with or without a borrow. -/
theorem Operation.sub_exact (a b : UInt8) : (sub.value a b).toNat + b.toNat ≡ a.toNat [MOD 256] := by
  have ha := a.toNat_lt
  have hb := b.toNat_lt
  show ((a - b).toNat + b.toNat) % 256 = a.toNat % 256
  rw [UInt8.toNat_sub]
  omega

/-- The bit that a shift to the right drops is the lowest. -/
theorem Direction.right_exact (a : UInt8) : 2 * (right.value a).toNat + a.toNat % 2 = a.toNat := by
  rw [value, UInt8.toNat_shiftRight]
  show 2 * (a.toNat >>> 1) + _ = _
  rw [Nat.shiftRight_one]
  omega

theorem Direction.left_exact (a : UInt8) : 256 * (a.toNat / 128) + (left.value a).toNat = 2 * a.toNat := by
  have ha := a.toNat_lt
  rw [value, UInt8.toNat_shiftLeft]
  show _ + (a.toNat <<< 1) % 256 = _
  rw [Nat.shiftLeft_eq]
  omega

theorem Direction.right_flag (a : UInt8) : (right.flag a).toNat = a.toNat % 2 := by
  have hodd : a % 2 = 1 ↔ a.toNat % 2 = 1 := by
    rw [← UInt8.toNat_inj, UInt8.toNat_mod]
    rfl
  simp only [flag, toNat_decide, hodd]
  split <;> omega

theorem Direction.left_flag (a : UInt8) : (left.flag a).toNat = a.toNat / 128 := by
  have ha := a.toNat_lt
  have hhigh : 128 ≤ a ↔ 128 ≤ a.toNat := UInt8.le_iff_toNat_le
  simp only [flag, toNat_decide, hhigh]
  split <;> omega

/-! ## Registers afterwards -/

namespace Instruction

variable {c : Cpu} {i : Instruction} {x y : Fin 16} {flag : Bool}

/-- Registers after a result and its flag have been written, in this order. -/
def flagged (v : Vector UInt8 16) (x : Fin 16) (b : UInt8) (flag : Bool) : Vector UInt8 16 :=
  Vector.ofFn fun k => if k = Fin.last 15 then (if flag then 1 else 0) else if k = x then b else v.get k

variable {v : Vector UInt8 16} {b : UInt8} {k : Fin 16}

/-- The flag is written last, so it wins where the result goes to the last register as well. -/
theorem get_flagged : (flagged v x b flag).get k =
    if k = Fin.last 15 then (if flag then 1 else 0) else if k = x then b else v.get k :=
  Vector.getElem_ofFn k.isLt

theorem flagged_last : (flagged v x b flag).get (Fin.last 15) = if flag then 1 else 0 := get_flagged

theorem flagged_self (hx : x ≠ Fin.last 15) : (flagged v x b flag).get x = b := by
  rw [get_flagged, if_neg hx, if_pos rfl]

theorem flagged_other (hkx : k ≠ x) (hk : k ≠ Fin.last 15) : (flagged v x b flag).get k = v.get k := by
  rw [get_flagged, if_neg hk, if_neg hkx]

theorem set_set_flag (v : Vector UInt8 16) (x : Fin 16) (b : UInt8) (flag : Bool) :
    (v.set x b x.isLt).set 15 (if flag then 1 else 0) (by decide) = flagged v x b flag := by
  refine Vector.ext fun k hk => ?_
  rw [Vector.getElem_set, Vector.getElem_set, flagged, Vector.getElem_ofFn]
  simp only [Fin.ext_iff, eq_comm]
  rfl

theorem setResult_plain (c : Cpu) (x : Fin 16) (b : UInt8) :
    c.setResult x b none = .ok { c with v := c.v.set x b x.isLt } :=
  bind_eq_ok.2 ⟨_, Cpu.setReg_eq_ok.2 ⟨x.isLt, rfl⟩, rfl⟩

theorem setResult_flag (c : Cpu) (x : Fin 16) (b : UInt8) (flag : Bool) :
    c.setResult x b (some flag) = .ok { c with v := flagged c.v x b flag } := by
  rw [← set_set_flag]
  exact bind_eq_ok.2 ⟨_, Cpu.setReg_eq_ok.2 ⟨x.isLt, rfl⟩, rfl⟩

theorem turns_combine {op : Operation} {v : Vector UInt8 16}
    (h : c.setResult x (op.value (c.v.get x) (c.v.get y)) (op.flag? (c.v.get x) (c.v.get y)) = .ok { c with v := v }) :
    (combine op x y).Turns c { c with v := v } := by
  refine turns_of_transition rfl rfl fun keys random => ?_
  exact bind_eq_ok.2 ⟨_, c.reg_of_lt x.isLt, bind_eq_ok.2 ⟨_, c.reg_of_lt y.isLt, bind_eq_ok.2 ⟨_, h, rfl⟩⟩⟩

theorem turns_shift (d : Direction) (c : Cpu) (x : Fin 16) :
    (shift d x).Turns c { c with v := flagged c.v x (d.value (c.v.get x)) (d.flag (c.v.get x)) } := by
  refine turns_of_transition rfl rfl fun keys random => ?_
  exact bind_eq_ok.2 ⟨_, c.reg_of_lt x.isLt, bind_eq_ok.2 ⟨_, setResult_flag .., rfl⟩⟩

theorem turns_add (c : Cpu) (x : Fin 16) (b : UInt8) :
    (add x b).Turns c { c with v := c.v.set x (c.v.get x + b) x.isLt } := by
  refine turns_of_transition rfl rfl fun keys random => ?_
  exact bind_eq_ok.2 ⟨_, c.reg_of_lt x.isLt, bind_eq_ok.2 ⟨_, Cpu.setReg_eq_ok.2 ⟨x.isLt, rfl⟩, rfl⟩⟩

/-- The instruction leaves a flag in the last register and a result in register `x`, unless that is the
last one; the law is about both, the flag first. Nothing else changes. -/
def Leaves (i : Instruction) (c : Cpu) (x : Fin 16) (flag : Nat) (law : Nat → Nat → Prop) : Prop :=
  ∃ v : Vector UInt8 16, i.Turns c { c with v := v } ∧ (v.get (Fin.last 15)).toNat = flag ∧
    (x ≠ Fin.last 15 → law (v.get (Fin.last 15)).toNat (v.get x).toNat) ∧
    ∀ k : Fin 16, k ≠ x → k ≠ Fin.last 15 → v.get k = c.v.get k

/-- To show what an instruction leaves it is enough to know the flag and the law of the byte that it writes. -/
theorem leaves_of_turns {f : Nat} {law : Nat → Nat → Prop} (h : i.Turns c { c with v := flagged c.v x b flag })
    (hf : flag.toNat = f) (hlaw : law f b.toNat) : i.Leaves c x f law := by
  have hlast : ((flagged c.v x b flag).get (Fin.last 15)).toNat = f := by
    rw [flagged_last, ← hf]
    cases flag <;> rfl
  refine ⟨_, h, hlast, fun hx => ?_, fun k hkx hk => flagged_other hkx hk⟩
  rw [hlast, flagged_self hx]
  exact hlaw

/-- What the instructions that combine the registers `x` and `y`, or a register and a byte, leave in the
registers. The words are given digit by digit. -/
structure Combines (c : Cpu) (x y : Fin 16) : Prop where
  copy : (decode (Word.ofDigits 0x8 x y 0x0)).Turns c { c with v := c.v.set x (c.v.get y) x.isLt }
  or : (decode (Word.ofDigits 0x8 x y 0x1)).Turns c { c with v := c.v.set x (c.v.get x ||| c.v.get y) x.isLt }
  and : (decode (Word.ofDigits 0x8 x y 0x2)).Turns c { c with v := c.v.set x (c.v.get x &&& c.v.get y) x.isLt }
  xor : (decode (Word.ofDigits 0x8 x y 0x3)).Turns c { c with v := c.v.set x (c.v.get x ^^^ c.v.get y) x.isLt }
  addByte : ∀ b : UInt8, ∃ r : UInt8, r.toNat = ((c.v.get x).toNat + b.toNat) % 256 ∧
    (decode (Word.ofByte 0x7 x b.toNat)).Turns c { c with v := c.v.set x r x.isLt }
  add : (decode (Word.ofDigits 0x8 x y 0x4)).Leaves c x (if 255 < (c.v.get x).toNat + (c.v.get y).toNat then 1 else 0)
    fun vf vx => 256 * vf + vx = (c.v.get x).toNat + (c.v.get y).toNat
  sub : (decode (Word.ofDigits 0x8 x y 0x5)).Leaves c x (if (c.v.get y).toNat < (c.v.get x).toNat then 1 else 0)
    fun _ vx => vx + (c.v.get y).toNat ≡ (c.v.get x).toNat [MOD 256]
  subFrom : (decode (Word.ofDigits 0x8 x y 0x7)).Leaves c x (if (c.v.get x).toNat < (c.v.get y).toNat then 1 else 0)
    fun _ vx => vx + (c.v.get x).toNat ≡ (c.v.get y).toNat [MOD 256]
  shiftRight : (decode (Word.ofDigits 0x8 x y 0x6)).Leaves c x ((c.v.get x).toNat % 2)
    fun vf vx => 2 * vx + vf = (c.v.get x).toNat
  shiftLeft : (decode (Word.ofDigits 0x8 x y 0xE)).Leaves c x ((c.v.get x).toNat / 128)
    fun vf vx => 256 * vf + vx = 2 * (c.v.get x).toNat
  /-- The two subtractions are one another with the registers exchanged. -/
  exchanged : ∃ v w : Vector UInt8 16, (decode (Word.ofDigits 0x8 x y 0x5)).Turns c { c with v := v } ∧
    (decode (Word.ofDigits 0x8 y x 0x7)).Turns c { c with v := w } ∧ v.get 15 = w.get 15 ∧
    (x ≠ 15 → y ≠ 15 → v.get x = w.get y)

/-- The laws of the instructions that combine registers hold in every state and for all pairs of registers,
equal ones and the last one included. -/
theorem registers_combine (c : Cpu) (x y : Fin 16) : Combines c x y where
  copy := by
    rw [decode_combine (n := 0x0) .copy rfl]
    exact turns_combine (setResult_plain ..)
  or := by
    rw [decode_combine (n := 0x1) .or rfl]
    exact turns_combine (setResult_plain ..)
  and := by
    rw [decode_combine (n := 0x2) .and rfl]
    exact turns_combine (setResult_plain ..)
  xor := by
    rw [decode_combine (n := 0x3) .xor rfl]
    exact turns_combine (setResult_plain ..)
  addByte := by
    intro b
    have hword : decode (Word.ofByte 0x7 x b.toNat) = .add x b := decode_encode (i := .add x b) x.isLt
    rw [hword]
    exact ⟨_, UInt8.toNat_add .., turns_add c x b⟩
  add := by
    rw [decode_combine (n := 0x4) .add rfl]
    exact leaves_of_turns (turns_combine (setResult_flag ..)) (toNat_decide _) (Operation.add_exact ..)
  sub := by
    rw [decode_combine (n := 0x5) .sub rfl]
    exact leaves_of_turns (turns_combine (setResult_flag ..)) (toNat_decide _) (Operation.sub_exact ..)
  subFrom := by
    rw [decode_combine (n := 0x7) .subFrom rfl]
    exact leaves_of_turns (turns_combine (setResult_flag ..)) (toNat_decide _) (Operation.sub_exact ..)
  shiftRight := by
    rw [decode_shift (n := 0x6) .right rfl]
    exact leaves_of_turns (turns_shift .right c x) (Direction.right_flag _) (Direction.right_exact _)
  shiftLeft := by
    rw [decode_shift (n := 0xE) .left rfl]
    exact leaves_of_turns (turns_shift .left c x) (Direction.left_flag _) (Direction.left_exact _)
  exchanged := by
    rw [decode_combine (n := 0x5) .sub rfl, decode_combine (n := 0x7) .subFrom rfl]
    refine ⟨_, _, turns_combine (setResult_flag ..), turns_combine (setResult_flag ..), ?_, fun hx hy => ?_⟩
    · exact flagged_last.trans flagged_last.symm
    · rw [flagged_self hx, flagged_self hy]
      rfl

/-- The last register added to itself: the carry stays, not the sum. -/
theorem registers_combine_last :
    let c : Cpu := { Cpu.initial with v := Cpu.initial.v.set 15 200 (by decide) }
    Combines c 15 15 ∧ ∃ v : Vector UInt8 16, (decode 0x8FF4).Turns c { c with v := v } ∧
      (v.get 15).toNat = 1 ∧ v.get 14 = 0 := by
  intro c
  have h := registers_combine c 15 15
  obtain ⟨v, hturns, hflag, -, hother⟩ := h.add
  exact ⟨h, v, hturns, hflag.trans (by decide), (hother 14 (by decide) (by decide)).trans (by decide)⟩

end Instruction
end PacedChip8
