/-
Words and the instructions that they were made from. The fields of a word give back the digits that it was
put together from, as long as each of them fits, and so the word of an instruction decodes to it.
-/
import PacedChip8.Instruction.Decode
import PacedChip8.Instruction.Encode
import Mathlib.Tactic

namespace PacedChip8

/-! ## The fields of a word -/

namespace Word

variable {g x y n b : Nat} {a : UInt16}

/-- If the digits and the byte fit, they do not run into each other, and the word is their sum by place. -/
theorem toNat_ofByte (hg : g < 16) (hx : x < 16) (hb : b < 256) : (ofByte g x b).toNat = 4096 * g + 256 * x + b := by
  rw [ofByte, UInt16.toNat_ofNat']
  omega

@[simp] theorem group_ofByte (hg : g < 16) (hx : x < 16) (hb : b < 256) : group (ofByte g x b) = g := by
  rw [group, toNat_ofByte hg hx hb]
  omega

@[simp] theorem x_ofByte (hg : g < 16) (hx : x < 16) (hb : b < 256) : Word.x (ofByte g x b) = x := by
  rw [Word.x, toNat_ofByte hg hx hb]
  omega

@[simp] theorem low_ofByte (hg : g < 16) (hx : x < 16) (hb : b < 256) : low (ofByte g x b) = b := by
  rw [low, toNat_ofByte hg hx hb]
  omega

@[simp] theorem byte_ofByte (hg : g < 16) (hx : x < 16) (c : UInt8) : byte (ofByte g x c.toNat) = c := by
  rw [byte, low_ofByte hg hx c.toNat_lt]
  exact UInt8.ofNat_toNat

/-- The last two digits are a byte, so what holds of words with a byte can be used for words of four digits. -/
theorem ofDigits_eq (g x y n : Nat) : ofDigits g x y n = ofByte g x (16 * y + n) := by
  rw [ofDigits, ofByte, Nat.add_assoc (4096 * g + 256 * x)]

@[simp] theorem group_ofDigits (hg : g < 16) (hx : x < 16) (hy : y < 16) (hn : n < 16) :
    group (ofDigits g x y n) = g := by
  rw [ofDigits_eq]
  exact group_ofByte hg hx (by omega)

@[simp] theorem x_ofDigits (hg : g < 16) (hx : x < 16) (hy : y < 16) (hn : n < 16) : Word.x (ofDigits g x y n) = x := by
  rw [ofDigits_eq]
  exact x_ofByte hg hx (by omega)

@[simp] theorem y_ofDigits (hg : g < 16) (hx : x < 16) (hy : y < 16) (hn : n < 16) : Word.y (ofDigits g x y n) = y := by
  rw [ofDigits_eq, Word.y, toNat_ofByte hg hx (by omega)]
  omega

@[simp] theorem last_ofDigits (hg : g < 16) (hx : x < 16) (hy : y < 16) (hn : n < 16) :
    last (ofDigits g x y n) = n := by
  rw [ofDigits_eq, last, toNat_ofByte hg hx (by omega)]
  omega

/-- The address takes the place of the last three digits. -/
theorem toNat_ofAddress (hg : g < 16) (ha : a.toNat < 4096) : (ofAddress g a).toNat = 4096 * g + a.toNat := by
  rw [ofAddress, UInt16.toNat_ofNat']
  omega

@[simp] theorem group_ofAddress (hg : g < 16) (ha : a.toNat < 4096) : group (ofAddress g a) = g := by
  rw [group, toNat_ofAddress hg ha]
  omega

@[simp] theorem address_ofAddress (hg : g < 16) (ha : a.toNat < 4096) : address (ofAddress g a) = a := by
  rw [address, toNat_ofAddress hg ha, Nat.mul_add_mod, Nat.mod_eq_of_lt ha]
  exact UInt16.ofNat_toNat

end Word

/-! ## Decoding -/

/-- The operands of a test fit the fields that they are written to. -/
def Test.Fits : Test → Prop
  | .byteEq x _ | .byteNe x _ | .keyDown x | .keyUp x => x < 16
  | .regEq x y | .regNe x y => x < 16 ∧ y < 16

namespace Instruction

/-- The operands fit the fields that they are written to; a word without a meaning fits none. -/
def Fits : Instruction → Prop
  | .clear | .jumpIndex | .ret => True
  | .unknown _ => False
  | .jump a | .call a | .setIndex a | .jumpOffset a => a.toNat < 4096
  | .skip t => t.Fits
  | .load x _ | .add x _ | .random x _ | .shift _ x | .readDelay x | .awaitKey x | .setDelay x | .setSound x
  | .addIndex x | .glyph x | .decimal x | .store x | .restore x => x < 16
  | .combine _ x y => x < 16 ∧ y < 16
  | .draw x y rows => x < 16 ∧ y < 16 ∧ rows.toNat < 16

/-- An instruction whose operands fit is what its word decodes to. The cases are the shapes of words: no operands, an
address, two registers and an operation, a shift, a sprite, a skip, and one register with a byte. -/
theorem decode_encode {i : Instruction} (h : i.Fits) : decode i.encode = i := by
  have hbyte (b : UInt8) : b.toNat < 256 := b.toNat_lt
  cases i
  case clear | ret | jumpIndex => rfl
  case unknown => exact h.elim
  case jump a | call a | setIndex a | jumpOffset a =>
    simp only [Fits] at h
    simp [encode, decode, h]
  case combine op x y =>
    simp only [Fits] at h
    cases op <;> simp [encode, decode, decodeArithmetic, Operation.digit, h]
  case shift dir x =>
    simp only [Fits] at h
    cases dir <;> simp [encode, decode, decodeArithmetic, Direction.digit, h]
  case draw x y rows =>
    simp only [Fits] at h
    simp [encode, decode, Word.rows, h]
  case skip t =>
    cases t <;> simp only [Fits, Test.Fits] at h
    case regEq | regNe => simp [encode, Test.encode, decode, h]
    all_goals simp [encode, Test.encode, decode, decodeKey, hbyte, h]
  -- the others have one register and a byte
  all_goals
    simp only [Fits] at h
    simp [encode, decode, decodeTransfer, hbyte, h]

variable {n : Nat} {x y : Fin 16}

/-- The last digit of a word in group 8 names its operation, and the two before it name the registers. -/
theorem decode_combine (op : Operation) (hn : op.digit = n) : decode (Word.ofDigits 0x8 x y n) = .combine op x y := by
  subst hn
  exact decode_encode (i := .combine op x y) ⟨x.isLt, y.isLt⟩

/-- The third digit of a shift has no meaning. -/
theorem decode_shift (d : Direction) (hn : d.digit = n) : decode (Word.ofDigits 0x8 x y n) = .shift d x := by
  subst hn
  cases d <;> simp [decode, decodeArithmetic, Direction.digit]

end Instruction
end PacedChip8
