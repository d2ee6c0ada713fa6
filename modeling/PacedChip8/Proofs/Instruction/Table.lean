/-
Words and their instructions, in both directions. A word has at most one digit that its instruction does not
depend on (`Word.Idle`); in all others it can be read back from the instruction (`agrees_encode_decode`), and
words that agree in all others have the same instruction (`decode_congr`). Which digit is idle can be seen from
the others, so words of one instruction agree in all digits that count. The words without a meaning are those
that no row of the table describes.
-/
import PacedChip8.Proofs.Instruction.Encode

namespace PacedChip8

/-! ## Digits -/

namespace Word

/-- The digits of a word, from the first to the last. -/
def digit (w : UInt16) : Fin 4 → Nat
  | 0 => group w
  | 1 => x w
  | 2 => y w
  | 3 => last w

/-- The digit does not matter: the second one in group 0, the third one of a shift, and the last one of a comparison of
two registers. -/
def Idle (w : UInt16) : Fin 4 → Prop
  | 0 => False
  | 1 => group w = 0x0 ∧ (low w = 0xE0 ∨ low w = 0x0E ∨ low w = 0xEE)
  | 2 => group w = 0x8 ∧ (last w = 0x6 ∨ last w = 0xE)
  | 3 => group w = 0x5 ∨ group w = 0x9

instance (w : UInt16) : (p : Fin 4) → Decidable (Idle w p)
  | 0 => inferInstanceAs (Decidable False)
  | 1 => inferInstanceAs (Decidable (_ ∧ _))
  | 2 => inferInstanceAs (Decidable (_ ∧ _))
  | 3 => inferInstanceAs (Decidable (_ ∨ _))

/-- The words have the same digits, but for one that does not matter in `w`. -/
def Agrees (v w : UInt16) : Prop := ∀ p, ¬Idle w p → digit v p = digit w p

instance (v w : UInt16) : Decidable (Agrees v w) := inferInstanceAs (Decidable (∀ _, _))

variable {v w : UInt16} {g n b : Nat}

theorem low_eq (w : UInt16) : low w = 16 * y w + last w := by
  simp only [low, y, last]
  omega

theorem group_lt (w : UInt16) : group w < 16 := by
  have := w.toNat_lt
  simp only [group]
  omega

theorem last_lt (w : UInt16) : last w < 16 := Nat.mod_lt _ (by decide)

theorem toNat_byte (w : UInt16) : (byte w).toNat = low w := by
  simp only [byte, low, UInt8.toNat_ofNat']
  omega

theorem toNat_rows (w : UInt16) : (rows w).toNat = last w := by
  simp only [rows, last, UInt8.toNat_ofNat']
  omega

theorem ofByte_fields (hg : group w = g) (hb : low w = b) : ofByte g (x w) b = w := by
  have hdigits := toNat_eq_digits w
  have hlow := low_eq w
  have := w.toNat_lt
  rw [ofByte, ← UInt16.toNat_inj, UInt16.toNat_ofNat']
  omega

theorem ofDigits_fields (hg : group w = g) (hn : last w = n) : ofDigits g (x w) (y w) n = w := by
  rw [ofDigits_eq]
  exact ofByte_fields hg ((low_eq w).trans (by rw [hn]))

theorem ofAddress_fields (hg : group w = g) : ofAddress g (address w) = w := by
  have := w.toNat_lt
  rw [ofAddress, ← UInt16.toNat_inj, address, UInt16.toNat_ofNat', UInt16.toNat_ofNat', ← hg, group]
  omega

/-- The first digit always matters, and each of the others does unless it is idle. -/
theorem agrees_iff : Agrees v w ↔ group v = group w ∧ (¬Idle w 1 → x v = x w) ∧ (¬Idle w 2 → y v = y w) ∧
    (¬Idle w 3 → last v = last w) := by
  constructor
  · intro h
    exact ⟨h 0 not_false, h 1, h 2, h 3⟩
  · rintro ⟨hg, hx, hy, hl⟩ p hp
    match p with
    | 0 => exact hg
    | 1 => exact hx hp
    | 2 => exact hy hp
    | 3 => exact hl hp

theorem eq_of_digits (hg : group v = group w) (hx : x v = x w) (hy : y v = y w) (hl : last v = last w) : v = w := by
  rw [← UInt16.toNat_inj, toNat_eq_digits v, toNat_eq_digits w, hg, hx, hy, hl]

/-- Which digit does not matter can be seen from the others. -/
theorem Agrees.idle_iff (h : Agrees v w) (p : Fin 4) : Idle v p ↔ Idle w p := by
  obtain ⟨hg, -, hy, hl⟩ := agrees_iff.1 h
  have hv := low_eq v
  have hw := low_eq w
  have := last_lt v
  have := last_lt w
  match p with
  | 0 => exact Iff.rfl
  | 1 => simp only [Idle] at *; omega
  | 2 => simp only [Idle] at *; omega
  | 3 => simp only [Idle, hg]

end Word

open Word (Agrees Idle)

namespace Instruction

variable {u v w : UInt16}

/-! ## Reading words -/

/-- Decoding does not look at an idle digit. -/
theorem decode_congr (h : Agrees v w) : decode v = decode w := by
  obtain ⟨hg, hx, hy, hl⟩ := Word.agrees_iff.1 h
  by_cases h1 : Idle w 1
  · obtain ⟨hgw, hlow⟩ := h1
    have hothers : ¬Idle w 2 ∧ ¬Idle w 3 := by simp only [Idle]; omega
    have hsame : Word.low v = Word.low w := by rw [Word.low_eq v, Word.low_eq w, hy hothers.1, hl hothers.2]
    rcases hlow with hlow | hlow | hlow <;> simp only [decode, decodeSystem, hg, hgw, hsame, hlow]
  by_cases h2 : Idle w 2
  · obtain ⟨hgw, hlast⟩ := h2
    have hsame : Word.last v = Word.last w := hl (by simp only [Idle]; omega)
    rcases hlast with hlast | hlast <;> simp only [decode, decodeArithmetic, hg, hgw, hx h1, hsame, hlast]
  by_cases h3 : Idle w 3
  · rcases h3 with hgw | hgw <;> simp only [decode, hg, hgw, hx h1, hy h2]
  · rw [Word.eq_of_digits hg (hx h1) (hy h2) (hl h3)]

/-- Without an idle digit a word can be read back from its instruction. -/
theorem encode_decode (h1 : ¬Idle w 1) (h2 : ¬Idle w 2) (h3 : ¬Idle w 3) : (decode w).encode = w := by
  simp only [Idle] at h1 h2 h3
  have hlt := Word.group_lt w
  -- the arms that drop a digit are out, and the last arm of a group keeps the word as it is
  unfold decode
  split
  case h_1 hg =>
    unfold decodeSystem
    split
    case h_4 => rfl
    all_goals omega
  case h_2 hg | h_3 hg | h_11 hg | h_12 hg => exact Word.ofAddress_fields hg
  case h_4 hg | h_5 hg | h_7 hg | h_8 hg | h_13 hg => exact Word.ofByte_fields hg (Word.toNat_byte w).symm
  case h_6 hg | h_10 hg => omega
  case h_9 hg =>
    unfold decodeArithmetic
    split
    case h_7 | h_9 => omega
    case h_10 => rfl
    all_goals exact Word.ofDigits_fields hg ‹_›
  case h_14 hg => exact Word.ofDigits_fields hg (Word.toNat_rows w).symm
  case h_15 hg =>
    unfold decodeKey
    split
    case h_3 => rfl
    all_goals exact Word.ofByte_fields hg ‹_›
  case h_16 =>
    have hg : Word.group w = 0xF := by grind
    unfold decodeTransfer
    split
    case h_10 => rfl
    all_goals exact Word.ofByte_fields hg ‹_›

/-- Decoding a word and encoding the instruction again gives the word up to an idle digit. -/
theorem agrees_encode_decode (w : UInt16) : Agrees (decode w).encode w := by
  have hx := Word.x_lt w
  have hy := Word.y_lt w
  have hl := Word.last_lt w
  by_cases h1 : Idle w 1
  · obtain ⟨hg, hlow⟩ := h1
    have hword : (decode w).encode = Word.ofByte 0 0 (Word.low w) := by
      rcases hlow with hlow | hlow | hlow <;> simp only [decode, decodeSystem, hg, hlow] <;> rfl
    have hlt : Word.low w < 256 := Nat.mod_lt _ (by decide)
    have hsame : Word.low (decode w).encode = Word.low w := by
      rw [hword, Word.low_ofByte (by decide) (by decide) hlt]
    have hdigits := Word.low_eq (decode w).encode
    rw [hsame, Word.low_eq w] at hdigits
    have := Word.last_lt (decode w).encode
    refine Word.agrees_iff.2 ⟨?_, fun h => absurd ⟨hg, hlow⟩ h, fun _ => by omega, fun _ => by omega⟩
    rw [hword, hg, Word.group_ofByte (by decide) (by decide) hlt]
  by_cases h2 : Idle w 2
  · obtain ⟨hg, hlast⟩ := h2
    have hword : (decode w).encode = Word.ofDigits 8 (Word.x w) 0 (Word.last w) := by
      rcases hlast with hlast | hlast <;> simp only [decode, decodeArithmetic, hg, hlast] <;> rfl
    rw [hword]
    refine Word.agrees_iff.2 ⟨?_, fun _ => ?_, fun h => absurd ⟨hg, hlast⟩ h, fun _ => ?_⟩ <;> simp [hg, hx, hl]
  by_cases h3 : Idle w 3
  · have hword : (decode w).encode = Word.ofDigits (Word.group w) (Word.x w) (Word.y w) 0 := by
      rcases h3 with hg | hg <;> simp only [decode, hg] <;> rfl
    have hg := Word.group_lt w
    rw [hword]
    refine Word.agrees_iff.2 ⟨?_, fun _ => ?_, fun _ => ?_, fun h => absurd h3 h⟩ <;> simp [hg, hx, hy]
  · rw [encode_decode h1 h2 h3]
    exact fun _ _ => rfl

/-- Two words have the same meaning exactly if they differ in an idle digit at most. -/
theorem decode_eq_iff : decode v = decode w ↔ Agrees v w := by
  constructor
  · intro h p hp
    have hv := agrees_encode_decode v
    have hw := agrees_encode_decode w
    rw [h] at hv
    have hpv : ¬Idle v p := by rwa [← hv.idle_iff, hw.idle_iff]
    exact (hv p hpv).symm.trans (hw p hp)
  · exact decode_congr

/-! ## The table -/

/-- A row of the table: the digits that a word must have, where the third and the last may be any. The second one may
always be. -/
structure Row where
  group : Nat
  y : Option Nat
  last : Option Nat

/-- The word has the digits that the row gives. -/
def Row.Matches (r : Row) (w : UInt16) : Prop :=
  Word.group w = r.group ∧ (∀ d ∈ r.y, Word.y w = d) ∧ ∀ d ∈ r.last, Word.last w = d

instance (r : Row) (w : UInt16) : Decidable (r.Matches w) := inferInstanceAs (Decidable (_ ∧ _ ∧ _))

/-- The rows of all instructions. -/
def table : List Row :=
  [⟨0x0, some 0xE, some 0x0⟩, ⟨0x0, some 0x0, some 0xE⟩, ⟨0x0, some 0xE, some 0xE⟩,
    ⟨0x1, none, none⟩, ⟨0x2, none, none⟩, ⟨0x3, none, none⟩, ⟨0x4, none, none⟩, ⟨0x5, none, none⟩,
    ⟨0x6, none, none⟩, ⟨0x7, none, none⟩,
    ⟨0x8, none, some 0x0⟩, ⟨0x8, none, some 0x1⟩, ⟨0x8, none, some 0x2⟩, ⟨0x8, none, some 0x3⟩, ⟨0x8, none, some 0x4⟩,
    ⟨0x8, none, some 0x5⟩, ⟨0x8, none, some 0x6⟩, ⟨0x8, none, some 0x7⟩, ⟨0x8, none, some 0xE⟩,
    ⟨0x9, none, none⟩, ⟨0xA, none, none⟩, ⟨0xB, none, none⟩, ⟨0xC, none, none⟩, ⟨0xD, none, none⟩,
    ⟨0xE, some 0x9, some 0xE⟩, ⟨0xE, some 0xA, some 0x1⟩,
    ⟨0xF, some 0x0, some 0x7⟩, ⟨0xF, some 0x0, some 0xA⟩, ⟨0xF, some 0x1, some 0x5⟩, ⟨0xF, some 0x1, some 0x8⟩,
    ⟨0xF, some 0x1, some 0xE⟩, ⟨0xF, some 0x2, some 0x9⟩, ⟨0xF, some 0x3, some 0x3⟩, ⟨0xF, some 0x5, some 0x5⟩,
    ⟨0xF, some 0x6, some 0x5⟩]

theorem matches_low_iff {g a b : Nat} (hb : b < 16) :
    Row.Matches ⟨g, some a, some b⟩ w ↔ Word.group w = g ∧ Word.low w = 16 * a + b := by
  have hlast := Word.last_lt w
  simp only [Row.Matches, Option.mem_def, Option.some.injEq, forall_eq', Word.low_eq w]
  omega

theorem matches_last_iff {g b : Nat} : Row.Matches ⟨g, none, some b⟩ w ↔ Word.group w = g ∧ Word.last w = b := by
  simp [Row.Matches]

theorem matches_group_iff {g : Nat} : Row.Matches ⟨g, none, none⟩ w ↔ Word.group w = g := by
  simp [Row.Matches]

theorem decodeSystem_eq_unknown_iff : decodeSystem w = .unknown u ↔ w = u ∧ Word.low w ∉ [0xE0, 0x0E, 0xEE] := by
  unfold decodeSystem
  split <;> simp_all

theorem decodeArithmetic_eq_unknown_iff :
    decodeArithmetic w = .unknown u ↔ w = u ∧ Word.last w ∉ [0x0, 0x1, 0x2, 0x3, 0x4, 0x5, 0x6, 0x7, 0xE] := by
  unfold decodeArithmetic
  split <;> simp_all

theorem decodeKey_eq_unknown_iff : decodeKey w = .unknown u ↔ w = u ∧ Word.low w ∉ [0x9E, 0xA1] := by
  unfold decodeKey
  split <;> simp_all

theorem decodeTransfer_eq_unknown_iff : decodeTransfer w = .unknown u ↔
    w = u ∧ Word.low w ∉ [0x07, 0x0A, 0x15, 0x18, 0x1E, 0x29, 0x33, 0x55, 0x65] := by
  unfold decodeTransfer
  split <;> simp_all

/-- A word is unknown exactly if no row of the table matches it, and then it is kept with the instruction. -/
theorem decode_eq_unknown_iff : decode w = .unknown u ↔ w = u ∧ ∀ r ∈ table, ¬r.Matches w := by
  have hlt := Word.group_lt w
  -- a row of two digits is a low byte, so that the table can be cut into groups
  simp (disch := decide) only [table, List.forall_mem_cons, List.not_mem_nil, matches_low_iff, matches_last_iff,
    matches_group_iff, false_imp_iff, implies_true, and_true]
  unfold decode
  interval_cases hg : Word.group w
  all_goals simp [decodeSystem_eq_unknown_iff, decodeArithmetic_eq_unknown_iff, decodeKey_eq_unknown_iff,
    decodeTransfer_eq_unknown_iff]

/-- An instruction whose operands fit is what its word decodes to. The word of a decoded instruction is the one that
was decoded, but for a digit that does not matter; words decode to one instruction exactly if they agree in all digits
that do. A word is without a meaning exactly if no row of the table describes it. -/
theorem decode_inverts_encode (v w : UInt16) :
    (∀ i : Instruction, i.Fits → decode i.encode = i) ∧ Agrees (decode w).encode w ∧
      (∀ u, decode w = .unknown u ↔ w = u ∧ ∀ r ∈ table, ¬r.Matches w) ∧ (decode v = decode w ↔ Agrees v w) :=
  ⟨fun _ => decode_encode, agrees_encode_decode w, fun _ => decode_eq_unknown_iff, decode_eq_iff⟩

/-- The largest sprite, two words of one shift, and two words of group 0 of which one has no meaning. -/
theorem decode_inverts_encode_shift :
    (draw 1 15 15).Fits ∧ decode (draw 1 15 15).encode = draw 1 15 15 ∧ decode 0x8A56 = decode 0x8AF6 ∧
      decode 0x00EE ≠ decode 0x00EF ∧ decode 0x00EF = .unknown 0x00EF := by
  have hfits : (draw 1 15 15).Fits := ⟨by decide, by decide, by decide⟩
  obtain ⟨hencode, -, -, hshift⟩ := decode_inverts_encode 0x8A56 0x8AF6
  obtain ⟨-, -, hunknown, hreturn⟩ := decode_inverts_encode 0x00EE 0x00EF
  refine ⟨hfits, hencode _ hfits, hshift.2 (by decide), ?_, (hunknown 0x00EF).2 (by decide)⟩
  rw [Ne, hreturn]
  decide

end Instruction
end PacedChip8
