/-
Hexadecimal numerals can be read back. The digits of a number give the number, however many zeros stand in front
(`ofHex_hexUpper`), so equal numerals are of equal numbers. A number that fits the width of its numeral fills it
exactly, and every character of a numeral is a digit.
-/
import PacedChip8.Numeral
import Mathlib.Tactic

namespace PacedChip8.Numeral

variable {width n m : Nat} {a b : UInt16} {c : Char}

/-- The value of a hexadecimal digit, those above nine in upper case. -/
def hexDigit? (c : Char) : Option Nat :=
  if 'A' ≤ c ∧ c ≤ 'F' then some (c.toNat - 'A'.toNat + 10) else digit? c

/-- The number that hexadecimal digits stand for. -/
def ofHex (digits : List Char) : Nat :=
  digits.foldl (fun n c => 16 * n + (hexDigit? c).getD 0) 0

/-- The digits of a number in upper case, without zeros in front. -/
def upperDigits (n : Nat) : List Char := (Nat.toDigits 16 n).map Char.toUpper

theorem hexDigit?_digitChar (h : n < 16) : hexDigit? (Nat.digitChar n).toUpper = some n := by
  interval_cases n <;> decide

theorem ofHex_concat (digits : List Char) (c : Char) :
    ofHex (digits ++ [c]) = 16 * ofHex digits + (hexDigit? c).getD 0 :=
  List.foldl_concat ..

theorem ofHex_zeros (count : Nat) (digits : List Char) : ofHex (List.replicate count '0' ++ digits) = ofHex digits := by
  induction count with
  | zero => rfl
  | succ count ih =>
    rw [List.replicate_succ, List.cons_append, ← ih]
    rfl

theorem upperDigits_of_lt (h : n < 16) : upperDigits n = [(Nat.digitChar n).toUpper] := by
  rw [upperDigits, Nat.toDigits_of_lt_base h, List.map_singleton]

/-- The last digit comes off the end. -/
theorem upperDigits_of_le (h : 16 ≤ n) :
    upperDigits n = upperDigits (n / 16) ++ [(Nat.digitChar (n % 16)).toUpper] := by
  rw [upperDigits, Nat.toDigits_of_base_le (by decide) h, List.map_append, List.map_singleton]
  rfl

theorem ofHex_upperDigits (n : Nat) : ofHex (upperDigits n) = n := by
  induction n using Nat.strong_induction_on with
  | _ n ih =>
    by_cases h : n < 16
    · rw [upperDigits_of_lt h, ofHex, List.foldl_cons, List.foldl_nil, hexDigit?_digitChar h]
      exact Nat.zero_add n
    · rw [upperDigits_of_le (Nat.not_lt.1 h), ofHex_concat, ih (n / 16) (by omega),
        hexDigit?_digitChar (Nat.mod_lt n (by decide)), Option.getD_some, Nat.div_add_mod]

theorem toList_hexUpper (width n : Nat) :
    (hexUpper width n).toList = List.replicate (width - (upperDigits n).length) '0' ++ upperDigits n := by
  rw [hexUpper, String.toList_ofList, List.leftpad]
  rfl

theorem ofHex_hexUpper (width n : Nat) : ofHex (hexUpper width n).toList = n := by
  rw [toList_hexUpper, ofHex_zeros, ofHex_upperDigits]

/-- Numbers of one width are told apart by their text, since it can be read back. -/
theorem hexUpper_inj : hexUpper width n = hexUpper width m ↔ n = m := by
  constructor
  · intro h
    rw [← ofHex_hexUpper width n, h, ofHex_hexUpper]
  · rintro rfl
    rfl

theorem length_hexUpper (hw : 0 < width) (h : n < 16 ^ width) : (hexUpper width n).length = width := by
  have hdigits : (upperDigits n).length ≤ width := by
    rw [upperDigits, List.length_map]
    exact (Nat.length_toDigits_le_iff (by decide) hw).2 h
  rw [← String.length_toList, toList_hexUpper, List.length_append, List.length_replicate]
  omega

theorem mem_upperDigits (h : c ∈ upperDigits n) : (hexDigit? c).isSome := by
  induction n using Nat.strong_induction_on with
  | _ n ih =>
    by_cases hn : n < 16
    · rw [upperDigits_of_lt hn, List.mem_singleton] at h
      rw [h, hexDigit?_digitChar hn]
      rfl
    · rw [upperDigits_of_le (Nat.not_lt.1 hn), List.mem_append, List.mem_singleton] at h
      rcases h with h | rfl
      · exact ih (n / 16) (by omega) h
      · rw [hexDigit?_digitChar (Nat.mod_lt n (by decide))]
        rfl

/-- All characters are digits, so that any other character ends the number. -/
theorem mem_hexUpper (h : c ∈ (hexUpper width n).toList) : (hexDigit? c).isSome := by
  rw [toList_hexUpper, List.mem_append] at h
  rcases h with h | h
  · rw [List.eq_of_mem_replicate h]
    rfl
  · exact mem_upperDigits h

/-! ## Addresses -/

theorem address_inj : address a = address b ↔ a = b := by
  rw [address, address, String.append_right_inj, hexUpper_inj, UInt16.toNat_inj]

/-- The numeral of an address ends where a colon follows. -/
theorem colon_notMem_address (a : UInt16) : ':' ∉ (address a).toList := by
  rw [address, String.toList_append, List.mem_append]
  rintro (h | h)
  · exact absurd h (by decide)
  · exact absurd (mem_hexUpper h) (by decide)

end PacedChip8.Numeral
