/-
Numbers as text. A numeral is a list of digit characters, most significant first; `hexUpper` pads with
zeros up to a least width, and `address` is the way addresses are shown: `0x` and at least three upper
case digits. `toNat?` reads decimal digits back.
-/

namespace PacedChip8.Numeral

/-- The decimal digits of `n`, without leading zeros. -/
def decimal (n : Nat) : String :=
  String.ofList (Nat.toDigits 10 n)

/-- The hexadecimal digits of `n` in upper case, with zeros in front up to `width` digits. -/
def hexUpper (width n : Nat) : String :=
  String.ofList (((Nat.toDigits 16 n).map Char.toUpper).leftpad width '0')

/-- An address: `0x` and at least three upper case digits. -/
def address (a : UInt16) : String :=
  "0x" ++ hexUpper 3 a.toNat

/-- The value of a decimal digit. -/
def digit? (c : Char) : Option Nat :=
  if '0' ≤ c ∧ c ≤ '9' then some (c.toNat - '0'.toNat) else none

/-- The number written by decimal digits, `acc` being the value of those before them. -/
def readFrom? (acc : Nat) : List Char → Option Nat
  | [] => some acc
  | c :: rest => (digit? c).bind fun d => readFrom? (acc * 10 + d) rest

/-- The number written by one or more decimal digits; signs and separators are refused. -/
def toNat? : List Char → Option Nat
  | [] => none
  | digits => readFrom? 0 digits

end PacedChip8.Numeral
