-- Digits, and the numbers that they stand for.
namespace Typewire.Text

/-- The number that a decimal digit stands for. -/
def digitValue (c : Char) : Nat := c.toNat - '0'.toNat

/-- The number that decimal digits stand for. -/
def decimalValue (digits : List Char) : Nat := digits.foldl (fun n c => 10 * n + digitValue c) 0

/-- The number that a hexadecimal digit of either case stands for. -/
def hexDigitValue? (c : Char) : Option Nat :=
  if c.isDigit then some (digitValue c)
  else if 'a' ≤ c ∧ c ≤ 'f' then some (c.toNat - 'a'.toNat + 10)
  else if 'A' ≤ c ∧ c ≤ 'F' then some (c.toNat - 'A'.toNat + 10)
  else none

/-- The number that hexadecimal digits stand for; nothing if one of the characters is no
digit. -/
def hexValue? (digits : List Char) : Option Nat :=
  digits.foldlM (fun n c => (hexDigitValue? c).map (16 * n + ·)) 0

end Typewire.Text
