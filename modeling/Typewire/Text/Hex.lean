-- Bytes written as hexadecimal digits, two for each byte.
-- Reading takes digits of either case. It first asks for an even number of bytes, then
-- points at the first byte that is no digit.
namespace Typewire.Text.Hex

/-! ## Writing -/

/-- The lower-case digit of a number below 16. -/
def digit (n : Nat) : Char :=
  if n < 10 then Char.ofNat ('0'.toNat + n) else Char.ofNat ('a'.toNat + (n - 10))

/-- The two digits of a byte. -/
def ofByte (b : UInt8) : List Char := [digit (b.toNat / 16), digit (b.toNat % 16)]

/-- The bytes as digits. -/
def encode (bytes : List UInt8) : String := String.ofList (bytes.flatMap ofByte)

/-! ## Reading -/

/-- Why a text does not hold bytes as digits. -/
inductive Fault where
  /-- The digits do not pair up. -/
  | oddLength
  /-- The byte at `index` is no digit. -/
  | badDigit (byte : UInt8) (index : Nat)
  deriving DecidableEq, Repr

/-- The number that a digit of either case stands for. -/
def value? (b : UInt8) : Option Nat :=
  let n := b.toNat
  if 48 ≤ n ∧ n ≤ 57 then some (n - 48)
  else if 97 ≤ n ∧ n ≤ 102 then some (n - 87)
  else if 65 ≤ n ∧ n ≤ 70 then some (n - 55)
  else none

/-- Reads pairs of digits; `index` is the place of the first digit in the whole text. -/
def decodeFrom (index : Nat) : List UInt8 → Except Fault (List UInt8)
  | high :: low :: rest =>
    match value? high, value? low with
    | none, _ => .error (.badDigit high index)
    | some _, none => .error (.badDigit low (index + 1))
    | some h, some l => (decodeFrom (index + 2) rest).map (UInt8.ofNat (h * 16 + l) :: ·)
  | _ => .ok []

/-- The bytes that the digits stand for. -/
def decode (digits : List UInt8) : Except Fault (List UInt8) :=
  if digits.length % 2 = 0 then decodeFrom 0 digits else .error .oddLength

/-! ## Messages -/

/-- A byte as the character of that number between quotes, escaped unless it shows. -/
def quoted (b : UInt8) : String :=
  let n := b.toNat
  let body :=
    if n = 0 then "\\0"
    else if n = 9 then "\\t"
    else if n = 10 then "\\n"
    else if n = 13 then "\\r"
    else if n = 39 then "\\'"
    else if n = 92 then "\\\\"
    else if n < 32 ∨ (127 ≤ n ∧ n ≤ 160) ∨ n = 173 then
      "\\u\x7b" ++ String.ofList (Nat.toDigits 16 n) ++ "\x7d"
    else (Char.ofNat n).toString
  "'" ++ body ++ "'"

/-- The fault in words. -/
def Fault.message : Fault → String
  | .oddLength => "Odd number of digits"
  | .badDigit byte index => s!"Invalid character {quoted byte} at position {index}"

end Typewire.Text.Hex
