-- TOML values that are no text, list or table: numbers, truth values, dates and times.
-- Only their form and their bounds are checked: an integer fits in 64 bits, a number with
-- fraction or exponent does not round up to infinity, a day exists in its month, and a clock
-- shows at most 23:59:60.
import Typewire.Text.Digits

namespace Typewire.Toml

open Text

/-! ## Numbers -/

/-- Digits, with single underscores between them. -/
def isDigits (isDigit : Char → Bool) : List Char → Bool
  | [] => false
  | [c] => isDigit c
  | c :: '_' :: rest => isDigit c && isDigits isDigit rest
  | c :: rest => isDigit c && isDigits isDigit rest

/-- The characters without a sign at the front. -/
def unsigned : List Char → List Char
  | '+' :: rest => rest
  | '-' :: rest => rest
  | cs => cs

/-- Decimal digits without a needless zero in front. -/
def isDecimal (cs : List Char) : Bool :=
  isDigits Char.isDigit cs && (cs.head? != some '0' || cs.length == 1)

/-- The number of digits with underscores between them, in some base. -/
def based (base : Nat) (cs : List Char) : Nat :=
  (cs.filter (· != '_')).foldl (fun n c => base * n + (hexDigitValue? c).getD 0) 0

/-- Integers are below this bound. -/
def integerBound : Nat := Nat.pow 2 63

/-- An integer with its base in front, which has no sign, or a decimal one. -/
def isInteger (cs : List Char) : Bool :=
  match cs with
  | '0' :: 'x' :: ds =>
    isDigits (fun c => (hexDigitValue? c).isSome) ds && based 16 ds < integerBound
  | '0' :: 'o' :: ds => isDigits (fun c => '0' ≤ c && c ≤ '7') ds && based 8 ds < integerBound
  | '0' :: 'b' :: ds => isDigits (fun c => c == '0' || c == '1') ds && based 2 ds < integerBound
  | cs =>
    let ds := unsigned cs
    isDecimal ds
      && (based 10 ds < integerBound || (based 10 ds == integerBound && cs.head? == some '-'))

/-- Decimals from here on round to infinity: the middle between the largest floating-point
number and the next power of two. -/
def floatBound : Nat := Nat.pow 2 1024 - Nat.pow 2 970

/-- The number `digits * 10 ^ power` is below the bound. Its size, the digits before its point,
tells unless there are as many as the bound has, so that no huge power is ever taken. -/
def isBelowFloatBound (digits : List Char) (power : Int) : Bool :=
  let digits := digits.dropWhile (· == '0')
  let size := digits.length + power
  digits.isEmpty || size < 309
    || (size == 309
      && decimalValue digits * Nat.pow 10 power.toNat < floatBound * Nat.pow 10 (-power).toNat)

/-- The number that an exponent is. -/
def exponentValue (cs : List Char) : Int :=
  let n := based 10 (unsigned cs)
  if cs.head? == some '-' then -n else n

/-- A number with fraction or exponent, or one that is not finite. Unless a minus sign is in
front, it does not round to infinity. -/
def isFloat (cs : List Char) : Bool :=
  let word := unsigned cs
  let (mantissa, tail) := word.span (fun c => c != 'e' && c != 'E')
  let (whole, fraction) := mantissa.span (· != '.')
  let hasFraction := !fraction.isEmpty
  let fraction := fraction.drop 1
  let exponent := tail.drop 1
  let places := (fraction.filter (· != '_')).length
  word == ['i', 'n', 'f'] || word == ['n', 'a', 'n']
    || (isDecimal whole && (!hasFraction || isDigits Char.isDigit fraction)
      && (tail.isEmpty || isDigits Char.isDigit (unsigned exponent))
      && (hasFraction || !tail.isEmpty)
      && (cs.head? == some '-'
        || isBelowFloatBound ((whole ++ fraction).filter (· != '_'))
          (exponentValue exponent - places)))

/-! ## Dates and times -/

/-- The characters follow a pattern in which `0` is any digit. -/
def follows : List Char → List Char → Bool
  | [], [] => true
  | p :: ps, c :: cs => (if p = '0' then c.isDigit else p == c) && follows ps cs
  | _, _ => false

/-- The number in some columns. -/
def columns (first count : Nat) (cs : List Char) : Nat := decimalValue ((cs.drop first).take count)

/-- How many days a month has. -/
def daysIn (year month : Nat) : Nat :=
  if month = 2 then if year % 4 = 0 ∧ (year % 100 ≠ 0 ∨ year % 400 = 0) then 29 else 28
  else if month = 4 ∨ month = 6 ∨ month = 9 ∨ month = 11 then 30
  else 31

/-- A day of the calendar. -/
def isDay (cs : List Char) : Bool :=
  let month := columns 5 2 cs
  let day := columns 8 2 cs
  follows "0000-00-00".toList cs && 1 ≤ month && month ≤ 12 && 1 ≤ day
    && day ≤ daysIn (columns 0 4 cs) month

/-- Hours and minutes. -/
def isClock (cs : List Char) : Bool :=
  follows "00:00".toList cs && columns 0 2 cs ≤ 23 && columns 3 2 cs ≤ 59

/-- A time of day, perhaps with a fraction of a second. A minute may have a leap second. -/
def isTime (cs : List Char) : Bool :=
  isClock (cs.take 5) && follows ":00".toList ((cs.drop 5).take 3) && columns 6 2 cs ≤ 60
    && match cs.drop 8 with
      | [] => true
      | '.' :: ds => !ds.isEmpty && ds.all Char.isDigit
      | _ => false

/-- The distance of a time from universal time. -/
def isZone : List Char → Bool
  | ['Z'] | ['z'] => true
  | '+' :: clock | '-' :: clock => isClock clock
  | _ => false

/-- A date, perhaps with a time and its distance from universal time. -/
def isDate (cs : List Char) : Bool :=
  let isTimed (cs : List Char) : Bool :=
    let time := cs.takeWhile fun c => c.isDigit || c == ':' || c == '.'
    let zone := cs.drop time.length
    isTime time && (zone.isEmpty || isZone zone)
  isDay (cs.take 10)
    && match cs.drop 10 with
      | [] => true
      | c :: rest => (c == 'T' || c == 't' || c == ' ') && isTimed rest

/-! ## Scalars -/

/-- A value that is no text, list or table. -/
def isScalar (cs : List Char) : Bool :=
  cs == "true".toList || cs == "false".toList || isInteger cs || isFloat cs || isTime cs
    || isDate cs

/-- A character that may stand in a scalar. -/
def isScalarChar (c : Char) : Bool :=
  c.isAlphanum || c == '-' || c == '_' || c == '+' || c == '.' || c == ':'

/-- The characters of the scalar in front. A space may stand between a date and a time. -/
def scalarChars (cs : List Char) : List Char :=
  let word := cs.takeWhile isScalarChar
  match cs.drop word.length with
  | ' ' :: c :: rest =>
    if isDay word && c.isDigit then word ++ ' ' :: (c :: rest).takeWhile isScalarChar else word
  | _ => word

end Typewire.Toml
