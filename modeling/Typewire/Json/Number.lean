-- JSON numbers.
-- A number without fraction and exponent is an integer while it is at least -2^63 and below
-- 2^64, minus zero aside. Any other number is read into 64 bits of significand and a power of
-- ten, and those two make a floating-point number.
import Typewire.Json.Basic
import Typewire.Text.Digits

namespace Typewire.Json.Number

/-! ## Parts -/

/-- The parts of a number as written. -/
structure Parts where
  isNegative : Bool
  whole : List Char
  /-- The digits after the point, if there is one. -/
  fraction : Option (List Char)
  /-- The sign and the digits of the exponent, if there is one. -/
  exponent : Option (Bool × List Char)

/-- The digits at the front, and what stands after them. -/
def digits (cs : List Char) : List Char × List Char := cs.span Char.isDigit

/-- The parts of a number that takes all the characters. -/
def Parts.ofChars? (cs : List Char) : Option Parts := do
  let (isNegative, cs) := match cs with
    | '-' :: rest => (true, rest)
    | cs => (false, cs)
  let (whole, cs) := digits cs
  if whole.isEmpty || (whole.head? == some '0' && whole.length != 1) then none
  let (fraction, cs) ← match cs with
    | '.' :: rest =>
      let (ds, rest) := digits rest
      if ds.isEmpty then none else some (some ds, rest)
    | cs => some (none, cs)
  let (exponent, cs) ← match cs with
    | e :: rest =>
      if e = 'e' || e = 'E' then
        let (sign, rest) := match rest with
          | '-' :: rest => (true, rest)
          | '+' :: rest => (false, rest)
          | rest => (false, rest)
        let (ds, rest) := digits rest
        if ds.isEmpty then none else some (some (sign, ds), rest)
      else none
    | [] => some (none, [])
  if cs.isEmpty then some ⟨isNegative, whole, fraction, exponent⟩ else none

/-! ## Significand -/

/-- Integers below this fit in the significand. -/
def significandBound : Nat := Nat.pow 2 64

/-- Takes digits into the significand up to the first that no longer fits, and gives the digits
from there on. -/
def accumulate (bound : Nat) (n : Nat) : List Char → Nat × List Char
  | [] => (n, [])
  | c :: cs =>
    let m := 10 * n + Text.digitValue c
    if m < bound then accumulate bound m cs else (n, c :: cs)

/-! ## Floating-point numbers -/

/-- The power of ten, from `0` to `308`. -/
def powerOfTen (n : Nat) : Float := .ofScientific 1 false n

/-- The number `x * 10 ^ exponent`, by steps of at most `308` downwards. -/
def scale (x : Float) (exponent : Int) : Except Fault Float :=
  if exponent.natAbs ≤ 308 then
    if 0 ≤ exponent then
      let y := x * powerOfTen exponent.toNat
      if y.isInf then .error .numberTooLarge else .ok y
    else .ok (x / powerOfTen exponent.natAbs)
  else if x == 0 then .ok x
  else if 0 ≤ exponent then .error .numberTooLarge
  else scale (x / powerOfTen 308) (exponent + 308)
termination_by exponent.natAbs

/-- Exponents below this are taken as they are. -/
def exponentBound : Nat := Nat.pow 2 31

/-- The floating-point number of a significand with a power of ten and the written exponent. -/
def float (significand : Nat) (power : Int) (exponent : Option (Bool × List Char)) :
    Except Fault Float :=
  match exponent with
  | none => scale (Float.ofNat significand) power
  | some (isNegative, ds) =>
    match accumulate exponentBound 0 ds with
    | (e, []) => scale (Float.ofNat significand) (if isNegative then power - e else power + e)
    | _ => if significand ≠ 0 ∧ !isNegative then .error .numberTooLarge else .ok 0

/-! ## Numbers -/

/-- The JSON number of some parts. -/
def ofParts (p : Parts) : Except Fault Json := do
  let signed (x : Float) : Json := .float (if p.isNegative then -x else x)
  let (n, left) := accumulate significandBound 0 p.whole
  match p.fraction, p.exponent, left with
  | none, none, [] =>
    if !p.isNegative then return .integer n
    else if 0 < n ∧ n ≤ Nat.pow 2 63 then return .integer (-n)
    else return signed (Float.ofNat n)
  | fraction, exponent, left =>
    let ds := fraction.getD []
    let (m, dropped) := accumulate significandBound n ds
    let power : Int := left.length - (ds.length - dropped.length)
    signed <$> float m power exponent

/-- The JSON number that some characters write. -/
def ofChars (cs : List Char) : Except Fault Json :=
  match Parts.ofChars? cs with
  | some p => ofParts p
  | none => .error .malformed

end Typewire.Json.Number
