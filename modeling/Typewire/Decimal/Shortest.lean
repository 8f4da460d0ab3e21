-- The fewest decimal digits that tell a floating-point number from all others.
-- The number is an exact multiple of a power of two. The reals that round to it form an
-- interval around it, and the digits are those of the shortest decimal in that interval that
-- lies nearest to the number.
namespace Typewire.Decimal

/-! ## Numbers by their bits -/

/-- A positive number `mantissa * 2 ^ exponent`, with the room around it. -/
structure Binary where
  mantissa : Nat
  exponent : Int
  /-- The number is the least of its binade, so the numbers below it lie twice as close. -/
  isLeast : Bool

/-- The number that some bits are, without their sign; nothing for zero. -/
def Binary.ofBits? (bits : Nat) : Option Binary :=
  let fraction : Nat := bits % Nat.pow 2 52
  let biased : Nat := bits / Nat.pow 2 52 % Nat.pow 2 11
  if biased = 0 then
    if fraction = 0 then none else some ⟨fraction, -1074, false⟩
  else some ⟨Nat.pow 2 52 + fraction, (biased : Int) - 1075, fraction = 0 && 1 < biased⟩

/-! ## Decimals -/

/-- A positive number `digits * 10 ^ exponent`. -/
structure Scaled where
  digits : Nat
  exponent : Int
  deriving DecidableEq, Repr

/-- Compares `a * 2 ^ p` with `b * 10 ^ q`. -/
def comparePowers (a : Nat) (p : Int) (b : Nat) (q : Int) : Ordering :=
  compare (a * Nat.pow 2 p.toNat * Nat.pow 10 (-q).toNat)
    (b * Nat.pow 10 q.toNat * Nat.pow 2 (-p).toNat)

/-- The decimal rounds to the number: it lies between the middles to the neighbours, or on one
of them where the mantissa is even. -/
def readsBack (x : Binary) (d : Scaled) : Bool :=
  let even := x.mantissa % 2 == 0
  let high := comparePowers (2 * x.mantissa + 1) (x.exponent - 1) d.digits d.exponent
  let low :=
    if x.isLeast then comparePowers (4 * x.mantissa - 1) (x.exponent - 2) d.digits d.exponent
    else comparePowers (2 * x.mantissa - 1) (x.exponent - 1) d.digits d.exponent
  (high == .gt || (even && high == .eq)) && (low == .lt || (even && low == .eq))

/-- The number in units of `10 ^ q`, rounded down. -/
def floorAt (x : Binary) (q : Int) : Nat :=
  x.mantissa * Nat.pow 2 x.exponent.toNat * Nat.pow 10 (-q).toNat
    / (Nat.pow 10 q.toNat * Nat.pow 2 (-x.exponent).toNat)

/-- The decimals next to the number in units of `10 ^ q` that round to it, the nearer first. -/
def candidates (x : Binary) (q : Int) : List Scaled :=
  let low := floorAt x q
  let below := comparePowers (2 * x.mantissa) x.exponent (2 * low + 1) q
  let nearUp := below == .gt || (below == .eq && low % 2 == 1)
  let both := if nearUp then [low + 1, low] else [low, low + 1]
  (both.map (Scaled.mk · q)).filter (readsBack x)

/-- The decimal with the fewest digits that rounds to the number, searched from the unit
`10 ^ q` on, through `steps` finer units. -/
def search (x : Binary) (q : Int) : Nat → Option Scaled
  | 0 => none
  | steps + 1 =>
    match candidates x q with
    | d :: _ => some d
    | [] => search x (q - 1) steps

/-- Without the zeros at the end of the digits, of which at most `room` are looked at. -/
def stripZeros : Nat → Scaled → Scaled
  | 0, d => d
  | room + 1, d =>
    if d.digits % 10 = 0 ∧ d.digits ≠ 0 then stripZeros room ⟨d.digits / 10, d.exponent + 1⟩
    else d

/-- The shortest decimal that rounds to the number. -/
def shortest (x : Binary) : Scaled :=
  match search x 309 640 with
  | some d => stripZeros 20 d
  | none => ⟨x.mantissa, 0⟩

/-! ## Layout -/

/-- Digits with a point: plain from `10 ^ -5` up to below `10 ^ 16`, with at least one digit on
either side of the point; else one digit before the point and the exponent after `e`. -/
def layout (d : Scaled) : String :=
  let digits := (toString d.digits).toList
  let count : Int := digits.length
  let exponent := d.exponent + count - 1
  let text (cs : List Char) : String := String.ofList cs
  if -5 ≤ exponent ∧ exponent < 0 then
    "0." ++ text (List.replicate ((-exponent - 1).toNat) '0' ++ digits)
  else if 0 ≤ exponent ∧ exponent ≤ 15 then
    if d.exponent ≥ 0 then text (digits ++ List.replicate d.exponent.toNat '0') ++ ".0"
    else
      let whole := (exponent + 1).toNat
      text (digits.take whole) ++ "." ++ text (digits.drop whole)
  else
    let mantissa := match digits with
      | [] => ""
      | [c] => text [c]
      | c :: more => text (c :: '.' :: more)
    mantissa ++ "e" ++ (if exponent < 0 then "-" else "+") ++ toString exponent.natAbs

/-- A finite floating-point number in decimal digits. -/
def ofFloat (x : Float) : String :=
  let bits := x.toBits.toNat
  let sign := if bits / Nat.pow 2 63 % 2 = 1 then "-" else ""
  match Binary.ofBits? bits with
  | none => sign ++ "0.0"
  | some x => sign ++ layout (shortest x)

end Typewire.Decimal
