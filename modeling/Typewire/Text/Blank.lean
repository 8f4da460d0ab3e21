-- White space: the 25 characters with the Unicode property White_Space.
-- Trimming, and dropping blanks from hexadecimal text, both go by it.
namespace Typewire.Text

/-- One of the 25 white space characters. -/
def isBlank (c : Char) : Bool :=
  let n := c.toNat
  (9 ≤ n && n ≤ 13) || n == 32 || n == 0x85 || n == 0xa0 || n == 0x1680
    || (0x2000 ≤ n && n ≤ 0x200a) || n == 0x2028 || n == 0x2029 || n == 0x202f || n == 0x205f
    || n == 0x3000

/-- The characters without the white space at their end. -/
def trimEnd (cs : List Char) : List Char :=
  (cs.reverse.dropWhile isBlank).reverse

/-- The characters without the white space at either end. -/
def trim (cs : List Char) : List Char :=
  trimEnd (cs.dropWhile isBlank)

/-! ## Lines -/

/-- What stands from the start of the `n`-th line on, counted from `0`. -/
def dropLines : Nat → List Char → List Char
  | 0, cs => cs
  | _, [] => []
  | n + 1, c :: cs => if c == '\n' then dropLines n cs else dropLines (n + 1) cs

/-- The `n`-th line, counted from `0`, without white space at its end; empty past the last
line. -/
def nthLine (n : Nat) (cs : List Char) : List Char :=
  trimEnd ((dropLines n cs).takeWhile (· != '\n'))

end Typewire.Text
