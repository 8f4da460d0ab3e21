-- A set of characters as one sorted list of code points.
-- The characters from the first entry up to the second are in it, those from the second
-- up to the third are not, and so on in turn.
namespace Typewire.Text

/-- A set of characters, given by the code points at which membership changes. -/
structure CharRanges where
  bounds : Array Nat

namespace CharRanges

/-- How many of the sorted bounds in `[lo, hi)` lie at or below `n`, counted from `0`. -/
def rankBetween (bounds : Array Nat) (n lo hi : Nat) : Nat :=
  if lo < hi then
    let mid := (lo + hi) / 2
    if bounds.getD mid 0 ≤ n then rankBetween bounds n (mid + 1) hi
    else rankBetween bounds n lo mid
  else lo
termination_by hi - lo

/-- A character belongs to the set when an odd number of bounds lie at or below it. -/
def contains (s : CharRanges) (c : Char) : Bool :=
  rankBetween s.bounds c.toNat 0 s.bounds.size % 2 == 1

end CharRanges

end Typewire.Text
