/-! Sets of code points, given by the boundaries at which membership changes. -/
namespace Hyperstory.Text

/-- Increasing boundaries: code points below the first are outside, and every boundary changes
sides. -/
structure CodeRanges where
  bounds : Array Nat

namespace CodeRanges

/-- How many boundaries are at most `n`, if those before `lo` are and those from `hi` on are not. -/
def rank (bounds : Array Nat) (n lo hi : Nat) : Nat :=
  if lo < hi then
    if bounds.getD ((lo + hi) / 2) 0 ≤ n then rank bounds n ((lo + hi) / 2 + 1) hi
    else rank bounds n lo ((lo + hi) / 2)
  else lo
termination_by hi - lo

/-- A character is inside after an odd number of boundaries. -/
def contains (r : CodeRanges) (c : Char) : Bool :=
  rank r.bounds c.toNat 0 r.bounds.size % 2 == 1

end CodeRanges

end Hyperstory.Text
