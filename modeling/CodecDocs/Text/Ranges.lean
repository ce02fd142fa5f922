/-! Sets of characters written as sorted, disjoint ranges of code points. A look-up stops at the
first range that begins past the character. -/

namespace CodecDocs.Text

/-- Inclusive ranges of code points in increasing order. -/
abbrev Ranges := List (Nat × Nat)

namespace Ranges

def contains : Ranges → Nat → Bool
  | [], _ => false
  | (low, high) :: rest, n =>
    if n < low then false else if n ≤ high then true else contains rest n

/-- Every range is nonempty and ends before the next one begins. -/
def sorted : Ranges → Bool
  | [] => true
  | [(low, high)] => decide (low ≤ high)
  | (low, high) :: (low', high') :: rest =>
    decide (low ≤ high) && decide (high < low') && sorted ((low', high') :: rest)

end Ranges

end CodecDocs.Text
