/-!
# Sorted ranges of code points

A character class of a standard is a list of disjoint code point ranges in increasing order.

* `Ranges.holds`: membership, one pass that stops at the first range past the code point.
-/

namespace TermCalc

/-- Disjoint inclusive ranges, in increasing order. -/
abbrev Ranges := List (Nat × Nat)

/-- Whether a code point lies in one of the ranges. -/
def Ranges.holds : Ranges → Nat → Bool
  | [], _ => false
  | (low, high) :: rest, n => if n < low then false else if n ≤ high then true else holds rest n

end TermCalc
