/-!
# Sets of characters

A set of characters is written as its maximal ranges of code points, in
increasing order, so that membership stops at the first range past the
character.
-/

namespace TreeInsertion

/-- The ranges are increasing and disjoint, and both of their ends are included. -/
structure CharSet where
  ranges : List (Nat × Nat)

namespace CharSet

def covers : List (Nat × Nat) → Nat → Bool
  | [], _ => false
  | (first, last) :: rest, n =>
      if n < first then false
      else if n ≤ last then true
      else covers rest n

def contains (set : CharSet) (c : Char) : Bool :=
  covers set.ranges c.toNat

end CharSet

end TreeInsertion
