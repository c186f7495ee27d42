import TreeInsertion.Decimal.Nearest

/-!
# Shortest decimals

The decimal with the fewest digits that reads back to a given word of double
precision.  Of the two candidates of one length the closer one is taken, and the
larger one on a tie.
-/

namespace TreeInsertion

namespace Decimal

/-- The value of a finite word in units of `10 ^ (-1074)`, in which it is a natural number. -/
def expansion (word : Nat) : Nat :=
  let (m, s) := decode word
  m * Nat.pow 2 s * Nat.pow 5 1074

/--
A decimal that reads back to `word` and differs from `exact`, the value of `word`
in units of `10 ^ (-1074)`, by less than one in the digit before the last
`dropped` digits.
-/
def candidate? (word exact dropped : Nat) : Option (Nat × Int) :=
  let below := exact / Nat.pow 10 dropped
  let exponent : Int := dropped - 1074
  let lower := ofDecimal below exponent == word
  let upper := ofDecimal (below + 1) exponent == word
  let nearLower := exact - below * Nat.pow 10 dropped < (below + 1) * Nat.pow 10 dropped - exact
  if lower && (nearLower || !upper) then some (below, exponent)
  else if upper then some (below + 1, exponent)
  else none

/--
Digits and exponent of the shortest decimal that reads back to a finite word.

Seventeen digits are enough for every word.  The exact expansion stands after
them, so that the search needs no proof of that to be sound.
-/
def shortest (word : Nat) : Nat × Int :=
  if word = 0 then (0, 0)
  else
    let exact := expansion word
    let length := digitCount exact
    let found := (List.range' 1 17).findSome? fun count => candidate? word exact (length - count)
    found.getD (exact, -1074)

end Decimal

end TreeInsertion
