/-!
# Double precision

Magnitudes in double precision are natural numbers of 63 bits: eleven bits of
exponent over 52 bits of fraction.  `decode` gives the value of such a word and
`nearest` the word that is closest to a quotient, where a half goes to the even
neighbour.  `ofDecimal` does the same for a number in decimal notation.
-/

namespace TreeInsertion

namespace Decimal

/-- The word for infinity, the least one that is not the magnitude of a finite number. -/
def infinity : Nat :=
  0x7ff * Nat.pow 2 52

/-- The mantissa `m` and the scale `s` of a finite word, whose value is `m * 2 ^ s / 2 ^ 1074`. -/
def decode (word : Nat) : Nat × Nat :=
  let exponent := word / Nat.pow 2 52
  let fraction := word % Nat.pow 2 52
  if exponent = 0 then (fraction, 0) else (Nat.pow 2 52 + fraction, exponent - 1)

/-- The natural number nearest to `num / den`, where a half goes to the even neighbour. -/
def roundHalfEven (num den : Nat) : Nat :=
  let q := num / den
  let r := num % den
  if 2 * r < den then q
  else if den < 2 * r then q + 1
  else if q % 2 = 0 then q else q + 1

/--
The word nearest to `num / den`.

The scale is the least that leaves a mantissa of 53 bits.  A mantissa that rounds
up to `2 ^ 53` carries into the exponent, since the two fields are added.
-/
def nearest (num den : Nat) : Nat :=
  let units := num * Nat.pow 2 1074
  let scale := (units / den).log2 - 52
  min infinity (scale * Nat.pow 2 52 + roundHalfEven units (den * Nat.pow 2 scale))

/-- The number of decimal digits of `n`, which is one for zero. -/
def digitCount (n : Nat) : Nat :=
  (Nat.toDigits 10 n).length

/--
The word nearest to `digits * 10 ^ exponent`.

Numbers from `10 ^ 310` on are infinite and those below `10 ^ (-330)` are zero, so
no power of an exponent out of bounds is ever taken.
-/
def ofDecimal (digits : Nat) (exponent : Int) : Nat :=
  let magnitude := digitCount digits + exponent
  if digits = 0 || magnitude < -330 then 0
  else if 310 < magnitude then infinity
  else match exponent with
    | .ofNat e => nearest (digits * Nat.pow 10 e) 1
    | .negSucc e => nearest digits (Nat.pow 10 (e + 1))

end Decimal

end TreeInsertion
