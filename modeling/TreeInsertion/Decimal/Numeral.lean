import TreeInsertion.Decimal.Shortest

/-!
# Numerals

Decimal notation of the numbers of double precision.  Numbers are written
without an exponent, and they are read with an optional one.
-/

namespace TreeInsertion

namespace Decimal

/-- The digits of `digits * 10 ^ exponent`, with a point only before a fraction. -/
def positional (digits : Nat) (exponent : Int) : List Char :=
  let ds := Nat.toDigits 10 digits
  match exponent with
  | .ofNat zeros => ds ++ List.replicate zeros '0'
  | .negSucc n =>
      let places := n + 1
      let padded := List.replicate (places + 1 - ds.length) '0' ++ ds
      let whole := padded.take (padded.length - places)
      let fraction := padded.drop (padded.length - places)
      match (fraction.reverse.dropWhile (· == '0')).reverse with
      | [] => whole
      | significant => whole ++ '.' :: significant

/-- The shortest numeral that reads back to `x`, with words for what is not a finite number. -/
def render (x : Float) : String :=
  let bits := x.toBits.toNat
  let magnitude := bits % Nat.pow 2 63
  let sign := if Nat.pow 2 63 ≤ bits then "-" else ""
  if infinity < magnitude then "NaN"
  else if magnitude = infinity then sign ++ "inf"
  else
    let (digits, exponent) := shortest magnitude
    sign ++ String.ofList (positional digits exponent)

/-! ## Reading -/

def ofDigits (ds : List Char) : Nat :=
  Nat.ofDigitChars 10 ds 0

def ofParts (whole fraction : List Char) (exponent : Int) : Float :=
  Float.ofBits (UInt64.ofNat
    (ofDecimal (ofDigits (whole ++ fraction)) (exponent - fraction.length)))

/-- The digits after a point, as far as there is a point with digits after it. -/
def takeFraction (s : List Char) : List Char × List Char :=
  match s with
  | '.' :: rest =>
      if (rest.takeWhile Char.isDigit).isEmpty then ([], s)
      else (rest.takeWhile Char.isDigit, rest.dropWhile Char.isDigit)
  | _ => ([], s)

theorem takeFraction_le (s : List Char) : (takeFraction s).2.length ≤ s.length := by
  unfold takeFraction
  split
  · rename_i rest
    have := (List.dropWhile_sublist (l := rest) Char.isDigit).length_le
    split
    · exact Nat.le_refl _
    · simp only [List.length_cons]
      omega
  · exact Nat.le_refl _

/-- Whether a minus comes next, and the text after the sign if there is one. -/
def takeSign (s : List Char) : Bool × List Char :=
  match s with
  | '-' :: rest => (true, rest)
  | '+' :: rest => (false, rest)
  | _ => (false, s)

theorem takeSign_le (s : List Char) : (takeSign s).2.length ≤ s.length := by
  unfold takeSign
  split <;> simp

/-- The power of ten after an `e` or `E`, as far as there is one with a number after it. -/
def takeExponent (s : List Char) : Int × List Char :=
  match s with
  | [] => (0, s)
  | c :: rest =>
      let (negative, tail) := takeSign rest
      let digits := tail.takeWhile Char.isDigit
      if (c = 'e' || c = 'E') && !digits.isEmpty then
        let n : Int := ofDigits digits
        (if negative then -n else n, tail.dropWhile Char.isDigit)
      else (0, s)

theorem takeExponent_le (s : List Char) : (takeExponent s).2.length ≤ s.length := by
  unfold takeExponent
  split
  · exact Nat.le_refl _
  · rename_i c rest
    have hsign := takeSign_le rest
    have hdigits := (List.dropWhile_sublist (l := (takeSign rest).2) Char.isDigit).length_le
    dsimp only
    split
    · simp only [List.length_cons]
      omega
    · exact Nat.le_refl _

/--
The number that the whole text writes, with a sign or a word for what is not
finite.  One side of the point may be empty, and the case of letters is free.
-/
def read? (text : String) : Option Float :=
  let (negative, s) := takeSign text.toList
  let signed := fun (x : Float) => if negative then -x else x
  let name := String.ofList (s.map Char.toLower)
  if name = "inf" || name = "infinity" then
    some (signed (Float.ofBits (UInt64.ofNat infinity)))
  else if name = "nan" then some (0.0 / 0.0)
  else
    let whole := s.takeWhile Char.isDigit
    let (fraction, s) := match s.dropWhile Char.isDigit with
      | '.' :: rest => (rest.takeWhile Char.isDigit, rest.dropWhile Char.isDigit)
      | rest => ([], rest)
    let (exponent, s) := takeExponent s
    if !s.isEmpty || (whole ++ fraction).isEmpty then none
    else some (signed (ofParts whole fraction exponent))

end Decimal

end TreeInsertion
