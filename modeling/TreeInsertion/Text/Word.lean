import TreeInsertion.Text.Alphabetic
import TreeInsertion.Text.Lowercase
import TreeInsertion.Text.Numeric

/-!
# Words

A word of the language stands bare where its spelling marks it as a word, and
between double quotes elsewhere.
-/

namespace TreeInsertion

def isLowercase (c : Char) : Bool :=
  CharSet.lowercase.contains c

def isAlphabetic (c : Char) : Bool :=
  CharSet.alphabetic.contains c

def isAlphanumeric (c : Char) : Bool :=
  isAlphabetic c || CharSet.numeric.contains c

namespace Word

def isBare (word : String) : Bool :=
  match word.toList with
  | [] => false
  | c :: cs => isLowercase c && (c :: cs).all fun d => isAlphanumeric d || d == '-' || d == '_'

/-- Nothing is escaped between the quotes. -/
def render (word : String) : String :=
  if isBare word then word else "\"" ++ word ++ "\""

end Word

end TreeInsertion
