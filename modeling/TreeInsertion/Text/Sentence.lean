import TreeInsertion.Text.Blank

/-!
# Sentences

A sentence is a list of words with blank characters between them.
-/

namespace TreeInsertion

def isBlank (c : Char) : Bool :=
  CharSet.blank.contains c

/-- The words of a text, which are its runs of characters that are not blank. -/
def words (text : String) : List String :=
  let runs := text.toList.splitBy fun c d => isBlank c == isBlank d
  (runs.filter fun run => !run.any isBlank).map String.ofList

end TreeInsertion
