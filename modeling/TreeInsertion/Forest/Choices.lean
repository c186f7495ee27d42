/-!
# Choices

All ways to choose one element from each list of a list.  The choice from the
first list changes fastest.
-/

namespace TreeInsertion

/-- Without any list there is nothing to choose from, so no choice either. -/
def choices {α : Type} : List (List α) → List (List α)
  | [] => []
  | [only] => only.map fun a => [a]
  | head :: tail => (choices tail).flatMap fun rest => head.map fun a => a :: rest

end TreeInsertion
