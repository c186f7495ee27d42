import TreeInsertion.Text.Word

/-!
# Entries

The symbols of a layer and the role that each of them plays in an elementary
tree.
-/

namespace TreeInsertion

inductive Role where
  /-- A word that has to match the input, usually an anchor of the rule. -/
  | terminal
  /-- An inner node, which a deeper layer of the same tree expands. -/
  | nonterminal
  /-- A leaf that an initial tree is substituted for. -/
  | substitution
  /-- The leaf of an auxiliary tree that the host node ends up under. -/
  | foot
deriving DecidableEq, Repr

structure Entry where
  role : Role
  label : String
deriving DecidableEq, Repr

namespace Entry

def isFoot (e : Entry) : Bool :=
  e.role == .foot

/-- A substitution site carries an exclamation mark and a foot an asterisk. -/
def render (e : Entry) : String :=
  match e.role with
  | .terminal => Word.render e.label
  | .nonterminal => e.label
  | .substitution => e.label ++ "!"
  | .foot => e.label ++ "*"

end Entry

end TreeInsertion
