import Std.Data.TreeMap
import TreeInsertion.AnchoredTree
import TreeInsertion.Lexicon.Basic

/-!
# The trees for an input

The lexicon selects the trees that can take part in the analysis of an input,
one for every rule and every position where the anchors of the rule stand.  A tree
gets its number when it is selected, and is filed under its root symbol.
-/

namespace TreeInsertion

/-- Trees under their root symbols, each list in the order of the selection. -/
abbrev TreeTable (W : Type) :=
  Std.TreeMap String (List (AnchoredTree W))

namespace TreeTable

variable {W : Type}

def file (table : TreeTable W) (t : AnchoredTree W) : TreeTable W :=
  table.insert t.root (table.getD t.root [] ++ [t])

theorem getD_file (table : TreeTable W) (t : AnchoredTree W) (root : String) :
    (table.file t).getD root [] = table.getD root [] ++ if t.root = root then [t] else [] := by
  rw [file, Std.TreeMap.getD_insert]
  by_cases h : t.root = root
  · simp [h]
  · simp [h]

end TreeTable

/-- The selected trees in the order of their numbers, and the two tables they are filed in. -/
structure Selection (W : Type) where
  trees : List (AnchoredTree W)
  initials : TreeTable W
  auxiliaries : TreeTable W

namespace Selection

variable {W : Type}

def empty : Selection W :=
  ⟨[], ∅, ∅⟩

def size (sel : Selection W) : Nat :=
  sel.trees.length

def get? (sel : Selection W) (id : Nat) : Option (AnchoredTree W) :=
  sel.trees[id]?

def initial (sel : Selection W) (root : String) : List (AnchoredTree W) :=
  sel.initials.getD root []

def auxiliary (sel : Selection W) (root : String) : List (AnchoredTree W) :=
  sel.auxiliaries.getD root []

def push (sel : Selection W) (t : AnchoredTree W) : Selection W :=
  if t.isAuxiliary then
    { sel with trees := sel.trees ++ [t], auxiliaries := sel.auxiliaries.file t }
  else { sel with trees := sel.trees ++ [t], initials := sel.initials.file t }

/-- Select a rule at a position.  A rule without a root symbol is left out and takes no number. -/
def select (sel : Selection W) (pos : Nat) (r : Rule W) : Selection W :=
  match AnchoredTree.ofRule sel.size r pos with
  | .ok t => sel.push t
  | .error _ => sel

/-- Select the rules whose anchors stand at `pos`, those with fewer anchors first. -/
def selectAt (lex : Lexicon W) (input : List String) (sel : Selection W) (pos : Nat) :
    Selection W :=
  (lex.matchesAt input pos).foldl (fun sel group => group.2.foldl (select · pos) sel) sel

def ofInput (lex : Lexicon W) (input : List String) : Selection W :=
  (List.range input.length).foldl (selectAt lex input) empty

end Selection

end TreeInsertion
