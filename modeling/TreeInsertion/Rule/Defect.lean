import TreeInsertion.Address

/-!
# Defects of a grammar

What can be wrong with the structure of a rule or with the indices of a list of
rules, and how it is reported.
-/

namespace TreeInsertion

inductive SpineFault where
  | footInInitialTree
  | notOneFoot
  | footOffSpine
  | footLabelMismatch
  | missingSpineLayer
  | nothingBesidesFoot
  | innerFoot
deriving DecidableEq, Repr

namespace SpineFault

def message : SpineFault → String
  | footInInitialTree => "initial tree contains a foot node"
  | notOneFoot => "auxiliary tree needs exactly one foot node"
  | footOffSpine => "foot node is not in the spine layer"
  | footLabelMismatch => "foot label differs from the root label"
  | missingSpineLayer => "spine passes through a missing layer"
  | nothingBesidesFoot => "auxiliary tree has nothing besides its foot"
  | innerFoot => "foot is neither the leftmost nor the rightmost leaf"

end SpineFault

inductive Defect where
  | noLayers (rule : Nat)
  | missingLeftHandSide (rule : Nat) (address : Address)
  | rootNotFirst (rule : Nat) (address : Address)
  | duplicateLayer (rule : Nat) (address : Address)
  /-- The layer does not expand a nonterminal of its parent layer. -/
  | orphanLayer (rule : Nat) (address : Address)
  | badSpine (rule : Nat) (fault : SpineFault)
  | duplicateIndex (rule : Nat)
deriving DecidableEq, Repr

namespace Defect

def message : Defect → String
  | noLayers rule => "rule " ++ rule.repr ++ " has no production layers"
  | missingLeftHandSide rule g =>
      "rule " ++ rule.repr ++ ": layer " ++ g.render ++ " has no left-hand side"
  | rootNotFirst rule g =>
      "rule " ++ rule.repr ++ ": first layer must be the root layer 0, found " ++ g.render
  | duplicateLayer rule g =>
      "rule " ++ rule.repr ++ ": layer " ++ g.render ++ " is defined more than once"
  | orphanLayer rule g =>
      "rule " ++ rule.repr ++ ": layer " ++ g.render ++
        " does not expand a nonterminal of its parent layer"
  | badSpine rule fault => "rule " ++ rule.repr ++ ": bad spine: " ++ fault.message
  | duplicateIndex rule => "rule index " ++ rule.repr ++ " is used by more than one rule"

end Defect

end TreeInsertion
