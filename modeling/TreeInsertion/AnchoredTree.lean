import TreeInsertion.Rule.Validity

/-!
# Anchored trees

An anchored tree is a rule at a position of the input where its anchors stand.
One rule at two positions makes two trees, which their numbers tell apart.
-/

namespace TreeInsertion

structure AnchoredTree (W : Type) where
  id : Nat
  rule : Rule W
  /-- The position of the first anchor. -/
  anchorPos : Nat
  /-- The root symbol of the rule. -/
  root : String

namespace AnchoredTree

variable {W : Type}

def ofRule (id : Nat) (r : Rule W) (pos : Nat) : Except Defect (AnchoredTree W) :=
  r.rootSymbol.map fun root => ⟨id, r, pos, root⟩

def anchorEnd (t : AnchoredTree W) : Nat :=
  t.anchorPos + t.rule.anchors.length

def isInitial (t : AnchoredTree W) : Bool :=
  t.rule.isInitial

def isAuxiliary (t : AnchoredTree W) : Bool :=
  t.rule.isAuxiliary

def side? (t : AnchoredTree W) : Option Side :=
  t.rule.side?

/-- Whether the tree may read the word at `pos`: its anchors stand at their own positions only. -/
def mayRead (t : AnchoredTree W) (word : String) (pos : Nat) : Bool :=
  !t.rule.anchors.contains word || (t.anchorPos ≤ pos && pos < t.anchorEnd)

def render (t : AnchoredTree W) : String :=
  t.root ++ "#" ++ t.rule.index.repr ++ "@" ++ t.anchorPos.repr

end AnchoredTree

end TreeInsertion
