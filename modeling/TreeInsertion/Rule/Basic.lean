import TreeInsertion.Layer
import TreeInsertion.Rule.Defect

/-!
# Rules

A rule of a tree insertion grammar is an elementary tree, given by its layers,
together with the words that anchor it.  The weight is of any type, so that the
parser works for probabilities in floating point and for exact ones alike.
-/

namespace TreeInsertion

/-- The side of its host on which an auxiliary tree adds material. -/
inductive Side where
  /-- The foot is the last leaf, and all else stands before the host. -/
  | left
  /-- The foot is the first leaf, and all else stands after the host. -/
  | right
deriving DecidableEq, Repr

/-- A rule with a spine, the address of the layer that holds the foot, is an auxiliary tree. -/
structure Rule (W : Type) where
  index : Nat
  layers : List Layer
  anchors : List String
  freq : Nat
  weight : W
  spine : Option Address

namespace Rule

variable {W : Type}

def isAuxiliary (r : Rule W) : Bool :=
  r.spine.isSome

def isInitial (r : Rule W) : Bool :=
  !r.isAuxiliary

def indexOf? (r : Rule W) (g : Address) : Option Nat :=
  r.layers.findIdx? fun l => l.address == g

def layer? (r : Rule W) (g : Address) : Option Layer :=
  r.layers.find? fun l => l.address == g

def rootSymbol (r : Rule W) : Except Defect String :=
  match r.layers with
  | [] => .error (.noLayers r.index)
  | root :: _ =>
      match root.lhs? with
      | none => .error (.missingLeftHandSide r.index root.address)
      | some e => .ok e.label

theorem lt_length_of_indexOf? {r : Rule W} {g : Address} {i : Nat}
    (h : r.indexOf? g = some i) : i < r.layers.length :=
  (List.findIdx?_eq_some_iff_getElem.1 h).1

end Rule

end TreeInsertion
