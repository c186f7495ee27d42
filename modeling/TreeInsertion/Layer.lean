import TreeInsertion.Address
import TreeInsertion.Entry

/-!
# Layers

A layer is one level of an elementary tree, written as a context-free
production: entry 0 is the parent and the others are its children in order.
-/

namespace TreeInsertion

structure Layer where
  address : Address
  entries : List Entry
deriving DecidableEq, Repr

namespace Layer

def length (l : Layer) : Nat :=
  l.entries.length

def entry? (l : Layer) (i : Nat) : Option Entry :=
  l.entries[i]?

/-- The parent, which only a layer without entries lacks. -/
def lhs? (l : Layer) : Option Entry :=
  l.entries.head?

def rhs (l : Layer) : List Entry :=
  l.entries.drop 1

def hasLabel (l : Layer) (label : String) : Bool :=
  l.lhs?.any fun e => e.label == label

def render (l : Layer) : String :=
  let parent := match l.lhs? with
    | some e => " " ++ e.render ++ " ->"
    | none => ""
  l.address.render ++ ":" ++ parent ++ String.join (l.rhs.map fun e => " " ++ e.render)

end Layer

end TreeInsertion
