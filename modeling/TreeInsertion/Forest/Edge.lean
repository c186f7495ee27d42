import TreeInsertion.Address
import TreeInsertion.AnchoredTree

/-!
# Derivation edges

An edge of a derivation tells that one tree was put into another, how, and where.
-/

namespace TreeInsertion

/-- How one tree is put into another: in place of a leaf, or joined to an inner node or a root. -/
inductive Attachment where
  | substitution
  | adjunction (site : Address)
deriving DecidableEq, Repr

/--
The tree `second` is put into `first`.  The connector is the address of the leaf
that is replaced, or the spine of the auxiliary tree that is joined.
-/
structure Edge (α : Type) where
  first : α
  second : α
  connector : Address
  attachment : Attachment
deriving DecidableEq, Repr

namespace Edge

variable {α β W : Type}

def map (f : α → β) (e : Edge α) : Edge β :=
  ⟨f e.first, f e.second, e.connector, e.attachment⟩

def isAdjunction (e : Edge α) : Bool :=
  match e.attachment with
  | .substitution => false
  | .adjunction _ => true

/-- What tells edges apart, since trees are told apart by their numbers. -/
def key (e : Edge (AnchoredTree W)) : Edge Nat :=
  e.map AnchoredTree.id

def render (e : Edge (AnchoredTree W)) : String :=
  match e.attachment with
  | .substitution =>
      e.first.render ++ " <-[" ++ e.connector.render ++ "]- " ++ e.second.render
  | .adjunction site =>
      e.first.render ++ " <=[" ++ site.render ++ " spine " ++ e.connector.render ++ "]= " ++
        e.second.render

end Edge

end TreeInsertion
