import TreeInsertion.AnchoredTree

/-!
# Chart items

An item is a layer of an anchored tree with a dot in it, over a span of the
input.  The entries before the dot are recognised on the span.  Entry 0 is the
parent of the layer, so an item starts with the dot at 1.
-/

namespace TreeInsertion

/-- One way in which an item came up, with the numbers of the items that it came from. -/
inductive Derivation where
  /-- Opened because it was in demand. -/
  | predicted
  | scan (source : Nat)
  /-- The dot moved over a foot, which covers nothing of the input. -/
  | foot (source : Nat)
  /-- A deeper layer of the same tree was recognised. -/
  | complete (parent child : Nat)
  /-- An initial tree was recognised at a substitution site. -/
  | substitution (parent child : Nat)
  /-- An auxiliary tree was joined to the node that `host` recognises. -/
  | adjunction (host auxiliary : Nat)
deriving DecidableEq, Repr

namespace Derivation

def antecedents : Derivation → List Nat
  | predicted => []
  | scan source => [source]
  | foot source => [source]
  | complete parent child => [parent, child]
  | substitution parent child => [parent, child]
  | adjunction host auxiliary => [host, auxiliary]

end Derivation

structure Item (W : Type) where
  tree : AnchoredTree W
  layer : Fin tree.rule.layers.length
  dot : Nat
  left : Nat
  right : Nat
  /-- Whether a left auxiliary tree is joined to the node.  Right ones have to come before. -/
  leftAdjoined : Bool
  weight : W
  id : Nat
  derivations : List Derivation

namespace Item

variable {W : Type}

def new? (t : AnchoredTree W) (i dot left right : Nat) (weight : W) (id : Nat) :
    Option (Item W) :=
  if h : i < t.rule.layers.length then
    some ⟨t, ⟨i, h⟩, dot, left, right, false, weight, id, []⟩
  else none

/-- An item before anything of its layer is recognised.  The chart gives it a number. -/
def opened (t : AnchoredTree W) (i : Fin t.rule.layers.length) (pos : Nat) (weight : W) :
    Item W :=
  ⟨t, i, 1, pos, pos, false, weight, 0, []⟩

/-- The first item for a tree, at its root.  It carries the weight of the rule. -/
def atRoot? (t : AnchoredTree W) (pos : Nat) : Option (Item W) :=
  if h : 0 < t.rule.layers.length then some (opened t ⟨0, h⟩ pos t.rule.weight) else none

def current (x : Item W) : Layer :=
  x.tree.rule.layers[x.layer]

/-- Whether some entry of the layer is still to be recognised. -/
def isActive (x : Item W) : Bool :=
  x.dot < x.current.length

def isPassive (x : Item W) : Bool :=
  !x.isActive

def isRootLayer (x : Item W) : Bool :=
  x.current.address.isRoot

/-- Auxiliary trees may be joined to every node but the root of an auxiliary tree. -/
def isAdjunctionSite (x : Item W) : Bool :=
  x.tree.isInitial || !x.isRootLayer

def next? (x : Item W) : Option Entry :=
  x.current.entry? x.dot

def nextAddress (x : Item W) : Address :=
  x.current.address.child x.dot

def nextLayer? (x : Item W) : Option Layer :=
  x.tree.rule.layer? x.nextAddress

def isAbove (parent child : Item W) : Bool :=
  child.current.address.parent? == some parent.current.address

def advance (x : Item W) : Item W :=
  if x.isActive then { x with dot := x.dot + 1 } else x

/-- The item with one more entry recognised, up to `right`. -/
def advanceTo (x : Item W) (right : Nat) (weight : W) : Item W :=
  { x.advance with right := right, weight := weight }

def derive (x : Item W) (why : Derivation) : Item W :=
  if why ∈ x.derivations then x else { x with derivations := x.derivations ++ [why] }

/-! ## Cells of the chart -/

/-- What tells items apart.  Analyses that agree in it share one item. -/
structure Key where
  tree : Nat
  layer : Nat
  dot : Nat
  left : Nat
  right : Nat
  leftAdjoined : Bool
deriving DecidableEq, Repr

namespace Key

def code (k : Key) : List Nat :=
  [k.tree, k.layer, k.dot, k.left, k.right, k.leftAdjoined.toNat]

theorem eq_of_code_eq {k l : Key} (h : k.code = l.code) : k = l := by
  cases k with
  | mk _ _ _ _ _ a =>
      cases l with
      | mk _ _ _ _ _ b =>
          simp only [code, List.cons.injEq] at h
          obtain ⟨rfl, rfl, rfl, rfl, rfl, h, -⟩ := h
          cases a <;> cases b <;> simp_all

instance : Ord Key :=
  ⟨fun k l => compare k.code l.code⟩

instance : Std.TransOrd Key :=
  inferInstanceAs (Std.TransCmp (compareOn code))

instance : Std.LawfulEqOrd Key where
  eq_of_compare h := eq_of_code_eq (Std.LawfulEqOrd.eq_of_compare h)
  compare_self := Std.ReflOrd.compare_self (a := code _)

end Key

def key (x : Item W) : Key :=
  ⟨x.tree.id, x.layer, x.dot, x.left, x.right, x.leftAdjoined⟩

/-! ## Written form -/

def renderDotted (x : Item W) : String :=
  let parent := match x.current.lhs? with
    | some e => e.render ++ " →"
    | none => ""
  let children := (x.current.entries.zipIdx.drop 1).map fun (e, i) =>
    (if i = x.dot then " ・ " else " ") ++ e.render
  parent ++ String.join children ++ (if x.isActive then "" else " ・")

def render (x : Item W) : String :=
  x.left.repr ++ ".." ++ x.right.repr ++ ": " ++ x.renderDotted ++ " [" ++ x.tree.render ++ " " ++
    x.current.address.render ++ (if x.leftAdjoined then "+" else "") ++ "] #" ++ x.id.repr

end Item

end TreeInsertion
