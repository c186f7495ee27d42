import Std.Data.TreeMap
import TreeInsertion.Chart.Item
import TreeInsertion.Selection

/-!
# Charts

A chart holds the items found so far, by their right ends, and what was demanded
at which position.  It grows by two actions: an item is put into its cell, or a
demand is noted.
-/

namespace TreeInsertion

inductive Reason (W : Type) where
  /-- An inner node of a tree, which the given layer expands. -/
  | inner (tree : AnchoredTree W) (layer : Fin tree.rule.layers.length)
  /-- A substitution site or a start symbol. -/
  | site

namespace Reason

variable {W : Type}

/-- Trees are told apart by their numbers. -/
def same : Reason W → Reason W → Bool
  | inner t i, inner u j => t.id == u.id && i.val == j.val
  | site, site => true
  | _, _ => false

end Reason

structure Demand (W : Type) where
  pos : Nat
  label : String
  reason : Reason W

structure Chart (W : Type) where
  selection : Selection W
  starts : SymbolSet
  /-- The items by their numbers. -/
  items : Array (Item W)
  /-- The numbers of the items that end at each position. -/
  sets : Array (Array Nat)
  index : Std.TreeMap Item.Key Nat
  demands : List (Demand W)

namespace Chart

variable {W : Type}

def empty (selection : Selection W) (starts : SymbolSet) (inputLength : Nat) : Chart W :=
  ⟨selection, starts, #[], Array.replicate (inputLength + 1) #[], ∅, []⟩

def inputLength (c : Chart W) : Nat :=
  c.sets.size - 1

def idsAt (c : Chart W) (k : Nat) : List Nat :=
  match c.sets[k]? with
  | some ids => ids.toList
  | none => []

def itemsAt (c : Chart W) (k : Nat) : List (Item W) :=
  (c.idsAt k).filterMap fun id => c.items[id]?

def find? (c : Chart W) (key : Item.Key) : Option (Item W) :=
  c.index[key]?.bind fun id => c.items[id]?

def reasonsAt (c : Chart W) (pos : Nat) (label : String) : List (Reason W) :=
  c.demands.filterMap fun d => if d.pos = pos ∧ d.label = label then some d.reason else none

/-- The finished roots of initial trees with a start symbol that cover the whole input. -/
def accepting (c : Chart W) : List (Item W) :=
  c.items.toList.filter fun x =>
    x.isPassive && x.left == 0 && x.right == c.inputLength && x.isRootLayer && x.tree.isInitial &&
      c.starts.contains x.tree.root

def accepts (c : Chart W) : Bool :=
  !c.accepting.isEmpty

/-! ## Actions -/

/-- Put an item into its cell.  If there is one already, that one takes the derivation. -/
def add (c : Chart W) (x : Item W) (why : Derivation) : Chart W :=
  match c.index[x.key]? with
  | some id => { c with items := c.items.modify id fun y => y.derive why }
  | none =>
      let id := c.items.size
      { c with
        items := c.items.push { x with id := id, derivations := [why] }
        sets := c.sets.modify x.right fun ids => ids.push id
        index := c.index.insert x.key id }

inductive Action (W : Type) where
  | add (x : Item W) (why : Derivation)
  | note (d : Demand W)

def apply (c : Chart W) : Action W → Chart W
  | .add x why => c.add x why
  | .note d => { c with demands := c.demands ++ [d] }

/-- A phase of the analysis looks at the chart and decides what to do. -/
abbrev Phase (W : Type) :=
  Chart W → List (Action W)

def run (c : Chart W) (phase : Phase W) : Chart W :=
  (phase c).foldl apply c

/-! ## Written form -/

def render (c : Chart W) : String :=
  String.join ((List.range c.sets.size).map fun k =>
    "State " ++ k.repr ++ ":\n" ++
      String.join ((c.itemsAt k).map fun x => "  " ++ x.render ++ "\n"))

end Chart

end TreeInsertion
