import TreeInsertion.Chart.Step
import TreeInsertion.Grammar.Basic

/-!
# Analysis of an input

The chart is filled from left to right.  At each position the items are processed
in the order in which they came up, those that come up meanwhile included.
-/

namespace TreeInsertion

instance oneFloat : One Float :=
  ⟨1.0⟩

namespace Selection

/-- The number of places for a dot in all layers of all trees. -/
def dotCount {W : Type} (sel : Selection W) : Nat :=
  (sel.trees.flatMap fun t => t.rule.layers.flatMap Layer.entries).length

end Selection

namespace Chart

variable {W : Type}

/-- The number of cells that items can take: a dot, a span, and whether it is left-adjoined. -/
def capacity (c : Chart W) : Nat :=
  (c.inputLength + 1) * (c.inputLength + 2) * c.selection.dotCount

/--
Process the items that end at `k` from the one at place `i` on.

No position holds more items than the chart has cells, which bounds the rounds.
-/
def processFrom [One W] [Mul W] (input : List String) (k : Nat) : Nat → Nat → Chart W → Chart W
  | 0, _, c => c
  | rounds + 1, i, c =>
      match (c.idsAt k)[i]?.bind fun id => c.items[id]? with
      | none => c
      | some x => processFrom input k rounds (i + 1) (c.process input x)

def processSet [One W] [Mul W] (input : List String) (c : Chart W) (k : Nat) : Chart W :=
  processFrom input k c.capacity 0 c

def seeded [One W] (selection : Selection W) (starts : SymbolSet) (inputLength : Nat) : Chart W :=
  starts.toList.foldl (fun c symbol => c.run (demand symbol 0 .site))
    (empty selection starts inputLength)

def ofSelection [One W] [Mul W] (selection : Selection W) (starts : SymbolSet)
    (input : List String) : Chart W :=
  (List.range (input.length + 1)).foldl (processSet input)
    (seeded selection starts input.length)

end Chart

namespace Grammar

/-- The chart of all analyses of the input. -/
def parse {W : Type} [One W] [Mul W] (g : Grammar W) (input : List String) : Chart W :=
  Chart.ofSelection (Selection.ofInput g.lexicon input) g.starts input

end Grammar

end TreeInsertion
