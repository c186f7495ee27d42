import TreeInsertion.Forest.Choices
import TreeInsertion.Forest.Packed

/-!
# Readings

A reading is the derivation tree of one analysis.  The alternatives of an item
are put together from those of its antecedents, and kept, so that each item is
unpacked once.
-/

namespace TreeInsertion

/-- The edges of one analysis of an item. -/
abbrev Analysis (W : Type) :=
  List (Edge (AnchoredTree W))

/-- The analyses of the items that are unpacked, by the numbers of the items. -/
abbrev Unpacked (W : Type) :=
  Std.TreeMap Nat (List (Analysis W))

namespace Chart

variable {W H : Type}

/-- One analysis for each choice from the antecedents, with the edge of the derivation last. -/
def analysesOf (c : Chart W) (why : Derivation) (parts : List (List (Analysis W))) :
    List (Analysis W) :=
  let ways := if parts.isEmpty then [[]] else choices parts
  ways.map fun way => way.flatten ++ (c.edgeOf? why).toList

/--
The analyses of an item, and what is unpacked after it.

The items outside of `free` are being unpacked.  One of them has no analyses within
its own, so a cycle of derivations is cut where it closes.
-/
def unpack (c : Chart W) (free : List Nat) (id : Nat) (known : Unpacked W) :
    List (Analysis W) × Unpacked W :=
  match known[id]? with
  | some analyses => (analyses, known)
  | none =>
      if _hfree : id ∈ free then
        let part := fun (parts, known) antecedent =>
          let (analyses, known) := c.unpack (free.erase id) antecedent known
          (parts ++ [analyses], known)
        let alternative := fun (found, known) why =>
          let (parts, known) := (Derivation.antecedents why).foldl part ([], known)
          (found ++ c.analysesOf why parts, known)
        let (analyses, known) := (c.derivationsOf id).foldl alternative ([], known)
        (analyses, known.insert id analyses)
      else ([], known)
termination_by free.length
decreasing_by
  have := List.length_erase_of_mem _hfree
  have := List.length_pos_of_mem _hfree
  omega

def unpackAll (c : Chart W) : List (Item W) → Unpacked W → List (Item W × Analysis W)
  | [], _ => []
  | x :: rest, known =>
      let (analyses, known) := c.unpack (List.range c.items.size) x.id known
      analyses.map (fun analysis => (x, analysis)) ++ c.unpackAll rest known

def readingOf (root : AnchoredTree W) (analysis : Analysis W) : Forest W H :=
  analysis.foldl (fun f e => (f.addEdge e).2) (Forest.empty.addNode root).2

/-- A derivation tree for each analysis of the input. -/
def readings (c : Chart W) : List (Forest W H) :=
  (c.unpackAll c.accepting ∅).map fun (x, analysis) => readingOf x.tree analysis

end Chart

end TreeInsertion
