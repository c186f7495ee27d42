import Std.Data.TreeMap
import TreeInsertion.Forest.Edge

/-!
# Forests

A forest holds anchored trees as nodes and derivation edges between them.  A node
may carry a handle, which a drawing of the forest has given to it.
-/

namespace TreeInsertion

structure Forest (W H : Type) where
  /-- The nodes in the order of their insertion, with their handles. -/
  nodes : Array (AnchoredTree W × Option H)
  /-- The place of each tree among the nodes, by its number. -/
  positions : Std.TreeMap Nat Nat
  /-- The edges in the order of their insertion. -/
  edges : List (Edge (AnchoredTree W))

namespace Forest

variable {W H : Type}

def empty : Forest W H :=
  ⟨#[], ∅, []⟩

def size (f : Forest W H) : Nat :=
  f.nodes.size

def isEmpty (f : Forest W H) : Bool :=
  f.nodes.isEmpty

def trees (f : Forest W H) : List (AnchoredTree W) :=
  f.nodes.toList.map Prod.fst

def contains (f : Forest W H) (t : AnchoredTree W) : Bool :=
  f.positions.contains t.id

def handle? (f : Forest W H) (t : AnchoredTree W) : Option H := do
  let i ← f.positions[t.id]?
  let (_, handle) ← f.nodes[i]?
  handle

/-- Add a node, and tell whether it is new. -/
def addNode (f : Forest W H) (t : AnchoredTree W) : Bool × Forest W H :=
  if f.contains t then (false, f)
  else
    (true, { f with
      nodes := f.nodes.push (t, none)
      positions := f.positions.insert t.id f.nodes.size })

def hasEdge (f : Forest W H) (e : Edge (AnchoredTree W)) : Bool :=
  f.edges.any fun d => d.key = e.key

/-- Add an edge together with its ends, and tell whether it is new. -/
def addEdge (f : Forest W H) (e : Edge (AnchoredTree W)) : Bool × Forest W H :=
  if f.hasEdge e then (false, f)
  else
    let g := ((f.addNode e.first).2.addNode e.second).2
    (true, { g with edges := g.edges ++ [e] })

/-- Remove an edge, and tell whether it was there.  Its ends stay. -/
def removeEdge (f : Forest W H) (e : Edge (AnchoredTree W)) : Bool × Forest W H :=
  (f.hasEdge e, { f with edges := f.edges.eraseP fun d => d.key = e.key })

/-- The same nodes and edges without handles, which may be of another type from then on. -/
def withoutHandles {K : Type} (f : Forest W H) : Forest W K :=
  ⟨f.nodes.map fun (t, _) => (t, none), f.positions, f.edges⟩

def render (f : Forest W H) : String :=
  "nodes:" ++ String.join (f.trees.map fun t => " " ++ t.render) ++ "\n" ++
    String.join (f.edges.map fun e => "  " ++ e.render ++ "\n")

end Forest

end TreeInsertion
