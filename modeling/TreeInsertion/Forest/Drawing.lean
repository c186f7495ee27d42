import TreeInsertion.Forest.Basic

/-!
# Drawings

A renderer draws a forest node by node and then edge by edge.  It hands back a
handle for each node, and gets the handles of the ends with each edge.  One
renderer writes the forest as a directed graph in the DOT language.
-/

namespace TreeInsertion

structure Renderer (W H S : Type) where
  node : AnchoredTree W → S → H × S
  edge : Edge (AnchoredTree W) → H → H → S → S

namespace Forest

variable {W H S : Type}

def drawNodes (r : Renderer W H S) : List (AnchoredTree W) → S →
    List (AnchoredTree W × Option H) × S
  | [], s => ([], s)
  | t :: rest, s =>
      let (handle, s) := r.node t s
      let (drawn, s) := drawNodes r rest s
      ((t, some handle) :: drawn, s)

/-- The edges by the anchor position of their second tree, and else as inserted. -/
def edgesByAnchor (f : Forest W H) : List (Edge (AnchoredTree W)) :=
  f.edges.mergeSort fun d e => d.second.anchorPos ≤ e.second.anchorPos

def drawEdge (r : Renderer W H S) (f : Forest W H) (s : S) (e : Edge (AnchoredTree W)) : S :=
  match f.handle? e.first, f.handle? e.second with
  | some source, some target => r.edge e source target s
  | _, _ => s

/-- Draw the forest.  Its nodes keep the handles from the renderer. -/
def draw (r : Renderer W H S) (f : Forest W H) (s : S) : Forest W H × S :=
  let (nodes, s) := drawNodes r f.trees s
  let g := { f with nodes := nodes.toArray }
  (g, g.edgesByAnchor.foldl (drawEdge r g) s)

end Forest

/-- Writes nodes and edges as statements of DOT, and names each node by the number of its tree. -/
def Renderer.dot {W : Type} : Renderer W String String where
  node t body :=
    let name := "t" ++ t.id.repr
    (name, body ++ "  " ++ name ++ " [label=\"" ++ t.render ++ "\"];\n")
  edge e source target body :=
    let style := if e.isAdjunction then "dashed" else "solid"
    body ++ "  " ++ source ++ " -> " ++ target ++ " [label=\"" ++ e.connector.render ++
      "\", style=" ++ style ++ "];\n"

/-- The forest in the DOT language.  Adjunctions are dashed. -/
def Forest.toDot {W H : Type} (f : Forest W H) : String :=
  let unnamed : Forest W String := f.withoutHandles
  "digraph forest \x7b\n" ++ (unnamed.draw Renderer.dot "").2 ++ "\x7d\n"

end TreeInsertion
