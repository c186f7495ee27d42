/-!
# Node addresses

The address of a node in an elementary tree is the path that leads to it.  The
root has address `0`, and the node that expands entry `i` of the layer at `g` has
address `g.i`.
-/

namespace TreeInsertion

structure Address where
  path : List Nat
deriving DecidableEq, Repr

namespace Address

def root : Address :=
  ⟨[0]⟩

def length (g : Address) : Nat :=
  g.path.length

def isRoot (g : Address) : Bool :=
  g.path == [0]

/-- The address of the node that expands entry `i` of the layer at `g`. -/
def child (g : Address) (i : Nat) : Address :=
  ⟨g.path ++ [i]⟩

/-- The address one step up.  The root and the empty address have none. -/
def parent? (g : Address) : Option Address :=
  if 1 < g.path.length then some ⟨g.path.dropLast⟩ else none

/-- The entry of the parent layer that the node at `g` expands. -/
def last? (g : Address) : Option Nat :=
  g.path.getLast?

/-- Addresses in dictionary order, where a path comes before its extensions. -/
def compare (g h : Address) : Ordering :=
  Ord.compare g.path h.path

/-- The steps of the path with points between them, as in `0.2.1`. -/
def render (g : Address) : String :=
  ".".intercalate (g.path.map Nat.repr)

@[simp] theorem isRoot_iff {g : Address} : g.isRoot = true ↔ g = root := by
  cases g
  simp [isRoot, root]

@[simp] theorem last?_child (g : Address) (i : Nat) : (g.child i).last? = some i := by
  simp [child, last?]

theorem parent?_child {g : Address} (i : Nat) (h : g.path ≠ []) :
    (g.child i).parent? = some g := by
  have hpos : 0 < g.path.length := List.length_pos_iff.2 h
  simp [child, parent?, hpos]

end Address

end TreeInsertion
