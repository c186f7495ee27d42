import TreeInsertion.Chart.Basic

/-!
# Steps of the analysis

What an item does to the chart when its turn comes.  An active item scans a word,
passes a foot, or demands what stands behind its dot.  A finished item moves the
items that wait for it, and auxiliary trees are joined to it or, if it is the
root of one, it is joined to its hosts.

A foot covers nothing, so an auxiliary tree stands before or behind its host in
the input.  The host takes the right auxiliary trees before the left ones, which
leaves one order for each combination.
-/

namespace TreeInsertion

namespace Chart

variable {W : Type}

/-! ## Demands -/

/-- Open the roots of the given trees at `pos`, as far as their anchors do not stand before it. -/
def openRoots (trees : List (AnchoredTree W)) (pos : Nat) : List (Action W) :=
  (trees.filter fun t => pos ≤ t.anchorPos).filterMap fun t =>
    (Item.atRoot? t pos).map fun x => .add x .predicted

def openAuxiliary (label : String) (pos : Nat) (side : Side) : Phase W := fun c =>
  openRoots ((c.selection.auxiliary label).filter fun t => t.side? == some side) pos

/-- Open what a demand asks for.  The root carries the weight of a rule, so an inner node has 1. -/
def openReason [One W] (label : String) (pos : Nat) (reason : Reason W) : Phase W := fun c =>
  match reason with
  | .inner t i => [.add (Item.opened t i pos One.one) .predicted]
  | .site => openRoots (c.selection.initial label) pos

/--
Demand a node with the label at `pos`.

Nothing happens if it is in demand there for the same reason.  The first demand
also opens the left auxiliary trees, which stand before the node.
-/
def demand [One W] (label : String) (pos : Nat) (reason : Reason W) : Phase W := fun c =>
  let known := c.reasonsAt pos label
  if known.any reason.same then []
  else
    .note ⟨pos, label, reason⟩ :: openReason label pos reason c ++
      (if known.isEmpty then openAuxiliary label pos .left c else [])

/-! ## Active items -/

def scan (input : List String) (x : Item W) (word : String) : Phase W := fun _ =>
  if x.tree.mayRead word x.right && input[x.right]? == some word then
    [.add (x.advanceTo (x.right + 1) x.weight) (.scan x.id)]
  else []

/-- Pass a foot, which covers what the host covers and nothing by itself. -/
def passFoot (x : Item W) : Phase W := fun _ =>
  [.add (x.advanceTo x.right x.weight) (.foot x.id)]

/--
Complete an inner node that covers nothing at the position of the item.

Such a node was finished at its one position and does not come up again.
-/
def completeEmpty [Mul W] (x : Item W) (i : Fin x.tree.rule.layers.length) : Phase W := fun c =>
  match c.find? ⟨x.tree.id, i, x.tree.rule.layers[i].length, x.right, x.right, false⟩ with
  | none => []
  | some child =>
      [.add (x.advanceTo child.right (x.weight * child.weight)) (.complete x.id child.id)]

def demandInner [One W] [Mul W] (x : Item W) (label : String) : List (Phase W) :=
  match h : x.tree.rule.indexOf? x.nextAddress with
  | none => []
  | some i =>
      let layer : Fin x.tree.rule.layers.length := ⟨i, Rule.lt_length_of_indexOf? h⟩
      [demand label x.right (.inner x.tree layer), completeEmpty x layer]

/-! ## Finished items -/

/-- Move the layers of the same tree that wait for the inner node. -/
def fillParents [Mul W] (x : Item W) : Phase W := fun c =>
  let parents := (c.itemsAt x.left).filter fun p =>
    p.tree.id == x.tree.id && p.isAbove x && some p.dot == x.current.address.last?
  parents.map fun p => .add (p.advanceTo x.right (p.weight * x.weight)) (.complete p.id x.id)

/-- Move the items of other trees that wait for an initial tree with this root. -/
def fillSites [Mul W] (x : Item W) : Phase W := fun c =>
  let parents := (c.itemsAt x.left).filter fun p =>
    p.tree.id != x.tree.id && p.next? == some ⟨.substitution, x.tree.root⟩
  parents.map fun p => .add (p.advanceTo x.right (p.weight * x.weight)) (.substitution p.id x.id)

def joined [Mul W] (host aux : Item W) : Side → Item W
  | .left =>
      { host with left := aux.left, leftAdjoined := true, weight := host.weight * aux.weight }
  | .right => { host with right := aux.right, weight := host.weight * aux.weight }

def join [Mul W] (host aux : Item W) (side : Side) : Action W :=
  .add (joined host aux side) (.adjunction host.id aux.id)

def isFinishedAuxiliary (label : String) (side : Side) (x : Item W) : Bool :=
  x.isPassive && x.isRootLayer && x.tree.side? == some side && x.tree.root == label

/-- Whether the item recognises a node with the label that auxiliary trees may be joined to. -/
def isHost (label : String) (x : Item W) : Bool :=
  x.isPassive && x.isAdjunctionSite && x.current.hasLabel label

/-- Open the right auxiliary trees for a host, and join the left ones that end where it starts. -/
def joinToHost [Mul W] (host : Item W) : List (Phase W) :=
  match host.current.lhs? with
  | none => []
  | some lhs =>
      [fun c => if host.leftAdjoined then [] else openAuxiliary lhs.label host.right .right c,
       fun c =>
        ((c.itemsAt host.left).filter (isFinishedAuxiliary lhs.label .left)).map fun aux =>
          join host aux .left]

/--
Join an auxiliary tree to the hosts that it borders.

A left one has moved the start of its host to its own right end, so what was in
demand at its left end is demanded there.
-/
def joinToHosts [One W] [Mul W] (c : Chart W) (aux : Item W) : List (Phase W) :=
  let label := aux.tree.root
  match aux.tree.side? with
  | none => []
  | some .right =>
      [fun c =>
        ((c.itemsAt aux.left).filter fun h => isHost label h && !h.leftAdjoined).map fun h =>
          join h aux .right]
  | some .left =>
      (c.reasonsAt aux.left label).map (demand label aux.right) ++
        [fun c =>
          ((c.itemsAt aux.right).filter fun h => isHost label h && h.left == aux.right).map
            fun h => join h aux .left]

def finish [One W] [Mul W] (c : Chart W) (x : Item W) : List (Phase W) :=
  let fill := if !x.isRootLayer then [fillParents x]
    else if x.tree.isInitial then [fillSites x]
    else []
  fill ++ (if x.isAdjunctionSite then joinToHost x else joinToHosts c x)

/-! ## All items -/

def phases [One W] [Mul W] (input : List String) (c : Chart W) (x : Item W) : List (Phase W) :=
  match x.next? with
  | none => finish c x
  | some e =>
      match e.role with
      | .terminal => [scan input x e.label]
      | .nonterminal => demandInner x e.label
      | .substitution => [demand e.label x.right .site]
      | .foot => [passFoot x]

def process [One W] [Mul W] (input : List String) (c : Chart W) (x : Item W) : Chart W :=
  (phases input c x).foldl run c

end Chart

end TreeInsertion
