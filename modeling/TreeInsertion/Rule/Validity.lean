import TreeInsertion.Rule.Basic

/-!
# Well-formed rules

A rule is well formed if its layers form one tree below the root and if its foot,
which only an auxiliary tree has, is the first or the last leaf but not both.
The checks stop at the first defect.
-/

namespace TreeInsertion

namespace Rule

variable {W : Type}

def feet (r : Rule W) : List (Layer × Nat × Entry) :=
  r.layers.flatMap fun l =>
    (l.entries.zipIdx.drop 1).filterMap fun (e, i) => if e.isFoot then some (l, i, e) else none

/--
Whether step `i` leads to the last entry of the layer.  Positions are words of 64
bits and start again at 0 after the greatest one, which is thus the last position
of a layer without entries.
-/
def isLastStep (l : Layer) (i : Nat) : Bool :=
  i + 1 == if l.length = 0 then UInt64.size else l.length

/--
Follow the path `below` from the layer at `above`, and report whether every step
takes the first child, and whether every step takes the last one.
-/
def descend (r : Rule W) (above : List Nat) : List Nat → Except SpineFault (Bool × Bool)
  | [] => .ok (true, true)
  | i :: below =>
      match r.layer? ⟨above⟩ with
      | none => .error .missingSpineLayer
      | some l => do
          let (first, last) ← r.descend (above ++ [i]) below
          return (i == 1 && first, isLastStep l i && last)

/-- The side of an auxiliary tree whose foot is entry `i` of the layer `l` at its spine. -/
def sideOfFoot (r : Rule W) (spine : Address) (l : Layer) (i : Nat) : Except SpineFault Side := do
  let (first, last) ← r.descend (spine.path.take 1) (spine.path.drop 1)
  match i == 1 && first, i + 1 == l.length && last with
  | true, false => return .right
  | false, true => return .left
  | true, true => throw .nothingBesidesFoot
  | false, false => throw .innerFoot

/-- The side of an auxiliary tree, and nothing for an initial one. -/
def spineSide (r : Rule W) : Except Defect (Option Side) :=
  match r.spine, r.feet with
  | none, [] => .ok none
  | none, _ => .error (.badSpine r.index .footInInitialTree)
  | some spine, [(l, i, foot)] =>
      if l.address ≠ spine then .error (.badSpine r.index .footOffSpine)
      else
        match r.rootSymbol with
        | .error d => .error d
        | .ok root =>
            if foot.label ≠ root then .error (.badSpine r.index .footLabelMismatch)
            else
              match r.sideOfFoot spine l i with
              | .error fault => .error (.badSpine r.index fault)
              | .ok side => .ok (some side)
  | some _, _ => .error (.badSpine r.index .notOneFoot)

/-- The side of a well-formed auxiliary tree.  Initial and defective trees have none. -/
def side? (r : Rule W) : Option Side :=
  match r.spineSide with
  | .ok side => side
  | .error _ => none

/-- The first address that is in `seen` or stands earlier in the list. -/
def firstRepeated (seen : List Address) : List Address → Option Address
  | [] => none
  | g :: rest => if g ∈ seen then some g else firstRepeated (g :: seen) rest

def siteOf? (r : Rule W) (g : Address) : Option Entry := do
  let parent ← g.parent?
  let l ← r.layer? parent
  let i ← g.last?
  if 1 ≤ i then l.entry? i else none

/-- A layer has a parent, and below the root it expands a nonterminal of the same label. -/
def checkLayer (r : Rule W) (l : Layer) : Except Defect Unit :=
  match l.lhs? with
  | none => .error (.missingLeftHandSide r.index l.address)
  | some lhs =>
      if l.address.isRoot then .ok ()
      else
        match r.siteOf? l.address with
        | some site =>
            if site.role = .nonterminal && site.label = lhs.label then .ok ()
            else .error (.orphanLayer r.index l.address)
        | none => .error (.orphanLayer r.index l.address)

def check (r : Rule W) : Except Defect Unit :=
  match r.layers with
  | [] => .error (.noLayers r.index)
  | root :: _ =>
      if !root.address.isRoot then .error (.rootNotFirst r.index root.address)
      else
        match firstRepeated [] (r.layers.map Layer.address) with
        | some g => .error (.duplicateLayer r.index g)
        | none =>
            match r.layers.forM r.checkLayer with
            | .error d => .error d
            | .ok () => r.spineSide.map fun _ => ()

def WellFormed (r : Rule W) : Prop :=
  r.check = .ok ()

instance (r : Rule W) : Decidable r.WellFormed :=
  match h : r.check with
  | .ok () => isTrue h
  | .error _ => isFalse fun hok => by rw [WellFormed, h] at hok; cases hok

end Rule

end TreeInsertion
